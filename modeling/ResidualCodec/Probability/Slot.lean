/-
  ResidualCodec.Probability.Slot

  Tables with one cell for each combination of block kind, band and context.
-/

import ResidualCodec.BlockKind
import ResidualCodec.Error

namespace ResidualCodec

/-! ## Slots -/

/-- Address of a cell. -/
structure Slot where
  kind : BlockKind
  band : Band
  ctx : Ctx
  deriving DecidableEq

namespace Slot

def index (s : Slot) : Nat := (s.kind.index * 6 + s.band.val) * 3 + s.ctx.val

theorem index_lt (s : Slot) : s.index < 288 := by
  have hk := s.kind.index_lt
  have hb := s.band.isLt
  have hc := s.ctx.isLt
  unfold index
  omega

/-- Slots of one index are equal: the index is a number in mixed radix. -/
theorem index_inj {s t : Slot} (h : s.index = t.index) : s = t := by
  obtain ⟨k, b, c⟩ := s
  obtain ⟨l, d, e⟩ := t
  have hb := b.isLt
  have hd := d.isLt
  have hc := c.isLt
  have he := e.isLt
  simp only [index] at h
  have hk : k.index = l.index := by omega
  have hbd : b = d := Fin.ext (by omega)
  have hce : c = e := Fin.ext (by omega)
  rw [BlockKind.index_inj hk, hbd, hce]

def all : List Slot :=
  BlockKind.all.flatMap fun k =>
    (List.finRange 6).flatMap fun b => (List.finRange 3).map fun c => ⟨k, b, c⟩

/-- The slot of a band and a context given as numbers. -/
def ofNumbers (k : BlockKind) (band ctx : Nat) : Except Fault Slot :=
  if h : band < 6 ∧ ctx < 3 then .ok ⟨k, ⟨band, h.1⟩, ⟨ctx, h.2⟩⟩ else .error .indexOutOfBounds

theorem length_all : all.length = 288 := by decide +kernel

end Slot

/-! ## Tables -/

/-- A value for every slot. -/
structure SlotTable (α : Type) where
  cells : Vector α 288
  deriving DecidableEq

namespace SlotTable

variable {α : Type}

def replicate (a : α) : SlotTable α := ⟨Vector.replicate 288 a⟩

/-- The table of a function. -/
def ofFn (f : Slot → α) : SlotTable α :=
  ⟨⟨(Slot.all.map f).toArray, by simp [Slot.length_all]⟩⟩

def get (t : SlotTable α) (s : Slot) : α := t.cells.get ⟨s.index, s.index_lt⟩

/-- The table with another value in one slot. -/
def set (t : SlotTable α) (s : Slot) (a : α) : SlotTable α :=
  ⟨t.cells.set s.index a s.index_lt⟩

/-- The table with the value of one slot changed. -/
def modify (t : SlotTable α) (s : Slot) (f : α → α) : SlotTable α := t.set s (f (t.get s))

def zipWith (f : α → α → α) (t u : SlotTable α) : SlotTable α :=
  ⟨t.cells.zipWith f u.cells⟩

def toList (t : SlotTable α) : List α := t.cells.toList

/-- Sum of a number that each value gives. -/
def sumOf (f : α → Nat) (t : SlotTable α) : Nat := t.toList.foldr (fun a n => f a + n) 0

/-- All slots with their values, in order. -/
def entries (t : SlotTable α) : List (Slot × α) := Slot.all.zip t.toList

/-! ### What each operation does to the value of a slot -/

theorem get_eq_getElem (t : SlotTable α) (s : Slot) (h : s.index < 288) :
    t.get s = t.cells[s.index] := rfl

theorem get_replicate (a : α) (s : Slot) : (replicate a).get s = a := by
  rw [get_eq_getElem _ s s.index_lt]
  exact Vector.getElem_replicate _

theorem get_set (t : SlotTable α) (s u : Slot) (a : α) :
    (t.set s a).get u = if s = u then a else t.get u := by
  have hs := s.index_lt
  have hu := u.index_lt
  rw [get_eq_getElem _ u hu, get_eq_getElem _ u hu]
  by_cases h : s = u
  · subst h
    rw [if_pos rfl]
    exact Vector.getElem_set_self hs
  · rw [if_neg h]
    exact Vector.getElem_set_ne hs hu fun hi => h (Slot.index_inj hi)

theorem get_modify (t : SlotTable α) (s u : Slot) (f : α → α) :
    (t.modify s f).get u = if s = u then f (t.get u) else t.get u := by
  unfold modify
  rw [get_set]
  by_cases h : s = u
  · rw [if_pos h, if_pos h, h]
  · rw [if_neg h, if_neg h]

theorem get_zipWith (f : α → α → α) (t u : SlotTable α) (s : Slot) :
    (t.zipWith f u).get s = f (t.get s) (u.get s) := by
  have hs := s.index_lt
  rw [get_eq_getElem _ s hs, get_eq_getElem _ s hs, get_eq_getElem _ s hs]
  exact Vector.getElem_zipWith hs

end SlotTable

end ResidualCodec
