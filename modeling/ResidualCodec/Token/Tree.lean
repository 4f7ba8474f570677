/-
  ResidualCodec.Token.Tree

  Symbol trees in an array. Entries come in pairs, one pair a node: the entry
  for a zero bit and the entry for a one bit. A negative entry is a leaf, the
  symbol with its sign changed; any other entry is the index of the node to go
  to. The node at index `i` takes its probability from place `i / 2`.
-/

import ResidualCodec.BoolCoder.Decision
import ResidualCodec.Error

namespace ResidualCodec

/-- A symbol tree. -/
abbrev SymbolTree := Array Int

namespace SymbolTree

/-! ## Writing -/

/-- Whether an entry is the leaf of a symbol or leads to it. A node whose pair reaches past the
end of the tree leads nowhere. A path without a cycle meets each node at most once, so as many
steps as the tree has entries always suffice. -/
def leadsTo (t : SymbolTree) (symbol : Int) : (fuel : Nat) → (entry : Int) → Bool
  | 0, _ => false
  | fuel + 1, entry =>
    if entry < 0 then -entry == symbol
    else
      let i := entry.toNat
      if i + 1 ≥ t.size then false
      else t.leadsTo symbol fuel (t.getD i 0) || t.leadsTo symbol fuel (t.getD (i + 1) 0)

/-- Decisions from a node to a symbol: at each node the zero side if the symbol lies there, and
otherwise the one side. -/
def pathFrom (t : SymbolTree) (probs : List UInt8) (symbol : Int) :
    (fuel : Nat) → (node : Nat) → Except Fault (List Decision)
  | 0, _ => .error .endlessTree
  | fuel + 1, node =>
    match probs[node / 2]?, t[node]? with
    | some p, some left =>
      let bit := !t.leadsTo symbol (t.size + 1) left
      match t[node + bit.toNat]? with
      | none => .error .indexOutOfBounds
      | some next =>
        if next < 0 then .ok [⟨bit, p⟩]
        else (t.pathFrom probs symbol fuel next.toNat).map (⟨bit, p⟩ :: ·)
    | _, _ => .error .indexOutOfBounds

def path (t : SymbolTree) (probs : List UInt8) (symbol : Int) : Except Fault (List Decision) :=
  t.pathFrom probs symbol (t.size + 1) 0

/-! ## Reading -/

variable {ρ : Type} [BoolReader ρ]

/-- Follow the decisions of a reader from a node to a leaf; `none` if they leave the tree. -/
def readFrom (t : SymbolTree) (probs : List UInt8) (r : ρ) :
    (fuel : Nat) → (node : Nat) → Option Nat × ρ
  | 0, _ => (none, r)
  | fuel + 1, node =>
    let (bit, r) := BoolReader.read r (probs.getD (node / 2) 0)
    match t[node + bit.toNat]? with
    | none => (none, r)
    | some next =>
      if next < 0 then (some (-next).toNat, r) else t.readFrom probs r fuel next.toNat

def read (t : SymbolTree) (probs : List UInt8) (r : ρ) : Option Nat × ρ :=
  t.readFrom probs r (t.size + 1) 0

end SymbolTree

/-- Tree of the tokens of magnitude two and more. -/
def magnitudeTree : SymbolTree :=
  #[2, 6,      -- up to four, or a category
    -2, 4,     -- two, or three or four
    -3, -4,    -- three, or four
    8, 10,     -- the first two categories, or the other four
    -5, -6,    -- the first category, or the second
    12, 14,    -- the third and fourth categories, or the last two
    -7, -8,    -- the third category, or the fourth
    -9, -10]   -- the fifth category, or the sixth

end ResidualCodec
