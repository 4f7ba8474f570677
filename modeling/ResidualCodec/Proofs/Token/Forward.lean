/-
  ResidualCodec.Proofs.Token.Forward

  Symbol trees whose entries lead forward. Such an array unfolds to a finite
  tree from each of its nodes, also where sides share a subtree or a symbol
  occurs more than once. So the search for a symbol ends, the decisions that are
  written for a symbol end, and whoever follows them arrives at its leaf.
-/

import ResidualCodec.Proofs.Token.Canonical

namespace ResidualCodec

namespace SymbolTree

/-! ## Trees that lead forward -/

/-- A tree of whole pairs, in which every entry is the leaf of a symbol from 1 to 127 or leads to
a later pair. -/
structure Forward (t : SymbolTree) : Prop where
  even_size : t.size % 2 = 0
  entries : ∀ i (h : i < t.size),
    -127 ≤ t[i] ∧ t[i] < 0 ∨ t[i] % 2 = 0 ∧ (i : Int) < t[i] ∧ t[i] < t.size

example : magnitudeTree.Forward := ⟨by decide, by decide⟩

/-- The entry is a leaf, or unfolds to a tree of at most `n` levels of nodes. -/
inductive Unfolds (t : SymbolTree) : (n : Nat) → (entry : Int) → Prop where
  | leaf {n : Nat} {entry : Int} (neg : entry < 0) : Unfolds t n entry
  | node {n i : Nat} {left right : Int} (left_eq : t[i]? = some left)
      (right_eq : t[i + 1]? = some right) (left : Unfolds t n left)
      (right : Unfolds t n right) : Unfolds t (n + 1) i

section

variable {t : SymbolTree}

/-- A node unfolds to as many levels at most as there are pairs from it on. -/
theorem Forward.unfolds (ht : t.Forward) {n i : Nat} (heven : i % 2 = 0) (hlt : i < t.size)
    (hn : t.size ≤ i + 2 * n) : t.Unfolds n i := by
  have hsize := ht.even_size
  induction n generalizing i with
  | zero => omega
  | succ n ih =>
    have hside : ∀ j (hj : j < t.size), i ≤ j → t.Unfolds n t[j] := by
      intro j hj hij
      rcases ht.entries j hj with hleaf | ⟨hpair, hlater, hinside⟩
      · exact .leaf hleaf.2
      · rw [← Int.toNat_of_nonneg (show 0 ≤ t[j] by omega)]
        exact ih (by omega) (by omega) (by omega)
    exact .node (Array.getElem?_eq_getElem hlt)
      (Array.getElem?_eq_getElem (show i + 1 < t.size by omega))
      (hside i hlt (Nat.le_refl i)) (hside (i + 1) (by omega) (Nat.le_succ i))

theorem Forward.unfolds_of_mem (ht : t.Forward) {entry : Int} (hmem : entry ∈ t) :
    t.Unfolds (t.size / 2) entry := by
  have hsize := ht.even_size
  obtain ⟨i, hi, rfl⟩ := Array.mem_iff_getElem.mp hmem
  rcases ht.entries i hi with hleaf | ⟨hpair, hlater, hinside⟩
  · exact .leaf hleaf.2
  · rw [← Int.toNat_of_nonneg (show 0 ≤ t[i] by omega)]
    exact ht.unfolds (by omega) (by omega) (by omega)

end

/-! ## The search -/

/-- What the search for a symbol answers from an entry on, with no limit on its steps. -/
inductive Searched (t : SymbolTree) (symbol : Int) : (entry : Int) → (found : Bool) → Prop where
  | leaf {entry : Int} (neg : entry < 0) : Searched t symbol entry (-entry == symbol)
  -- The pair reaches past the end of the tree.
  | cut {i : Nat} (cut : t.size ≤ i + 1) : Searched t symbol i false
  -- The right side is left alone if the left one leads to the symbol.
  | left {i : Nat} {left : Int} (inside : i + 1 < t.size) (left_eq : t[i]? = some left)
      (left : Searched t symbol left true) : Searched t symbol i true
  | right {i : Nat} {left right : Int} {found : Bool} (left_eq : t[i]? = some left)
      (right_eq : t[i + 1]? = some right) (left : Searched t symbol left false)
      (right : Searched t symbol right found) : Searched t symbol i found

section

variable {t : SymbolTree} {symbol : Int}

/-- More steps than an entry has levels are never used up, so the limit has no part in the
answer. -/
theorem Unfolds.searched {n steps : Nat} {entry : Int} (h : t.Unfolds n entry)
    (hsteps : n < steps) : t.Searched symbol entry (t.leadsTo symbol steps entry) := by
  induction h generalizing steps with
  | leaf neg =>
    obtain ⟨steps, rfl⟩ : ∃ k, steps = k + 1 := ⟨steps - 1, by omega⟩
    rw [leadsTo_leaf neg]
    exact .leaf neg
  | @node n i left right left_eq right_eq _ _ ihleft ihright =>
    obtain ⟨steps, rfl⟩ : ∃ k, steps = k + 1 := ⟨steps - 1, by omega⟩
    have hleft := ihleft (Nat.lt_of_succ_lt_succ hsteps)
    have hright := ihright (Nat.lt_of_succ_lt_succ hsteps)
    rw [leadsTo_sides left_eq right_eq]
    cases hfound : t.leadsTo symbol steps left with
    | true =>
      rw [hfound] at hleft
      exact .left (Array.getElem?_eq_some_iff.mp right_eq).1 left_eq hleft
    | false =>
      rw [hfound] at hleft
      exact .right left_eq right_eq hleft hright

end

/-! ## Following bits -/

/-- Follow bits from an entry, a zero to the left and a one to the right: the nodes that are left
on the way, and the entry arrived at. There is no way on from a leaf. -/
def follow (t : SymbolTree) : (entry : Int) → (bits : List Bool) → Option (List Nat × Int)
  | entry, [] => some ([], entry)
  | entry, bit :: bits =>
    if entry < 0 then none
    else
      match t[entry.toNat + bit.toNat]? with
      | none => none
      | some next =>
        (t.follow next bits).map fun (nodes, last) => (entry.toNat :: nodes, last)

section

variable {t : SymbolTree}

theorem follow_node {i : Nat} {bit : Bool} {next : Int} (hnext : t[i + bit.toNat]? = some next)
    (bits : List Bool) :
    t.follow i (bit :: bits) =
      (t.follow next bits).map fun (nodes, last) => (i :: nodes, last) := by
  conv_lhs => unfold follow
  rw [if_neg (by omega), Int.toNat_natCast, hnext]

theorem follow_leaf {entry last : Int} {bits : List Bool} {nodes : List Nat} (hneg : entry < 0)
    (h : t.follow entry bits = some (nodes, last)) : entry = last := by
  cases bits with
  | nil =>
    cases h
    rfl
  | cons bit bits =>
    unfold follow at h
    rw [if_pos hneg] at h
    cases h

/-- A leaf that can be reached is found. -/
theorem Unfolds.leadsTo_of_follow {symbol n steps : Nat} {entry : Int} (h : t.Unfolds n entry)
    (hsteps : n < steps) (hpos : 0 < symbol) {bits : List Bool} {nodes : List Nat}
    (hfollow : t.follow entry bits = some (nodes, -(symbol : Int))) :
    t.leadsTo symbol steps entry = true := by
  induction h generalizing steps bits nodes with
  | leaf neg =>
    obtain ⟨steps, rfl⟩ : ∃ k, steps = k + 1 := ⟨steps - 1, by omega⟩
    rw [leadsTo_leaf neg, follow_leaf neg hfollow, Int.neg_neg]
    exact beq_self_eq_true _
  | @node n i left right left_eq right_eq _ _ ihleft ihright =>
    obtain ⟨steps, rfl⟩ : ∃ k, steps = k + 1 := ⟨steps - 1, by omega⟩
    rw [leadsTo_sides left_eq right_eq, Bool.or_eq_true]
    cases bits with
    | nil =>
      -- A node is not a leaf.
      have hlast := (Prod.ext_iff.mp (Option.some.inj hfollow)).2
      dsimp only at hlast
      omega
    | cons bit bits =>
      cases bit with
      | false =>
        rw [follow_node left_eq, Option.map_eq_some_iff] at hfollow
        obtain ⟨⟨rest, last⟩, hrest, heq⟩ := hfollow
        cases heq
        exact .inl (ihleft (Nat.lt_of_succ_lt_succ hsteps) hrest)
      | true =>
        rw [follow_node right_eq, Option.map_eq_some_iff] at hfollow
        obtain ⟨⟨rest, last⟩, hrest, heq⟩ := hfollow
        cases heq
        exact .inr (ihright (Nat.lt_of_succ_lt_succ hsteps) hrest)

/-! ## Writing -/

/-- The decisions lead from an entry to the leaf of a symbol, each with the probability of the node
that it leaves. -/
structure Arrives (t : SymbolTree) (probs : List UInt8) (symbol : Nat) (entry : Int)
    (ds : List Decision) (nodes : List Nat) : Prop where
  follow_eq : t.follow entry (ds.map Decision.bit) = some (nodes, -(symbol : Int))
  probs_eq : ds.map (fun d => some d.prob) = nodes.map fun node => probs[node / 2]?

theorem Arrives.cons {probs : List UInt8} {symbol : Nat} {i : Nat} {bit : Bool} {p : UInt8}
    {next : Int} {ds : List Decision} {nodes : List Nat}
    (h : t.Arrives probs symbol next ds nodes) (hp : probs[i / 2]? = some p)
    (hnext : t[i + bit.toNat]? = some next) :
    t.Arrives probs symbol i (⟨bit, p⟩ :: ds) (i :: nodes) := by
  refine ⟨?_, ?_⟩
  · rw [List.map_cons, follow_node hnext, h.follow_eq]
    rfl
  · rw [List.map_cons, List.map_cons, hp, h.probs_eq]

/-- What is written from an entry on: nothing from a leaf. -/
def pathOn (t : SymbolTree) (probs : List UInt8) (symbol : Int) (fuel : Nat) (entry : Int) :
    Except Fault (List Decision) :=
  if entry < 0 then .ok [] else t.pathFrom probs symbol fuel entry.toNat

/-- From an entry that leads to a symbol, what is written arrives at the symbol, after no more
decisions than there are levels. -/
theorem Unfolds.exists_pathOn {probs : List UInt8} {symbol n fuel : Nat} {entry : Int}
    (h : t.Unfolds n entry) (hprobs : t.size / 2 ≤ probs.length) (hfuel : n ≤ fuel)
    (hlead : t.leadsTo symbol (t.size + 1) entry = true) :
    ∃ ds nodes, t.pathOn probs symbol fuel entry = .ok ds ∧ ds.length ≤ n ∧
      t.Arrives probs symbol entry ds nodes := by
  induction h generalizing fuel with
  | @leaf n entry neg =>
    rw [leadsTo_leaf neg, beq_iff_eq] at hlead
    refine ⟨[], [], ?_, Nat.zero_le n, ?_, rfl⟩
    · rw [pathOn, if_pos neg]
    · rw [← hlead, Int.neg_neg]
      rfl
  | @node n i left right left_eq right_eq _ _ ihleft ihright =>
    obtain ⟨fuel, rfl⟩ : ∃ k, fuel = k + 1 := ⟨fuel - 1, by omega⟩
    have hinside : i + 1 < t.size := (Array.getElem?_eq_some_iff.mp right_eq).1
    obtain ⟨p, hp⟩ : ∃ p, probs[i / 2]? = some p :=
      ⟨_, List.getElem?_eq_getElem (show i / 2 < probs.length by omega)⟩
    generalize hbit : (!t.leadsTo symbol (t.size + 1) left) = bit
    -- The decision selects a side, and whatever side it is leads to the symbol as well.
    obtain ⟨next, hnext, hrest⟩ : ∃ next, t[i + bit.toNat]? = some next ∧
        (t.leadsTo symbol (t.size + 1) next = true →
          ∃ ds nodes, t.pathOn probs symbol fuel next = .ok ds ∧ ds.length ≤ n ∧
            t.Arrives probs symbol next ds nodes) := by
      cases bit with
      | false => exact ⟨left, left_eq, ihleft (Nat.le_of_succ_le_succ hfuel)⟩
      | true => exact ⟨right, right_eq, ihright (Nat.le_of_succ_le_succ hfuel)⟩
    obtain ⟨k, hk, hfound⟩ := leadsTo_next (Nat.le_refl t.size) hlead left_eq (hbit ▸ hnext)
    obtain ⟨ds, nodes, hpath, hlength, harrives⟩ := hrest (leadsTo_mono hk hfound)
    refine ⟨⟨bit, p⟩ :: ds, i :: nodes, ?_, Nat.succ_le_succ hlength, harrives.cons hp hnext⟩
    rw [pathOn, if_neg (by omega), Int.toNat_natCast, pathFrom_succ hp left_eq hbit hnext]
    rw [pathOn] at hpath
    rw [hpath]
    rfl

/-- In a tree that leads forward, every symbol that can be reached from the first node is written:
the search for it ends at every entry, the decisions are at most as many as the tree has pairs,
each takes the probability of the node that it leaves, and whoever follows them visits these nodes
and arrives at a leaf of the symbol. -/
theorem path_arrives (ht : t.Forward) {probs : List UInt8} (hprobs : t.size / 2 ≤ probs.length)
    {symbol : Nat} (hpos : 0 < symbol)
    (hleaf : ∃ bits nodes, t.follow 0 bits = some (nodes, -(symbol : Int))) :
    (∀ entry ∈ t, t.Searched symbol entry (t.leadsTo symbol (t.size + 1) entry)) ∧
      ∃ ds nodes, t.path probs symbol = .ok ds ∧ ds.length ≤ t.size / 2 ∧
        ds.map (fun d => some d.prob) = nodes.map (fun node => probs[node / 2]?) ∧
        t.follow 0 (ds.map Decision.bit) = some (nodes, -(symbol : Int)) := by
  have hsize := ht.even_size
  obtain ⟨bits, visited, hfollow⟩ := hleaf
  refine ⟨fun entry hmem => (ht.unfolds_of_mem hmem).searched (by omega), ?_⟩
  have hroot : 0 < t.size := by
    by_contra hempty
    cases bits with
    | nil =>
      have hlast := (Prod.ext_iff.mp (Option.some.inj hfollow)).2
      dsimp only at hlast
      omega
    | cons bit bits =>
      unfold follow at hfollow
      rw [if_neg (by decide), Array.getElem?_eq_none (by omega)] at hfollow
      cases hfollow
  have hunfolds : t.Unfolds (t.size / 2) (0 : Nat) := ht.unfolds rfl hroot (by omega)
  have hlead : t.leadsTo symbol (t.size + 1) (0 : Nat) = true :=
    hunfolds.leadsTo_of_follow (by omega) hpos hfollow
  obtain ⟨ds, nodes, hpath, hlength, harrives⟩ :=
    hunfolds.exists_pathOn hprobs (show t.size / 2 ≤ t.size + 1 by omega) hlead
  exact ⟨ds, nodes, hpath, hlength, harrives.probs_eq, harrives.follow_eq⟩

/-- A tree whose sides share a subtree, with the symbol in two leaves: the first of them is
written, after as many decisions as there are pairs. -/
theorem path_arrives_shared :
    let t : SymbolTree := #[2, 4, 4, -7, -5, -7]
    let probs : List UInt8 := [10, 20, 30]
    t.Forward ∧ t.size / 2 ≤ probs.length ∧ 0 < 7 ∧
      t.follow 0 [true, true] = some ([0, 4], -7) ∧
      (∀ entry ∈ t, t.Searched 7 entry (t.leadsTo 7 (t.size + 1) entry)) ∧
      ∃ ds nodes, t.path probs 7 = .ok ds ∧ ds.length ≤ t.size / 2 ∧
        ds.map (fun d => some d.prob) = nodes.map (fun node => probs[node / 2]?) ∧
        t.follow 0 (ds.map Decision.bit) = some (nodes, -7) :=
  ⟨⟨by decide, by decide⟩, by decide, by decide, rfl,
    path_arrives ⟨by decide, by decide⟩ (by decide) (by decide) ⟨[true, true], [0, 4], rfl⟩⟩

end

end SymbolTree

end ResidualCodec
