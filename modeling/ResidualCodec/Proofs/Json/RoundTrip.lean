/-
  ResidualCodec.Proofs.Json.RoundTrip

  A document that is written with one entry a line is read back as it is. The
  printer spells the lexemes of the document with blanks between them, and the
  reader makes the document of its lexemes again.
-/

import ResidualCodec.Proofs.Json.Lexemes

namespace ResidualCodec

namespace Json

/-! ## Documents and their lexemes -/

/-- The numbers of the document are natural numbers, and its strings and names have a text. -/
inductive Legible : Json → Prop where
  | null : Legible .null
  | bool (b : Bool) : Legible (.bool b)
  | nat (n : Nat) : Legible (.ofNat n)
  | text (s : String) : Legible (.text s)
  | array {xs : List Json} (items : ∀ x ∈ xs, Legible x) : Legible (.array xs)
  | object {ms : List (Option String × Json)} (names : ∀ m ∈ ms, m.1.isSome = true)
      (values : ∀ m ∈ ms, Legible m.2) : Legible (.object ms)

mutual

/-- The lexemes of a document. -/
def lexemes : Json → List Lexeme
  | .null => [.null]
  | .bool b => [.bool b]
  | .number s => [.number s]
  | .string s => [.string s]
  | .array xs => .openBracket :: (itemLexemes xs ++ [.closeBracket])
  | .object ms => .openBrace :: (memberLexemes ms ++ [.closeBrace])

/-- The lexemes of the entries of a list. -/
def itemLexemes : List Json → List Lexeme
  | [] => []
  | [x] => lexemes x
  | x :: y :: xs => lexemes x ++ .comma :: itemLexemes (y :: xs)

/-- The lexemes of the members of an object. -/
def memberLexemes : List (Option String × Json) → List Lexeme
  | [] => []
  | [(s, x)] => .string s :: .colon :: lexemes x
  | (s, x) :: m :: ms => .string s :: .colon :: (lexemes x ++ .comma :: memberLexemes (m :: ms))

end

/-! ## From the document to its lexemes -/

/-- What the printer writes of the document, at any level and before any text that ends a number,
consists of the lexemes of the document. -/
def Spells (j : Json) : Prop :=
  ∀ (level : Nat) {rest : List Char} {ls : List Lexeme}, EndsNumber rest → Lexed rest ls →
    Lexed ((pretty level j).toList ++ rest) (j.lexemes ++ ls)

theorem lexed_prettyItems {xs : List Json} (hxs : ∀ x ∈ xs, x.Spells) (level : Nat)
    {rest : List Char} {ls : List Lexeme} (hrest : EndsNumber rest) (h : Lexed rest ls) :
    Lexed ((prettyItems level xs).toList ++ rest) (itemLexemes xs ++ ls) := by
  induction xs with
  | nil => exact h
  | cons x xs ih =>
    have hx : x.Spells := hxs x List.mem_cons_self
    cases xs with
    | nil => exact hx level hrest h
    | cons y ys =>
      have hmore := ih fun z hz => hxs z (List.mem_cons_of_mem x hz)
      have hcomma : Lexed (',' :: _) (.comma :: _) := (hmore.newline level).mark rfl fun _ => rfl
      have hfirst := hx level (endsNumber_cons rfl) hcomma
      simp only [prettyItems, itemLexemes, String.toList_append, List.append_assoc,
        List.cons_append]
      exact hfirst

theorem lexed_prettyMembers {ms : List (Option String × Json)}
    (hnames : ∀ m ∈ ms, m.1.isSome = true) (hvalues : ∀ m ∈ ms, m.2.Spells) (level : Nat)
    {rest : List Char} {ls : List Lexeme} (hrest : EndsNumber rest) (h : Lexed rest ls) :
    Lexed ((prettyMembers level ms).toList ++ rest) (memberLexemes ms ++ ls) := by
  induction ms with
  | nil => exact h
  | cons m ms ih =>
    obtain ⟨name, x⟩ := m
    have hx : x.Spells := hvalues (name, x) List.mem_cons_self
    obtain ⟨s, rfl⟩ := Option.isSome_iff_exists.mp (hnames _ List.mem_cons_self)
    -- The name, a colon and a blank stand before the value.
    have hnamed : ∀ {cs ls}, Lexed cs ls →
        Lexed ((quote s).toList ++ ':' :: ' ' :: cs) (.string (some s) :: .colon :: ls) :=
      fun h => .text s ((h.blank rfl).mark rfl fun _ => rfl)
    cases ms with
    | nil =>
      have hlast := hnamed (hx level hrest h)
      simp only [prettyMembers, memberLexemes, String.toList_append, List.append_assoc,
        List.cons_append]
      exact hlast
    | cons n ns =>
      have hmore := ih (fun z hz => hnames z (List.mem_cons_of_mem _ hz)) fun z hz =>
        hvalues z (List.mem_cons_of_mem _ hz)
      have hcomma : Lexed (',' :: _) (.comma :: _) := (hmore.newline level).mark rfl fun _ => rfl
      have hfirst := hnamed (hx level (endsNumber_cons rfl) hcomma)
      simp only [prettyMembers, memberLexemes, String.toList_append, List.append_assoc,
        List.cons_append]
      exact hfirst

theorem Legible.spells {j : Json} (h : j.Legible) : j.Spells := by
  induction h with
  | null =>
    intro level rest ls _ h
    have hword : Lexed ('n' :: (['u', 'l', 'l'] ++ rest)) (.null :: ls) := .cons rfl rfl h
    rw [pretty, lexemes]
    exact hword
  | bool b =>
    intro level rest ls _ h
    cases b with
    | true =>
      have hword : Lexed ('t' :: (['r', 'u', 'e'] ++ rest)) (.bool true :: ls) := .cons rfl rfl h
      rw [pretty, lexemes]
      exact hword
    | false =>
      have hword : Lexed ('f' :: (['a', 'l', 's', 'e'] ++ rest)) (.bool false :: ls) :=
        .cons rfl rfl h
      rw [pretty, lexemes]
      exact hword
  | nat n =>
    intro level rest ls hrest h
    exact .number n hrest h
  | text s =>
    intro level rest ls _ h
    exact .text s h
  | @array xs _ ih =>
    intro level rest ls hrest h
    have hclose : Lexed (']' :: rest) (.closeBracket :: ls) := h.mark rfl fun _ => rfl
    cases xs with
    | nil =>
      have hopen : Lexed ('[' :: ']' :: rest) (.openBracket :: .closeBracket :: ls) :=
        hclose.mark rfl fun _ => rfl
      rw [pretty, lexemes]
      exact hopen
    | cons x xs =>
      have hitems := lexed_prettyItems ih (level + 1) (endsNumber_newline level _)
        (hclose.newline level)
      have hopen : Lexed ('[' :: _) (.openBracket :: _) :=
        (hitems.newline (level + 1)).mark rfl fun _ => rfl
      simp only [pretty, lexemes, String.toList_append, List.append_assoc, List.cons_append]
      exact hopen
  | @object ms names _ ih =>
    intro level rest ls hrest h
    have hclose : Lexed ('\x7d' :: rest) (.closeBrace :: ls) := h.mark rfl fun _ => rfl
    cases ms with
    | nil =>
      have hopen : Lexed ('\x7b' :: '\x7d' :: rest) (.openBrace :: .closeBrace :: ls) :=
        hclose.mark rfl fun _ => rfl
      rw [pretty, lexemes]
      exact hopen
    | cons m ms =>
      have hmembers := lexed_prettyMembers names ih (level + 1) (endsNumber_newline level _)
        (hclose.newline level)
      have hopen : Lexed ('\x7b' :: _) (.openBrace :: _) :=
        (hmembers.newline (level + 1)).mark rfl fun _ => rfl
      simp only [pretty, lexemes, String.toList_append, List.append_assoc, List.cons_append]
      exact hopen

/-! ## From the lexemes to the document -/

/-- The reader makes the document of its lexemes, whatever lexemes follow. -/
def Reads (j : Json) : Prop :=
  ∀ {fuel : Nat} (rest : List Lexeme), 2 * j.lexemes.length ≤ fuel →
    value? fuel (j.lexemes ++ rest) = some (j, rest)

/-- No document starts with the end of a list. -/
theorem exists_lexemes_eq_cons (j : Json) : ∃ l ls, j.lexemes = l :: ls ∧ l ≠ .closeBracket := by
  cases j
  all_goals
    rw [lexemes]
    exact ⟨_, _, rfl, Lexeme.noConfusion⟩

theorem exists_itemLexemes_eq_cons (x : Json) (xs : List Json) :
    ∃ l ls, itemLexemes (x :: xs) = l :: ls ∧ l ≠ .closeBracket := by
  obtain ⟨l, ls, hlexemes, hne⟩ := exists_lexemes_eq_cons x
  cases xs with
  | nil =>
    rw [itemLexemes]
    exact ⟨l, ls, hlexemes, hne⟩
  | cons y ys =>
    rw [itemLexemes, hlexemes]
    exact ⟨l, _, rfl, hne⟩

theorem value?_openBracket (fuel : Nat) {l : Lexeme} (hne : l ≠ .closeBracket) (ls : List Lexeme) :
    value? (fuel + 1) (.openBracket :: l :: ls) =
      (itemsUntil? fuel (l :: ls)).map fun (xs, rest) => (.array xs, rest) := by
  cases l
  case closeBracket => exact absurd rfl hne
  all_goals rfl

theorem itemsUntil?_itemLexemes {x : Json} {xs : List Json} (hxs : ∀ y ∈ x :: xs, y.Reads)
    {fuel : Nat} (rest : List Lexeme) (hfuel : 2 * (itemLexemes (x :: xs)).length < fuel) :
    itemsUntil? fuel (itemLexemes (x :: xs) ++ .closeBracket :: rest) = some (x :: xs, rest) := by
  induction xs generalizing x fuel with
  | nil =>
    obtain ⟨fuel, rfl⟩ : ∃ k, fuel = k + 1 := ⟨fuel - 1, by omega⟩
    have hx : x.Reads := hxs x List.mem_cons_self
    rw [itemLexemes] at hfuel ⊢
    rw [itemsUntil?, hx _ (Nat.le_of_lt_succ hfuel)]
  | cons y ys ih =>
    obtain ⟨fuel, rfl⟩ : ∃ k, fuel = k + 1 := ⟨fuel - 1, by omega⟩
    have hx : x.Reads := hxs x List.mem_cons_self
    rw [itemLexemes, List.length_append, List.length_cons] at hfuel
    have hmore := ih (fun z hz => hxs z (List.mem_cons_of_mem x hz)) (show _ < fuel by omega)
    rw [itemLexemes, itemsUntil?, List.append_assoc, List.cons_append, hx _ (by omega)]
    dsimp only
    rw [hmore]
    rfl

theorem exists_memberLexemes_eq_cons (m : Option String × Json)
    (ms : List (Option String × Json)) :
    ∃ ls, memberLexemes (m :: ms) = .string m.1 :: ls := by
  cases ms
  all_goals
    rw [memberLexemes]
    exact ⟨_, rfl⟩

theorem value?_openBrace (fuel : Nat) (name : Option String) (ls : List Lexeme) :
    value? (fuel + 1) (.openBrace :: .string name :: ls) =
      (membersUntil? fuel (.string name :: ls)).map fun (ms, rest) => (.object ms, rest) := rfl

theorem membersUntil?_memberLexemes {m : Option String × Json}
    {ms : List (Option String × Json)} (hms : ∀ n ∈ m :: ms, n.2.Reads) {fuel : Nat}
    (rest : List Lexeme) (hfuel : 2 * (memberLexemes (m :: ms)).length < fuel) :
    membersUntil? fuel (memberLexemes (m :: ms) ++ .closeBrace :: rest) = some (m :: ms, rest) := by
  induction ms generalizing m fuel with
  | nil =>
    obtain ⟨fuel, rfl⟩ : ∃ k, fuel = k + 1 := ⟨fuel - 1, by omega⟩
    obtain ⟨name, x⟩ := m
    have hx : x.Reads := hms (name, x) List.mem_cons_self
    rw [memberLexemes, List.length_cons, List.length_cons] at hfuel
    rw [memberLexemes, List.cons_append, List.cons_append, membersUntil?, hx _ (by omega)]
  | cons n ns ih =>
    obtain ⟨fuel, rfl⟩ : ∃ k, fuel = k + 1 := ⟨fuel - 1, by omega⟩
    obtain ⟨name, x⟩ := m
    have hx : x.Reads := hms (name, x) List.mem_cons_self
    rw [memberLexemes, List.length_cons, List.length_cons, List.length_append,
      List.length_cons] at hfuel
    have hmore := ih (fun z hz => hms z (List.mem_cons_of_mem _ hz)) (show _ < fuel by omega)
    rw [memberLexemes, List.cons_append, List.cons_append, membersUntil?, List.append_assoc,
      List.cons_append, hx _ (by omega)]
    dsimp only
    rw [hmore]
    rfl

theorem reads_of_lexeme {j : Json} {l : Lexeme} (hl : j.lexemes = [l])
    (hvalue : ∀ fuel rest, value? (fuel + 1) (l :: rest) = some (j, rest)) : j.Reads := by
  intro fuel rest hfuel
  rw [hl, List.length_singleton] at hfuel
  obtain ⟨fuel, rfl⟩ : ∃ k, fuel = k + 1 := ⟨fuel - 1, by omega⟩
  rw [hl]
  exact hvalue fuel rest

theorem Legible.reads {j : Json} (h : j.Legible) : j.Reads := by
  induction h with
  | null => exact reads_of_lexeme rfl fun _ _ => rfl
  | bool b => exact reads_of_lexeme rfl fun _ _ => rfl
  | nat n => exact reads_of_lexeme rfl fun _ _ => rfl
  | text s => exact reads_of_lexeme rfl fun _ _ => rfl
  | @array xs _ ih =>
    intro fuel rest hfuel
    rw [lexemes, List.length_cons, List.length_append, List.length_singleton] at hfuel
    obtain ⟨fuel, rfl⟩ : ∃ k, fuel = k + 1 := ⟨fuel - 1, by omega⟩
    rw [lexemes, List.cons_append, List.append_assoc, List.singleton_append]
    cases xs with
    | nil => rfl
    | cons x xs =>
      obtain ⟨l, ls, hitems, hne⟩ := exists_itemLexemes_eq_cons x xs
      have hread := itemsUntil?_itemLexemes ih rest (show _ < fuel by omega)
      rw [hitems, List.cons_append] at hread ⊢
      rw [value?_openBracket fuel hne, hread]
      rfl
  | @object ms _ _ ih =>
    intro fuel rest hfuel
    rw [lexemes, List.length_cons, List.length_append, List.length_singleton] at hfuel
    obtain ⟨fuel, rfl⟩ : ∃ k, fuel = k + 1 := ⟨fuel - 1, by omega⟩
    rw [lexemes, List.cons_append, List.append_assoc, List.singleton_append]
    cases ms with
    | nil => rfl
    | cons m ms =>
      obtain ⟨ls, hmembers⟩ := exists_memberLexemes_eq_cons m ms
      have hread := membersUntil?_memberLexemes ih rest (show _ < fuel by omega)
      rw [hmembers, List.cons_append] at hread ⊢
      rw [value?_openBrace, hread]
      rfl

/-! ## The whole text -/

/-- A legible document is read back from what is written of it, at any level of indentation. -/
theorem parse?_pretty {j : Json} (h : j.Legible) (level : Nat) :
    parse? (pretty level j) = some j := by
  have hlexed : Lexed ((pretty level j).toList ++ []) (j.lexemes ++ []) :=
    h.spells level (fun _ hc => nomatch hc) .nil
  have hread : value? (2 * j.lexemes.length + 2) (j.lexemes ++ []) = some (j, []) :=
    h.reads [] (Nat.le_add_right _ 2)
  rw [List.append_nil, List.append_nil] at hlexed
  rw [List.append_nil] at hread
  simp only [parse?]
  rw [hlexed _ (Nat.le_refl _), Option.bind_eq_bind, Option.bind_some, hread,
    Option.bind_eq_bind, Option.bind_some]

end Json

end ResidualCodec
