/-
  ResidualCodec.Proofs.Json.Lexemes

  The written forms of numbers and texts are read back as one lexeme each. A
  decimal number ends where no digit, point or exponent follows; a text ends at
  its closing quote, whatever characters it holds.
-/

import Mathlib.Data.List.TakeDrop
import ResidualCodec.Json.Printer
import ResidualCodec.Json.Reader

namespace ResidualCodec.Json

/-! ## Numbers -/

/-- Decimal digits of a positive number do not start with a zero. -/
theorem exists_toDigits_eq_cons {n : Nat} (hn : 0 < n) :
    ∃ d ds, Nat.toDigits 10 n = d :: ds ∧ d ≠ '0' := by
  induction n using Nat.base_induction 10 (by decide) with
  | single m hm =>
    refine ⟨m.digitChar, [], Nat.toDigits_of_lt_base hm, ?_⟩
    rw [Ne, Nat.digitChar_eq_zero]
    omega
  | digit m k hk hm ih =>
    obtain ⟨d, ds, hdigits, hne⟩ := ih hm
    refine ⟨d, ds ++ Nat.toDigits 10 k, ?_, hne⟩
    rw [← Nat.toDigits_append_toDigits (by decide) hm hk, hdigits, List.cons_append]

theorem isDigit_of_mem_digits {n : Nat} {c : Char} (hc : c ∈ Nat.toDigits 10 n) :
    c.isDigit = true :=
  Nat.isDigit_of_mem_toDigits (by decide) (by decide) hc

/-- A decimal number starts with a digit. -/
theorem exists_digits_eq_cons (n : Nat) :
    ∃ d ds, Nat.toDigits 10 n = d :: ds ∧ d.isDigit = true := by
  obtain ⟨d, ds, hdigits⟩ := List.exists_cons_of_ne_nil (Nat.toDigits_ne_nil (n := n) (b := 10))
  exact ⟨d, ds, hdigits, isDigit_of_mem_digits (by rw [hdigits]; exact List.mem_cons_self)⟩

/-- No other lexeme starts with a digit. -/
theorem lexeme?_of_isDigit {d : Char} (hd : d.isDigit = true) (cs : List Char) :
    lexeme? (d :: cs) =
      (number? (d :: cs)).map fun (n, rest) => (.number (String.ofList n), rest) := by
  unfold lexeme?
  split
  case h_1 heq => cases heq
  case h_12 => rfl
  all_goals
    rename_i heq
    rw [(List.cons.inj heq).1] at hd
    cases hd

/-- A number that starts with a digit has no sign. -/
theorem number?_of_isDigit {d : Char} (hd : d.isDigit = true) (cs : List Char) :
    number? (d :: cs) = (whole? (d :: cs)).bind fun (w, cs) => (fraction? cs).bind fun (f, cs) =>
      (exponent? cs).bind fun (e, cs) => some (w ++ f ++ e, cs) := by
  unfold number?
  split
  case h_1 heq =>
    split at heq
    case h_1 h =>
      rw [(List.cons.inj h).1] at hd
      cases hd
    case h_2 =>
      cases heq
      rfl

/-- Digits are read back as the number that they are the digits of. -/
theorem naturalOfDigits?_toDigits (n : Nat) : naturalOfDigits? (Nat.toDigits 10 n) = some n := by
  have hall : (Nat.toDigits 10 n).all Char.isDigit = true :=
    List.all_eq_true.mpr fun _ hc => isDigit_of_mem_digits hc
  rw [naturalOfDigits?, if_pos ⟨Nat.toDigits_ne_nil, hall⟩]
  exact congrArg some (Nat.ofDigitChars_toDigits (by decide) (by decide))

theorem nat?_ofNat (n : Nat) : (ofNat n).nat? = some n := by
  simp only [ofNat, nat?]
  rw [Nat.toString_eq_repr, Nat.toList_repr, naturalOfDigits?_toDigits]

/-- A character that may go on with a number. -/
def continuesNumber (c : Char) : Bool := c.isDigit || c == '.' || c == 'e' || c == 'E'

/-- No number goes on with the text. -/
def EndsNumber (rest : List Char) : Prop := ∀ c ∈ rest.head?, continuesNumber c = false

theorem endsNumber_cons {c : Char} {rest : List Char} (h : continuesNumber c = false) :
    EndsNumber (c :: rest) := by
  intro d hd
  rw [List.head?_cons, Option.mem_some_iff] at hd
  rwa [← hd]

section

variable {rest : List Char} (hrest : EndsNumber rest)

include hrest

theorem span_digits {ds : List Char} (hds : ∀ c ∈ ds, c.isDigit = true) :
    (ds ++ rest).span Char.isDigit = (ds, rest) := by
  have hstop : rest.takeWhile Char.isDigit = [] ∧ rest.dropWhile Char.isDigit = rest := by
    cases rest with
    | nil => exact ⟨rfl, rfl⟩
    | cons c cs =>
      have hc := hrest c rfl
      simp only [continuesNumber, Bool.or_eq_false_iff] at hc
      rw [List.takeWhile_cons, List.dropWhile_cons, hc.1.1.1]
      exact ⟨rfl, rfl⟩
  rw [List.span_eq_takeWhile_dropWhile, List.takeWhile_append_of_pos hds,
    List.dropWhile_append_of_pos hds, hstop.1, hstop.2, List.append_nil]

theorem fraction?_of_ends : fraction? rest = some ([], rest) := by
  cases rest with
  | nil => rfl
  | cons c cs =>
    have hc := hrest c rfl
    simp only [continuesNumber, Bool.or_eq_false_iff, beq_eq_false_iff_ne] at hc
    unfold fraction?
    split
    case h_1 heq => exact absurd (List.cons.inj heq).1 hc.1.1.2
    case h_2 => rfl

theorem exponent?_of_ends : exponent? rest = some ([], rest) := by
  cases rest with
  | nil => rfl
  | cons c cs =>
    have hc := hrest c rfl
    simp only [continuesNumber, Bool.or_eq_false_iff] at hc
    simp only [exponent?]
    rw [hc.1.2, hc.2]
    rfl

/-- The digits of a number, and nothing else, are the digits before the point. -/
theorem whole?_toDigits (n : Nat) :
    whole? (Nat.toDigits 10 n ++ rest) = some (Nat.toDigits 10 n, rest) := by
  rcases Nat.eq_zero_or_pos n with rfl | hpos
  · rfl
  · obtain ⟨d, ds, hdigits, hne⟩ := exists_toDigits_eq_cons hpos
    have hall : ∀ c ∈ d :: ds, c.isDigit = true := by
      intro c hc
      rw [← hdigits] at hc
      exact isDigit_of_mem_digits hc
    rw [hdigits, List.cons_append]
    unfold whole?
    split
    case h_1 heq => exact absurd (List.cons.inj heq).1 hne
    case h_2 heq =>
      obtain ⟨rfl, rfl⟩ := List.cons.inj heq
      rw [if_pos (hall d List.mem_cons_self), ← List.cons_append, span_digits hrest hall]
    case h_3 heq => cases heq

/-- A decimal number is one lexeme. -/
theorem lexeme?_toDigits (n : Nat) :
    lexeme? (Nat.toDigits 10 n ++ rest) = some (.number (toString n), rest) := by
  have hwhole := whole?_toDigits hrest n
  obtain ⟨d, ds, hdigits, hd⟩ := exists_digits_eq_cons n
  rw [hdigits, List.cons_append] at hwhole ⊢
  rw [lexeme?_of_isDigit hd, number?_of_isDigit hd, hwhole, Option.bind_some]
  dsimp only
  rw [fraction?_of_ends hrest, Option.bind_some]
  dsimp only
  rw [exponent?_of_ends hrest, Option.bind_some, Option.map_some, List.append_nil,
    List.append_nil, ← hdigits]
  rfl

end

/-! ## Texts -/

/-- The part of a written text that stands for a character. Control characters without a letter of
their own are written as units. -/
def piece (c : Char) : Piece :=
  if c.toNat < 0x20 ∧ c ∉ ['\n', '\r', '\t', '\x08', '\x0c'] then .unit c.toNat else .char c

theorem spell?_map_piece (cs : List Char) : spell? (cs.map piece) = some cs := by
  induction cs with
  | nil => rfl
  | cons c cs ih =>
    rw [List.map_cons, piece]
    split
    case isTrue hunit =>
      unfold spell?
      rw [if_neg (by omega), if_neg (by omega), ih, Char.ofNat_toNat]
      rfl
    case isFalse =>
      unfold spell?
      rw [ih]
      rfl

theorem hexDigit?_hexDigit {n : Nat} (hn : n < 16) : hexDigit? (hexDigit n) = some n := by
  have hall : ∀ n < 16, hexDigit? (hexDigit n) = some n := by decide
  exact hall n hn

section

variable {ps : List Piece} {rest r : List Char} (h : pieces? rest = some (ps, r))

include h

theorem pieces?_escaped {e c : Char} (he : escaped? e = some c) :
    pieces? ('\\' :: e :: rest) = some (.char c :: ps, r) := by
  unfold pieces?
  split
  case h_1 heq => cases heq
  case h_2 heq => cases (List.cons.inj heq).1
  case h_3 heq =>
    -- The letter of a unit is not an escaped one.
    rw [(List.cons.inj (List.cons.inj heq).2).1] at he
    cases he
  case h_4 heq =>
    obtain ⟨rfl, rfl⟩ := List.cons.inj (List.cons.inj heq).2
    rw [he, h]
  case h_5 hnone heq =>
    obtain ⟨rfl, rfl⟩ := List.cons.inj heq
    exact absurd rfl (hnone e rest rfl)

theorem pieces?_unit {n : Nat} (hn : n < 256) :
    pieces? ('\\' :: 'u' :: '0' :: '0' :: hexDigit (n / 16) :: hexDigit (n % 16) :: rest) =
      some (.unit n :: ps, r) := by
  have hunit : hexUnit? '0' '0' (hexDigit (n / 16)) (hexDigit (n % 16)) = some n := by
    have hhigh := hexDigit?_hexDigit (show n / 16 < 16 by omega)
    have hlow := hexDigit?_hexDigit (show n % 16 < 16 by omega)
    have hzero : hexDigit? '0' = some 0 := by decide
    simp only [hexUnit?, hzero, hhigh, hlow, Option.bind_eq_bind, Option.bind_some]
    congr 1
    omega
  simp only [pieces?, hunit, h]

theorem pieces?_plain {c : Char} (hquote : c ≠ '\"') (hback : c ≠ '\\') (hc : ¬ c.toNat < 0x20) :
    pieces? (c :: rest) = some (.char c :: ps, r) := by
  unfold pieces?
  split
  case h_1 heq => cases heq
  case h_2 heq => exact absurd (List.cons.inj heq).1 hquote
  case h_3 heq => exact absurd (List.cons.inj heq).1 hback
  case h_4 heq => exact absurd (List.cons.inj heq).1 hback
  case h_5 heq =>
    obtain ⟨rfl, rfl⟩ := List.cons.inj heq
    rw [if_neg hc, h]
    rfl

/-- Reading the written form of a character gives its piece. -/
theorem pieces?_escape (c : Char) :
    pieces? ((escape c).toList ++ rest) = some (piece c :: ps, r) := by
  unfold escape
  split
  case h_8 hquote hback hn hr ht hb hf =>
    split
    case isTrue hc =>
      have hpiece : piece c = .unit c.toNat := by
        refine if_pos ⟨hc, ?_⟩
        simp only [List.mem_cons, List.not_mem_nil, or_false, not_or]
        exact ⟨hn, hr, ht, hb, hf⟩
      rw [String.toList_ofList, hpiece]
      exact pieces?_unit h (by omega)
    case isFalse hc =>
      rw [String.toList_singleton, piece, if_neg (fun hunit => hc hunit.1)]
      exact pieces?_plain h hquote hback hc
  all_goals exact pieces?_escaped h rfl

end

/-- The characters of a text between its quotes. -/
def escapeAll (cs : List Char) : List Char := cs.flatMap fun c => (escape c).toList

theorem pieces?_escapeAll (cs : List Char) (rest : List Char) :
    pieces? (escapeAll cs ++ '\"' :: rest) = some (cs.map piece, rest) := by
  induction cs with
  | nil => rfl
  | cons c cs ih =>
    rw [escapeAll, List.flatMap_cons, List.append_assoc, List.map_cons]
    exact pieces?_escape ih c

theorem toList_foldl_escape (cs : List Char) (acc : String) :
    (cs.foldl (fun acc c => acc ++ escape c) acc).toList = acc.toList ++ escapeAll cs := by
  induction cs generalizing acc with
  | nil => exact (List.append_nil _).symm
  | cons c cs ih =>
    rw [List.foldl_cons, ih, String.toList_append, List.append_assoc]
    rfl

theorem toList_quote (s : String) :
    (quote s).toList = '\"' :: (escapeAll s.toList ++ ['\"']) := by
  rw [quote, String.toList_append, String.toList_append, String.foldl_eq_foldl_toList,
    toList_foldl_escape]
  rfl

/-- A written text is one lexeme. -/
theorem lexeme?_quote (s : String) (rest : List Char) :
    lexeme? ((quote s).toList ++ rest) = some (.string (some s), rest) := by
  have hpieces := pieces?_escapeAll s.toList rest
  rw [toList_quote, List.cons_append, List.append_assoc, List.singleton_append]
  simp only [lexeme?]
  rw [hpieces, Option.map_some, spell?_map_piece, Option.map_some, String.ofList_toList]

/-! ## All lexemes -/

theorem toList_newline (level : Nat) :
    (newline level).toList = '\n' :: List.replicate (2 * level) ' ' := by
  have hindent : (String.ofList (List.replicate (2 * level) ' ')).toList =
      List.replicate (2 * level) ' ' := String.toList_ofList
  rw [newline, String.toList_append, hindent]
  rfl

/-- A number ends at a line break. -/
theorem endsNumber_newline (level : Nat) (rest : List Char) :
    EndsNumber ((newline level).toList ++ rest) := by
  rw [toList_newline, List.cons_append]
  exact endsNumber_cons rfl

/-- The text consists of these lexemes. As many steps as it has characters are enough. -/
def Lexed (cs : List Char) (ls : List Lexeme) : Prop :=
  ∀ fuel, cs.length ≤ fuel → lexemes? fuel cs = some ls

namespace Lexed

theorem nil : Lexed [] [] := by
  intro fuel _
  cases fuel <;> rfl

variable {cs : List Char} {ls : List Lexeme}

theorem blank {c : Char} (hc : isBlank c = true) (h : Lexed cs ls) : Lexed (c :: cs) ls := by
  intro fuel hfuel
  obtain ⟨fuel, rfl⟩ : ∃ k, fuel = k + 1 :=
    ⟨fuel - 1, (Nat.succ_pred (Nat.ne_zero_of_lt hfuel)).symm⟩
  rw [lexemes?, if_pos hc]
  exact h fuel (Nat.le_of_succ_le_succ hfuel)

/-- A lexeme that takes a first character, which is not blank, and maybe more of them. -/
theorem cons {c : Char} {word : List Char} {l : Lexeme} (hc : isBlank c = false)
    (hl : lexeme? (c :: (word ++ cs)) = some (l, cs)) (h : Lexed cs ls) :
    Lexed (c :: (word ++ cs)) (l :: ls) := by
  intro fuel hfuel
  rw [List.length_cons, List.length_append] at hfuel
  obtain ⟨fuel, rfl⟩ : ∃ k, fuel = k + 1 := ⟨fuel - 1, by omega⟩
  rw [lexemes?, hc, if_neg Bool.false_ne_true, hl]
  dsimp only
  rw [h fuel (by omega)]
  rfl

/-- A mark is a lexeme of one character. -/
theorem mark {c : Char} {l : Lexeme} (hc : isBlank c = false)
    (hl : ∀ rest, lexeme? (c :: rest) = some (l, rest)) (h : Lexed cs ls) :
    Lexed (c :: cs) (l :: ls) := by
  rw [← List.nil_append cs]
  exact cons hc (hl cs) h

/-- A line break and the indentation behind it are blank. -/
theorem newline (level : Nat) (h : Lexed cs ls) :
    Lexed ((Json.newline level).toList ++ cs) ls := by
  have hspaces : ∀ n, Lexed (List.replicate n ' ' ++ cs) ls := by
    intro n
    induction n with
    | zero => exact h
    | succ n ih => exact ih.blank rfl
  rw [toList_newline, List.cons_append]
  exact (hspaces (2 * level)).blank rfl

theorem number (n : Nat) (hrest : EndsNumber cs) (h : Lexed cs ls) :
    Lexed ((toString n).toList ++ cs) (.number (toString n) :: ls) := by
  have hl := lexeme?_toDigits hrest n
  obtain ⟨d, ds, hdigits, hd⟩ := exists_digits_eq_cons n
  rw [Nat.toString_eq_repr, Nat.toList_repr]
  rw [hdigits] at hl ⊢
  refine cons ?_ hl h
  simp only [isBlank, Bool.or_eq_false_iff, beq_eq_false_iff_ne]
  refine ⟨⟨⟨?_, ?_⟩, ?_⟩, ?_⟩
  all_goals
    rintro rfl
    cases hd

theorem text (s : String) (h : Lexed cs ls) :
    Lexed ((quote s).toList ++ cs) (.string (some s) :: ls) := by
  have hl := lexeme?_quote s cs
  rw [toList_quote] at hl ⊢
  exact cons rfl hl h

end Lexed

end ResidualCodec.Json
