/-
  ResidualCodec.Json.Reader

  Reading JSON documents from text, in two steps: characters to lexemes, and
  lexemes to a document. White space is allowed between any two lexemes;
  nothing else may precede or follow the document.
-/

import ResidualCodec.Json.Value

namespace ResidualCodec.Json

/-! ## Lexemes -/

/-- The words and marks of a document. -/
inductive Lexeme where
  | openBracket | closeBracket | openBrace | closeBrace | comma | colon
  | null
  | bool (b : Bool)
  | number (literal : String)
  | string (text : Option String)
  deriving DecidableEq

/-- Blank characters. -/
def isBlank (c : Char) : Bool := c == ' ' || c == '\n' || c == '\t' || c == '\r'

/-! ### Numbers -/

/-- A point and the digits that must follow it, if there is a point. -/
def fraction? : List Char → Option (List Char × List Char)
  | '.' :: cs =>
    let (ds, rest) := cs.span Char.isDigit
    if ds.isEmpty then none else some ('.' :: ds, rest)
  | cs => some ([], cs)

/-- The mark, sign and digits of an exponent, if there is a mark. -/
def exponent? : List Char → Option (List Char × List Char)
  | c :: cs =>
    if c == 'e' || c == 'E' then
      let (sign, cs) := match cs with
        | '+' :: t => (['+'], t)
        | '-' :: t => (['-'], t)
        | t => ([], t)
      let (ds, rest) := cs.span Char.isDigit
      if ds.isEmpty then none else some (c :: (sign ++ ds), rest)
    else some ([], c :: cs)
  | [] => some ([], [])

/-- The digits before the point: a zero alone, or digits that start with another one. -/
def whole? : List Char → Option (List Char × List Char)
  | '0' :: cs => some (['0'], cs)
  | c :: cs => if c.isDigit then some ((c :: cs).span Char.isDigit) else none
  | [] => none

def number? (cs : List Char) : Option (List Char × List Char) := do
  let (sign, cs) := match cs with
    | '-' :: t => (['-'], t)
    | t => ([], t)
  let (w, cs) ← whole? cs
  let (f, cs) ← fraction? cs
  let (e, cs) ← exponent? cs
  some (sign ++ w ++ f ++ e, cs)

/-! ### Strings -/

/-- A part of a string: a character, or a 16-bit unit written as four hexadecimal digits. -/
inductive Piece where
  | char (c : Char)
  | unit (u : Nat)

def hexDigit? (c : Char) : Option Nat :=
  if c.isDigit then some (c.toNat - '0'.toNat)
  else if 'a' ≤ c ∧ c ≤ 'f' then some (c.toNat - 'a'.toNat + 10)
  else if 'A' ≤ c ∧ c ≤ 'F' then some (c.toNat - 'A'.toNat + 10)
  else none

def hexUnit? (a b c d : Char) : Option Nat := do
  return ((← hexDigit? a) * 16 + (← hexDigit? b)) * 256 + ((← hexDigit? c) * 16 + (← hexDigit? d))

def escaped? : Char → Option Char
  | '\"' => some '\"'
  | '\\' => some '\\'
  | '/' => some '/'
  | 'b' => some '\x08'
  | 'f' => some '\x0c'
  | 'n' => some '\n'
  | 'r' => some '\r'
  | 't' => some '\t'
  | _ => none

/-- The pieces of a string up to its closing quote, and what follows it. -/
def pieces? : List Char → Option (List Piece × List Char)
  | [] => none
  | '\"' :: cs => some ([], cs)
  | '\\' :: 'u' :: a :: b :: c :: d :: cs =>
    match hexUnit? a b c d, pieces? cs with
    | some u, some (ps, rest) => some (.unit u :: ps, rest)
    | _, _ => none
  | '\\' :: e :: cs =>
    match escaped? e, pieces? cs with
    | some c, some (ps, rest) => some (.char c :: ps, rest)
    | _, _ => none
  | c :: cs =>
    if c.toNat < 0x20 then none
    else (pieces? cs).map fun (ps, rest) => (.char c :: ps, rest)

/-- The characters of the pieces: two surrogate units in order make one character, and a
surrogate by itself makes none. -/
def spell? : List Piece → Option (List Char)
  | [] => some []
  | .char c :: ps => (spell? ps).map (c :: ·)
  | .unit u :: ps =>
    if 0xD800 ≤ u ∧ u < 0xDC00 then
      match ps with
      | .unit v :: qs =>
        if 0xDC00 ≤ v ∧ v < 0xE000 then
          (spell? qs).map (Char.ofNat (0x10000 + (u - 0xD800) * 0x400 + (v - 0xDC00)) :: ·)
        else none
      | _ => none
    else if 0xDC00 ≤ u ∧ u < 0xE000 then none
    else (spell? ps).map (Char.ofNat u :: ·)

/-! ### All lexemes -/

/-- The first lexeme of a text that does not start with a blank, and what follows it. -/
def lexeme? : List Char → Option (Lexeme × List Char)
  | [] => none
  | '[' :: cs => some (.openBracket, cs)
  | ']' :: cs => some (.closeBracket, cs)
  | '\x7b' :: cs => some (.openBrace, cs)
  | '\x7d' :: cs => some (.closeBrace, cs)
  | ',' :: cs => some (.comma, cs)
  | ':' :: cs => some (.colon, cs)
  | 'n' :: 'u' :: 'l' :: 'l' :: cs => some (.null, cs)
  | 't' :: 'r' :: 'u' :: 'e' :: cs => some (.bool true, cs)
  | 'f' :: 'a' :: 'l' :: 's' :: 'e' :: cs => some (.bool false, cs)
  | '\"' :: cs => (pieces? cs).map fun (ps, rest) => (.string ((spell? ps).map String.ofList), rest)
  | cs => (number? cs).map fun (n, rest) => (.number (String.ofList n), rest)

/-- All lexemes of a text. Each takes a character at least, so `fuel` characters of text need no
more than `fuel` steps. -/
def lexemes? : (fuel : Nat) → List Char → Option (List Lexeme)
  | _, [] => some []
  | 0, _ :: _ => none
  | fuel + 1, c :: cs =>
    if isBlank c then lexemes? fuel cs
    else
      match lexeme? (c :: cs) with
      | some (l, rest) => (lexemes? fuel rest).map (l :: ·)
      | none => none

/-! ## Documents -/

mutual

/-- A document at the front of the lexemes, and the lexemes after it. -/
def value? : (fuel : Nat) → List Lexeme → Option (Json × List Lexeme)
  | 0, _ => none
  | fuel + 1, ls =>
    match ls with
    | .null :: rest => some (.null, rest)
    | .bool b :: rest => some (.bool b, rest)
    | .number s :: rest => some (.number s, rest)
    | .string s :: rest => some (.string s, rest)
    | .openBracket :: .closeBracket :: rest => some (.array [], rest)
    | .openBracket :: rest => (itemsUntil? fuel rest).map fun (xs, rest) => (.array xs, rest)
    | .openBrace :: .closeBrace :: rest => some (.object [], rest)
    | .openBrace :: rest => (membersUntil? fuel rest).map fun (ms, rest) => (.object ms, rest)
    | _ => none

/-- The remaining entries of a list, and the lexemes after its closing bracket. -/
def itemsUntil? : (fuel : Nat) → List Lexeme → Option (List Json × List Lexeme)
  | 0, _ => none
  | fuel + 1, ls =>
    match value? fuel ls with
    | some (x, .comma :: rest) => (itemsUntil? fuel rest).map fun (xs, rest) => (x :: xs, rest)
    | some (x, .closeBracket :: rest) => some ([x], rest)
    | _ => none

/-- The remaining members of an object, and the lexemes after its closing brace. -/
def membersUntil? : (fuel : Nat) → List Lexeme →
    Option (List (Option String × Json) × List Lexeme)
  | 0, _ => none
  | fuel + 1, ls =>
    match ls with
    | .string name :: .colon :: rest =>
      match value? fuel rest with
      | some (x, .comma :: rest) =>
        (membersUntil? fuel rest).map fun (ms, rest) => ((name, x) :: ms, rest)
      | some (x, .closeBrace :: rest) => some ([(name, x)], rest)
      | _ => none
    | _ => none

end

/-- The document that a text holds. Every second step takes a lexeme at least, which bounds the
steps by twice the lexemes. -/
def parse? (s : String) : Option Json := do
  let cs := s.toList
  let ls ← lexemes? cs.length cs
  match ← value? (2 * ls.length + 2) ls with
  | (j, []) => some j
  | _ => none

end ResidualCodec.Json
