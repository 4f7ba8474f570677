/-
  ResidualCodec.Json.Printer

  Writing JSON documents: on one line without blanks, or with one entry a line
  and two blanks of indentation for each level.
-/

import ResidualCodec.Json.Value

namespace ResidualCodec.Json

/-! ## Strings -/

/-- Lower-case hexadecimal digit of a number below 16. -/
def hexDigit (n : Nat) : Char := Nat.digitChar n

/-- A character inside a string: quotes, backslashes and control characters are escaped. -/
def escape (c : Char) : String :=
  match c with
  | '\"' => "\\\""
  | '\\' => "\\\\"
  | '\n' => "\\n"
  | '\r' => "\\r"
  | '\t' => "\\t"
  | '\x08' => "\\b"
  | '\x0c' => "\\f"
  | c =>
    if c.toNat < 0x20 then
      String.ofList ['\\', 'u', '0', '0', hexDigit (c.toNat / 16), hexDigit (c.toNat % 16)]
    else String.singleton c

/-- A text between quotes. -/
def quote (s : String) : String := "\"" ++ s.foldl (fun acc c => acc ++ escape c) "" ++ "\""

/-- A string without a text is written empty. -/
def quote? (s : Option String) : String := quote (s.getD "")

/-! ## One line -/

mutual

/-- The document on one line, without blanks. -/
def compact : Json → String
  | .null => "null"
  | .bool true => "true"
  | .bool false => "false"
  | .number s => s
  | .string s => quote? s
  | .array xs => "[" ++ compactItems xs ++ "]"
  | .object ms => "\x7b" ++ compactMembers ms ++ "\x7d"

/-- Entries of a list, with commas between them. -/
def compactItems : List Json → String
  | [] => ""
  | [x] => compact x
  | x :: y :: xs => compact x ++ "," ++ compactItems (y :: xs)

/-- Members of an object, with commas between them. -/
def compactMembers : List (Option String × Json) → String
  | [] => ""
  | [(s, x)] => quote? s ++ ":" ++ compact x
  | (s, x) :: m :: ms => quote? s ++ ":" ++ compact x ++ "," ++ compactMembers (m :: ms)

end

/-! ## Indented -/

/-- Line break and indentation of a level. -/
def newline (level : Nat) : String := "\n" ++ String.ofList (List.replicate (2 * level) ' ')

mutual

/-- The document with one entry a line, starting at an indentation level. -/
def pretty (level : Nat) : Json → String
  | .null => "null"
  | .bool true => "true"
  | .bool false => "false"
  | .number s => s
  | .string s => quote? s
  | .array [] => "[]"
  | .array (x :: xs) =>
    "[" ++ newline (level + 1) ++ prettyItems (level + 1) (x :: xs) ++ newline level ++ "]"
  | .object [] => "\x7b\x7d"
  | .object (m :: ms) =>
    "\x7b" ++ newline (level + 1) ++ prettyMembers (level + 1) (m :: ms) ++ newline level ++ "\x7d"

/-- Entries of a list, one a line. -/
def prettyItems (level : Nat) : List Json → String
  | [] => ""
  | [x] => pretty level x
  | x :: y :: xs => pretty level x ++ "," ++ newline level ++ prettyItems level (y :: xs)

/-- Members of an object, one a line. -/
def prettyMembers (level : Nat) : List (Option String × Json) → String
  | [] => ""
  | [(s, x)] => quote? s ++ ": " ++ pretty level x
  | (s, x) :: m :: ms =>
    quote? s ++ ": " ++ pretty level x ++ "," ++ newline level ++ prettyMembers level (m :: ms)

end

end ResidualCodec.Json
