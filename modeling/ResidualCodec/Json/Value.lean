/-
  ResidualCodec.Json.Value

  JSON documents, and the ways in which their parts are read as numbers, texts,
  lists and records. A number keeps the text it was written with, so that an
  integer is told apart from a fraction that happens to be whole.
-/

namespace ResidualCodec

/-- A JSON document. -/
inductive Json where
  | null
  | bool (b : Bool)
  -- A number, as it is written.
  | number (literal : String)
  -- A string; `none` when its escapes spell no text (an unpaired surrogate).
  | string (text : Option String)
  | array (items : List Json)
  -- Members in order of appearance; a name is `none` like a string without a text.
  | object (members : List (Option String × Json))

namespace Json

/-! ## Building -/

def text (s : String) : Json := .string (some s)

def ofNat (n : Nat) : Json := .number (toString n)

def ofInt (x : Int) : Json := .number (toString x)

def ofInts (xs : List Int) : Json := .array (xs.map ofInt)

def ofNats (xs : List Nat) : Json := .array (xs.map ofNat)

def ofMembers (ms : List (String × Json)) : Json := .object (ms.map fun m => (some m.1, m.2))

/-- A value that may be missing; `null` stands for a missing one. -/
def ofOption (f : α → Json) : Option α → Json
  | none => .null
  | some a => f a

/-! ## Reading -/

/-- Value of a list of decimal digits. -/
def digitsValue (ds : List Char) : Nat := ds.foldl (fun n c => 10 * n + (c.toNat - '0'.toNat)) 0

/-- Natural number written with digits alone: no sign, fraction or exponent. -/
def naturalOfDigits? (ds : List Char) : Option Nat :=
  if ds ≠ [] ∧ ds.all Char.isDigit then some (digitsValue ds) else none

def nat? : Json → Option Nat
  | .number s => naturalOfDigits? s.toList
  | _ => none

def int? : Json → Option Int
  | .number s =>
    match s.toList with
    | '-' :: ds => (naturalOfDigits? ds).map fun n => -Int.ofNat n
    | ds => (naturalOfDigits? ds).map Int.ofNat
  | _ => none

/-- A natural number up to `limit`. -/
def natUpTo? (limit : Nat) (j : Json) : Option Nat :=
  j.nat?.filter (· ≤ limit)

def byte? (j : Json) : Option UInt8 := (j.natUpTo? 255).map UInt8.ofNat

def bool? : Json → Option Bool
  | .bool b => some b
  | _ => none

def text? : Json → Option String
  | .string s => s
  | _ => none

def items? : Json → Option (List Json)
  | .array xs => some xs
  | _ => none

/-- A list of exactly `n` entries, each read with `f`. -/
def vector? (n : Nat) (f : Json → Option α) (j : Json) : Option (Vector α n) := do
  let xs ← (← j.items?).mapM f
  if h : xs.toArray.size = n then some ⟨xs.toArray, h⟩ else none

/-- A list of exactly three entries, each read with `f`. -/
def triple? (f : Json → Option α) : Json → Option (α × α × α)
  | .array [x, y, z] => do return (← f x, ← f y, ← f z)
  | _ => none

/-- First member of this name. -/
def member? (j : Json) (name : String) : Option Json :=
  match j with
  | .object ms => (ms.find? fun m => m.1 == some name).map (·.2)
  | _ => none

/-! ## Records -/

/-- The member of a record's name in an object, where a second one of the name is refused. -/
def soleMember (ms : List (Option String × Json)) (name : String) : Option (Option Json) :=
  match ms.filter fun m => m.1 == some name with
  | [] => some none
  | [m] => some (some m.2)
  | _ => none

/-- The fields of a record, by name. A record is written as an object, in which other members are
passed over, or as the list of all its fields in order. -/
def record? (names : List String) : Json → Option (List (Option Json))
  | .object ms => if ms.all (·.1.isSome) then names.mapM (soleMember ms) else none
  | .array xs => if xs.length = names.length then some (xs.map some) else none
  | _ => none

/-- A choice between names, written as a text or as an object that gives the name a `null`. -/
def choice? : Json → Option String
  | .string s => s
  | .object [(s, .null)] => s
  | _ => none

end Json

end ResidualCodec
