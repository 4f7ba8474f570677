/-
  ResidualCodec.Probability.Text

  The written form of a probability table: an object with one member, the
  probabilities as lists nested by size, plane type, reference type, band,
  context and node. Saving and loading leave it to a format how such a document
  is written, and check what is loaded.
-/

import ResidualCodec.Json.Printer
import ResidualCodec.Json.Reader
import ResidualCodec.Probability.Table

namespace ResidualCodec

namespace ProbTable

/-! ## Writing -/

/-- The probabilities of a slot as a document. -/
def nodeJson (p : NodeProbs) : Json := .ofNats (p.toList.map UInt8.toNat)

def toJson (t : ProbTable) : Json :=
  .ofMembers [("coef",
    .array (TransformSize.all.map fun s =>
      .array ([PlaneType.luma, .chroma].map fun p =>
        .array ([RefType.intra, .inter].map fun r =>
          .array ((List.finRange 6).map fun b =>
            .array ((List.finRange 3).map fun c => nodeJson (t.get ⟨⟨s, p, r⟩, b, c⟩)))))))]

/-- The document of a table as a text, one number a line. -/
def save (t : ProbTable) : String := t.toJson.pretty 0

/-! ## Reading -/

def nodeOfJson? (j : Json) : Option NodeProbs := do
  let (a, b, c) ← j.triple? Json.byte?
  return ⟨a, b, c⟩

/-- The table of a document. Every list must have its exact length. -/
def ofJson? (j : Json) : Option ProbTable := do
  let [some coef] ← j.record? ["coef"] | none
  let v ← coef.vector? 4 (Json.vector? 2 (Json.vector? 2 (Json.vector? 6 (Json.vector? 3
    nodeOfJson?))))
  return ⟨v.flatten.flatten.flatten.flatten⟩

end ProbTable

/-! ## Formats -/

/-- A written form of tables: how a table is printed, and what table is parsed from a text. -/
structure TableFormat where
  -- Refused for a reason in words.
  print : ProbTable → Except String String
  -- Refused for a reason in words, where the format gives one.
  parse : String → Except (Option String) ProbTable

namespace TableFormat

/-- What is said of a text that is not parsed: the reason of the format is part of it. -/
def refusal (reason : Option String) : Error :=
  .invalidInput ("Failed to deserialize probabilities:" ++ (reason.map (" " ++ ·)).getD "")

/-- The text that a table is saved as. -/
def save (f : TableFormat) (t : ProbTable) : Except Error String :=
  (f.print t).mapError fun reason => .invalidInput ("Failed to serialize probabilities: " ++ reason)

/-- The table that a text holds. A text that is not parsed is refused, and so is a table with a
zero. -/
def load (f : TableFormat) (s : String) : Except Error ProbTable := do
  let t ← (f.parse s).mapError refusal
  t.validate
  return t

/-- The table of a file, given its text, or why there is none. -/
def loadFile (f : TableFormat) (contents : Except String String) : Except Error ProbTable := do
  f.load (← contents.mapError .io)

/-- Documents with one entry a line. What is not the document of a table is refused without a
reason. -/
def json : TableFormat where
  print t := .ok t.save
  parse s :=
    match (Json.parse? s).bind ProbTable.ofJson? with
    | some t => .ok t
    | none => .error none

end TableFormat

namespace ProbTable

def load (s : String) : Except Error ProbTable := TableFormat.json.load s

def loadFile (contents : Except String String) : Except Error ProbTable :=
  TableFormat.json.loadFile contents

end ProbTable

end ResidualCodec
