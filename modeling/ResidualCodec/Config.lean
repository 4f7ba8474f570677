/-
  ResidualCodec.Config

  Settings that all blocks of a frame share, and their written form.
-/

import ResidualCodec.Json.Printer
import ResidualCodec.Json.Reader
import ResidualCodec.Quant.Dequantizer

namespace ResidualCodec

/-! ## Settings -/

/-- Settings of a coder. -/
structure Config where
  depth : BitDepth := .eight
  -- Count nothing, so that frames do not depend on each other.
  frameParallel : Bool := false
  profile : Option NuqProfile := none
  -- Worker threads for tiles; zero uses the shared pool.
  tileThreads : Nat := 0
  deriving DecidableEq

namespace Config

/-- Most worker threads for tiles. -/
def maxTileThreads : Nat := 64

/-- Settings out of range are refused, the thread count first. -/
def validate (c : Config) : Except Error Unit :=
  if maxTileThreads < c.tileThreads then
    .error (.config ("Invalid tile thread count: " ++ toString c.tileThreads ++
      ". Valid range: 0-" ++ toString maxTileThreads))
  else
    match c.profile with
    | some p => p.validate
    | none => .ok ()

def dequantizer (c : Config) (p : QuantParams) (s : SegmentOverride) : Dequantizer :=
  ⟨p, s, c.depth, c.profile⟩

end Config

/-! ## Written form -/

namespace NuqProfile

/-- The profile as a document: the knots of all bands, then their offsets. -/
def toJson (p : NuqProfile) : Json :=
  .ofMembers
    [("knots", .array (p.bands.toList.map fun s => .ofNats (s.knots.map UInt8.toNat))),
     ("doff", .ofNats (p.bands.toList.map fun s => s.offset.toNat))]

def ofJson? (j : Json) : Option NuqProfile := do
  let [some knots, some offsets] ← j.record? ["knots", "doff"] | none
  let ks ← knots.vector? 6 (Json.triple? Json.byte?)
  let os ← offsets.vector? 6 Json.byte?
  return ⟨ks.zipWith (fun (a, b, c) o => ⟨a, b, c, o⟩) os⟩

end NuqProfile

namespace Config

def toJson (c : Config) : Json :=
  .ofMembers
    [("bit_depth", .text c.depth.name),
     ("frame_parallel", .bool c.frameParallel),
     ("nuq", .ofOption NuqProfile.toJson c.profile),
     ("tile_threads", .ofNat c.tileThreads)]

/-- A profile that may be missing or null. -/
def profileOfJson? : Option Json → Option (Option NuqProfile)
  | none => some none
  | some .null => some none
  | some j => (NuqProfile.ofJson? j).map some

/-- The settings of a document. Of the four fields, the profile alone may be missing. -/
def ofJson? (j : Json) : Option Config := do
  let [some depth, some frameParallel, profile, some tileThreads] ←
    j.record? ["bit_depth", "frame_parallel", "nuq", "tile_threads"] | none
  return {
    depth := ← BitDepth.ofName? (← depth.choice?)
    frameParallel := ← frameParallel.bool?
    profile := ← profileOfJson? profile
    tileThreads := ← tileThreads.natUpTo? 0xFFFFFFFFFFFFFFFF }

def save (c : Config) : String := c.toJson.compact

def load? (s : String) : Option Config := do ofJson? (← Json.parse? s)

end Config

end ResidualCodec
