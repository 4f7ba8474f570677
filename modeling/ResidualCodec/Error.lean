/-
  ResidualCodec.Error

  What can go wrong. An `Error` is an answer: the input is not acceptable and
  the caller is told why. A `Fault` is a broken precondition: the caller asked
  for something that has no answer. A `Failure` is either of the two.
-/

import ResidualCodec.Transform.Shape

namespace ResidualCodec

/-! ## Errors -/

/-- A refused request, by kind, with the reason in words. -/
inductive Error where
  | io (reason : String)
  | codec (reason : String)
  | init (reason : String)
  | invalidInput (reason : String)
  | unsupported (reason : String)
  | bufferTooSmall (need available : Nat)
  | invalidState (reason : String)
  | config (reason : String)
  deriving DecidableEq

/-- Text of an error: the kind, a colon, and the reason. -/
def Error.message : Error → String
  | .io r => "IO error: " ++ r
  | .codec r => "Codec error: " ++ r
  | .init r => "Initialization error: " ++ r
  | .invalidInput r => "Invalid input: " ++ r
  | .unsupported r => "Unsupported: " ++ r
  | .bufferTooSmall need available =>
    "Buffer too small: need " ++ toString need ++ ", have " ++ toString available
  | .invalidState r => "Invalid state: " ++ r
  | .config r => "Configuration error: " ++ r

/-! ## Faults -/

/-- A broken precondition. -/
inductive Fault where
  -- A table or buffer was indexed past its end.
  | indexOutOfBounds
  -- A transform of this size was given too few coefficients or too little room.
  | shortTransform (size : TransformSize)
  -- A 32-point transform was asked for another pair of bases than cosines.
  | basisNotAdmitted (type : TransformType)
  -- The inverse lossless transform was given fewer than 16 coefficients.
  | shortHadamardCoefficients
  -- The forward lossless transform was given fewer than 16 samples.
  | shortHadamardSamples
  -- A lossless block has another size than 4x4.
  | losslessSize (size : TransformSize)
  -- A quantizer index lies above the last table entry.
  | quantizerIndex (index : Nat)
  -- A quantizer step is zero or negative.
  | stepNotPositive
  -- A block was not given exactly one level per coefficient.
  | levelCount
  -- A tile was not given exactly one residual per block of its plan.
  | residualCount
  -- A symbol tree leads back into itself.
  | endlessTree
  deriving DecidableEq

def Fault.message : Fault → String
  | .indexOutOfBounds => "index out of bounds"
  | .shortTransform s => s.name ++ " transform needs " ++ toString s.coeffs ++ " coefficients"
  | .basisNotAdmitted t => "32x32 transforms are DCT only, got " ++ t.name
  | .shortHadamardCoefficients => "WHT needs 16 coefficients"
  | .shortHadamardSamples => "WHT needs 16 samples"
  | .losslessSize s => "lossless blocks are 4x4, got " ++ s.name
  | .quantizerIndex q => "qindex " ++ toString q ++ " out of range"
  | .stepNotPositive => "quantizer step must be positive"
  | .levelCount => "one level per coefficient"
  | .residualCount => "one residual per plan block"
  | .endlessTree => "tree never reaches a leaf"

/-! ## Either -/

/-- Why an operation that can both be refused and be misused gave no result. -/
inductive Failure where
  | error (e : Error)
  | fault (f : Fault)
  deriving DecidableEq

/-- A computation that may be refused, read as one that may also be misused. -/
def orError (x : Except Error α) : Except Failure α := x.mapError .error

/-- A computation that may be misused, read as one that may also be refused. -/
def orFault (x : Except Fault α) : Except Failure α := x.mapError .fault

end ResidualCodec
