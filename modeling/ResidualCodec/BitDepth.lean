/-
  ResidualCodec.BitDepth

  Sample bit depths and the widths that follow from them.
-/

import ResidualCodec.Error

namespace ResidualCodec

/-- Bits per sample. -/
inductive BitDepth where
  | eight | ten | twelve
  deriving DecidableEq, Inhabited

namespace BitDepth

def bits : BitDepth → Nat
  | .eight => 8 | .ten => 10 | .twelve => 12

/-- The depth with this many bits; any other number is unsupported. -/
def ofBits : Nat → Except Error BitDepth
  | 8 => .ok .eight
  | 10 => .ok .ten
  | 12 => .ok .twelve
  | n => .error (.unsupported ("bit depth " ++ toString n))

def name : BitDepth → String
  | .eight => "Eight" | .ten => "Ten" | .twelve => "Twelve"

def all : List BitDepth := [.eight, .ten, .twelve]

def ofName? (s : String) : Option BitDepth := all.find? fun d => d.name == s

/-- Signed width of transform intermediates and dequantized coefficients. -/
def coeffBits (d : BitDepth) : Nat := d.bits + 8

/-- Number of extra bits that the largest magnitude category carries. -/
def category6Bits (d : BitDepth) : Nat := d.bits + 6

theorem ofBits_bits (d : BitDepth) : ofBits d.bits = .ok d := by cases d <;> rfl

theorem ofName?_name (d : BitDepth) : ofName? d.name = some d := by cases d <;> rfl

end BitDepth

end ResidualCodec
