/-
  ResidualCodec.Token.Basic

  The alphabet of the coefficient coder. A magnitude is coded as a token, and
  the larger magnitudes as a category with extra bits for the offset inside it.
-/

import ResidualCodec.BitDepth
import ResidualCodec.BlockKind

namespace ResidualCodec

/-! ## Categories -/

/-- Ranges of magnitudes of five and more, each about twice as wide as the one before. -/
inductive Category where
  | first | second | third | fourth | fifth | sixth
  deriving DecidableEq, Inhabited

namespace Category

def all : List Category := [.first, .second, .third, .fourth, .fifth, .sixth]

def index : Category → Nat
  | .first => 0 | .second => 1 | .third => 2 | .fourth => 3 | .fifth => 4 | .sixth => 5

def base : Category → Nat
  | .first => 5 | .second => 7 | .third => 11 | .fourth => 19 | .fifth => 35 | .sixth => 67

end Category

/-! ## Tokens -/

/-- What is coded at a scan position. -/
inductive Token where
  | zero | one | two | three | four
  -- A magnitude of five or more, whose offset in the category follows in extra bits.
  | category (k : Category)
  -- No coefficient from here on is different from zero.
  | endOfBlock
  deriving DecidableEq, Inhabited

/-- Counter that a token falls in. -/
inductive CountBin where
  | zero | one | twoOrMore | endOfBlock
  deriving DecidableEq, Inhabited

/-- Extra-bit probabilities of the highest category at the greatest depth. -/
def category6Probs : List UInt8 :=
  [255, 255, 254, 254, 254, 254, 254, 252, 249, 243, 230, 196, 177, 153, 140, 133, 130, 129]

namespace Token

def all : List Token :=
  [.zero, .one, .two, .three, .four] ++ Category.all.map .category ++ [.endOfBlock]

def index : Token → Nat
  | .zero => 0 | .one => 1 | .two => 2 | .three => 3 | .four => 4
  | .category k => 5 + k.index
  | .endOfBlock => 11

def name : Token → String
  | .zero => "Zero" | .one => "One" | .two => "Two" | .three => "Three" | .four => "Four"
  | .category k => "Cat" ++ toString (k.index + 1)
  | .endOfBlock => "Eob"

def ofMagnitude (m : Nat) : Token :=
  if m = 0 then .zero
  else if m = 1 then .one
  else if m = 2 then .two
  else if m = 3 then .three
  else if m = 4 then .four
  else if m < Category.base .second then .category .first
  else if m < Category.base .third then .category .second
  else if m < Category.base .fourth then .category .third
  else if m < Category.base .fifth then .category .fourth
  else if m < Category.base .sixth then .category .fifth
  else .category .sixth

def category? : Token → Option Category
  | .category k => some k
  | _ => none

def base : Token → Nat
  | .zero => 0 | .one => 1 | .two => 2 | .three => 3 | .four => 4
  | .category k => k.base
  | .endOfBlock => 0

/-- Energy that the token lends to the contexts of its neighbours. -/
def energy : Token → Energy
  | .zero => .none | .endOfBlock => .none
  | .one => .one
  | _ => .more

def bin : Token → CountBin
  | .zero => .zero
  | .one => .one
  | .endOfBlock => .endOfBlock
  | _ => .twoOrMore

/-- Probabilities of the extra bits, most significant first. The highest category has as many as
the bit depth calls for. -/
def extraProbs (d : BitDepth) : Token → List UInt8
  | .category .first => [159]
  | .category .second => [165, 145]
  | .category .third => [173, 148, 140]
  | .category .fourth => [176, 155, 140, 135]
  | .category .fifth => [180, 157, 141, 134, 130]
  | .category .sixth => category6Probs.drop (18 - d.category6Bits)
  | _ => []

end Token

def maxMagnitude (d : BitDepth) : Nat := Category.base .sixth + (1 <<< d.category6Bits) - 1

end ResidualCodec
