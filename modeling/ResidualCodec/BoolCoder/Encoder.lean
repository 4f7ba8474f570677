/-
  ResidualCodec.BoolCoder.Encoder

  The binary arithmetic encoder. It keeps the lower end of the current interval
  as bytes already emitted followed by a 32-bit number; a carry out of that
  number ripples back into the bytes.
-/

import ResidualCodec.BoolCoder.Decision

namespace ResidualCodec

/-- State of the encoder. -/
structure BoolEncoder where
  -- Width of the current interval.
  range : Nat := 255
  -- Pending bits of the lower end, below `2 ^ 32`.
  low : Nat := 0
  -- Doublings until the next byte is emitted.
  countdown : Nat := 24
  -- Bytes emitted, latest first.
  emitted : List UInt8 := []

namespace BoolEncoder

/-- Add one to the number that the bytes spell, least significant byte first. -/
def carry : List UInt8 → List UInt8
  | [] => []
  | b :: bs => if b = 255 then 0 :: carry bs else (b + 1) :: bs

/-- Double the interval. A bit that leaves the pending number carries into the emitted bytes; when
the countdown ends, the top byte is emitted. -/
def double (e : BoolEncoder) : BoolEncoder :=
  let emitted := if 0x80000000 ≤ e.low then carry e.emitted else e.emitted
  let low := 2 * e.low % 0x100000000
  if e.countdown = 1 then
    { range := 2 * e.range, low := low % 0x1000000, countdown := 8
      emitted := UInt8.ofNat (low >>> 24) :: emitted }
  else { range := 2 * e.range, low := low, countdown := e.countdown - 1, emitted := emitted }

/-- Double until the range is large enough, `fuel` times at most. -/
def renormalize : (fuel : Nat) → BoolEncoder → BoolEncoder
  | 0, e => e
  | fuel + 1, e => if e.range < minRange then renormalize fuel e.double else e

/-- Write one decision: a zero keeps the lower part of the interval, a one the upper part. -/
def write (e : BoolEncoder) (d : Decision) : BoolEncoder :=
  let split := splitRange e.range d.prob
  if d.bit then
    renormalize 7 { e with low := (e.low + split) % 0x100000000, range := e.range - split }
  else renormalize 7 { e with range := split }

def writeAll (e : BoolEncoder) (ds : List Decision) : BoolEncoder := ds.foldl write e

def size (e : BoolEncoder) : Nat := e.emitted.length

/-- A number below `2 ^ 32` as four bytes, most significant first. -/
def fourBytes (n : Nat) : List UInt8 :=
  [UInt8.ofNat (n >>> 24), UInt8.ofNat (n >>> 16), UInt8.ofNat (n >>> 8), UInt8.ofNat n]

/-- The finished stream: the emitted bytes and the pending ones. Four bytes of pending bits keep
the two-byte window of a decoder inside the data. -/
def finish (e : BoolEncoder) : List UInt8 :=
  let emitted := if e.low.testBit (32 - e.countdown) then carry e.emitted else e.emitted
  emitted.reverse ++ fourBytes ((e.low <<< e.countdown) % 0x100000000)

def encode (ds : List Decision) : List UInt8 := (writeAll {} ds).finish

end BoolEncoder

end ResidualCodec
