/-
  ResidualCodec.BoolCoder.Decoder

  The binary arithmetic decoder: a range of 128 to 255 values, compared with a
  16-bit window of the data. Past the end of the data it reads zero bytes and
  counts them.
-/

import ResidualCodec.BoolCoder.Decision

namespace ResidualCodec

/-- State of the decoder. -/
structure BoolDecoder where
  -- Bytes not yet read.
  rest : List UInt8
  -- Bytes read.
  position : Nat := 0
  -- Bytes asked for past the end of the data.
  missing : Nat := 0
  -- Width of the current interval.
  range : Nat := 255
  -- The data under the interval, less its lower end, in 256ths of the range; below `2 ^ 32`.
  window : Nat := 0
  -- Doublings since a byte was last read.
  shifts : Nat := 0

namespace BoolDecoder

/-- The next byte of the data; a zero past its end. -/
def nextByte (d : BoolDecoder) : Nat × BoolDecoder :=
  match d.rest with
  | b :: rest => (b.toNat, { d with rest := rest, position := d.position + 1 })
  | [] => (0, { d with missing := d.missing + 1 })

/-- A decoder at the start of some data, with two bytes in its window. -/
def start (data : List UInt8) : BoolDecoder :=
  let (high, d) := nextByte { rest := data }
  let (low, d) := d.nextByte
  { d with window := 256 * high + low }

/-- Double the range and the window. The eighth doubling reads a byte. The window keeps its low 32
bits; it outgrows them only in data that starts outside the interval, which no encoder writes. -/
def double (d : BoolDecoder) : BoolDecoder :=
  let d := { d with
    range := 2 * d.range, window := 2 * d.window % 0x100000000, shifts := d.shifts + 1 }
  if d.shifts = 8 then
    let (b, d) := d.nextByte
    { d with window := d.window + b, shifts := 0 }
  else d

/-- Double until the range is large enough, `fuel` times at most. -/
def renormalize : (fuel : Nat) → BoolDecoder → BoolDecoder
  | 0, d => d
  | fuel + 1, d => if d.range < minRange then renormalize fuel d.double else d

/-- The next decision. A range is never empty, so seven doublings always suffice. -/
def read (d : BoolDecoder) (prob : UInt8) : Bool × BoolDecoder :=
  let split := splitRange d.range prob
  if split * 256 ≤ d.window then
    (true, renormalize 7 { d with range := d.range - split, window := d.window - split * 256 })
  else (false, renormalize 7 { d with range := split })

/-- Whether a byte past the end was asked for. -/
def overrun (d : BoolDecoder) : Bool := 0 < d.missing

instance : BoolReader BoolDecoder := ⟨read, overrun⟩

end BoolDecoder

end ResidualCodec
