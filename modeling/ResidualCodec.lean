import ResidualCodec.Probability.Text
import ResidualCodec.Tile.Frame
import ResidualCodec.Proofs.Tile.RoundTrip
import ResidualCodec.Proofs.Tile.Truncation
import ResidualCodec.Proofs.Reader.Meter
import ResidualCodec.Proofs.Token.Reading
import ResidualCodec.Proofs.Coefficient.Reading
import ResidualCodec.Proofs.Coefficient.Progress
import ResidualCodec.Proofs.Coefficient.Guarded
import ResidualCodec.Proofs.Coefficient.Sound
import ResidualCodec.Proofs.Tile.Decoded
import ResidualCodec.Proofs.Counts.Sum
import ResidualCodec.Proofs.Tile.Counting
import ResidualCodec.Proofs.Tile.Schedule
import ResidualCodec.Proofs.Transform.Hadamard
import ResidualCodec.Proofs.Quant.Lossless
import ResidualCodec.Proofs.Tile.Lossless
import ResidualCodec.Proofs.Transform.Guarded
import ResidualCodec.Proofs.Counts.Balance
import ResidualCodec.Proofs.Coefficient.Canonical
import ResidualCodec.Proofs.Transform.Cosine
import ResidualCodec.Proofs.Transform.Sine
import ResidualCodec.Proofs.BoolCoder.Exact
import ResidualCodec.Proofs.Transform.Strict
import ResidualCodec.Proofs.Transform.Lifting
import ResidualCodec.Proofs.Transform.Magnitude
import ResidualCodec.Proofs.Quant.Limit
import ResidualCodec.Proofs.Tile.Unclamped
import ResidualCodec.Proofs.Transform.Resemblance
import ResidualCodec.Proofs.Transform.Room
import ResidualCodec.Proofs.Transform.RoundTrip
import ResidualCodec.Proofs.Quant.Nearest
import ResidualCodec.Proofs.Quant.Bins
import ResidualCodec.Proofs.Quant.Reconstruction
import ResidualCodec.Proofs.Quant.Requantize
import ResidualCodec.Proofs.Transform.Zero
import ResidualCodec.Proofs.Tile.Empty
import ResidualCodec.Proofs.Scan.Causal
import ResidualCodec.Proofs.Quant.Segment
import ResidualCodec.Proofs.Quant.Ordered
import ResidualCodec.Proofs.Counts.Accounting
import ResidualCodec.Proofs.EntropyContext.History
import ResidualCodec.Proofs.Counts.Interleaved
import ResidualCodec.Proofs.Counts.Independence
import ResidualCodec.Proofs.Transform.Plain
import ResidualCodec.Proofs.Transform.Scratch
import ResidualCodec.Proofs.Transform.Odd
import ResidualCodec.Proofs.Tile.Opposite
import ResidualCodec.Proofs.Token.Forward
import ResidualCodec.Proofs.BoolCoder.Carry
import ResidualCodec.Proofs.Probability.Persistence
