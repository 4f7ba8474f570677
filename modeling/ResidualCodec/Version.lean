/-
  ResidualCodec.Version

  Version of the library, and its start-up.
-/

import ResidualCodec.Error

namespace ResidualCodec

/-- Version of the library. -/
structure Version where
  major : Nat
  minor : Nat
  patch : Nat

def Version.current : Version := ⟨0, 1, 0⟩

def Version.text (v : Version) : String :=
  toString v.major ++ "." ++ toString v.minor ++ "." ++ toString v.patch

/-! ## Start-up -/

/-- The worker pool that all callers share. Its size is set at most once. -/
structure SharedPool where
  workers : Option Nat := none

/-- Set the size of the shared pool, if a size is asked for. -/
def SharedPool.start (p : SharedPool) (maxThreads : Option Nat) : Except Error SharedPool :=
  match maxThreads, p.workers with
  | none, _ => .ok p
  | some n, none => .ok ⟨some n⟩
  | some _, some _ =>
    .error (.init ("Failed to initialize thread pool: " ++
      "The global thread pool has already been initialized."))

end ResidualCodec
