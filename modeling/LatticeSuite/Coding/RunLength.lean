import LatticeSuite.Coding.Error

/-!
# Run lengths

A byte string as pairs of a run length and a byte. Runs are as long as they
can be up to 255, so a byte string has one coded form; reading also accepts
shorter runs, but never an empty one.
-/

namespace LatticeSuite.RunLength

/-- The longest run a pair can hold. -/
def longestRun : Nat := 255

/-- The pairs of `rest`, behind a run of `count` bytes `current` that is still open. -/
def encodeFrom (current : UInt8) (count : Nat) : (rest : Bytes) → Bytes
  | [] => [UInt8.ofNat count, current]
  | b :: rest =>
    if b = current ∧ count < longestRun then encodeFrom current (count + 1) rest
    else UInt8.ofNat count :: current :: encodeFrom b 1 rest

/-- The pairs of a byte string. -/
def encode : Bytes → Bytes
  | [] => []
  | b :: rest => encodeFrom b 1 rest

/-- Unfold the pairs behind the `length` bytes already unfolded (held reversed
in `acc`), and stop as soon as they would exceed `rawLength`. -/
def decodeFrom (rawLength : Nat) : (runs : Bytes) → (length : Nat) → (acc : List UInt8) →
    Decoded Bytes
  | run :: b :: rest, length, acc =>
    if run = 0 then .error (.malformed "zero-length run")
    else if length + run.toNat > rawLength then .error .lengthMismatch
    else decodeFrom rawLength rest (length + run.toNat) (List.replicate run.toNat b ++ acc)
  | _, length, acc => if length = rawLength then .ok acc.reverse else .error .lengthMismatch

/-- The byte string of a list of pairs, which must have `rawLength` bytes. -/
def decode (runs : Bytes) (rawLength : Nat) : Decoded Bytes :=
  if runs.length % 2 ≠ 0 then .error (.malformed "odd run-length stream")
  else decodeFrom rawLength runs 0 []

end LatticeSuite.RunLength
