import LatticeSuite.Coding.Coder

/-!
# Envelopes

A key envelope says what it holds before it holds it: format version, coding,
slot, scheme, parameter set and raw length, then the coded bytes. Reading is
for one slot of one context, and a buffer made for anything else is refused
before its payload is interpreted. The checks come in the order of the fields.

A signature envelope has only the coding and the raw length, and under the
raw coding there is no envelope at all.
-/

namespace LatticeSuite.Envelope

/-- The version of the key envelope format. -/
def version : UInt8 := 1

/-- The longest payload that a header may declare. -/
def maxRawLength : Nat := 2 ^ 24

/-- The declared raw length, unless it is too large. -/
def readRawLength (field : Bytes) : Decoded Nat :=
  let n := Bytes.ofBE field
  if n > maxRawLength then .error (.malformed "declared length too large") else .ok n

def encodeKey (key : KeyMaterial) (coding : KeyCoding) : Bytes :=
  [version, coding.tag, key.keyClass.tag, key.scheme.number] ++
    Bytes.toBE 4 key.paramSet.toNat ++ Bytes.toBE 4 key.length ++ coding.encode key.bytes

/-- The key in an envelope made for the given coding, slot, scheme and
parameter set. -/
def decodeKey (bytes : Bytes) (coding : KeyCoding) (keyClass : KeyClass) (scheme : SchemeId)
    (paramSet : UInt32) : Decoded KeyMaterial :=
  match bytes with
  | v :: c :: k :: s :: p₀ :: p₁ :: p₂ :: p₃ :: n₀ :: n₁ :: n₂ :: n₃ :: payload => do
    if v ≠ version then throw (.unsupportedVersion v)
    if c ≠ coding.tag then throw (.codingMismatch coding c)
    if k ≠ keyClass.tag then throw (.keyClassMismatch keyClass)
    if s ≠ scheme.number ∨ Bytes.ofBE [p₀, p₁, p₂, p₃] ≠ paramSet.toNat then
      throw .schemeMismatch
    let rawLength ← readRawLength [n₀, n₁, n₂, n₃]
    let raw ← coding.decode payload rawLength
    if raw.length ≠ rawLength then throw .lengthMismatch
    return { keyClass, scheme, paramSet, bytes := raw }
  | _ => .error .truncated

/-- A signature in its envelope; under the raw coding the signature itself. -/
def encodeSignature (signature : Bytes) (coding : KeyCoding) : Bytes :=
  if coding = .raw then signature
  else coding.tag :: Bytes.toBE 4 signature.length ++ coding.encode signature

/-- The signature in an envelope made for the given coding. -/
def decodeSignature (bytes : Bytes) (coding : KeyCoding) : Decoded Bytes :=
  if coding = .raw then .ok bytes
  else
    match bytes with
    | c :: n₀ :: n₁ :: n₂ :: n₃ :: payload =>
      if c ≠ coding.tag then .error (.codingMismatch coding c)
      else
        match readRawLength [n₀, n₁, n₂, n₃] with
        | .error e => .error e
        | .ok rawLength => coding.decode payload rawLength
    | _ => .error .truncated

end LatticeSuite.Envelope
