import LatticeSuite.Coding.Kind
import LatticeSuite.Key

/-!
# Why a coded buffer is refused

One cause per constructor. A malformed payload says what is wrong with it in
a fixed phrase of the coding at fault.
-/

namespace LatticeSuite

/-- Why a coded buffer is refused. -/
inductive DecodeError where
  /-- The buffer ends before the decoder is done. -/
  | truncated
  | unsupportedVersion (version : UInt8)
  | codingMismatch (expected : KeyCoding) (found : UInt8)
  | keyClassMismatch (expected : KeyClass)
  /-- The scheme or the parameter set differs. -/
  | schemeMismatch
  | malformed (reason : String)
  /-- The payload holds another number of bytes than its header declares. -/
  | lengthMismatch
  | invalidKey
  deriving DecidableEq, Repr

def DecodeError.label : DecodeError → String
  | .truncated => "Decode.Truncated"
  | .unsupportedVersion _ => "Decode.UnsupportedVersion"
  | .codingMismatch _ _ => "Decode.CodingMismatch"
  | .keyClassMismatch _ => "Decode.KeyClassMismatch"
  | .schemeMismatch => "Decode.SchemeMismatch"
  | .malformed _ => "Decode.Malformed"
  | .lengthMismatch => "Decode.LengthMismatch"
  | .invalidKey => "Decode.InvalidKey"

def DecodeError.message : DecodeError → String
  | .truncated => "input truncated"
  | .unsupportedVersion v => "unsupported envelope version " ++ toString v
  | .codingMismatch expected found =>
    "coding mismatch: expected " ++ expected.text ++ ", found tag " ++ toString found
  | .keyClassMismatch expected => "key class mismatch: expected " ++ expected.text
  | .schemeMismatch => "key belongs to a different scheme or parameter set"
  | .malformed reason => "malformed coded data: " ++ reason
  | .lengthMismatch => "decoded length does not match header"
  | .invalidKey => "invalid key material"

/-- What decoding yields: a value, or why the buffer is refused. -/
abbrev Decoded (α : Type) := Except DecodeError α

end LatticeSuite
