import LatticeSuite.Random.Error
import LatticeSuite.Scheme.Operation

/-!
# Why a backend fails

A backend reports no more than this. Whether a decryption failed over its key,
its ciphertext or its tag is not told apart any further.
-/

namespace LatticeSuite

/-- Why a backend fails. -/
inductive SchemeError where
  /-- The scheme does not offer the operation. -/
  | unsupported (operation : Operation)
  | invalidKey
  /-- A draw of random bytes failed. -/
  | rng (cause : EntropyError)
  | failed
  deriving DecidableEq, Repr

def SchemeError.label : SchemeError → String
  | .unsupported _ => "Scheme.Unsupported"
  | .invalidKey => "Scheme.InvalidKey"
  | .rng cause => "Scheme.Rng." ++ cause.label
  | .failed => "Scheme.Failed"

def SchemeError.message : SchemeError → String
  | .unsupported operation => operation.text ++ " is not supported"
  | .invalidKey => "invalid key material"
  | .rng cause => "random generation failed: " ++ cause.message
  | .failed => "scheme operation failed"

end LatticeSuite
