import LatticeSuite.Coding.Error
import LatticeSuite.Flags.Error
import LatticeSuite.Scheme.Registry

/-!
# Why a context refuses or fails

The causes of failure, their messages, and the code under which a context
records each. A code says no more than the kind of failure. Of what went wrong
inside a cryptographic operation nothing is told at all.
-/

namespace LatticeSuite

def LookupError.message : LookupError → String
  | .schemeUnavailable id => id.name ++ " is not available in this build"
  | .unknownParameterSet id paramSet => id.name ++ " has no parameter set " ++ toString paramSet

/-- Why no context is created. -/
inductive ConfigError where
  | flags (cause : FlagError)
  /-- No scheme has this number. -/
  | unknownScheme (number : UInt8)
  | lookup (cause : LookupError)
  /-- The generator could not be seeded. -/
  | csprng (cause : EntropyError)
  /-- The backend refused the configuration. -/
  | scheme (cause : SchemeError)
  deriving DecidableEq, Repr

def ConfigError.label : ConfigError → String
  | .flags cause => "Config." ++ cause.label
  | .unknownScheme _ => "Config.UnknownScheme"
  | .lookup (.schemeUnavailable _) => "Config.SchemeUnavailable"
  | .lookup (.unknownParameterSet _ _) => "Config.UnknownParameterSet"
  | .csprng cause => "Config." ++ cause.label
  | .scheme cause => "Config." ++ cause.label

def ConfigError.message : ConfigError → String
  | .flags cause => "invalid flags: " ++ cause.message
  | .unknownScheme number => "unknown scheme identifier " ++ toString number
  | .lookup cause => cause.message
  | .csprng cause => "CSPRNG construction failed: " ++ cause.message
  | .scheme cause => "scheme instantiation failed: " ++ cause.message

inductive KeygenError where
  /-- The generator could not be seeded again. -/
  | entropy (cause : EntropyError)
  | scheme (cause : SchemeError)
  deriving DecidableEq, Repr

/-- The message of a key generation's error, which leaves its cause out. -/
def KeygenError.message : KeygenError → String
  | .entropy _ => "entropy source failed"
  | .scheme _ => "scheme key generation failed"

/-- Why a call on a context fails. -/
inductive ContextError where
  | config (cause : ConfigError)
  | keygen (cause : KeygenError)
  | keyAbsent (keyClass : KeyClass)
  | decode (cause : DecodeError)
  /-- A cryptographic operation failed; no more is told. -/
  | cryptoOp
  | unsupported (scheme : SchemeId) (operation : Operation)
  | destroyed
  deriving DecidableEq, Repr

inductive ErrorCode where
  | config | keygen | keyAbsent | decode | cryptoOp | unsupported | destroyed
  deriving DecidableEq, Repr

def ErrorCode.label : ErrorCode → String
  | .config => "Config"
  | .keygen => "Keygen"
  | .keyAbsent => "KeyAbsent"
  | .decode => "Decode"
  | .cryptoOp => "CryptoOp"
  | .unsupported => "Unsupported"
  | .destroyed => "Destroyed"

def ErrorCode.all : List ErrorCode :=
  [.config, .keygen, .keyAbsent, .decode, .cryptoOp, .unsupported, .destroyed]

/-- The name and the number of a kind of failure. -/
def ErrorCode.text : ErrorCode → String
  | .config => "CONFIG_ERROR (1)"
  | .keygen => "KEYGEN_ERROR (2)"
  | .keyAbsent => "KEY_ABSENT (3)"
  | .decode => "DECODE_ERROR (4)"
  | .cryptoOp => "CRYPTO_OP_ERROR (5)"
  | .unsupported => "INVALID_FUNCTION_CALL (6)"
  | .destroyed => "CONTEXT_DESTROYED (7)"

namespace ContextError

def code : ContextError → ErrorCode
  | .config _ => .config
  | .keygen _ => .keygen
  | .keyAbsent _ => .keyAbsent
  | .decode _ => .decode
  | .cryptoOp => .cryptoOp
  | .unsupported _ _ => .unsupported
  | .destroyed => .destroyed

def label : ContextError → String
  | .config cause => cause.label
  | .keygen (.entropy cause) => "Keygen.Entropy." ++ cause.label
  | .keygen (.scheme cause) => "Keygen." ++ cause.label
  | .keyAbsent _ => "KeyState.Absent"
  | .decode cause => cause.label
  | .cryptoOp => "CryptoOp"
  | .unsupported _ _ => "Unsupported"
  | .destroyed => "Destroyed"

/-- Whether the same call may succeed with fresh random bytes. -/
def isTransient : ContextError → Bool
  | .keygen _ => true
  | _ => false

def message : ContextError → String
  | .config cause => "Configuration rejected: " ++ cause.message
  | .keygen cause => "Key generation failed: " ++ cause.message
  | .keyAbsent keyClass => keyClass.text ++ " key is absent"
  | .decode cause => "Key decoding failed: " ++ cause.message
  | .cryptoOp => "Cryptographic operation failed"
  | .unsupported scheme operation => scheme.name ++ " does not support " ++ operation.text
  | .destroyed => "Context has been destroyed"

/-- What a context tells of a backend's error: that the operation is not
offered, or nothing. -/
def ofScheme (scheme : SchemeId) : SchemeError → ContextError
  | .unsupported operation => .unsupported scheme operation
  | _ => .cryptoOp

end ContextError

end LatticeSuite
