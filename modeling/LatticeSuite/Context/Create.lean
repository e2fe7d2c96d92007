import LatticeSuite.Context.Basic
import LatticeSuite.Flags.Resolve

/-!
# Creating contexts

The flags are decoded, the scheme is looked up, the generator is seeded and the
backend is instantiated, in this order, and the first of them that fails is
what is reported. No entropy is asked for unless flags and scheme are right.
-/

namespace LatticeSuite

/-- What a context is created from. -/
structure ContextSettings where
  scheme : SchemeId
  paramSet : UInt32
  /-- The flag words; without any, every choice has its default. -/
  flags : List UInt32 := []
  debugLevel : DebugLevel := .none
  publicCoding : KeyCoding := .raw
  privateCoding : KeyCoding := .raw
  /-- The coding of signatures, if not the one that the flags choose. -/
  signatureCoding : Option KeyCoding := none
  deriving DecidableEq, Repr

namespace ContextSettings

variable {σ : Type}

/-- The context of the settings, without anything being logged. -/
def build (s : ContextSettings) (registry : Registry σ) (entropy : Entropy) :
    Except ConfigError (Context σ) × Entropy :=
  match Flags.resolve s.flags with
  | .error e => (.error (.flags e), entropy)
  | .ok features =>
    match registry.lookup s.scheme s.paramSet with
    | .error e => (.error (.lookup e), entropy)
    | .ok entry =>
      let config := SchemeConfig.ofFeatures features entry.descriptor s.paramSet
      match Supply.construct features.csprng entropy with
      | (.error e, entropy) => (.error (.csprng e), entropy)
      | (.ok csprng, entropy) =>
        match entry.factory.instantiate config with
        | .error e => (.error (.scheme e), entropy)
        | .ok backend =>
          (.ok
            { scheme := s.scheme
              paramSet := s.paramSet
              features
              descriptor := entry.descriptor
              parameterSet := entry.parameterSet
              config
              csprng := some csprng
              backend := some backend
              publicSlot := { coding := s.publicCoding }
              privateSlot := { coding := s.privateCoding }
              signatureCoding := s.signatureCoding.getD features.signatureCoding
              debugLevel := s.debugLevel }, entropy)

/-- What is logged of a new context. -/
def announce (c : Context σ) : List LogRecord :=
  let request := c.features.csprng
  let threading := c.config.threading
  c.emit .info ("created " ++ c.scheme.name ++ " context (" ++ c.parameterSet.name ++ "), " ++
    c.features.text) ++
  (if request.algorithm.isCryptographic then []
   else c.emit .warn (request.algorithm.text ++
     " is a statistical generator, not a cryptographic one")) ++
  c.emit .debug ("constructed " ++ request.algorithm.text ++ " CSPRNG seeded from " ++
    request.source.label) ++
  (if threading.keygen || threading.encryptSign || threading.decryptVerify then
     c.emit .debug ("threading requested; " ++ c.scheme.name ++ " runs single-threaded")
   else [])

/-- How the creation of a context ends. -/
structure Created (σ : Type) where
  answer : Except ContextError (Context σ)
  entropy : Entropy
  log : List LogRecord

def create (s : ContextSettings) (registry : Registry σ) (entropy : Entropy) : Created σ :=
  match s.build registry entropy with
  | (.ok c, entropy) => { answer := .ok c, entropy, log := announce c }
  | (.error e, entropy) =>
    { answer := .error (.config e)
      entropy
      log := s.debugLevel.emit .error ("context creation failed: " ++ e.message) }

end ContextSettings

end LatticeSuite
