import LatticeSuite.Coding.Envelope
import LatticeSuite.Context.ErrorStack
import LatticeSuite.Context.Log
import LatticeSuite.Context.State
import LatticeSuite.Context.Statistics
import LatticeSuite.Scheme.Machine

/-!
# Contexts

A context is a scheme in use: its settings, a generator, the backend with its
state, a slot for the key of either class, the record of failures and the
counters. What surrounds it, the entropy, is passed to the calls that need it,
and what a call logs is handed back with its answer.

A call that fails leaves the slots, the codings and the counters alone, records
its failure once and logs it; `Context.fail` is how every call ends that
fails, and `Context.succeed` how one ends that does not.

Where in the text of a program a failure is noticed says nothing about contexts
and is left out: a recorded failure has `()` for its place, and what is logged of
it lacks the place that follows the message. So where two records or two logs
are said to be equal, they are so up to the places.
-/

namespace LatticeSuite

/-- A place for a key, and how keys of its class are coded. -/
structure KeySlot where
  key : Option KeyMaterial := none
  coding : KeyCoding := .raw
  deriving DecidableEq

structure Context (σ : Type) where
  scheme : SchemeId
  paramSet : UInt32
  features : FeatureConfig
  descriptor : SchemeDescriptor
  parameterSet : ParameterSet
  /-- What the backend was instantiated with. -/
  config : SchemeConfig
  /-- The generator, until the context is destroyed. -/
  csprng : Option Csprng
  /-- The backend and its state, until the context is destroyed. -/
  backend : Option (Backend σ × σ)
  publicSlot : KeySlot := {}
  privateSlot : KeySlot := {}
  signatureCoding : KeyCoding
  errors : ErrorStack Unit := {}
  debugLevel : DebugLevel := .none
  statistics : Statistics := {}
  destroyed : Bool := false

/-- How a call on a context ends. -/
structure Outcome (σ α : Type) where
  answer : Except ContextError α
  /-- The context after the call. -/
  context : Context σ
  /-- What the call logged, without the places of failures. -/
  log : List LogRecord := []

/-- The outcome with another answer. -/
def Outcome.map {σ α β : Type} (f : α → β) (o : Outcome σ α) : Outcome σ β :=
  { answer := o.answer.map f, context := o.context, log := o.log }

namespace Context

variable {σ α : Type}

def slot (c : Context σ) : KeyClass → KeySlot
  | .publicKey => c.publicSlot
  | .privateKey => c.privateSlot

/-- Put a key into the slot of its class. -/
def storeKey (c : Context σ) (key : KeyMaterial) : Context σ :=
  match key.keyClass with
  | .publicKey => { c with publicSlot := { c.publicSlot with key := some key } }
  | .privateKey => { c with privateSlot := { c.privateSlot with key := some key } }

def hasKey (c : Context σ) (keyClass : KeyClass) : Bool :=
  (c.slot keyClass).key.isSome

/-- The key length that the parameter set fixes for a class. -/
def keyBytes (c : Context σ) : KeyClass → Nat
  | .publicKey => c.parameterSet.publicKeyBytes
  | .privateKey => c.parameterSet.privateKeyBytes

def state (c : Context σ) : ContextState :=
  .derive c.destroyed (c.hasKey .publicKey || c.hasKey .privateKey)

/-- What the backend is called with, unless it is gone. -/
def machine? (c : Context σ) : Option (Machine σ) :=
  match c.csprng, c.backend with
  | some csprng, some (backend, state) => some { csprng, backend, state }
  | _, _ => none

/-- Keep what a call of the backend left behind. -/
def withMachine (c : Context σ) (m : Machine σ) : Context σ :=
  { c with csprng := some m.csprng, backend := some (m.backend, m.state) }

/-- Call the backend with the generator. -/
def draw (c : Context σ) (m : Machine σ) (operation : DrawingOperation σ α) (entropy : Entropy) :
    Except SchemeError α × Context σ × Entropy :=
  let (r, m, entropy) := m.draw operation entropy
  (r, c.withMachine m, entropy)

/-- Call the backend without the generator. -/
def ask (c : Context σ) (m : Machine σ) (operation : QuietOperation σ α) :
    Except SchemeError α × Context σ :=
  let (r, m) := m.ask operation
  (r, c.withMachine m)

/-- Log a record, if the context logs its level. -/
def emit (c : Context σ) (level : LogLevel) (message : String) : List LogRecord :=
  c.debugLevel.emit level message

/-- The end of a call that failed. Neither the record nor what is logged has the place at
which the failure was noticed; in the log it follows the message in brackets. -/
def fail (c : Context σ) (call : String) (e : ContextError) : Outcome σ α :=
  { answer := .error e
    context := { c with errors := c.errors.push e.code () }
    log := c.emit .error (call ++ " failed: " ++ e.message) }

/-- The end of a call that succeeded, and how it is counted. -/
def succeed (c : Context σ) (count : Statistics → Statistics) (a : α) : Outcome σ α :=
  { answer := .ok a, context := { c with statistics := count c.statistics } }

def summary (c : Context σ) : String :=
  c.scheme.name ++ " [" ++ c.parameterSet.name ++ "]\n" ++ c.statistics.text

def describe (c : Context σ) : String :=
  let csprng := match c.csprng with
    | some csprng => "Some(" ++ csprng.describe ++ ")"
    | none => "None"
  "CryptoContext \x7b scheme: " ++ c.scheme.label ++ ", param_set: " ++ toString c.paramSet ++
    ", state: " ++ c.state.text ++ ", csprng: " ++ csprng ++
    ", key_coding: (" ++ c.publicSlot.coding.label ++ ", " ++ c.privateSlot.coding.label ++
    "), errors: " ++ toString c.errors.length ++ " \x7d"

end Context

end LatticeSuite
