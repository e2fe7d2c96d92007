import LatticeSuite.Context.Keys
import LatticeSuite.Context.Operations

/-!
# Runs of calls

Everything that changes a context is a `Call`, and everything that a context
can be asked for is answered by a `Reply`. So the history of a context is a
list of calls, and `Context.run` is what comes of it.

A call of the settings or of the error record always succeeds, also on a
destroyed context.
-/

namespace LatticeSuite

inductive Call where
  | keygen
  | encodeKey (keyClass : KeyClass)
  | loadKey (keyClass : KeyClass) (envelope : Bytes)
  | sign (message : Bytes)
  | verify (message envelope : Bytes)
  | encrypt (plaintext : Bytes) (padding : Padding)
  | decrypt (ciphertext : Bytes) (padding : Padding)
  | encapsulate
  | decapsulate (ciphertext : Bytes)
  | setKeyCoding (publicCoding privateCoding : KeyCoding)
  | setSignatureCoding (coding : KeyCoding)
  | setDebugLevel (level : DebugLevel)
  /-- Take the oldest failure out of the record. Who wants nothing but its code and its
  place makes the same call and drops the rest of the answer. -/
  | takeError
  /-- Look at the oldest failure. For its code and its place alone the same holds. -/
  | peekError
  | clearErrors
  | destroy
  deriving DecidableEq

/-- The answer to a call that succeeds. -/
inductive Reply where
  | done
  | bytes (bs : Bytes)
  | verdict (valid : Bool)
  | encapsulated (e : Encapsulation)
  | failure (record : Option (ErrorRecord Unit))
  deriving DecidableEq

namespace Context

variable {σ : Type}

/-- The outcome of a call that only changes the context. -/
def settled (c : Context σ) (reply : Reply) : Outcome σ Reply :=
  { answer := .ok reply, context := c }

def setKeyCoding (c : Context σ) (publicCoding privateCoding : KeyCoding) : Context σ :=
  { c with
    publicSlot := { c.publicSlot with coding := publicCoding }
    privateSlot := { c.privateSlot with coding := privateCoding } }

/-- Let go of the keys, the backend and the generator. -/
def release (c : Context σ) : Context σ :=
  { c with
    publicSlot := { c.publicSlot with key := none }
    privateSlot := { c.privateSlot with key := none }
    backend := none
    csprng := none
    destroyed := true }

/-- Destroy a context. The record of failures stays; a second time nothing
happens. -/
def destroy (c : Context σ) : Outcome σ Reply :=
  if c.destroyed then c.settled .done
  else
    { c.release.settled .done with log := c.emit .info (c.scheme.name ++ " context destroyed") }

def perform (c : Context σ) (call : Call) (entropy : Entropy) : Outcome σ Reply × Entropy :=
  match call with
  | .keygen =>
    let (o, entropy) := c.keygen entropy
    (o.map fun () => .done, entropy)
  | .encodeKey keyClass => ((c.encodeKey keyClass).map .bytes, entropy)
  | .loadKey keyClass envelope => ((c.loadKey keyClass envelope).map fun () => .done, entropy)
  | .sign message =>
    let (o, entropy) := c.sign message entropy
    (o.map .bytes, entropy)
  | .verify message envelope => ((c.verify message envelope).map .verdict, entropy)
  | .encrypt plaintext padding =>
    let (o, entropy) := c.encrypt plaintext padding entropy
    (o.map .bytes, entropy)
  | .decrypt ciphertext padding => ((c.decrypt ciphertext padding).map .bytes, entropy)
  | .encapsulate =>
    let (o, entropy) := c.encapsulate entropy
    (o.map .encapsulated, entropy)
  | .decapsulate ciphertext => ((c.decapsulate ciphertext).map .bytes, entropy)
  | .setKeyCoding publicCoding privateCoding =>
    ({ (c.setKeyCoding publicCoding privateCoding).settled .done with
        log := c.emit .debug ("key coding set to " ++ publicCoding.text ++ " / " ++
          privateCoding.text) }, entropy)
  | .setSignatureCoding coding => (({ c with signatureCoding := coding }).settled .done, entropy)
  | .setDebugLevel level => (({ c with debugLevel := level }).settled .done, entropy)
  | .takeError =>
    let (record, errors) := c.errors.take?
    (({ c with errors }).settled (.failure record), entropy)
  | .peekError => (c.settled (.failure c.errors.peek?), entropy)
  | .clearErrors => (({ c with errors := c.errors.clear }).settled .done, entropy)
  | .destroy => (c.destroy, entropy)

/-- What came of a list of calls: their answers in order, the context and the
entropy after the last, and all that was logged. -/
structure Transcript (σ : Type) where
  answers : List (Except ContextError Reply)
  context : Context σ
  entropy : Entropy
  log : List LogRecord

/-- Answer calls one after the other. -/
def run (c : Context σ) : (calls : List Call) → (entropy : Entropy) → Transcript σ
  | [], entropy => { answers := [], context := c, entropy, log := [] }
  | call :: calls, entropy =>
    let (o, entropy) := c.perform call entropy
    let rest := o.context.run calls entropy
    { rest with answers := o.answer :: rest.answers, log := o.log ++ rest.log }

end Context

end LatticeSuite
