import LatticeSuite.Context.Basic
import LatticeSuite.Context.Padding

/-!
# The cryptographic operations of a context

All six pass the same gates in the same order, `Context.gate`: the context is
alive, the scheme offers the operation, there is a key of the class that the
operation needs. Then the backend is called, with the generator
(`Context.drawing`) or without (`Context.quiet`). Of a failure behind the gates
nothing is told, except that a backend may disown the operation after all.
-/

namespace LatticeSuite.Context

variable {σ α : Type}

/-- The gates of an operation. Behind them are the key's bytes and what the
backend is called with. -/
def gate (c : Context σ) (operation : Operation) (keyClass : KeyClass) :
    Except ContextError (Bytes × Machine σ) :=
  if !c.state.isLive then .error .destroyed
  else if !c.descriptor.capabilities.supports operation then
    .error (.unsupported c.scheme operation)
  else
    match (c.slot keyClass).key with
    | none => .error (.keyAbsent keyClass)
    | some key =>
      match c.machine? with
      | none => .error .destroyed
      | some m => .ok (key.bytes, m)

/-- An operation that calls the backend with the generator. -/
def drawing (c : Context σ) (call : String) (operation : Operation) (keyClass : KeyClass)
    (run : Backend σ → (key : Bytes) → DrawingOperation σ α) (count : Statistics → Statistics)
    (entropy : Entropy) : Outcome σ α × Entropy :=
  match c.gate operation keyClass with
  | .error e => (c.fail call e, entropy)
  | .ok (key, m) =>
    match c.draw m (run m.backend key) entropy with
    | (.error e, c, entropy) => (c.fail call (.ofScheme c.scheme e), entropy)
    | (.ok a, c, entropy) => (c.succeed count a, entropy)

/-- An operation that calls the backend without the generator. -/
def quiet (c : Context σ) (call : String) (operation : Operation) (keyClass : KeyClass)
    (run : Backend σ → (key : Bytes) → QuietOperation σ α) (count : α → Statistics → Statistics) :
    Outcome σ α :=
  match c.gate operation keyClass with
  | .error e => c.fail call e
  | .ok (key, m) =>
    match c.ask m (run m.backend key) with
    | (.error e, c) => c.fail call (.ofScheme c.scheme e)
    | (.ok a, c) => c.succeed (count a) a

/-- Sign a message. The signature comes in an envelope of the signature coding. -/
def sign (c : Context σ) (message : Bytes) (entropy : Entropy) : Outcome σ Bytes × Entropy :=
  let (o, entropy) := c.drawing "sign" .sign .privateKey (fun b key => b.sign key message)
    (fun s => { s with signatures := s.signatures + 1 }) entropy
  (o.map fun signature => Envelope.encodeSignature signature c.signatureCoding, entropy)

/-- The backend's verdict on a signature in an envelope. An envelope that is
not one of the coding is as good as a false signature. -/
def verdict (coding : KeyCoding) (message envelope : Bytes) (b : Backend σ) (key : Bytes) :
    QuietOperation σ Bool :=
  match Envelope.decodeSignature envelope coding with
  | .ok signature => b.verify key message signature
  | .error _ => .ofResult (.ok false)

def verify (c : Context σ) (message envelope : Bytes) : Outcome σ Bool :=
  let o := c.quiet "verify" .verify .publicKey (verdict c.signatureCoding message envelope)
    fun valid s => s.recordVerdict valid
  match o.answer with
  | .ok false => { o with log := c.emit .info "signature rejected" }
  | _ => o

/-- Encrypt a plaintext after padding it. -/
def encrypt (c : Context σ) (plaintext : Bytes) (padding : Padding) (entropy : Entropy) :
    Outcome σ Bytes × Entropy :=
  c.drawing "public_encrypt" .encrypt .publicKey (fun b key => b.encrypt key (padding.pad plaintext))
    (fun s => { s with encryptions := s.encryptions + 1 }) entropy

/-- Decrypt with the backend and remove the padding. Malformed padding is a
failure like any other. -/
def opened (ciphertext : Bytes) (padding : Padding) (b : Backend σ) (key : Bytes) :
    QuietOperation σ Bytes :=
  fun s =>
    match b.decrypt key ciphertext s with
    | (.error e, s) => (.error e, s)
    | (.ok padded, s) =>
      match padding.unpad? padded with
      | none => (.error .failed, s)
      | some plaintext => (.ok plaintext, s)

def decrypt (c : Context σ) (ciphertext : Bytes) (padding : Padding) : Outcome σ Bytes :=
  c.quiet "private_decrypt" .decrypt .privateKey (opened ciphertext padding)
    fun _ s => { s with decryptions := s.decryptions + 1 }

def encapsulate (c : Context σ) (entropy : Entropy) : Outcome σ Encapsulation × Entropy :=
  c.drawing "encapsulate" .encapsulate .publicKey (fun b key => b.encapsulate key)
    (fun s => { s with encapsulations := s.encapsulations + 1 }) entropy

def decapsulate (c : Context σ) (ciphertext : Bytes) : Outcome σ Bytes :=
  c.quiet "decapsulate" .decapsulate .privateKey (fun b key => b.decapsulate key ciphertext)
    fun _ s => { s with decapsulations := s.decapsulations + 1 }

end LatticeSuite.Context
