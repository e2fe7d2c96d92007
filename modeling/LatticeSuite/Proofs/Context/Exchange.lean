import LatticeSuite.Proofs.Context.Lifecycle

/-!
# A backend is asked about the keys in the slots

A backend is a table of functions of arbitrary byte strings, but a context gives it
no byte strings other than the keys that it holds.

> Exchange the backend for another that generates keys alike and does the same with
> the keys in the slots, and no call tells them apart (`Context.perform_exchange`).

So a branch of a backend that only other keys would take is out of reach: it may do
anything, and neither answer, nor log, nor what is left of generator and entropy
would be different.
-/

namespace LatticeSuite

variable {σ α β : Type}

/-- The operations on keys of a class are the same on this one. -/
def Backend.AgreeOn (b other : Backend σ) : KeyClass → (key : Bytes) → Prop
  | .publicKey, key =>
    b.verify key = other.verify key ∧ b.encrypt key = other.encrypt key ∧
      b.encapsulate key = other.encapsulate key
  | .privateKey, key =>
    b.sign key = other.sign key ∧ b.decrypt key = other.decrypt key ∧
      b.decapsulate key = other.decapsulate key

namespace Context

/-- The context with another backend, in the state of its own. -/
def exchange (other : Backend σ) (c : Context σ) : Context σ :=
  { c with backend := c.backend.map fun made => (other, made.2) }

end Context

/-- The outcome with another backend in its context. -/
def Outcome.exchange (other : Backend σ) (o : Outcome σ α) : Outcome σ α :=
  { o with context := o.context.exchange other }

namespace Context

variable {c : Context σ} {other : Backend σ} {call : Call} {entropy : Entropy}

/-- The other backend generates keys alike and does the same with the keys that
are there. -/
structure Unaffected (c : Context σ) (other : Backend σ) : Prop where
  keygen : ∀ m, c.machine? = some m → m.backend.keygen = other.keygen
  keys : ∀ m keyClass key, c.machine? = some m → (c.slot keyClass).key = some key →
    m.backend.AgreeOn other keyClass key.bytes

theorem Unaffected.agree (h : c.Unaffected other) {operation : Operation} {keyClass : KeyClass}
    {key : Bytes} {m : Machine σ} (hgate : c.gate operation keyClass = .ok (key, m)) :
    m.backend.AgreeOn other keyClass key := by
  obtain ⟨held, hkey, rfl, hm⟩ := of_gate hgate
  exact h.keys m keyClass held hm hkey

theorem machine?_exchange (c : Context σ) (other : Backend σ) :
    (c.exchange other).machine? = c.machine?.map fun m => { m with backend := other } := by
  unfold machine? exchange
  cases hcsprng : c.csprng with
  | none => rfl
  | some csprng =>
    cases hbackend : c.backend with
    | none => rfl
    | some made => rfl

theorem slot_exchange (c : Context σ) (other : Backend σ) (keyClass : KeyClass) :
    (c.exchange other).slot keyClass = c.slot keyClass := by
  cases keyClass with
  | publicKey => rfl
  | privateKey => rfl

/-- The gates do not look at the backend. -/
theorem gate_exchange (c : Context σ) (other : Backend σ) (operation : Operation)
    (keyClass : KeyClass) :
    (c.exchange other).gate operation keyClass =
      (c.gate operation keyClass).map fun (key, m) => (key, { m with backend := other }) := by
  unfold gate
  rw [machine?_exchange, slot_exchange]
  show (if (!c.state.isLive) = true then _
    else if (!c.descriptor.capabilities.supports operation) = true then _ else _) = _
  split
  next => rfl
  next =>
    split
    next => rfl
    next =>
      cases (c.slot keyClass).key with
      | none => rfl
      | some key =>
        cases c.machine? with
        | none => rfl
        | some m => rfl

variable (other)

theorem drawing_exchange (name : String) (operation : Operation) (keyClass : KeyClass)
    (run : Backend σ → (key : Bytes) → DrawingOperation σ α) (count : Statistics → Statistics)
    (entropy : Entropy)
    (hrun : ∀ key m, c.gate operation keyClass = .ok (key, m) → run m.backend key = run other key) :
    (c.exchange other).drawing name operation keyClass run count entropy =
      ((c.drawing name operation keyClass run count entropy).1.exchange other,
        (c.drawing name operation keyClass run count entropy).2) := by
  unfold drawing
  rw [gate_exchange]
  cases hgate : c.gate operation keyClass with
  | error e => rfl
  | ok passed =>
    obtain ⟨key, m⟩ := passed
    have hsame := hrun key m hgate
    simp only [Except.map, draw, Machine.draw, ← hsame]
    rcases run m.backend key m.state { csprng := m.csprng, entropy } with ⟨r, state, left⟩
    cases r with
    | error cause => rfl
    | ok a => rfl

theorem quiet_exchange (name : String) (operation : Operation) (keyClass : KeyClass)
    (run : Backend σ → (key : Bytes) → QuietOperation σ α) (count : α → Statistics → Statistics)
    (hrun : ∀ key m, c.gate operation keyClass = .ok (key, m) → run m.backend key = run other key) :
    (c.exchange other).quiet name operation keyClass run count =
      (c.quiet name operation keyClass run count).exchange other := by
  unfold quiet
  rw [gate_exchange]
  cases hgate : c.gate operation keyClass with
  | error e => rfl
  | ok passed =>
    obtain ⟨key, m⟩ := passed
    have hsame := hrun key m hgate
    simp only [Except.map, ask, Machine.ask, ← hsame]
    rcases run m.backend key m.state with ⟨r, state⟩
    cases r with
    | error cause => rfl
    | ok a => rfl

variable {other}

theorem keygen_exchange (h : c.Unaffected other) (entropy : Entropy) :
    (c.exchange other).keygen entropy =
      ((c.keygen entropy).1.exchange other, (c.keygen entropy).2) := by
  unfold keygen
  rw [machine?_exchange]
  show (if (!c.state.canKeygen) = true then _ else _) = _
  split
  next => rfl
  next =>
    cases hm : c.machine? with
    | none => rfl
    | some m =>
      have hsame := h.keygen m hm
      simp only [Option.map, ← hsame]
      rcases Supply.reseed { csprng := m.csprng, entropy } with ⟨r, csprng, after⟩
      cases r with
      | error e => rfl
      | ok u =>
        rcases hr : m.backend.keygen m.state { csprng, entropy := after } with ⟨r, state, left⟩
        have hdraw : ∀ (d : Context σ) (b : Backend σ),
            d.draw { csprng, backend := b, state := m.state } m.backend.keygen after =
              (r, d.withMachine { csprng := left.csprng, backend := b, state }, left.entropy) := by
          intro d b
          unfold draw Machine.draw
          rw [hr]
        simp only [hdraw]
        cases r with
        | error cause => rfl
        | ok pair => rfl

theorem encodeKey_exchange (c : Context σ) (other : Backend σ) (keyClass : KeyClass) :
    (c.exchange other).encodeKey keyClass = (c.encodeKey keyClass).exchange other := by
  unfold encodeKey
  rw [slot_exchange]
  show (if (!c.state.isLive) = true then _ else _) = _
  split
  next => rfl
  next =>
    cases (c.slot keyClass).key with
    | none => rfl
    | some key => rfl

theorem storeKey_exchange (c : Context σ) (other : Backend σ) (key : KeyMaterial) :
    (c.exchange other).storeKey key = (c.storeKey key).exchange other := by
  unfold storeKey
  split
  next => rfl
  next => rfl

theorem loadKey_exchange (c : Context σ) (other : Backend σ) (keyClass : KeyClass)
    (envelope : Bytes) :
    (c.exchange other).loadKey keyClass envelope = (c.loadKey keyClass envelope).exchange other := by
  have hstate : (c.exchange other).state = c.state := rfl
  have hscheme : (c.exchange other).scheme = c.scheme := rfl
  have hparam : (c.exchange other).paramSet = c.paramSet := rfl
  have hbytes : (c.exchange other).keyBytes keyClass = c.keyBytes keyClass := rfl
  unfold loadKey
  rw [slot_exchange, hstate, hscheme, hparam]
  split
  next => rfl
  next =>
    cases Envelope.decodeKey envelope (c.slot keyClass).coding keyClass c.scheme c.paramSet with
    | error e => rfl
    | ok key =>
      dsimp only
      rw [hbytes]
      split
      next => rfl
      next =>
        rw [storeKey_exchange]
        rfl

theorem verify_exchange (h : c.Unaffected other) (message envelope : Bytes) :
    (c.exchange other).verify message envelope = (c.verify message envelope).exchange other := by
  have hquiet : (c.exchange other).quiet "verify" .verify .publicKey
      (verdict c.signatureCoding message envelope) (fun valid s => s.recordVerdict valid) =
        (c.quiet "verify" .verify .publicKey (verdict c.signatureCoding message envelope)
          fun valid s => s.recordVerdict valid).exchange other := by
    refine quiet_exchange other "verify" .verify .publicKey _ _ ?_
    intro key m hgate
    unfold verdict
    rw [(h.agree hgate).1]
  unfold verify
  simp only [show (c.exchange other).signatureCoding = c.signatureCoding from rfl, hquiet]
  -- what is logged depends on the verdict only
  rcases c.quiet "verify" .verify .publicKey (verdict c.signatureCoding message envelope)
    fun valid s => s.recordVerdict valid with ⟨answer, context, log⟩
  rcases answer with e | (_ | _)
  · rfl
  · rfl
  · rfl

theorem destroy_exchange (c : Context σ) (other : Backend σ) :
    (c.exchange other).destroy = c.destroy.exchange other := by
  unfold destroy
  show (if c.destroyed = true then _ else _) = _
  split
  next => rfl
  next => rfl

/-- **A backend is asked about the keys in the slots and no others**: one that
differs elsewhere is not told apart. -/
theorem perform_exchange (h : c.Unaffected other) (call : Call) (entropy : Entropy) :
    (c.exchange other).perform call entropy =
      ((c.perform call entropy).1.exchange other, (c.perform call entropy).2) := by
  cases call with
  | keygen =>
    simp only [perform, keygen_exchange h]
    rfl
  | encodeKey keyClass =>
    simp only [perform, encodeKey_exchange]
    rfl
  | loadKey keyClass envelope =>
    simp only [perform, loadKey_exchange]
    rfl
  | sign message =>
    have hdrawing := c.drawing_exchange other "sign" .sign .privateKey
      (fun b key => b.sign key message) (fun s => { s with signatures := s.signatures + 1 }) entropy
      fun key m hgate => congrFun (h.agree hgate).1 message
    simp only [perform, sign, hdrawing]
    rfl
  | verify message envelope =>
    simp only [perform, verify_exchange h]
    rfl
  | encrypt plaintext padding =>
    have hdrawing := c.drawing_exchange other "public_encrypt" .encrypt .publicKey
      (fun b key => b.encrypt key (padding.pad plaintext))
      (fun s => { s with encryptions := s.encryptions + 1 }) entropy
      fun key m hgate => congrFun (h.agree hgate).2.1 _
    simp only [perform, encrypt, hdrawing]
    rfl
  | decrypt ciphertext padding =>
    have hquiet := c.quiet_exchange other "private_decrypt" .decrypt .privateKey
      (opened ciphertext padding) (fun _ s => { s with decryptions := s.decryptions + 1 })
      fun key m hgate => by unfold opened; rw [(h.agree hgate).2.1]
    simp only [perform, decrypt, hquiet]
    rfl
  | encapsulate =>
    have hdrawing := c.drawing_exchange other "encapsulate" .encapsulate .publicKey
      (fun b key => b.encapsulate key)
      (fun s => { s with encapsulations := s.encapsulations + 1 }) entropy
      fun key m hgate => (h.agree hgate).2.2
    simp only [perform, encapsulate, hdrawing]
    rfl
  | decapsulate ciphertext =>
    have hquiet := c.quiet_exchange other "decapsulate" .decapsulate .privateKey
      (fun b key => b.decapsulate key ciphertext)
      (fun _ s => { s with decapsulations := s.decapsulations + 1 })
      fun key m hgate => congrFun (h.agree hgate).2.2 ciphertext
    simp only [perform, decapsulate, hquiet]
    rfl
  | setKeyCoding publicCoding privateCoding => rfl
  | setSignatureCoding coding => rfl
  | setDebugLevel level => rfl
  | takeError => rfl
  | peekError => rfl
  | clearErrors => rfl
  | destroy =>
    simp only [perform, destroy_exchange]

end Context

end LatticeSuite
