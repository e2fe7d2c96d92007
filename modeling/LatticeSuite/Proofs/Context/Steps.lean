import LatticeSuite.Context.Call

/-!
# What a call can do

A call on a context can go wrong at many points: at a gate, while an envelope is
read, while the generator is seeded again, inside the backend, and behind it
when the padding is malformed. This file says once where it can end and what is
left then, so that a law about contexts is a case analysis and never looks into
the operations again:

- `Failure` lists the points of failure, each with what is left of generator,
  backend and entropy. The rest of the context is not listed because it is not
  touched, but for the record of the failure.
- `Success` lists the ways to succeed, each with the answer and the whole
  context after it.

> Every call ends in one of these ways (`Context.ends_perform`).

Nothing is assumed of the backend, which is a table of arbitrary functions with
a state of its own, or of the context. The six cryptographic operations are the
same few lines (`Context.drawing`, `Context.quiet`), so these lines are gone
through once, with the end of the operation left open, and the six are what
comes of naming it.
-/

namespace LatticeSuite

variable {σ α β : Type}

/-! ## The ways a call ends -/

/-- The errors of a call that was refused before generator or backend were asked. -/
def ContextError.Refusal (e : ContextError) : Prop :=
  e.code = .destroyed ∨ e.code = .unsupported ∨ e.code = .keyAbsent ∨ e.code = .decode

/-- Where a call on `c` fails with `e`, and what is left of the generator, of
the backend and of the entropy then. -/
inductive Failure (c : Context σ) (entropy : Entropy) :
    Call → ContextError → Option Csprng → Option (Backend σ × σ) → Entropy → Prop
  /-- The call was refused. -/
  | refused {call : Call} {e : ContextError} (h : e.Refusal) :
    Failure c entropy call e c.csprng c.backend entropy
  /-- The generator could not be seeded again. -/
  | reseed {m : Machine σ} {cause : EntropyError} {supply : Supply} (hm : c.machine? = some m)
      (h : Supply.reseed { csprng := m.csprng, entropy } = (.error cause, supply)) :
    Failure c entropy .keygen (.keygen (.entropy cause)) c.csprng c.backend supply.entropy
  /-- It could, and the backend failed. -/
  | keygen {m : Machine σ} {cause : SchemeError} {seeded left : Supply} {state : σ}
      (hm : c.machine? = some m)
      (hseed : Supply.reseed { csprng := m.csprng, entropy } = (.ok (), seeded))
      (h : m.backend.keygen m.state seeded = (.error cause, state, left)) :
    Failure c entropy .keygen (.keygen (.scheme cause)) (some left.csprng)
      (some (m.backend, state)) left.entropy
  | sign {message : Bytes} {key : KeyMaterial} {m : Machine σ} {cause : SchemeError} {state : σ}
      {left : Supply} (hkey : c.privateSlot.key = some key) (hm : c.machine? = some m)
      (h : m.backend.sign key.bytes message m.state { csprng := m.csprng, entropy } =
        (.error cause, state, left)) :
    Failure c entropy (.sign message) (.ofScheme c.scheme cause) (some left.csprng)
      (some (m.backend, state)) left.entropy
  | verify {message envelope signature : Bytes} {key : KeyMaterial} {m : Machine σ}
      {cause : SchemeError} {state : σ} (hkey : c.publicSlot.key = some key)
      (hm : c.machine? = some m)
      (hsig : Envelope.decodeSignature envelope c.signatureCoding = .ok signature)
      (h : m.backend.verify key.bytes message signature m.state = (.error cause, state)) :
    Failure c entropy (.verify message envelope) (.ofScheme c.scheme cause) c.csprng
      (some (m.backend, state)) entropy
  | encrypt {plaintext : Bytes} {padding : Padding} {key : KeyMaterial} {m : Machine σ}
      {cause : SchemeError} {state : σ} {left : Supply} (hkey : c.publicSlot.key = some key)
      (hm : c.machine? = some m)
      (h : m.backend.encrypt key.bytes (padding.pad plaintext) m.state
        { csprng := m.csprng, entropy } = (.error cause, state, left)) :
    Failure c entropy (.encrypt plaintext padding) (.ofScheme c.scheme cause) (some left.csprng)
      (some (m.backend, state)) left.entropy
  | decrypt {ciphertext : Bytes} {padding : Padding} {key : KeyMaterial} {m : Machine σ}
      {cause : SchemeError} {state : σ} (hkey : c.privateSlot.key = some key)
      (hm : c.machine? = some m)
      (h : m.backend.decrypt key.bytes ciphertext m.state = (.error cause, state)) :
    Failure c entropy (.decrypt ciphertext padding) (.ofScheme c.scheme cause) c.csprng
      (some (m.backend, state)) entropy
  /-- The backend decrypted, and the padding was malformed. -/
  | unpad {ciphertext padded : Bytes} {padding : Padding} {key : KeyMaterial} {m : Machine σ}
      {state : σ} (hkey : c.privateSlot.key = some key) (hm : c.machine? = some m)
      (h : m.backend.decrypt key.bytes ciphertext m.state = (.ok padded, state))
      (hpad : padding.unpad? padded = none) :
    Failure c entropy (.decrypt ciphertext padding) .cryptoOp c.csprng
      (some (m.backend, state)) entropy
  | encapsulate {key : KeyMaterial} {m : Machine σ} {cause : SchemeError} {state : σ}
      {left : Supply} (hkey : c.publicSlot.key = some key) (hm : c.machine? = some m)
      (h : m.backend.encapsulate key.bytes m.state { csprng := m.csprng, entropy } =
        (.error cause, state, left)) :
    Failure c entropy .encapsulate (.ofScheme c.scheme cause) (some left.csprng)
      (some (m.backend, state)) left.entropy
  | decapsulate {ciphertext : Bytes} {key : KeyMaterial} {m : Machine σ} {cause : SchemeError}
      {state : σ} (hkey : c.privateSlot.key = some key) (hm : c.machine? = some m)
      (h : m.backend.decapsulate key.bytes ciphertext m.state = (.error cause, state)) :
    Failure c entropy (.decapsulate ciphertext) (.ofScheme c.scheme cause) c.csprng
      (some (m.backend, state)) entropy

/-- What a call on `c` answers when it succeeds, and what it leaves. -/
inductive Success (c : Context σ) (entropy : Entropy) :
    Call → Reply → Context σ → Entropy → Prop
  | keygen {m : Machine σ} {seeded left : Supply} {pair : KeyPair} {state : σ}
      (hlive : c.destroyed = false) (hm : c.machine? = some m)
      (hseed : Supply.reseed { csprng := m.csprng, entropy } = (.ok (), seeded))
      (h : m.backend.keygen m.state seeded = (.ok pair, state, left)) :
    Success c entropy .keygen .done
      { (c.withMachine { m with csprng := left.csprng, state }).storePair pair with
        statistics := { c.statistics with keygens := c.statistics.keygens + 1 } } left.entropy
  | encodeKey {keyClass : KeyClass} {key : KeyMaterial} {coded : Bytes}
      (hlive : c.destroyed = false) (hkey : (c.slot keyClass).key = some key)
      (hcoded : Envelope.encodeKey key (c.slot keyClass).coding = coded) :
    Success c entropy (.encodeKey keyClass) (.bytes coded)
      { c with
        statistics := c.statistics.modifyKeys keyClass (·.recordEncode key.length coded.length) }
      entropy
  | loadKey {keyClass : KeyClass} {envelope : Bytes} {key : KeyMaterial}
      (hlive : c.destroyed = false)
      (hkey : Envelope.decodeKey envelope (c.slot keyClass).coding keyClass c.scheme c.paramSet =
        .ok key)
      (hlength : key.length = c.keyBytes keyClass) :
    Success c entropy (.loadKey keyClass envelope) .done
      { c.storeKey key with
        statistics := c.statistics.modifyKeys keyClass (·.recordLoad key.length envelope.length) }
      entropy
  | sign {message signature : Bytes} {key : KeyMaterial} {m : Machine σ} {state : σ}
      {left : Supply} (hlive : c.destroyed = false) (hkey : c.privateSlot.key = some key)
      (hm : c.machine? = some m)
      (h : m.backend.sign key.bytes message m.state { csprng := m.csprng, entropy } =
        (.ok signature, state, left)) :
    Success c entropy (.sign message)
      (.bytes (Envelope.encodeSignature signature c.signatureCoding))
      { c with
        csprng := some left.csprng
        backend := some (m.backend, state)
        statistics := { c.statistics with signatures := c.statistics.signatures + 1 } }
      left.entropy
  | verify {message envelope signature : Bytes} {key : KeyMaterial} {m : Machine σ} {state : σ}
      {valid : Bool} (hlive : c.destroyed = false) (hkey : c.publicSlot.key = some key)
      (hm : c.machine? = some m)
      (hsig : Envelope.decodeSignature envelope c.signatureCoding = .ok signature)
      (h : m.backend.verify key.bytes message signature m.state = (.ok valid, state)) :
    Success c entropy (.verify message envelope) (.verdict valid)
      { c with
        backend := some (m.backend, state)
        statistics := c.statistics.recordVerdict valid } entropy
  /-- The envelope was malformed, and the backend was not asked. -/
  | reject {message envelope : Bytes} {key : KeyMaterial} {cause : DecodeError}
      (hlive : c.destroyed = false) (hkey : c.publicSlot.key = some key)
      (hsig : Envelope.decodeSignature envelope c.signatureCoding = .error cause) :
    Success c entropy (.verify message envelope) (.verdict false)
      { c with statistics := c.statistics.recordVerdict false } entropy
  | encrypt {plaintext ciphertext : Bytes} {padding : Padding} {key : KeyMaterial}
      {m : Machine σ} {state : σ} {left : Supply} (hlive : c.destroyed = false)
      (hkey : c.publicSlot.key = some key) (hm : c.machine? = some m)
      (h : m.backend.encrypt key.bytes (padding.pad plaintext) m.state
        { csprng := m.csprng, entropy } = (.ok ciphertext, state, left)) :
    Success c entropy (.encrypt plaintext padding) (.bytes ciphertext)
      { c with
        csprng := some left.csprng
        backend := some (m.backend, state)
        statistics := { c.statistics with encryptions := c.statistics.encryptions + 1 } }
      left.entropy
  | decrypt {ciphertext padded plaintext : Bytes} {padding : Padding} {key : KeyMaterial}
      {m : Machine σ} {state : σ} (hlive : c.destroyed = false)
      (hkey : c.privateSlot.key = some key) (hm : c.machine? = some m)
      (h : m.backend.decrypt key.bytes ciphertext m.state = (.ok padded, state))
      (hpad : padding.unpad? padded = some plaintext) :
    Success c entropy (.decrypt ciphertext padding) (.bytes plaintext)
      { c with
        backend := some (m.backend, state)
        statistics := { c.statistics with decryptions := c.statistics.decryptions + 1 } } entropy
  | encapsulate {encapsulation : Encapsulation} {key : KeyMaterial} {m : Machine σ} {state : σ}
      {left : Supply} (hlive : c.destroyed = false) (hkey : c.publicSlot.key = some key)
      (hm : c.machine? = some m)
      (h : m.backend.encapsulate key.bytes m.state { csprng := m.csprng, entropy } =
        (.ok encapsulation, state, left)) :
    Success c entropy .encapsulate (.encapsulated encapsulation)
      { c with
        csprng := some left.csprng
        backend := some (m.backend, state)
        statistics := { c.statistics with encapsulations := c.statistics.encapsulations + 1 } }
      left.entropy
  | decapsulate {ciphertext secret : Bytes} {key : KeyMaterial} {m : Machine σ} {state : σ}
      (hlive : c.destroyed = false) (hkey : c.privateSlot.key = some key)
      (hm : c.machine? = some m)
      (h : m.backend.decapsulate key.bytes ciphertext m.state = (.ok secret, state)) :
    Success c entropy (.decapsulate ciphertext) (.bytes secret)
      { c with
        backend := some (m.backend, state)
        statistics := { c.statistics with decapsulations := c.statistics.decapsulations + 1 } }
      entropy
  | setKeyCoding (publicCoding privateCoding : KeyCoding) :
    Success c entropy (.setKeyCoding publicCoding privateCoding) .done
      (c.setKeyCoding publicCoding privateCoding) entropy
  | setSignatureCoding (coding : KeyCoding) :
    Success c entropy (.setSignatureCoding coding) .done { c with signatureCoding := coding }
      entropy
  | setDebugLevel (level : DebugLevel) :
    Success c entropy (.setDebugLevel level) .done { c with debugLevel := level } entropy
  | takeError :
    Success c entropy .takeError (.failure c.errors.take?.1) { c with errors := c.errors.take?.2 }
      entropy
  | peekError : Success c entropy .peekError (.failure c.errors.peek?) c entropy
  | clearErrors :
    Success c entropy .clearErrors .done { c with errors := c.errors.clear } entropy
  | destroy (hlive : c.destroyed = false) : Success c entropy .destroy .done c.release entropy
  /-- A second destruction does nothing. -/
  | destroyed (hdead : c.destroyed = true) : Success c entropy .destroy .done c entropy

theorem Outcome.map_map {γ : Type} (o : Outcome σ α) (f : α → β) (g : β → γ) :
    (o.map f).map g = o.map (g ∘ f) := by
  cases o with
  | mk answer context log => cases answer <;> rfl

namespace Context

/-- The outcome `r` of a call on `c` is one of these, and the entropy behind it. -/
def Ends (c : Context σ) (call : Call) (entropy : Entropy) (r : Outcome σ Reply × Entropy) :
    Prop :=
  (∃ e csprng backend, r.1.answer = .error e ∧
      r.1.context = { c with csprng, backend, errors := c.errors.push e.code () } ∧
      Failure c entropy call e csprng backend r.2) ∨
    ∃ reply, r.1.answer = .ok reply ∧ Success c entropy call reply r.1.context r.2

variable {c : Context σ} {call : Call} {entropy : Entropy}

theorem ends_refused (name : String) {e : ContextError} (he : e.Refusal) (f : α → Reply) :
    Ends c call entropy ((c.fail name e : Outcome σ α).map f, entropy) :=
  Or.inl ⟨e, c.csprng, c.backend, rfl, rfl, .refused he⟩

/-! ## The gates -/

@[simp] theorem isLive_state (c : Context σ) : c.state.isLive = !c.destroyed :=
  ContextState.isLive_derive _ _

@[simp] theorem canKeygen_state (c : Context σ) : c.state.canKeygen = !c.destroyed :=
  ContextState.canKeygen_derive _ _

theorem machine?_eq_some {m : Machine σ} (h : c.machine? = some m) :
    c.csprng = some m.csprng ∧ c.backend = some (m.backend, m.state) := by
  unfold machine? at h
  split at h
  next csprng backend state hc hb =>
    obtain rfl := Option.some.inj h
    exact ⟨hc, hb⟩
  next => exact absurd h (by simp)

/-- An operation is refused at a gate, or the context is live and there are a
key and a backend. -/
theorem gate_cases (c : Context σ) (operation : Operation) (keyClass : KeyClass) :
    (∃ e : ContextError, c.gate operation keyClass = .error e ∧ e.Refusal) ∨
      ∃ key m, c.gate operation keyClass = .ok (key.bytes, m) ∧ c.destroyed = false ∧
        (c.slot keyClass).key = some key ∧ c.machine? = some m := by
  unfold gate
  split
  next => exact Or.inl ⟨_, rfl, Or.inl rfl⟩
  next hlive =>
    split
    next => exact Or.inl ⟨_, rfl, Or.inr (Or.inl rfl)⟩
    next =>
      split
      next => exact Or.inl ⟨_, rfl, Or.inr (Or.inr (Or.inl rfl))⟩
      next key hkey =>
        split
        next => exact Or.inl ⟨_, rfl, Or.inl rfl⟩
        next m hm => exact Or.inr ⟨key, m, rfl, by simpa using hlive, hkey, hm⟩

/-! ## The operations -/

/-- An operation with the generator ends at a gate or as the backend ends. -/
theorem ends_drawing (name : String) (operation : Operation) (keyClass : KeyClass)
    (run : Backend σ → (key : Bytes) → DrawingOperation σ α) (count : Statistics → Statistics)
    (f : α → Reply)
    (hfail : ∀ (key : KeyMaterial) (m : Machine σ) (cause : SchemeError) (state : σ)
      (left : Supply), (c.slot keyClass).key = some key → c.machine? = some m →
      run m.backend key.bytes m.state { csprng := m.csprng, entropy } =
        (.error cause, state, left) →
      Failure c entropy call (.ofScheme c.scheme cause) (some left.csprng)
        (some (m.backend, state)) left.entropy)
    (hok : ∀ (key : KeyMaterial) (m : Machine σ) (a : α) (state : σ) (left : Supply),
      c.destroyed = false → (c.slot keyClass).key = some key → c.machine? = some m →
      run m.backend key.bytes m.state { csprng := m.csprng, entropy } = (.ok a, state, left) →
      Success c entropy call (f a)
        { c with
          csprng := some left.csprng
          backend := some (m.backend, state)
          statistics := count c.statistics } left.entropy) :
    Ends c call entropy ((c.drawing name operation keyClass run count entropy).1.map f,
      (c.drawing name operation keyClass run count entropy).2) := by
  unfold drawing
  rcases c.gate_cases operation keyClass with ⟨e, hgate, he⟩ | ⟨key, m, hgate, hlive, hkey, hm⟩
  · rw [hgate]
    exact ends_refused name he f
  · rw [hgate]
    rcases hr : run m.backend key.bytes m.state { csprng := m.csprng, entropy }
      with ⟨r, state, left⟩
    have hdraw : c.draw m (run m.backend key.bytes) entropy =
        (r, c.withMachine { m with csprng := left.csprng, state }, left.entropy) := by
      unfold draw Machine.draw
      rw [hr]
    simp only [hdraw]
    -- from here on only the backend's answer decides
    cases r with
    | error cause => exact Or.inl ⟨_, _, _, rfl, rfl, hfail key m cause state left hkey hm hr⟩
    | ok a => exact Or.inr ⟨_, rfl, hok key m a state left hlive hkey hm hr⟩

/-- An operation without the generator ends at a gate or as the backend ends. -/
theorem ends_quiet (name : String) (operation : Operation) (keyClass : KeyClass)
    (run : Backend σ → (key : Bytes) → QuietOperation σ α) (count : α → Statistics → Statistics)
    (f : α → Reply)
    (hfail : ∀ (key : KeyMaterial) (m : Machine σ) (cause : SchemeError) (state : σ),
      (c.slot keyClass).key = some key → c.machine? = some m →
      run m.backend key.bytes m.state = (.error cause, state) →
      Failure c entropy call (.ofScheme c.scheme cause) c.csprng (some (m.backend, state)) entropy)
    (hok : ∀ (key : KeyMaterial) (m : Machine σ) (a : α) (state : σ),
      c.destroyed = false → (c.slot keyClass).key = some key → c.machine? = some m →
      run m.backend key.bytes m.state = (.ok a, state) →
      Success c entropy call (f a)
        { c with
          backend := some (m.backend, state)
          statistics := count a c.statistics } entropy) :
    Ends c call entropy ((c.quiet name operation keyClass run count).map f, entropy) := by
  unfold quiet
  rcases c.gate_cases operation keyClass with ⟨e, hgate, he⟩ | ⟨key, m, hgate, hlive, hkey, hm⟩
  · rw [hgate]
    exact ends_refused name he f
  · rw [hgate]
    rcases hr : run m.backend key.bytes m.state with ⟨r, state⟩
    -- the generator that is put back is the one that was there
    have hask : c.ask m (run m.backend key.bytes) =
        (r, { c with backend := some (m.backend, state) }) := by
      unfold ask Machine.ask withMachine
      rw [hr, (machine?_eq_some hm).1]
    simp only [hask]
    cases r with
    | error cause => exact Or.inl ⟨_, _, _, rfl, rfl, hfail key m cause state hkey hm hr⟩
    | ok a => exact Or.inr ⟨_, rfl, hok key m a state hlive hkey hm hr⟩

theorem ends_sign (c : Context σ) (message : Bytes) (entropy : Entropy) :
    Ends c (.sign message) entropy (c.perform (.sign message) entropy) := by
  have hperform : c.perform (.sign message) entropy =
      let r := c.drawing "sign" .sign .privateKey (fun b key => b.sign key message)
        (fun s => { s with signatures := s.signatures + 1 }) entropy
      ((r.1.map fun signature => Envelope.encodeSignature signature c.signatureCoding).map .bytes,
        r.2) := rfl
  rw [hperform]
  dsimp only
  rw [Outcome.map_map]
  refine ends_drawing "sign" .sign .privateKey _ _ _ ?_ ?_
  · intro key m cause state left hkey hm h
    exact .sign hkey hm h
  · intro key m signature state left hlive hkey hm h
    exact .sign hlive hkey hm h

theorem ends_encrypt (c : Context σ) (plaintext : Bytes) (padding : Padding)
    (entropy : Entropy) :
    Ends c (.encrypt plaintext padding) entropy
      (c.perform (.encrypt plaintext padding) entropy) := by
  refine ends_drawing "public_encrypt" .encrypt .publicKey
    (fun b key => b.encrypt key (padding.pad plaintext))
    (fun s => { s with encryptions := s.encryptions + 1 }) .bytes ?_ ?_
  · intro key m cause state left hkey hm h
    exact .encrypt hkey hm h
  · intro key m ciphertext state left hlive hkey hm h
    exact .encrypt hlive hkey hm h

theorem ends_encapsulate (c : Context σ) (entropy : Entropy) :
    Ends c .encapsulate entropy (c.perform .encapsulate entropy) := by
  refine ends_drawing "encapsulate" .encapsulate .publicKey _ _ .encapsulated ?_ ?_
  · intro key m cause state left hkey hm h
    exact .encapsulate hkey hm h
  · intro key m encapsulation state left hlive hkey hm h
    exact .encapsulate hlive hkey hm h

theorem ends_decapsulate (c : Context σ) (ciphertext : Bytes) (entropy : Entropy) :
    Ends c (.decapsulate ciphertext) entropy (c.perform (.decapsulate ciphertext) entropy) := by
  refine ends_quiet "decapsulate" .decapsulate .privateKey _ _ .bytes ?_ ?_
  · intro key m cause state hkey hm h
    exact .decapsulate hkey hm h
  · intro key m secret state hlive hkey hm h
    exact .decapsulate hlive hkey hm h

/-- A verdict is the backend's, or the envelope was malformed and the backend is
not asked. -/
theorem verdict_cases (coding : KeyCoding) (message envelope : Bytes) (b : Backend σ)
    (key : Bytes) :
    (∃ signature, Envelope.decodeSignature envelope coding = .ok signature ∧
      verdict coding message envelope b key = b.verify key message signature) ∨
    ∃ cause, Envelope.decodeSignature envelope coding = .error cause ∧
      ∀ s, verdict coding message envelope b key s = (.ok false, s) := by
  unfold verdict
  cases Envelope.decodeSignature envelope coding with
  | ok signature => exact Or.inl ⟨signature, rfl, rfl⟩
  | error cause => exact Or.inr ⟨cause, rfl, fun _ => rfl⟩

/-- A signature in a bad envelope is no failure. -/
theorem ends_verify (c : Context σ) (message envelope : Bytes) (entropy : Entropy) :
    Ends c (.verify message envelope) entropy (c.perform (.verify message envelope) entropy) := by
  have hquiet : Ends c (.verify message envelope) entropy
      ((c.quiet "verify" .verify .publicKey (verdict c.signatureCoding message envelope)
        fun valid s => s.recordVerdict valid).map .verdict, entropy) := by
    refine ends_quiet "verify" .verify .publicKey _ _ .verdict ?_ ?_
    · intro key m cause state hkey hm h
      rcases verdict_cases c.signatureCoding message envelope m.backend key.bytes with
        ⟨signature, hsig, hrun⟩ | ⟨_, _, hrun⟩
      · rw [hrun] at h
        exact .verify hkey hm hsig h
      · rw [hrun] at h
        exact absurd (Prod.mk.inj h).1 (by simp)
    · intro key m valid state hlive hkey hm h
      rcases verdict_cases c.signatureCoding message envelope m.backend key.bytes with
        ⟨signature, hsig, hrun⟩ | ⟨cause, hsig, hrun⟩
      · rw [hrun] at h
        exact .verify hlive hkey hm hsig h
      · rw [hrun] at h
        obtain ⟨hvalid, rfl⟩ := Prod.mk.inj h
        obtain rfl := Except.ok.inj hvalid
        -- a backend that was not asked is put back as it was
        rw [← (machine?_eq_some hm).2]
        exact .reject hlive hkey hsig
  show Ends c _ entropy ((c.verify message envelope).map .verdict, entropy)
  unfold verify
  -- a rejection is logged, which no law about contexts looks at
  dsimp only
  split
  next => exact hquiet
  next => exact hquiet

/-- A decryption fails in the backend or at the padding. -/
theorem opened_error {ciphertext key : Bytes} {padding : Padding} {b : Backend σ} {s s' : σ}
    {cause : SchemeError} (h : opened ciphertext padding b key s = (.error cause, s')) :
    b.decrypt key ciphertext s = (.error cause, s') ∨
      ∃ padded, b.decrypt key ciphertext s = (.ok padded, s') ∧
        padding.unpad? padded = none ∧ cause = .failed := by
  unfold opened at h
  split at h
  next cause' t hrun =>
    obtain ⟨hcause, rfl⟩ := Prod.mk.inj h
    obtain rfl := Except.error.inj hcause
    exact Or.inl hrun
  next padded t hrun =>
    split at h
    next hpad =>
      obtain ⟨hcause, rfl⟩ := Prod.mk.inj h
      obtain rfl := Except.error.inj hcause
      exact Or.inr ⟨padded, hrun, hpad, rfl⟩
    next => exact absurd (Prod.mk.inj h).1 (by simp)

theorem opened_ok {ciphertext key plaintext : Bytes} {padding : Padding} {b : Backend σ}
    {s s' : σ} (h : opened ciphertext padding b key s = (.ok plaintext, s')) :
    ∃ padded, b.decrypt key ciphertext s = (.ok padded, s') ∧
      padding.unpad? padded = some plaintext := by
  unfold opened at h
  split at h
  next => exact absurd (Prod.mk.inj h).1 (by simp)
  next padded t hrun =>
    split at h
    next => exact absurd (Prod.mk.inj h).1 (by simp)
    next plaintext' hpad =>
      obtain ⟨hplain, rfl⟩ := Prod.mk.inj h
      obtain rfl := Except.ok.inj hplain
      exact ⟨padded, hrun, hpad⟩

theorem ends_decrypt (c : Context σ) (ciphertext : Bytes) (padding : Padding)
    (entropy : Entropy) :
    Ends c (.decrypt ciphertext padding) entropy
      (c.perform (.decrypt ciphertext padding) entropy) := by
  refine ends_quiet "private_decrypt" .decrypt .privateKey _ _ .bytes ?_ ?_
  · intro key m cause state hkey hm h
    rcases opened_error h with hrun | ⟨padded, hrun, hpad, rfl⟩
    · exact .decrypt hkey hm hrun
    · exact .unpad hkey hm hrun hpad
  · intro key m plaintext state hlive hkey hm h
    obtain ⟨padded, hrun, hpad⟩ := opened_ok h
    exact .decrypt hlive hkey hm hrun hpad

/-! ## The keys -/

theorem ends_keygen (c : Context σ) (entropy : Entropy) :
    Ends c .keygen entropy (c.perform .keygen entropy) := by
  show Ends c .keygen entropy ((c.keygen entropy).1.map _, (c.keygen entropy).2)
  unfold keygen
  split
  next => exact ends_refused "keygen" (Or.inl rfl) _
  next hlive =>
    split
    next => exact ends_refused "keygen" (Or.inl rfl) _
    next m hm =>
      obtain ⟨hcsprng, hbackend⟩ := machine?_eq_some hm
      split
      next cause supply hseed =>
        have hsame : supply.csprng = m.csprng := Supply.csprng_of_reseed_error hseed
        refine Or.inl ⟨_, c.csprng, c.backend, rfl, ?_, .reseed hm hseed⟩
        -- what is put back is what was there
        rw [hcsprng, hbackend, ← hsame]
        rfl
      next seeded hseed =>
        rcases hr : m.backend.keygen m.state seeded with ⟨r, state, left⟩
        have hdraw : c.draw { m with csprng := seeded.csprng } m.backend.keygen seeded.entropy =
            (r, c.withMachine { m with csprng := left.csprng, state }, left.entropy) := by
          unfold draw Machine.draw
          rw [hr]
        simp only [hdraw]
        cases r with
        | error cause =>
          exact Or.inl ⟨_, some left.csprng, some (m.backend, state), rfl, rfl,
            .keygen hm hseed hr⟩
        | ok pair => exact Or.inr ⟨_, rfl, .keygen (by simpa using hlive) hm hseed hr⟩

theorem ends_encodeKey (c : Context σ) (keyClass : KeyClass) (entropy : Entropy) :
    Ends c (.encodeKey keyClass) entropy (c.perform (.encodeKey keyClass) entropy) := by
  show Ends c _ entropy ((c.encodeKey keyClass).map .bytes, entropy)
  unfold encodeKey
  split
  next => exact ends_refused _ (Or.inl rfl) _
  next hlive =>
    split
    next => exact ends_refused _ (Or.inr (Or.inr (Or.inl rfl))) _
    next key hkey => exact Or.inr ⟨_, rfl, .encodeKey (by simpa using hlive) hkey rfl⟩

@[simp] theorem statistics_storeKey (c : Context σ) (key : KeyMaterial) :
    (c.storeKey key).statistics = c.statistics := by
  unfold storeKey
  split <;> rfl

theorem ends_loadKey (c : Context σ) (keyClass : KeyClass) (envelope : Bytes)
    (entropy : Entropy) :
    Ends c (.loadKey keyClass envelope) entropy
      (c.perform (.loadKey keyClass envelope) entropy) := by
  show Ends c _ entropy ((c.loadKey keyClass envelope).map _, entropy)
  unfold loadKey
  split
  next => exact ends_refused _ (Or.inl rfl) _
  next hlive =>
    split
    next => exact ends_refused _ (Or.inr (Or.inr (Or.inr rfl))) _
    next key hkey =>
      split
      next => exact ends_refused _ (Or.inr (Or.inr (Or.inr rfl))) _
      next hlength =>
        -- storing a key counts nothing, so the counters of `c` are those that are modified
        have hload : Success c entropy (.loadKey keyClass envelope) .done _ entropy :=
          .loadKey (by simpa using hlive) hkey (by simpa using hlength)
        rw [← statistics_storeKey c key] at hload
        exact Or.inr ⟨_, rfl, hload⟩

/-! ## All calls -/

/-- **Every call ends in one of the listed ways.** -/
theorem ends_perform (c : Context σ) (call : Call) (entropy : Entropy) :
    Ends c call entropy (c.perform call entropy) := by
  cases call with
  | keygen => exact c.ends_keygen entropy
  | encodeKey keyClass => exact c.ends_encodeKey keyClass entropy
  | loadKey keyClass envelope => exact c.ends_loadKey keyClass envelope entropy
  | sign message => exact c.ends_sign message entropy
  | verify message envelope => exact c.ends_verify message envelope entropy
  | encrypt plaintext padding => exact c.ends_encrypt plaintext padding entropy
  | decrypt ciphertext padding => exact c.ends_decrypt ciphertext padding entropy
  | encapsulate => exact c.ends_encapsulate entropy
  | decapsulate ciphertext => exact c.ends_decapsulate ciphertext entropy
  | setKeyCoding publicCoding privateCoding =>
    exact Or.inr ⟨_, rfl, .setKeyCoding publicCoding privateCoding⟩
  | setSignatureCoding coding => exact Or.inr ⟨_, rfl, .setSignatureCoding coding⟩
  | setDebugLevel level => exact Or.inr ⟨_, rfl, .setDebugLevel level⟩
  | takeError => exact Or.inr ⟨_, rfl, .takeError⟩
  | peekError => exact Or.inr ⟨_, rfl, .peekError⟩
  | clearErrors => exact Or.inr ⟨_, rfl, .clearErrors⟩
  | destroy =>
    show Ends c .destroy entropy (c.destroy, entropy)
    unfold destroy
    split
    next hdead => exact Or.inr ⟨_, rfl, .destroyed hdead⟩
    next hlive => exact Or.inr ⟨_, rfl, .destroy (by simpa using hlive)⟩

end Context

end LatticeSuite
