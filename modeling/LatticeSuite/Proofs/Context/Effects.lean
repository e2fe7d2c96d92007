import LatticeSuite.Proofs.Context.Lifecycle

/-!
# What a call does, whatever is on record

A context keeps records: of its failures, of what it counted, and of how much it is to
log. They are written by every call, and a law about two contexts that differ in them,
or about two runs that write them differently, needs to know that they are not read.

> A call comes to one and the same effect whatever is on record, unless it reads the
> failures or sets the verbosity (`Context.exists_effect`).

An `Effect` is what the call does before the records come in: its answer, the context
that it leaves, what it books, what it counts, and all that it would log. `Effect.on`
puts the records in. The effect of a call is found once for each way in which it can
end, and that a verbosity only filters what is logged is read off `Effect.on`.
-/

namespace LatticeSuite

variable {σ α β : Type}

/-- What a verbosity lets through of a log. -/
def DebugLevel.sift (d : DebugLevel) (log : List LogRecord) : List LogRecord :=
  log.filter fun record => d.enables record.level

namespace DebugLevel

theorem emit_eq_sift (d : DebugLevel) (level : LogLevel) (message : String) :
    d.emit level message = d.sift [{ level, message }] := by
  unfold emit sift
  rw [List.filter_cons, List.filter_nil]

theorem sift_nil (d : DebugLevel) : d.sift [] = [] :=
  rfl

theorem sift_append (d : DebugLevel) (log log' : List LogRecord) :
    d.sift (log ++ log') = d.sift log ++ d.sift log' :=
  List.filter_append log log'

theorem sift_debug (log : List LogRecord) : debug.sift log = log :=
  List.filter_eq_self.mpr fun _ _ => rfl

theorem sift_none (log : List LogRecord) : none.sift log = [] :=
  List.filter_eq_nil_iff.mpr fun _ _ => Bool.false_ne_true

end DebugLevel

/-- What is on record of a context's past, and how much it is to log. -/
structure Records where
  errors : ErrorStack Unit
  debugLevel : DebugLevel
  statistics : Statistics

namespace Context

def records (c : Context σ) : Records :=
  { errors := c.errors, debugLevel := c.debugLevel, statistics := c.statistics }

/-- The context with other records. -/
def withRecords (c : Context σ) (r : Records) : Context σ :=
  { c with errors := r.errors, debugLevel := r.debugLevel, statistics := r.statistics }

@[simp] theorem state_withRecords (c : Context σ) (r : Records) :
    (c.withRecords r).state = c.state := by
  rfl

@[simp] theorem machine?_withRecords (c : Context σ) (r : Records) :
    (c.withRecords r).machine? = c.machine? :=
  rfl

@[simp] theorem slot_withRecords (c : Context σ) (r : Records) (keyClass : KeyClass) :
    (c.withRecords r).slot keyClass = c.slot keyClass := by
  cases keyClass with
  | publicKey => rfl
  | privateKey => rfl

@[simp] theorem keyBytes_withRecords (c : Context σ) (r : Records) (keyClass : KeyClass) :
    (c.withRecords r).keyBytes keyClass = c.keyBytes keyClass := by
  cases keyClass with
  | publicKey => rfl
  | privateKey => rfl

end Context

/-- What a call does, whatever is on record when it is made. -/
structure Effect (σ α : Type) where
  answer : Except ContextError α
  /-- The context after the call, but for its records. -/
  context : Context σ
  /-- What becomes of the record of failures. -/
  book : ErrorStack Unit → ErrorStack Unit := id
  /-- What becomes of the counters. -/
  count : Statistics → Statistics := id
  /-- All that can be logged of the call. -/
  log : List LogRecord := []

namespace Effect

/-- The outcome when there are these records. -/
def on (e : Effect σ α) (r : Records) : Outcome σ α :=
  { answer := e.answer
    context := e.context.withRecords
      { r with errors := e.book r.errors, statistics := e.count r.statistics }
    log := r.debugLevel.sift e.log }

def map (f : α → β) (e : Effect σ α) : Effect σ β :=
  { answer := e.answer.map f, context := e.context, book := e.book, count := e.count
    log := e.log }

theorem on_map (f : α → β) (e : Effect σ α) (r : Records) : (e.on r).map f = (e.map f).on r :=
  rfl

/-- The effect of a failure. -/
def failed (c : Context σ) (call : String) (e : ContextError) : Effect σ α :=
  { answer := .error e
    context := c
    book := fun errors => errors.push e.code ()
    log := [{ level := .error, message := call ++ " failed: " ++ e.message }] }

/-- The effect of a success. -/
def succeeded (c : Context σ) (count : Statistics → Statistics) (a : α) : Effect σ α :=
  { answer := .ok a, context := c, count }

end Effect

namespace Context

variable {c : Context σ}

theorem emit_eq_sift (c : Context σ) (level : LogLevel) (message : String) :
    c.emit level message = c.debugLevel.sift [{ level, message }] :=
  c.debugLevel.emit_eq_sift level message

theorem fail_withRecords (c : Context σ) (r : Records) (name : String) (e : ContextError) :
    ((c.withRecords r).fail name e : Outcome σ α) = (Effect.failed c name e).on r := by
  unfold fail
  rw [emit_eq_sift]
  rfl

/-! ## The operations -/

/-- The operation on `c` comes to one effect. -/
def HasEffect (c : Context σ) (run : Context σ → Outcome σ α) : Prop :=
  ∃ e : Effect σ α, ∀ r, run (c.withRecords r) = e.on r

/-- The same of an operation that is given the entropy and leaves the rest of it. -/
def HasDrawnEffect (c : Context σ) (run : Context σ → Outcome σ α × Entropy) : Prop :=
  ∃ (e : Effect σ α) (left : Entropy), ∀ r, run (c.withRecords r) = (e.on r, left)

theorem HasEffect.map {run : Context σ → Outcome σ α} (h : c.HasEffect run) (f : α → β) :
    c.HasEffect fun d => (run d).map f := by
  obtain ⟨e, he⟩ := h
  refine ⟨e.map f, ?_⟩
  intro r
  dsimp only
  rw [he, Effect.on_map]

theorem HasDrawnEffect.map {run : Context σ → Outcome σ α × Entropy} (h : c.HasDrawnEffect run)
    (f : α → β) : c.HasDrawnEffect fun d => ((run d).1.map f, (run d).2) := by
  obtain ⟨e, left, he⟩ := h
  refine ⟨e.map f, left, ?_⟩
  intro r
  dsimp only
  rw [he, Effect.on_map]

theorem HasEffect.drawn {run : Context σ → Outcome σ α} (h : c.HasEffect run)
    (entropy : Entropy) : c.HasDrawnEffect fun d => (run d, entropy) := by
  obtain ⟨e, he⟩ := h
  refine ⟨e, entropy, ?_⟩
  intro r
  dsimp only
  rw [he]

/-- A failure has one effect. -/
theorem hasEffect_fail (c : Context σ) (name : String) (e : ContextError) :
    c.HasEffect (fun d => (d.fail name e : Outcome σ α)) := by
  refine ⟨.failed c name e, ?_⟩
  intro r
  exact fail_withRecords c r name e

theorem hasDrawnEffect_fail (c : Context σ) (name : String) (e : ContextError)
    (left : Entropy) : c.HasDrawnEffect (fun d => ((d.fail name e : Outcome σ α), left)) :=
  (c.hasEffect_fail name e).drawn left

/-- The gates do not look at the records. -/
theorem gate_withRecords (c : Context σ) (r : Records) (operation : Operation)
    (keyClass : KeyClass) :
    (c.withRecords r).gate operation keyClass = c.gate operation keyClass := by
  cases keyClass with
  | publicKey => rfl
  | privateKey => rfl

theorem hasDrawnEffect_drawing (c : Context σ) (name : String) (operation : Operation)
    (keyClass : KeyClass) (run : Backend σ → (key : Bytes) → DrawingOperation σ α)
    (count : Statistics → Statistics) (entropy : Entropy) :
    c.HasDrawnEffect (·.drawing name operation keyClass run count entropy) := by
  unfold HasDrawnEffect drawing
  simp only [gate_withRecords]
  cases c.gate operation keyClass with
  | error e => exact c.hasDrawnEffect_fail name e entropy
  | ok passed =>
    obtain ⟨key, m⟩ := passed
    rcases hrun : run m.backend key m.state { csprng := m.csprng, entropy } with ⟨x, state, left⟩
    have hdraw : ∀ d : Context σ, d.draw m (run m.backend key) entropy =
        (x, d.withMachine { m with csprng := left.csprng, state }, left.entropy) := by
      intro d
      unfold draw Machine.draw
      rw [hrun]
    simp only [hdraw]
    cases x with
    | error cause =>
      exact (c.withMachine { m with csprng := left.csprng, state }).hasDrawnEffect_fail name
        (.ofScheme c.scheme cause) left.entropy
    | ok a =>
      refine ⟨.succeeded (c.withMachine { m with csprng := left.csprng, state }) count a,
        left.entropy, ?_⟩
      intro r
      rfl

theorem hasEffect_quiet (c : Context σ) (name : String) (operation : Operation)
    (keyClass : KeyClass) (run : Backend σ → (key : Bytes) → QuietOperation σ α)
    (count : α → Statistics → Statistics) :
    c.HasEffect (·.quiet name operation keyClass run count) := by
  unfold HasEffect quiet
  simp only [gate_withRecords]
  cases c.gate operation keyClass with
  | error e => exact c.hasEffect_fail name e
  | ok passed =>
    obtain ⟨key, m⟩ := passed
    rcases hrun : run m.backend key m.state with ⟨x, state⟩
    have hask : ∀ d : Context σ, d.ask m (run m.backend key) =
        (x, d.withMachine { m with state }) := by
      intro d
      unfold ask Machine.ask
      rw [hrun]
    simp only [hask]
    cases x with
    | error cause =>
      exact (c.withMachine { m with state }).hasEffect_fail name (.ofScheme c.scheme cause)
    | ok a =>
      refine ⟨.succeeded (c.withMachine { m with state }) (count a) a, ?_⟩
      intro r
      rfl

theorem hasEffect_verify (c : Context σ) (message envelope : Bytes) :
    c.HasEffect (·.verify message envelope) := by
  obtain ⟨e, he⟩ := c.hasEffect_quiet "verify" .verify .publicKey
    (verdict c.signatureCoding message envelope) fun valid s => s.recordVerdict valid
  have hquiet : ∀ r, (c.withRecords r).quiet "verify" .verify .publicKey
      (verdict (c.withRecords r).signatureCoding message envelope)
      (fun valid s => s.recordVerdict valid) = e.on r := he
  unfold HasEffect verify
  simp only [hquiet]
  -- what is logged depends on the answer, and the answer does not depend on the records
  by_cases hfalse : e.answer = .ok false
  · refine ⟨{ e with
        answer := .ok false
        log := [{ level := .info, message := "signature rejected" }] }, ?_⟩
    intro r
    have hrejected : (e.on r).answer = .ok false := hfalse
    rw [hrejected]
    dsimp only
    rw [emit_eq_sift]
    rfl
  · refine ⟨e, ?_⟩
    intro r
    split
    next h => exact absurd h hfalse
    next => rfl

/-! ## The keys -/

theorem storeKey_withRecords (c : Context σ) (r : Records) (key : KeyMaterial) :
    (c.withRecords r).storeKey key = (c.storeKey key).withRecords r := by
  unfold storeKey
  split
  next => rfl
  next => rfl

theorem hasDrawnEffect_keygen (c : Context σ) (entropy : Entropy) :
    c.HasDrawnEffect (·.keygen entropy) := by
  unfold HasDrawnEffect keygen
  simp only [state_withRecords, machine?_withRecords]
  split
  next => exact c.hasDrawnEffect_fail "keygen" .destroyed entropy
  next =>
    split
    next => exact c.hasDrawnEffect_fail "keygen" .destroyed entropy
    next m _ =>
      rcases Supply.reseed { csprng := m.csprng, entropy } with ⟨cause | _, supply⟩
      · exact (c.withMachine { m with csprng := supply.csprng }).hasDrawnEffect_fail "keygen"
          (.keygen (.entropy cause)) supply.entropy
      · rcases hrun : m.backend.keygen m.state supply with ⟨x, state, left⟩
        have hdraw : ∀ d : Context σ,
            d.draw { m with csprng := supply.csprng } m.backend.keygen supply.entropy =
              (x, d.withMachine { m with csprng := left.csprng, state }, left.entropy) := by
          intro d
          unfold draw Machine.draw
          rw [hrun]
        simp only [hdraw]
        cases x with
        | error cause =>
          exact (c.withMachine { m with csprng := left.csprng, state }).hasDrawnEffect_fail
            "keygen" (.keygen (.scheme cause)) left.entropy
        | ok pair =>
          refine ⟨{ Effect.succeeded
              ((c.withMachine { m with csprng := left.csprng, state }).storePair pair)
              (fun s => { s with keygens := s.keygens + 1 }) () with
            log := [{ level := .info,
                      message := "generated " ++ c.parameterSet.name ++ " key pair" }] },
            left.entropy, ?_⟩
          intro r
          dsimp only
          rw [emit_eq_sift]
          rfl

theorem hasEffect_encodeKey (c : Context σ) (keyClass : KeyClass) :
    c.HasEffect (·.encodeKey keyClass) := by
  unfold HasEffect encodeKey
  simp only [state_withRecords, slot_withRecords]
  split
  next => exact c.hasEffect_fail (encodeCall keyClass) .destroyed
  next =>
    split
    next => exact c.hasEffect_fail (encodeCall keyClass) (.keyAbsent keyClass)
    next key _ =>
      exact ⟨.succeeded c
        (·.modifyKeys keyClass
          (·.recordEncode key.length (Envelope.encodeKey key (c.slot keyClass).coding).length))
        (Envelope.encodeKey key (c.slot keyClass).coding), fun _ => rfl⟩

theorem hasEffect_loadKey (c : Context σ) (keyClass : KeyClass) (envelope : Bytes) :
    c.HasEffect (·.loadKey keyClass envelope) := by
  have hnamed : ∀ r, (c.withRecords r).scheme = c.scheme ∧
      (c.withRecords r).paramSet = c.paramSet := fun _ => ⟨rfl, rfl⟩
  unfold HasEffect loadKey
  simp only [hnamed, state_withRecords, slot_withRecords, keyBytes_withRecords,
    storeKey_withRecords]
  split
  next => exact c.hasEffect_fail (loadCall keyClass) .destroyed
  next =>
    split
    next cause _ => exact c.hasEffect_fail (loadCall keyClass) (.decode cause)
    next key _ =>
      split
      next => exact c.hasEffect_fail (loadCall keyClass) (.decode .invalidKey)
      next =>
        exact ⟨.succeeded (c.storeKey key)
          (·.modifyKeys keyClass (·.recordLoad key.length envelope.length)) (), fun _ => rfl⟩

theorem hasEffect_destroy (c : Context σ) : c.HasEffect destroy := by
  have hdestroyed : ∀ r, (c.withRecords r).destroyed = c.destroyed := fun _ => rfl
  unfold HasEffect destroy
  simp only [hdestroyed]
  split
  next => exact ⟨{ answer := .ok .done, context := c }, fun _ => rfl⟩
  next =>
    refine ⟨{ answer := .ok .done, context := c.release
              log := [{ level := .info, message := c.scheme.name ++ " context destroyed" }] }, ?_⟩
    intro r
    rw [emit_eq_sift]
    rfl

end Context

/-! ## All calls -/

/-- The call answers from the record of failures. -/
def Call.readsFailures : Call → Bool
  | .takeError | .peekError => true
  | _ => false

/-- The call sets the verbosity. -/
def Call.setsVerbosity : Call → Bool
  | .setDebugLevel _ => true
  | _ => false

theorem Call.eq_of_readsFailures {call : Call} (h : call.readsFailures = true) :
    call = .takeError ∨ call = .peekError := by
  cases call with
  | takeError => exact .inl rfl
  | peekError => exact .inr rfl
  | _ => exact absurd h (by simp [readsFailures])

theorem Call.exists_of_setsVerbosity {call : Call} (h : call.setsVerbosity = true) :
    ∃ level, call = .setDebugLevel level := by
  cases call with
  | setDebugLevel level => exact ⟨level, rfl⟩
  | _ => exact absurd h (by simp [setsVerbosity])

namespace Context

/-- **A call has one effect whatever is on record**, unless it reads the failures or sets
the verbosity. -/
theorem exists_effect (c : Context σ) {call : Call} (hreads : call.readsFailures = false)
    (hsets : call.setsVerbosity = false) (entropy : Entropy) :
    c.HasDrawnEffect (·.perform call entropy) := by
  cases call with
  | keygen => exact (c.hasDrawnEffect_keygen entropy).map _
  | encodeKey keyClass => exact ((c.hasEffect_encodeKey keyClass).map _).drawn entropy
  | loadKey keyClass envelope => exact ((c.hasEffect_loadKey keyClass envelope).map _).drawn entropy
  | sign message =>
    have hsign := (c.hasDrawnEffect_drawing "sign" .sign .privateKey
      (fun b key => b.sign key message) (fun s => { s with signatures := s.signatures + 1 })
      entropy).map fun signature => Envelope.encodeSignature signature c.signatureCoding
    exact hsign.map Reply.bytes
  | verify message envelope => exact ((c.hasEffect_verify message envelope).map _).drawn entropy
  | encrypt plaintext padding =>
    have hencrypt := c.hasDrawnEffect_drawing "public_encrypt" .encrypt .publicKey
      (fun b key => b.encrypt key (padding.pad plaintext))
      (fun s => { s with encryptions := s.encryptions + 1 }) entropy
    exact hencrypt.map Reply.bytes
  | decrypt ciphertext padding =>
    have hdecrypt := c.hasEffect_quiet "private_decrypt" .decrypt .privateKey
      (opened ciphertext padding) fun _ s => { s with decryptions := s.decryptions + 1 }
    exact (hdecrypt.map Reply.bytes).drawn entropy
  | encapsulate =>
    exact (c.hasDrawnEffect_drawing "encapsulate" .encapsulate .publicKey _ _ entropy).map
      Reply.encapsulated
  | decapsulate ciphertext =>
    have hdecapsulate := c.hasEffect_quiet "decapsulate" .decapsulate .privateKey
      (fun b key => b.decapsulate key ciphertext)
      fun _ s => { s with decapsulations := s.decapsulations + 1 }
    exact (hdecapsulate.map Reply.bytes).drawn entropy
  | setKeyCoding publicCoding privateCoding =>
    refine ⟨{ answer := .ok .done, context := c.setKeyCoding publicCoding privateCoding
              log := [{ level := .debug,
                        message := "key coding set to " ++ publicCoding.text ++ " / " ++
                          privateCoding.text }] }, entropy, ?_⟩
    intro r
    dsimp only [perform]
    rw [emit_eq_sift]
    rfl
  | setSignatureCoding coding =>
    exact ⟨{ answer := .ok .done, context := { c with signatureCoding := coding } }, entropy,
      fun _ => rfl⟩
  | setDebugLevel level => exact absurd hsets (by simp [Call.setsVerbosity])
  | takeError => exact absurd hreads (by simp [Call.readsFailures])
  | peekError => exact absurd hreads (by simp [Call.readsFailures])
  | clearErrors =>
    exact ⟨{ answer := .ok .done, context := c, book := ErrorStack.clear }, entropy, fun _ => rfl⟩
  | destroy => exact c.hasEffect_destroy.drawn entropy

end Context

end LatticeSuite
