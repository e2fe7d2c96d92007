import LatticeSuite.Proofs.Context.KeySlots
import LatticeSuite.Proofs.Context.Signing

/-!
# The counters are the history

A context keeps counters while it works. Whoever has seen everything that happened
to it could do without them:

> In every state that a created context can reach, each counter is the number of
> events of its kind, and the byte counters are sums over the keys that went through
> the coder (`statistics_are_the_tally`).

What counts is written down apart from the operations. `Event.counted?` says what a call
with its answer is counted as, and a failure is counted as nothing, so a verification
has three outcomes: two verdicts, and an error that is neither. The lengths of keys
and envelopes are read off the story: an envelope is the argument of a load or the
answer of an encoding, as it is, header and all, and the key is the one that lies in
the slot afterwards. For that a history is told with the context behind each event
(`Context.Lives`).

`tally` is additive in the story (`tally_append`), so the law comes down to one
event: what it adds to the counters is its own tally (`Success.statistics_eq`).
-/

namespace LatticeSuite

variable {σ : Type}

/-! ## Stories -/

/-- A call with its answer, and the context that it left. -/
structure Episode (σ : Type) extends Event where
  after : Context σ

namespace Context

/-- `c` became `c'` by the episodes of a story. -/
inductive Lives (c : Context σ) : List (Episode σ) → Context σ → Prop
  | start : Lives c [] c
  | call {story : List (Episode σ)} {c' : Context σ} (h : Lives c story c') (call : Call)
      (entropy : Entropy) :
    Lives c
      (story ++
        [⟨⟨call, (c'.perform call entropy).1.answer⟩, (c'.perform call entropy).1.context⟩])
      (c'.perform call entropy).1.context

/-- A story without the contexts in it is a history. -/
theorem Lives.reaches {c c' : Context σ} {story : List (Episode σ)} (h : c.Lives story c') :
    c.Reaches (story.map Episode.toEvent) c' := by
  induction h with
  | start => exact .start
  | call _ call entropy ih =>
    rw [List.map_append]
    exact ih.call call entropy

theorem Lives.trans {c c' c'' : Context σ} {story later : List (Episode σ)}
    (h : c.Lives story c') (h' : c'.Lives later c'') : c.Lives (story ++ later) c'' := by
  induction h' with
  | start =>
    rw [List.append_nil]
    exact h
  | call _ call entropy ih =>
    rw [← List.append_assoc]
    exact ih.call call entropy

/-- Every run has a story. -/
theorem exists_lives_run (c : Context σ) (calls : List Call) (entropy : Entropy) :
    ∃ story, c.Lives story (c.run calls entropy).context := by
  induction calls generalizing c entropy with
  | nil => exact ⟨[], .start⟩
  | cons call calls ih =>
    obtain ⟨later, hlater⟩ := ih (c.perform call entropy).1.context (c.perform call entropy).2
    have hfirst : c.Lives [_] (c.perform call entropy).1.context := Lives.start.call call entropy
    exact ⟨_, hfirst.trans hlater⟩

end Context

/-! ## What counts -/

/-- What the counters tell apart. -/
inductive Counted where
  | keygen
  | encoded (keyClass : KeyClass)
  | loaded (keyClass : KeyClass)
  | signature
  | verdict (valid : Bool)
  | encryption
  | decryption
  | encapsulation
  | decapsulation
  deriving DecidableEq

/-- What a call is counted as, if it succeeded and is one that is counted. -/
def Event.counted? (e : Event) : Option Counted :=
  match e.call, e.answer with
  | .keygen, .ok _ => some .keygen
  | .encodeKey keyClass, .ok _ => some (.encoded keyClass)
  | .loadKey keyClass _, .ok _ => some (.loaded keyClass)
  | .sign _, .ok _ => some .signature
  | .verify _ _, .ok (.verdict valid) => some (.verdict valid)
  | .encrypt _ _, .ok _ => some .encryption
  | .decrypt _ _, .ok _ => some .decryption
  | .encapsulate, .ok _ => some .encapsulation
  | .decapsulate _, .ok _ => some .decapsulation
  | _, _ => none

/-- The call changes how keys or signatures are coded. -/
def Call.setsCoding : Call → Bool
  | .setKeyCoding _ _ | .setSignatureCoding _ => true
  | _ => false

theorem Event.counted?_error (call : Call) (e : ContextError) :
    Event.counted? ⟨call, .error e⟩ = none := by
  cases call <;> rfl

theorem Event.counted?_of_setsCoding {call : Call} (h : call.setsCoding = true)
    (answer : Except ContextError Reply) : Event.counted? ⟨call, answer⟩ = none := by
  cases call with
  | setKeyCoding => rfl
  | setSignatureCoding => rfl
  | _ => exact absurd h (by simp [Call.setsCoding])

/-- The length of the envelope that was handed in or out. -/
def Event.envelopeLength (e : Event) : Nat :=
  match e.call, e.answer with
  | .loadKey _ envelope, _ => envelope.length
  | _, .ok (.bytes envelope) => envelope.length
  | _, _ => 0

namespace Episode

/-- The length of the key that lies in the slot of a class afterwards. -/
def keyLength (keyClass : KeyClass) (e : Episode σ) : Nat :=
  ((e.after.slot keyClass).key.map KeyMaterial.length).getD 0

/-- A key of this class went through the coder. -/
def codes (keyClass : KeyClass) (e : Episode σ) : Bool :=
  e.counted? = some (.encoded keyClass) ∨ e.counted? = some (.loaded keyClass)

end Episode

/-- How often something was done. -/
def times (counted : Counted) (story : List (Episode σ)) : Nat :=
  story.countP fun e => e.counted? = some counted

/-- The keys of a class that went through the coder. -/
def traffic (keyClass : KeyClass) (story : List (Episode σ)) : KeyTraffic :=
  { encoded := times (.encoded keyClass) story
    loaded := times (.loaded keyClass) story
    rawBytes := ((story.filter (Episode.codes keyClass)).map (Episode.keyLength keyClass)).sum
    codedBytes :=
      ((story.filter (Episode.codes keyClass)).map fun e => e.envelopeLength).sum }

/-- What the counters should say after a story. -/
def tally (story : List (Episode σ)) : Statistics :=
  { keygens := times .keygen story
    publicKeys := traffic .publicKey story
    privateKeys := traffic .privateKey story
    signatures := times .signature story
    verified := times (.verdict true) story
    unverified := times (.verdict false) story
    encryptions := times .encryption story
    decryptions := times .decryption story
    encapsulations := times .encapsulation story
    decapsulations := times .decapsulation story }

/-! ## Adding up -/

instance : Add KeyTraffic where
  add t t' :=
    { encoded := t.encoded + t'.encoded
      loaded := t.loaded + t'.loaded
      rawBytes := t.rawBytes + t'.rawBytes
      codedBytes := t.codedBytes + t'.codedBytes }

instance : Add Statistics where
  add s s' :=
    { keygens := s.keygens + s'.keygens
      publicKeys := s.publicKeys + s'.publicKeys
      privateKeys := s.privateKeys + s'.privateKeys
      signatures := s.signatures + s'.signatures
      verified := s.verified + s'.verified
      unverified := s.unverified + s'.unverified
      encryptions := s.encryptions + s'.encryptions
      decryptions := s.decryptions + s'.decryptions
      encapsulations := s.encapsulations + s'.encapsulations
      decapsulations := s.decapsulations + s'.decapsulations }

theorem times_append (counted : Counted) (story later : List (Episode σ)) :
    times counted (story ++ later) = times counted story + times counted later :=
  List.countP_append

theorem traffic_append (keyClass : KeyClass) (story later : List (Episode σ)) :
    traffic keyClass (story ++ later) = traffic keyClass story + traffic keyClass later := by
  simp only [traffic, times_append, List.filter_append, List.map_append, List.sum_append]
  rfl

/-- **Stories are counted piece by piece.** -/
theorem tally_append (story later : List (Episode σ)) :
    tally (story ++ later) = tally story + tally later := by
  simp only [tally, times_append, traffic_append]
  rfl

/-- An event that counts as nothing adds nothing. -/
theorem add_tally_of_none {e : Episode σ} (h : e.counted? = none) (s : Statistics) :
    s + tally [e] = s := by
  have htimes : ∀ counted, times counted [e] = 0 := by
    intro counted
    simp [times, h]
  have htraffic : ∀ keyClass, traffic keyClass [e] = {} := by
    intro keyClass
    have hcodes : e.codes keyClass = false := by simp [Episode.codes, h]
    simp [traffic, htimes, hcodes]
  simp only [tally, htimes, htraffic]
  rfl

/-! ## One call -/

theorem Episode.keyLength_eq {keyClass : KeyClass} {e : Episode σ} {key : KeyMaterial}
    (h : (e.after.slot keyClass).key = some key) : e.keyLength keyClass = key.length := by
  unfold keyLength
  rw [h]
  rfl

/-- What an encoding adds. -/
theorem add_tally_encoded {keyClass : KeyClass} {envelope : Bytes} {after : Context σ}
    {key : KeyMaterial} (h : (after.slot keyClass).key = some key) (s : Statistics) :
    s + tally [⟨⟨.encodeKey keyClass, .ok (.bytes envelope)⟩, after⟩] =
      s.modifyKeys keyClass (·.recordEncode key.length envelope.length) := by
  let e : Episode σ := ⟨⟨.encodeKey keyClass, .ok (.bytes envelope)⟩, after⟩
  have hlength : e.keyLength keyClass = key.length := Episode.keyLength_eq h
  rw [← hlength]
  cases keyClass with
  | publicKey => rfl
  | privateKey => rfl

/-- What a load adds. -/
theorem add_tally_loaded {keyClass : KeyClass} {envelope : Bytes} {after : Context σ}
    {key : KeyMaterial} (h : (after.slot keyClass).key = some key) (s : Statistics) :
    s + tally [⟨⟨.loadKey keyClass envelope, .ok .done⟩, after⟩] =
      s.modifyKeys keyClass (·.recordLoad key.length envelope.length) := by
  let e : Episode σ := ⟨⟨.loadKey keyClass envelope, .ok .done⟩, after⟩
  have hlength : e.keyLength keyClass = key.length := Episode.keyLength_eq h
  rw [← hlength]
  cases keyClass with
  | publicKey => rfl
  | privateKey => rfl

/-- What was encoded lies in the slot afterwards. -/
theorem Success.encoded {c c' : Context σ} {entropy left : Entropy} {keyClass : KeyClass}
    {reply : Reply} (h : Success c entropy (.encodeKey keyClass) reply c' left) :
    ∃ key, (c'.slot keyClass).key = some key ∧
      reply = .bytes (Envelope.encodeKey key (c.slot keyClass).coding) := by
  cases h with
  | @encodeKey _ key _ _ hkey hcoded =>
    refine ⟨key, ?_, by rw [hcoded]⟩
    cases keyClass with
    | publicKey => exact hkey
    | privateKey => exact hkey

/-- **A success adds its own tally.** -/
theorem Success.statistics_eq {c c' : Context σ} {entropy left : Entropy} {call : Call}
    {reply : Reply} (h : Success c entropy call reply c' left) :
    c'.statistics = c.statistics + tally [⟨⟨call, .ok reply⟩, c'⟩] := by
  cases h with
  | keygen => rfl
  | @encodeKey keyClass key _ _ hkey =>
    refine (add_tally_encoded ?_ c.statistics).symm
    cases keyClass with
    | publicKey => exact hkey
    | privateKey => exact hkey
  | @loadKey keyClass envelope key hlive hkey hlength =>
    have hsuccess : Success c entropy (.loadKey keyClass envelope) .done _ entropy :=
      .loadKey hlive hkey hlength
    obtain ⟨-, stored, hdecoded, -, hstored⟩ := hsuccess.loaded
    obtain rfl : stored = key := Except.ok.inj (hdecoded.symm.trans hkey)
    exact (add_tally_loaded hstored c.statistics).symm
  | sign => rfl
  | @verify _ _ _ _ _ _ valid => cases valid <;> rfl
  | reject => rfl
  | encrypt => rfl
  | decrypt => rfl
  | encapsulate => rfl
  | decapsulate => rfl
  -- the other calls have no counter
  | _ => rfl

namespace Context

/-- **What a call adds to the counters is its own tally**, whether it fails or succeeds. -/
theorem statistics_perform (c : Context σ) (call : Call) (entropy : Entropy) :
    (c.perform call entropy).1.context.statistics =
      c.statistics +
        tally [⟨⟨call, (c.perform call entropy).1.answer⟩, (c.perform call entropy).1.context⟩] := by
  rcases c.ends_perform call entropy with
    ⟨e, csprng, backend, hanswer, hcontext, -⟩ | ⟨reply, hanswer, hsuccess⟩
  · rw [hanswer, add_tally_of_none (Event.counted?_error call e), hcontext]
  · rw [hanswer]
    exact hsuccess.statistics_eq

theorem IsNew.statistics_eq {c : Context σ} (h : c.IsNew) : c.statistics = {} := by
  obtain ⟨s, registry, entropy, h⟩ := h
  obtain ⟨_, features, entry, csprng, backend, -, -, -, -, rfl⟩ := built_of_create h
  rfl

theorem Lives.statistics_eq {c₀ c : Context σ} {story : List (Episode σ)} (hnew : c₀.IsNew)
    (h : c₀.Lives story c) : c.statistics = tally story := by
  -- by induction on the story, with one call at its end
  induction h with
  | start => exact hnew.statistics_eq
  | call _ call entropy ih => rw [statistics_perform, ih, tally_append]

/-- A call that is not counted leaves the counters alone. -/
theorem statistics_of_not_counted {c : Context σ} {call : Call} {entropy : Entropy}
    (h : Event.counted? ⟨call, (c.perform call entropy).1.answer⟩ = none) :
    (c.perform call entropy).1.context.statistics = c.statistics := by
  rw [statistics_perform]
  exact add_tally_of_none h c.statistics

/-- The outcome of a verification behind the gates: a bad envelope is a rejection, and
an error of the backend is an error. -/
theorem verify_outcome {c : Context σ} {m : Machine σ} {publicKey : KeyMaterial}
    (h : c.Admits .verify .publicKey publicKey) (hm : c.machine? = some m)
    (message envelope : Bytes) (entropy : Entropy) :
    (c.perform (.verify message envelope) entropy).1.answer =
      match Envelope.decodeSignature envelope c.signatureCoding with
      | .error _ => .ok (.verdict false)
      | .ok signature =>
        ((m.backend.verify publicKey.bytes message signature m.state).1.mapError
          (.ofScheme c.scheme)).map .verdict := by
  split
  next cause hsig => exact (rejects_of_error h hm hsig).answer_eq
  next signature hsig => exact answer_verify (h.gate_eq hm) hsig

/-- **The counters are the history.** In every state that a created context can reach,
whatever its backend is, each counter is what a count over the story behind it gives:
the successes of each kind, the verdicts of each sort, and for either class of keys the
lengths of the keys and of the envelopes that were encoded or loaded. The key that was
encoded or loaded is the one in the slot afterwards. A failure, a change of a coding
and a destruction change no counter. A verification behind the gates is a rejection if
its envelope is malformed, and an error if the backend fails. -/
theorem statistics_are_the_tally {c₀ c : Context σ} {story : List (Episode σ)}
    (hnew : c₀.IsNew) (h : c₀.Lives story c) :
    c.statistics = tally story ∧
    (∀ keyClass envelope entropy,
      let o := (c.perform (.encodeKey keyClass) entropy).1
      o.answer = .ok (.bytes envelope) →
        ∃ key, (o.context.slot keyClass).key = some key ∧
          envelope = Envelope.encodeKey key (c.slot keyClass).coding) ∧
    (∀ keyClass envelope entropy reply,
      let o := (c.perform (.loadKey keyClass envelope) entropy).1
      o.answer = .ok reply →
        ∃ key, (o.context.slot keyClass).key = some key ∧
          Envelope.decodeKey envelope (c.slot keyClass).coding keyClass c.scheme c.paramSet =
            .ok key) ∧
    (∀ call entropy,
      (∃ e, (c.perform call entropy).1.answer = .error e) ∨ call.setsCoding ∨ call = .destroy →
        (c.perform call entropy).1.context.statistics = c.statistics) ∧
    ∀ publicKey, c.Admits .verify .publicKey publicKey → ∃ m, c.machine? = some m ∧
      ∀ message envelope entropy,
        (c.perform (.verify message envelope) entropy).1.answer =
          match Envelope.decodeSignature envelope c.signatureCoding with
          | .error _ => .ok (.verdict false)
          | .ok signature =>
            ((m.backend.verify publicKey.bytes message signature m.state).1.mapError
              (.ofScheme c.scheme)).map .verdict := by
  refine ⟨h.statistics_eq hnew, ?_, ?_, ?_, ?_⟩
  · intro keyClass envelope entropy o hanswer
    rcases c.ends_perform (.encodeKey keyClass) entropy with
      ⟨e, _, _, hfailed, -⟩ | ⟨reply, hdone, hsuccess⟩
    · exact absurd (hanswer.symm.trans hfailed) (by simp)
    · obtain ⟨key, hkey, hreply⟩ := hsuccess.encoded
      obtain rfl : reply = .bytes envelope := Except.ok.inj (hdone.symm.trans hanswer)
      exact ⟨key, hkey, Reply.bytes.inj hreply⟩
  · intro keyClass envelope entropy reply o hanswer
    rcases c.ends_perform (.loadKey keyClass envelope) entropy with
      ⟨e, _, _, hfailed, -⟩ | ⟨_, -, hsuccess⟩
    · exact absurd (hanswer.symm.trans hfailed) (by simp)
    · obtain ⟨-, key, hdecoded, -, hkey⟩ := hsuccess.loaded
      exact ⟨key, hkey, hdecoded⟩
  · intro call entropy hcall
    refine statistics_of_not_counted ?_
    rcases hcall with ⟨e, he⟩ | hcoding | rfl
    · rw [he]
      exact Event.counted?_error call e
    · exact Event.counted?_of_setsCoding hcoding _
    · rfl
  · intro publicKey hadmits
    obtain ⟨m, hm⟩ := (h.reaches.whole hnew).exists_machine hadmits.live
    exact ⟨m, hm, verify_outcome hadmits hm⟩

/-- The law on a context that repeats messages: a key pair, an encoding, a load of an
envelope with a byte behind it, a signature, a verification that fails, one of a bad
envelope, a decryption, which is not offered, and the end. -/
theorem statistics_are_the_tally_of_an_echo :
    ∃ (c₀ c : Context Unit) (story : List (Episode Unit)), c₀.IsNew ∧ c₀.Lives story c ∧
      c.statistics = tally story ∧
      tally story =
        { keygens := 1
          publicKeys := { encoded := 1, loaded := 1, rawBytes := 0, codedBytes := 35 }
          signatures := 1
          unverified := 2 } := by
  let host : Entropy := { host := fun _ _ n => .ok (List.replicate n 7) }
  let envelope := Envelope.encodeKey ⟨.publicKey, .sigHelloWorld, 0, []⟩ .bac ++ [0]
  let calls : List Call :=
    [.keygen, .setKeyCoding .bac .raw, .encodeKey .publicKey, .loadKey .publicKey envelope,
      .sign [7], .verify [7] [8], .setSignatureCoding .huffmanStatic, .verify [7] [7],
      .decrypt [7] .none, .destroy]
  obtain ⟨c₀, hcreate, hcounters⟩ : ∃ c₀ : Context Unit,
      (ContextSettings.create { scheme := .sigHelloWorld, paramSet := 0 } .echo host).answer =
        .ok c₀ ∧
      (c₀.run calls host).context.statistics =
        { keygens := 1
          publicKeys := { encoded := 1, loaded := 1, rawBytes := 0, codedBytes := 35 }
          signatures := 1
          unverified := 2 } := ⟨_, rfl, by decide +kernel⟩
  obtain ⟨story, hstory⟩ := c₀.exists_lives_run calls host
  have htally := (statistics_are_the_tally ⟨_, _, _, hcreate⟩ hstory).1
  exact ⟨c₀, _, story, ⟨_, _, _, hcreate⟩, hstory, htally, htally.symm.trans hcounters⟩

end Context

end LatticeSuite
