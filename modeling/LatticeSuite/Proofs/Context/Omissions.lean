import LatticeSuite.Proofs.Context.Effects
import LatticeSuite.Proofs.Context.Gates
import LatticeSuite.Proofs.Context.KeySlots
import LatticeSuite.Proofs.Scheme.Discretion

/-!
# Calls that can be left out

All randomness of a context comes from one generator, so a call that drew a byte too
many, or a refused call that had drawn before it was refused, would change every key,
signature and ciphertext after it. An application that verifies or decrypts now and
then, or logs, or runs into a closed gate, relies on it that this does not happen.

> From a run on a context of the library's schemes, any encodings, verifications,
> decryptions, decapsulations, looks at the record of failures and refused calls can be
> struck. What is left answers as before and comes to the same keys, codings, generator
> and entropy (`Context.idle_calls_can_be_struck`).

Two things can come between the runs. A struck call leaves only its records behind
(`Fits.alike_of_idle`). A call that stays then meets other records, and they are not
read (`Alike.perform`). That contexts are `Alike` is kept by both, turn by turn.
-/

namespace LatticeSuite

variable {σ α ι : Type}

/-- The call draws nothing, and changes nothing but what is on record. -/
def Call.isDiscreet : Call → Bool
  | .encodeKey _ | .verify _ _ | .decrypt _ _ | .decapsulate _ | .setDebugLevel _ | .takeError
  | .peekError | .clearErrors => true
  | _ => false

/-- A discreet call, or one that was refused: the context was destroyed, the operation
not offered, the key absent, or an envelope malformed. -/
def Event.IsIdle (x : Event) : Prop :=
  x.call.isDiscreet = true ∨ ∃ e : ContextError, x.answer = .error e ∧ e.Refusal

/-- Of a backend's errors only a disowned operation is told as a refusal. -/
theorem ContextError.exists_of_refusal_ofScheme {scheme : SchemeId} {cause : SchemeError}
    (h : (ofScheme scheme cause).Refusal) : ∃ operation, cause = .unsupported operation := by
  cases cause with
  | unsupported operation => exact ⟨operation, rfl⟩
  | _ => exact absurd h (by simp [Refusal, ofScheme, code])

namespace Context

/-- The same context but for what is on record. -/
def Alike (c c' : Context σ) : Prop :=
  ∃ r, c' = c.withRecords r

theorem Alike.refl (c : Context σ) : c.Alike c :=
  ⟨c.records, rfl⟩

theorem Alike.symm {c c' : Context σ} (h : c.Alike c') : c'.Alike c := by
  obtain ⟨r, rfl⟩ := h
  exact ⟨c.records, rfl⟩

theorem Alike.trans {c c' c'' : Context σ} (h : c.Alike c') (h' : c'.Alike c'') : c.Alike c'' := by
  obtain ⟨r, rfl⟩ := h
  obtain ⟨r', rfl⟩ := h'
  exact ⟨r', rfl⟩

theorem Alike.slot {c c' : Context σ} (h : c.Alike c') (keyClass : KeyClass) :
    c'.slot keyClass = c.slot keyClass := by
  obtain ⟨r, rfl⟩ := h
  exact c.slot_withRecords r keyClass

theorem Alike.signatureCoding {c c' : Context σ} (h : c.Alike c') :
    c'.signatureCoding = c.signatureCoding := by
  obtain ⟨r, rfl⟩ := h
  rfl

theorem Alike.csprng {c c' : Context σ} (h : c.Alike c') : c'.csprng = c.csprng := by
  obtain ⟨r, rfl⟩ := h
  rfl

/-! ## A call that is struck -/

theorem backend_of_still {c : Context σ} {m : Machine σ} (hm : c.machine? = some m)
    {f : QuietOperation σ α} (hf : f.Still) {r : Except SchemeError α} {state : σ}
    (h : f m.state = (r, state)) : some (m.backend, state) = c.backend := by
  have hstate := hf m.state
  rw [h] at hstate
  rw [(machine?_eq_some hm).2, ← hstate]

/-- A disowned operation gives back the state and the supply that it was handed. -/
theorem same_of_declines {c : Context σ} {m : Machine σ} (hm : c.machine? = some m)
    {f : DrawingOperation σ α} (hf : f.Declines) {scheme : SchemeId} {cause : SchemeError}
    {state : σ} {entropy : Entropy} {left : Supply}
    (h : f m.state { csprng := m.csprng, entropy } = (.error cause, state, left))
    (hrefusal : (ContextError.ofScheme scheme cause).Refusal) :
    some left.csprng = c.csprng ∧ some (m.backend, state) = c.backend ∧
      left.entropy = entropy := by
  obtain ⟨operation, rfl⟩ := ContextError.exists_of_refusal_ofScheme hrefusal
  obtain ⟨rfl, rfl⟩ := hf _ _ _ _ _ h
  obtain ⟨hcsprng, hbackend⟩ := machine?_eq_some hm
  exact ⟨hcsprng.symm, hbackend.symm, rfl⟩

end Context

open Context

/-- What an idle call that fails leaves of generator, backend and entropy: all of it. -/
theorem Failure.same_of_idle {c : Context σ} {entropy left : Entropy} {call : Call}
    {e : ContextError} {csprng : Option Csprng} {backend : Option (Backend σ × σ)}
    (h : Failure c entropy call e csprng backend left)
    (hbackend : ∀ m, c.machine? = some m → m.backend.Discreet)
    (hidle : call.isDiscreet = true ∨ e.Refusal) :
    csprng = c.csprng ∧ backend = c.backend ∧ left = entropy := by
  cases h with
  | refused => exact ⟨rfl, rfl, rfl⟩
  | reseed =>
    exact absurd hidle (by simp [Call.isDiscreet, ContextError.Refusal, ContextError.code])
  | keygen =>
    exact absurd hidle (by simp [Call.isDiscreet, ContextError.Refusal, ContextError.code])
  | sign _ hm hrun =>
    exact same_of_declines hm ((hbackend _ hm).sign _ _) hrun
      (hidle.resolve_left Bool.false_ne_true)
  | encrypt _ hm hrun =>
    exact same_of_declines hm ((hbackend _ hm).encrypt _ _) hrun
      (hidle.resolve_left Bool.false_ne_true)
  | encapsulate _ hm hrun =>
    exact same_of_declines hm ((hbackend _ hm).encapsulate _) hrun
      (hidle.resolve_left Bool.false_ne_true)
  | verify _ hm _ hrun => exact ⟨rfl, backend_of_still hm ((hbackend _ hm).verify _ _ _) hrun, rfl⟩
  | decrypt _ hm hrun => exact ⟨rfl, backend_of_still hm ((hbackend _ hm).decrypt _ _) hrun, rfl⟩
  | unpad _ hm hrun => exact ⟨rfl, backend_of_still hm ((hbackend _ hm).decrypt _ _) hrun, rfl⟩
  | decapsulate _ hm hrun =>
    exact ⟨rfl, backend_of_still hm ((hbackend _ hm).decapsulate _ _) hrun, rfl⟩

/-- What a discreet call that succeeds leaves. -/
theorem Success.alike_of_discreet {c c' : Context σ} {entropy left : Entropy} {call : Call}
    {reply : Reply} (h : Success c entropy call reply c' left)
    (hbackend : ∀ m, c.machine? = some m → m.backend.Discreet)
    (hdiscreet : call.isDiscreet = true) : c.Alike c' ∧ left = entropy := by
  cases h with
  | encodeKey => exact ⟨⟨{ c.records with statistics := _ }, rfl⟩, rfl⟩
  | reject => exact ⟨⟨{ c.records with statistics := _ }, rfl⟩, rfl⟩
  | verify _ _ hm _ hrun =>
    rw [backend_of_still hm ((hbackend _ hm).verify _ _ _) hrun]
    exact ⟨⟨{ c.records with statistics := _ }, rfl⟩, rfl⟩
  | decrypt _ _ hm hrun =>
    rw [backend_of_still hm ((hbackend _ hm).decrypt _ _) hrun]
    exact ⟨⟨{ c.records with statistics := _ }, rfl⟩, rfl⟩
  | decapsulate _ _ hm hrun =>
    rw [backend_of_still hm ((hbackend _ hm).decapsulate _ _) hrun]
    exact ⟨⟨{ c.records with statistics := _ }, rfl⟩, rfl⟩
  | setDebugLevel level => exact ⟨⟨{ c.records with debugLevel := level }, rfl⟩, rfl⟩
  | takeError => exact ⟨⟨{ c.records with errors := c.errors.take?.2 }, rfl⟩, rfl⟩
  | peekError => exact ⟨.refl c, rfl⟩
  | clearErrors => exact ⟨⟨{ c.records with errors := c.errors.clear }, rfl⟩, rfl⟩
  | _ => exact absurd hdiscreet (by simp [Call.isDiscreet])

namespace Context

variable {c c' : Context σ} {stock : BuiltIn}

/-- **An idle call leaves only its records behind.** -/
theorem Fits.alike_of_idle (h : c.Fits stock) {call : Call} {entropy : Entropy}
    (hidle : Event.IsIdle ⟨call, (c.perform call entropy).1.answer⟩) :
    c.Alike (c.perform call entropy).1.context ∧ (c.perform call entropy).2 = entropy := by
  have hbackend : ∀ m, c.machine? = some m → m.backend.Discreet := by
    intro m hm
    rw [h.machine hm]
    exact stock.discreet c.config.hash
  rcases c.ends_perform call entropy with
    ⟨e, csprng, backend, hanswer, hcontext, hfailure⟩ | ⟨reply, hanswer, hsuccess⟩
  · have hrefused : call.isDiscreet = true ∨ e.Refusal := by
      refine hidle.imp id ?_
      rintro ⟨e', he', hrefusal⟩
      obtain rfl := Except.error.inj (hanswer.symm.trans he')
      exact hrefusal
    obtain ⟨hcsprng, hbackend, hentropy⟩ := hfailure.same_of_idle hbackend hrefused
    rw [hcontext, hcsprng, hbackend]
    exact ⟨⟨{ c.records with errors := _ }, rfl⟩, hentropy⟩
  · have hdiscreet : call.isDiscreet = true := by
      refine hidle.resolve_right ?_
      rintro ⟨e, he, -⟩
      exact absurd (hanswer.symm.trans he) (by simp)
    exact hsuccess.alike_of_discreet hbackend hdiscreet

/-! ## A call that stays -/

/-- **A call does not read the records**, but for the two that are there for it. -/
theorem Alike.perform (h : c.Alike c') (call : Call) (entropy : Entropy) :
    (c.perform call entropy).1.context.Alike (c'.perform call entropy).1.context ∧
      (c'.perform call entropy).2 = (c.perform call entropy).2 ∧
      (call.readsFailures = false →
        (c'.perform call entropy).1.answer = (c.perform call entropy).1.answer) := by
  obtain ⟨r, rfl⟩ := h
  cases hreads : call.readsFailures with
  | true =>
    rcases Call.eq_of_readsFailures hreads with rfl | rfl
    · exact ⟨⟨{ r with errors := r.errors.take?.2 }, rfl⟩, rfl, by simp⟩
    · exact ⟨⟨r, rfl⟩, rfl, by simp⟩
  | false =>
    cases hsets : call.setsVerbosity with
    | true =>
      obtain ⟨level, rfl⟩ := Call.exists_of_setsVerbosity hsets
      exact ⟨⟨{ r with debugLevel := level }, rfl⟩, rfl, fun _ => rfl⟩
    | false =>
      obtain ⟨e, left, he⟩ := c.exists_effect hreads hsets entropy
      have hhere : c.perform call entropy = (e.on c.records, left) := he c.records
      have hthere : (c.withRecords r).perform call entropy = (e.on r, left) := he r
      rw [hhere, hthere]
      exact ⟨⟨{ r with errors := e.book r.errors, statistics := e.count r.statistics }, rfl⟩, rfl,
        fun _ => rfl⟩

/-! ## Runs -/

/-- The event says more than what is on record. -/
def tells (x : ι × Event) : Bool :=
  !x.2.call.readsFailures

/-- The turn is not a call that bears a mark to strike. -/
def Turn.isKept (struck : ι → Bool) : Turn ι → Bool
  | .call mark _ => !struck mark
  | .elsewhere _ => true

theorem Fits.play (h : c.Fits stock) (script : List (Turn ι)) (entropy : Entropy) :
    (c.play script entropy).context.Fits stock := by
  induction script generalizing c entropy with
  | nil => exact h
  | cons turn script ih =>
    cases turn with
    | elsewhere change => exact ih h (change entropy)
    | call mark call => exact ih (h.perform call entropy) _

/-- Idle calls are struck from a script, and what is left is played on a context that
is the same but for its records. -/
theorem Fits.strike (h : c.Fits stock) (halike : c.Alike c') (struck : ι → Bool)
    {script : List (Turn ι)} {entropy : Entropy}
    (hidle : ∀ x ∈ (c.play script entropy).events, struck x.1 = true → x.2.IsIdle) :
    (c.play script entropy).context.Alike
        (c'.play (script.filter (Turn.isKept struck)) entropy).context ∧
      (c'.play (script.filter (Turn.isKept struck)) entropy).entropy =
        (c.play script entropy).entropy ∧
      (c'.play (script.filter (Turn.isKept struck)) entropy).events.filter tells =
        ((c.play script entropy).events.filter fun x => !struck x.1).filter tells := by
  induction script generalizing c c' entropy with
  | nil => exact ⟨halike, rfl, rfl⟩
  | cons turn script ih =>
    cases turn with
    | elsewhere change => exact ih h halike hidle
    | call mark call =>
      simp only [events_play_call, List.forall_mem_cons] at hidle
      obtain ⟨hhead, htail⟩ := hidle
      have hfits := h.perform call entropy
      by_cases hmark : struck mark = true
      · -- the call is not made on `c'`, and what it leads to from `c` is like `c`
        obtain ⟨hsame, hentropy⟩ := h.alike_of_idle (hhead hmark)
        have hstruck : (Turn.call mark call :: script).filter (Turn.isKept struck) =
            script.filter (Turn.isKept struck) :=
          List.filter_cons_of_neg (by simp [Turn.isKept, hmark])
        rw [hentropy] at htail
        rw [hstruck, context_play_call, entropy_play_call, events_play_call, hentropy,
          List.filter_cons_of_neg (by simp [hmark])]
        exact ih hfits (hsame.symm.trans halike) htail
      · -- the call is made on both, which differ in what is on record
        obtain ⟨hafter, hentropy, hanswer⟩ := halike.perform call entropy
        obtain ⟨hcontext, hleft, hevents⟩ := ih hfits hafter htail
        have hkept : (Turn.call mark call :: script).filter (Turn.isKept struck) =
            .call mark call :: script.filter (Turn.isKept struck) :=
          List.filter_cons_of_pos (by simp [Turn.isKept, hmark])
        have hstays : ((c.play (.call mark call :: script) entropy).events.filter
            fun x => !struck x.1) =
            (mark, ⟨call, (c.perform call entropy).1.answer⟩) ::
              ((c.perform call entropy).1.context.play script
                (c.perform call entropy).2).events.filter fun x => !struck x.1 :=
          List.filter_cons_of_pos (by simp [hmark])
        rw [hkept, hstays, context_play_call, context_play_call, entropy_play_call,
          entropy_play_call, events_play_call, hentropy]
        refine ⟨hcontext, hleft, ?_⟩
        rw [List.filter_cons, List.filter_cons, hevents]
        -- an answer that shows the record may differ, and is not told
        cases hreads : call.readsFailures with
        | true => simp only [tells, hreads, Bool.not_true, Bool.false_eq_true, if_false]
        | false => rw [hanswer hreads]

/-- Nothing that is done with contexts that are alike tells them apart. -/
theorem Fits.same_later (h : c.Fits stock) (halike : c.Alike c') (later : List (Turn ι))
    (entropy : Entropy) :
    (c'.play later entropy).events.filter tells = (c.play later entropy).events.filter tells := by
  have hkept : later.filter (Turn.isKept fun _ => false) = later := by
    refine List.filter_eq_self.mpr ?_
    intro turn _
    cases turn <;> rfl
  have hidle : ∀ x ∈ (c.play later entropy).events, false = true → x.2.IsIdle := by
    intro x _ hstruck
    exact absurd hstruck Bool.false_ne_true
  obtain ⟨-, -, hevents⟩ := h.strike halike (fun _ => false) hidle
  rw [hkept] at hevents
  rw [hevents]
  exact congrArg _ (List.filter_eq_self.mpr fun _ _ => rfl)

/-- **Idle calls can be struck.** A script is played on a context that a context of the
library's schemes can become, and some of its calls are marked to be struck: encodings of
keys, verifications, decryptions, decapsulations, changes of the verbosity, calls that
read or clear the record of failures, and calls that were refused. Without them, in the
same surroundings, the calls that are left get the answers that they had, those apart
that show the record of failures. The context comes to the same keys, codings and
generator, and differs in nothing but its records; the entropy was asked as often and
for the same; and from there on nothing tells the two apart. -/
theorem idle_calls_can_be_struck [Inhabited σ] {c₀ c : Context σ} {history : List Event}
    (hbuilt : c₀.IsBuiltIn) (hreach : c₀.Reaches history c) {struck : ι → Bool}
    {script : List (Turn ι)} {entropy : Entropy}
    (hidle : ∀ x ∈ (c.play script entropy).events, struck x.1 = true → x.2.IsIdle) :
    let full := c.play script entropy
    let rest := c.play (script.filter (Turn.isKept struck)) entropy
    rest.events.filter tells = (full.events.filter fun x => !struck x.1).filter tells ∧
      (∀ keyClass, rest.context.slot keyClass = full.context.slot keyClass) ∧
      rest.context.signatureCoding = full.context.signatureCoding ∧
      rest.context.csprng = full.context.csprng ∧ rest.entropy = full.entropy ∧
      full.context.Alike rest.context ∧
      ∀ (later : List (Turn ι)) (left : Entropy),
        (rest.context.play later left).events.filter tells =
          (full.context.play later left).events.filter tells := by
  intro full rest
  obtain ⟨stock, hfits₀⟩ := hbuilt.fits
  have hfits := hreach.fits hfits₀
  obtain ⟨halike, hentropy, hevents⟩ := hfits.strike (.refl c) struck hidle
  refine ⟨hevents, halike.slot, halike.signatureCoding, halike.csprng, hentropy, halike, ?_⟩
  intro later left
  exact (hfits.play script entropy).same_later halike later left

/-- The law on a Kyber context with a public key. It is asked to sign, which it cannot,
and to encode the key; the encapsulation after that is the one that there would have
been without. -/
theorem idle_calls_can_be_struck_before_an_encapsulation :
    ∃ (c₀ c : Context Unit) (history : List Event),
      let asked := c.run [.sign [1], .encodeKey .publicKey] steadyHost
      c₀.IsBuiltIn ∧ c₀.Reaches history c ∧ (c.slot .publicKey).key.isSome = true ∧
      (c.perform (.sign [1]) steadyHost).1.answer = .error (.unsupported .kemKyber .sign) ∧
      (c.perform .encapsulate steadyHost).1.answer =
        (asked.context.perform .encapsulate asked.entropy).1.answer := by
  obtain ⟨c₀, history, c, h⟩ := exists_holding (.kyber .kyber512) .publicKey
    (List.replicate 800 0) List.length_replicate
  have hgate : c.gate .sign .privateKey = .error (.unsupported .kemKyber .sign) := by
    rw [gate_of_unsupported h.live, h.scheme]
    · rfl
    · rw [h.fits.descriptor]
      rfl
  have hdemand : (Call.sign [1]).demand? = some (.sign, .privateKey) := rfl
  have hsign := (refused_of_gate hdemand hgate steadyHost).answer_eq
  let script : List (Turn Bool) :=
    [.call true (.sign [1]), .call true (.encodeKey .publicKey), .call false .encapsulate]
  have hidle : ∀ x ∈ (c.play script steadyHost).events, id x.1 = true → x.2.IsIdle := by
    intro x hx hstruck
    simp only [script, events_play_call, List.mem_cons] at hx
    rcases hx with rfl | rfl | rfl | hx
    · exact .inr ⟨_, hsign, .inr (.inl rfl)⟩
    · exact .inl rfl
    · exact absurd hstruck (by simp)
    · exact absurd hx (by simp [play])
  obtain ⟨hevents, -⟩ := idle_calls_can_be_struck h.built h.reaches hidle
  refine ⟨c₀, c, history, h.built, h.reaches, ?_, hsign, ?_⟩
  · rw [h.held]
    rfl
  · have hboth := List.cons.inj hevents
    exact congrArg Event.answer (Prod.mk.inj hboth.1).2

end Context

end LatticeSuite
