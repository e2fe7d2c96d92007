import LatticeSuite.Proofs.Context.Runs

/-!
# A live context can be worked with

A context holds its generator and its backend as options, because destroying it
lets go of both. A law about an operation would have to say again and again that
they are there. This file says it once:

> In every state that a created context can reach, generator and backend are
> gone exactly when the context is destroyed (`Context.Reaches.whole`).

So behind the gate that asks for a live context there is always a machine, and
an operation that the scheme offers, on a slot that is filled, passes all the
gates (`Context.Admits.gate_eq`). Behind them its answer is the backend's
(`Context.answer_drawing`, `Context.answer_quiet`).

No call but `destroy` changes what is present, whether it fails
(`Failure.presence`) or succeeds (`Success.presence`).
-/

namespace LatticeSuite

variable {σ : Type}

namespace Context

theorem isNone_of_machine? {c : Context σ} {m : Machine σ} (hm : c.machine? = some m) :
    c.csprng.isNone = false ∧ c.backend.isNone = false := by
  obtain ⟨hcsprng, hbackend⟩ := machine?_eq_some hm
  rw [hcsprng, hbackend]
  exact ⟨rfl, rfl⟩

theorem withMachine_self {c : Context σ} {m : Machine σ} (hm : c.machine? = some m) :
    c.withMachine m = c := by
  obtain ⟨hcsprng, hbackend⟩ := machine?_eq_some hm
  unfold withMachine
  rw [← hcsprng, ← hbackend]

/-- Both are there, or both are gone with the context. -/
structure Whole (c : Context σ) : Prop where
  csprng : c.csprng.isNone = c.destroyed
  backend : c.backend.isNone = c.destroyed

/-- `c'` has what `c` has. -/
structure SamePresence (c c' : Context σ) : Prop where
  csprng : c'.csprng.isNone = c.csprng.isNone
  backend : c'.backend.isNone = c.backend.isNone
  destroyed : c'.destroyed = c.destroyed

@[simp] theorem csprng_storeKey (c : Context σ) (key : KeyMaterial) :
    (c.storeKey key).csprng = c.csprng := by
  unfold storeKey
  split <;> rfl

@[simp] theorem backend_storeKey (c : Context σ) (key : KeyMaterial) :
    (c.storeKey key).backend = c.backend := by
  unfold storeKey
  split <;> rfl

@[simp] theorem destroyed_storeKey (c : Context σ) (key : KeyMaterial) :
    (c.storeKey key).destroyed = c.destroyed := by
  unfold storeKey
  split <;> rfl

theorem SamePresence.of_machine? {c c' : Context σ} {m : Machine σ} (hm : c.machine? = some m)
    (hcsprng : c'.csprng.isNone = false) (hbackend : c'.backend.isNone = false)
    (hdestroyed : c'.destroyed = c.destroyed) : c.SamePresence c' := by
  obtain ⟨hcsprng', hbackend'⟩ := isNone_of_machine? hm
  exact ⟨hcsprng.trans hcsprng'.symm, hbackend.trans hbackend'.symm, hdestroyed⟩

theorem SamePresence.whole {c c' : Context σ} (h : c.SamePresence c') (hc : c.Whole) :
    c'.Whole := by
  refine ⟨?_, ?_⟩
  · rw [h.csprng, h.destroyed]
    exact hc.csprng
  · rw [h.backend, h.destroyed]
    exact hc.backend

end Context

open Context

/-- A call that fails takes nothing away and brings nothing back. -/
theorem Failure.presence {c : Context σ} {entropy left : Entropy} {call : Call}
    {e : ContextError} {csprng : Option Csprng} {backend : Option (Backend σ × σ)}
    (h : Failure c entropy call e csprng backend left) :
    csprng.isNone = c.csprng.isNone ∧ backend.isNone = c.backend.isNone := by
  cases h with
  | refused => exact ⟨rfl, rfl⟩
  | reseed => exact ⟨rfl, rfl⟩
  | keygen hm => exact (isNone_of_machine? hm).imp Eq.symm Eq.symm
  | sign _ hm => exact (isNone_of_machine? hm).imp Eq.symm Eq.symm
  | encrypt _ hm => exact (isNone_of_machine? hm).imp Eq.symm Eq.symm
  | encapsulate _ hm => exact (isNone_of_machine? hm).imp Eq.symm Eq.symm
  | verify _ hm => exact ⟨rfl, (isNone_of_machine? hm).2.symm⟩
  | decrypt _ hm => exact ⟨rfl, (isNone_of_machine? hm).2.symm⟩
  | unpad _ hm => exact ⟨rfl, (isNone_of_machine? hm).2.symm⟩
  | decapsulate _ hm => exact ⟨rfl, (isNone_of_machine? hm).2.symm⟩

/-- Neither does a call that succeeds, but for the one that lets go of everything. -/
theorem Success.presence {c c' : Context σ} {entropy left : Entropy} {call : Call}
    {reply : Reply} (h : Success c entropy call reply c' left) :
    c.SamePresence c' ∨ c' = c.release := by
  cases h with
  | keygen _ hm =>
    refine .inl (.of_machine? hm ?_ ?_ ?_)
    · rw [storePair, csprng_storeKey, csprng_storeKey]
      rfl
    · rw [storePair, backend_storeKey, backend_storeKey]
      rfl
    · rw [storePair, destroyed_storeKey, destroyed_storeKey]
      rfl
  | loadKey =>
    refine .inl ⟨?_, ?_, ?_⟩
    · rw [csprng_storeKey]
    · rw [backend_storeKey]
    · rw [destroyed_storeKey]
  | sign _ _ hm => exact .inl (.of_machine? hm rfl rfl rfl)
  | encrypt _ _ hm => exact .inl (.of_machine? hm rfl rfl rfl)
  | encapsulate _ _ hm => exact .inl (.of_machine? hm rfl rfl rfl)
  | verify _ _ hm => exact .inl (.of_machine? hm (isNone_of_machine? hm).1 rfl rfl)
  | decrypt _ _ hm => exact .inl (.of_machine? hm (isNone_of_machine? hm).1 rfl rfl)
  | decapsulate _ _ hm => exact .inl (.of_machine? hm (isNone_of_machine? hm).1 rfl rfl)
  | destroy => exact .inr rfl
  | encodeKey => exact .inl ⟨rfl, rfl, rfl⟩
  | reject => exact .inl ⟨rfl, rfl, rfl⟩
  | setKeyCoding => exact .inl ⟨rfl, rfl, rfl⟩
  | setSignatureCoding => exact .inl ⟨rfl, rfl, rfl⟩
  | setDebugLevel => exact .inl ⟨rfl, rfl, rfl⟩
  | takeError => exact .inl ⟨rfl, rfl, rfl⟩
  | peekError => exact .inl ⟨rfl, rfl, rfl⟩
  | clearErrors => exact .inl ⟨rfl, rfl, rfl⟩
  | destroyed => exact .inl ⟨rfl, rfl, rfl⟩

namespace Context

theorem IsNew.whole {c : Context σ} (h : c.IsNew) : c.Whole := by
  obtain ⟨s, registry, entropy, h⟩ := h
  obtain ⟨_, features, entry, csprng, backend, -, -, -, -, rfl⟩ := built_of_create h
  exact ⟨rfl, rfl⟩

theorem Whole.perform {c : Context σ} (h : c.Whole) (call : Call) (entropy : Entropy) :
    (c.perform call entropy).1.context.Whole := by
  rcases c.ends_perform call entropy with
    ⟨e, csprng, backend, -, hcontext, hfailure⟩ | ⟨reply, -, hsuccess⟩
  · obtain ⟨hcsprng, hbackend⟩ := hfailure.presence
    rw [hcontext]
    exact ⟨hcsprng.trans h.csprng, hbackend.trans h.backend⟩
  · rcases hsuccess.presence with hsame | hreleased
    · exact hsame.whole h
    · rw [hreleased]
      exact ⟨rfl, rfl⟩

/-- **Generator and backend are gone exactly when the context is destroyed**, in
every state that a created context can reach. -/
theorem Reaches.whole {c₀ c : Context σ} {history : List Event} (h : c₀.Reaches history c)
    (hnew : c₀.IsNew) : c.Whole := by
  induction h with
  | start => exact hnew.whole
  | call _ call entropy ih => exact ih.perform call entropy

theorem Whole.exists_machine {c : Context σ} (h : c.Whole) (hlive : c.destroyed = false) :
    ∃ m, c.machine? = some m := by
  obtain ⟨csprng, hcsprng⟩ := Option.isSome_iff_exists.mp
    (Option.isNone_eq_false_iff.mp (h.csprng.trans hlive))
  obtain ⟨⟨backend, state⟩, hbackend⟩ := Option.isSome_iff_exists.mp
    (Option.isNone_eq_false_iff.mp (h.backend.trans hlive))
  exact ⟨{ csprng, backend, state }, by rw [machine?, hcsprng, hbackend]⟩

/-- A live context, an operation that its scheme offers, and the key for it. -/
structure Admits (c : Context σ) (operation : Operation) (keyClass : KeyClass)
    (key : KeyMaterial) : Prop where
  live : c.destroyed = false
  offered : c.descriptor.capabilities.supports operation = true
  held : (c.slot keyClass).key = some key

theorem Admits.gate_eq {c : Context σ} {operation : Operation} {keyClass : KeyClass}
    {key : KeyMaterial} (h : c.Admits operation keyClass key) {m : Machine σ}
    (hm : c.machine? = some m) : c.gate operation keyClass = .ok (key.bytes, m) := by
  unfold gate
  rw [isLive_state, h.live, h.offered, h.held, hm]
  rfl

/-! ## Behind the gates -/

theorem of_gate {c : Context σ} {operation : Operation} {keyClass : KeyClass} {key : Bytes}
    {m : Machine σ} (h : c.gate operation keyClass = .ok (key, m)) :
    ∃ held, (c.slot keyClass).key = some held ∧ held.bytes = key ∧ c.machine? = some m := by
  rcases c.gate_cases operation keyClass with ⟨e, hrefused, -⟩ | ⟨held, m', hpassed, -, hkey, hm⟩
  · rw [hrefused] at h
    exact absurd h (by simp)
  · rw [hpassed] at h
    obtain ⟨rfl, rfl⟩ := Prod.mk.inj (Except.ok.inj h)
    exact ⟨held, hkey, rfl, hm⟩

variable {α : Type} {c : Context σ} {operation : Operation} {keyClass : KeyClass} {key : Bytes}
  {m : Machine σ}

theorem answer_drawing (hgate : c.gate operation keyClass = .ok (key, m)) (name : String)
    (run : Backend σ → (key : Bytes) → DrawingOperation σ α) (count : Statistics → Statistics)
    (entropy : Entropy) :
    (c.drawing name operation keyClass run count entropy).1.answer =
      (run m.backend key m.state { csprng := m.csprng, entropy }).1.mapError
        (.ofScheme c.scheme) := by
  unfold drawing
  rw [hgate]
  rcases hr : run m.backend key m.state { csprng := m.csprng, entropy } with ⟨r, state, left⟩
  simp only [draw, Machine.draw, hr]
  cases r with
  | error cause => rfl
  | ok a => rfl

theorem answer_quiet (hgate : c.gate operation keyClass = .ok (key, m)) (name : String)
    (run : Backend σ → (key : Bytes) → QuietOperation σ α) (count : α → Statistics → Statistics) :
    (c.quiet name operation keyClass run count).answer =
      (run m.backend key m.state).1.mapError (.ofScheme c.scheme) := by
  unfold quiet
  rw [hgate]
  rcases hr : run m.backend key m.state with ⟨r, state⟩
  simp only [ask, Machine.ask, hr]
  cases r with
  | error cause => rfl
  | ok a => rfl

/-- What an operation comes to whose backend keeps its state. -/
theorem quiet_of_stateless (hgate : c.gate operation keyClass = .ok (key, m))
    (hm : c.machine? = some m) (name : String)
    {run : Backend σ → (key : Bytes) → QuietOperation σ α} (count : α → Statistics → Statistics)
    {r : Except SchemeError α} :
    run m.backend key m.state = (r, m.state) →
      c.quiet name operation keyClass run count =
        match r with
        | .error cause => c.fail name (.ofScheme c.scheme cause)
        | .ok a => c.succeed (count a) a := by
  intro hrun
  have hask : c.ask m (run m.backend key) = (r, c) := by
    unfold ask Machine.ask
    rw [hrun]
    show (_, c.withMachine m) = _
    rw [withMachine_self hm]
  unfold quiet
  rw [hgate]
  simp only [hask]
  cases r with
  | error cause => rfl
  | ok a => rfl

/-- An operation whose backend answers without doing anything leaves a count. -/
theorem quiet_of_answered (hgate : c.gate operation keyClass = .ok (key, m))
    (hm : c.machine? = some m) (name : String)
    {run : Backend σ → (key : Bytes) → QuietOperation σ α} (count : α → Statistics → Statistics)
    {a : α} (hrun : run m.backend key m.state = (.ok a, m.state)) :
    c.quiet name operation keyClass run count = c.succeed (count a) a :=
  quiet_of_stateless hgate hm name count hrun

end Context

end LatticeSuite
