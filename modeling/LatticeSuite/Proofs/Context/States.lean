import LatticeSuite.Proofs.Context.Frame
import LatticeSuite.Proofs.Context.Gates

/-!
# A context goes through its states in one direction

The state of a context is not stored but derived, from two key slots and the mark of a
destruction, while generator and backend are held as options next to them. Five fields
that every call may write have to stay in step.

> Generator and backend are there exactly as long as the context is not destroyed, no
> key outlives them, and the state of a context never goes back
> (`Context.life_goes_one_way`).

A step looks at `Context.Files` for the slots and at `Success.presence` for the rest, and
at no call. What is left of a destroyed context is `Context.Over`: every operation is
refused, and only the settings and the record of failures still answer.
-/

namespace LatticeSuite

variable {σ : Type}

/-- The calls that make keys or use them; the others are of the settings, of the record
of failures, and the destruction. -/
def Call.isOperation : Call → Bool
  | .keygen | .encodeKey _ | .loadKey _ _ | .sign _ | .verify _ _ | .encrypt _ _ | .decrypt _ _
  | .encapsulate | .decapsulate _ => true
  | _ => false

theorem ContextState.rank_le_destroyed (s : ContextState) : s.rank ≤ rank .destroyed := by
  cases s <;> decide

/-- The state of a live context goes up with its keys. -/
theorem ContextState.rank_derive_le {hasKey hasKey' : Bool} (h : hasKey = true → hasKey' = true) :
    (derive false hasKey).rank ≤ (derive false hasKey').rank := by
  cases hasKey with
  | false => cases hasKey' <;> decide
  | true =>
    rw [h rfl]

open Context

/-- An operation that succeeds was made on a live context. -/
theorem Success.live {c c' : Context σ} {entropy left : Entropy} {call : Call} {reply : Reply}
    (h : Success c entropy call reply c' left) (hcall : call.isOperation = true) :
    c.destroyed = false := by
  cases h with
  | keygen hlive => exact hlive
  | encodeKey hlive => exact hlive
  | loadKey hlive => exact hlive
  | sign hlive => exact hlive
  | verify hlive => exact hlive
  | reject hlive => exact hlive
  | encrypt hlive => exact hlive
  | decrypt hlive => exact hlive
  | encapsulate hlive => exact hlive
  | decapsulate hlive => exact hlive
  | _ => exact absurd hcall (by simp [Call.isOperation])

namespace Context

variable {c : Context σ}

/-! ## One call -/

/-- Nothing but a destruction changes whether a context is destroyed. -/
theorem destroyed_perform (c : Context σ) (call : Call) (entropy : Entropy) :
    (c.perform call entropy).1.context.destroyed = c.destroyed ∨
      (c.perform call entropy).1.context = c.release := by
  rcases c.ends_perform call entropy with
    ⟨e, csprng, backend, -, hcontext, -⟩ | ⟨reply, -, hsuccess⟩
  · rw [hcontext]
    exact .inl rfl
  · exact hsuccess.presence.imp SamePresence.destroyed id

theorem destroyed_destroy (c : Context σ) (entropy : Entropy) :
    (c.perform .destroy entropy).1.context.destroyed = true := by
  show c.destroy.context.destroyed = true
  unfold destroy
  split
  next hdead => exact hdead
  next => rfl

/-- A key is replaced or stays as long as the context lives. -/
theorem hasKey_perform {keyClass : KeyClass} (hkey : c.hasKey keyClass = true) (call : Call)
    (entropy : Entropy) (hlive : (c.perform call entropy).1.context.destroyed = false) :
    (c.perform call entropy).1.context.hasKey keyClass = true := by
  have hfiles := c.files_perform call entropy keyClass
  unfold hasKey at hkey ⊢
  generalize ((c.perform call entropy).1.context.slot keyClass).key = stored at hfiles ⊢
  cases hfiles with
  | kept => exact hkey
  | generated => rfl
  | loaded => rfl
  | released =>
    rw [destroyed_destroy] at hlive
    exact absurd hlive (by simp)

/-- **A call does not take a context back.** -/
theorem rank_le_perform (c : Context σ) (call : Call) (entropy : Entropy) :
    c.state.rank ≤ (c.perform call entropy).1.context.state.rank := by
  cases hend : (c.perform call entropy).1.context.destroyed with
  | true =>
    unfold state
    rw [hend]
    exact ContextState.rank_le_destroyed _
  | false =>
    have hlive : c.destroyed = false := by
      rcases c.destroyed_perform call entropy with hsame | hreleased
      · rw [← hsame, hend]
      · rw [hreleased] at hend
        exact absurd hend (by simp [release])
    unfold state
    rw [hend, hlive]
    refine ContextState.rank_derive_le ?_
    intro hkeys
    rw [Bool.or_eq_true] at hkeys ⊢
    exact hkeys.imp (fun h => hasKey_perform h call entropy hend)
      fun h => hasKey_perform h call entropy hend

/-- A destroyed context holds no key. -/
def Bare (c : Context σ) : Prop :=
  c.destroyed = true → ∀ keyClass, (c.slot keyClass).key = none

theorem IsNew.bare (h : c.IsNew) : c.Bare := by
  obtain ⟨s, registry, entropy, h⟩ := h
  obtain ⟨_, features, entry, csprng, backend, -, -, -, -, rfl⟩ := built_of_create h
  intro hdead
  exact absurd hdead (by simp)

theorem Bare.perform (h : c.Bare) (call : Call) (entropy : Entropy) :
    (c.perform call entropy).1.context.Bare := by
  intro hend keyClass
  rcases c.destroyed_perform call entropy with hsame | hreleased
  · -- destroyed before: operations fail, and no other call brings a key
    have hdead : c.destroyed = true := by rw [← hsame, hend]
    have hempty := h hdead keyClass
    rcases c.ends_perform call entropy with
      ⟨e, csprng, backend, -, hcontext, -⟩ | ⟨reply, -, hsuccess⟩
    · rw [hcontext]
      cases keyClass with
      | publicKey => exact hempty
      | privateKey => exact hempty
    · have hfiles := hsuccess.files keyClass
      generalize ((c.perform call entropy).1.context.slot keyClass).key = stored at hfiles ⊢
      cases hfiles with
      | kept => exact hempty
      | released => rfl
      | generated => exact absurd (hsuccess.live rfl) (by simp [hdead])
      | loaded => exact absurd (hsuccess.live rfl) (by simp [hdead])
  · rw [hreleased]
    cases keyClass with
    | publicKey => rfl
    | privateKey => rfl

/-! ## Histories -/

theorem Reaches.bare {c₀ : Context σ} {history : List Event} (h : c₀.Reaches history c)
    (hnew : c₀.IsNew) : c.Bare := by
  induction h with
  | start => exact hnew.bare
  | call _ call entropy ih => exact ih.perform call entropy

theorem Reaches.rank_le {c' : Context σ} {history : List Event} (h : c.Reaches history c') :
    c.state.rank ≤ c'.state.rank := by
  induction h with
  | start => exact Nat.le_refl _
  | call _ call entropy ih => exact Nat.le_trans ih (rank_le_perform _ call entropy)

/-! ## After the end -/

theorem refused_of_destroyed (hdead : c.destroyed = true) {call : Call}
    (hcall : call.isOperation = true) (entropy : Entropy) :
    c.Refused call .destroyed entropy := by
  cases call with
  | keygen =>
    have hperform : c.perform .keygen entropy =
        ((c.fail "keygen" .destroyed).map fun () => .done, entropy) := by
      simp only [perform, keygen, canKeygen_state, hdead]
      rfl
    exact refused_of_perform hperform
  | encodeKey keyClass =>
    have hperform : c.perform (.encodeKey keyClass) entropy =
        ((c.fail (encodeCall keyClass) .destroyed).map .bytes, entropy) := by
      simp only [perform, encodeKey, isLive_state, hdead]
      rfl
    exact refused_of_perform hperform
  | loadKey keyClass envelope =>
    have hperform : c.perform (.loadKey keyClass envelope) entropy =
        ((c.fail (loadCall keyClass) .destroyed).map fun () => .done, entropy) := by
      simp only [perform, loadKey, isLive_state, hdead]
      rfl
    exact refused_of_perform hperform
  | sign => exact refused_of_gate rfl (gate_of_destroyed hdead _ _) entropy
  | verify => exact refused_of_gate rfl (gate_of_destroyed hdead _ _) entropy
  | encrypt => exact refused_of_gate rfl (gate_of_destroyed hdead _ _) entropy
  | decrypt => exact refused_of_gate rfl (gate_of_destroyed hdead _ _) entropy
  | encapsulate => exact refused_of_gate rfl (gate_of_destroyed hdead _ _) entropy
  | decapsulate => exact refused_of_gate rfl (gate_of_destroyed hdead _ _) entropy
  | _ => exact absurd hcall (by simp [Call.isOperation])

/-- What is left of a context that was destroyed. -/
structure Over (c : Context σ) : Prop where
  /-- No operation is possible, and only the failure is recorded. -/
  refuses : ∀ call entropy, call.isOperation = true → c.Refused call .destroyed entropy
  /-- It cannot be destroyed again, nor does it log that it is. -/
  destroy : ∀ entropy, c.perform .destroy entropy = (c.settled .done, entropy)
  setKeyCoding : ∀ publicCoding privateCoding entropy,
    let o := (c.perform (.setKeyCoding publicCoding privateCoding) entropy).1
    o.answer = .ok .done ∧
      o.context =
        { c with
          publicSlot := { c.publicSlot with coding := publicCoding }
          privateSlot := { c.privateSlot with coding := privateCoding } }
  setSignatureCoding : ∀ coding entropy,
    let o := (c.perform (.setSignatureCoding coding) entropy).1
    o.answer = .ok .done ∧ o.context = { c with signatureCoding := coding }

theorem over_of_destroyed (hdead : c.destroyed = true) : c.Over := by
  refine ⟨?_, ?_, ?_, ?_⟩
  · intro call entropy hcall
    exact refused_of_destroyed hdead hcall entropy
  · intro entropy
    show (c.destroy, entropy) = _
    unfold destroy
    rw [if_pos hdead]
  · intro publicCoding privateCoding entropy
    exact ⟨rfl, rfl⟩
  · intro coding entropy
    exact ⟨rfl, rfl⟩

/-- **The life of a context goes one way.** In every state that a created context can
reach, generator and backend are gone exactly when it is destroyed, and then there is no
key either; so behind the gates that ask for a live context there is always a machine.
Its state is never the one of a context in creation, and in everything that it can still
reach it is the same or a later one. Once it is destroyed, it is over. -/
theorem life_goes_one_way {c₀ c : Context σ} {history : List Event} (hnew : c₀.IsNew)
    (hreach : c₀.Reaches history c) :
    (c.destroyed = true ↔ c.backend = none) ∧
    (c.destroyed = true ↔ c.csprng = none) ∧
    (c.destroyed = true → ∀ keyClass, (c.slot keyClass).key = none) ∧
    (c.state.isLive = true ∨ c.state.canKeygen = true → ∃ m, c.machine? = some m) ∧
    c.state ≠ .created ∧
    (∀ later c', c.Reaches later c' → c.state.rank ≤ c'.state.rank) ∧
    (c.state = .destroyed → c.Over) := by
  have hwhole := hreach.whole hnew
  refine ⟨?_, ?_, hreach.bare hnew, ?_, ?_, ?_, ?_⟩
  · rw [← hwhole.backend, Option.isNone_iff_eq_none]
  · rw [← hwhole.csprng, Option.isNone_iff_eq_none]
  · intro hgate
    rw [isLive_state, canKeygen_state, or_self, Bool.not_eq_true'] at hgate
    exact hwhole.exists_machine hgate
  · unfold state ContextState.derive
    cases c.destroyed with
    | true => simp
    | false => cases c.hasKey .publicKey || c.hasKey .privateKey <;> simp
  · intro later c' hlater
    exact hlater.rank_le
  · intro hstate
    have hlive := c.isLive_state
    rw [hstate] at hlive
    exact over_of_destroyed (by simpa [ContextState.isLive] using hlive)

/-- The law on a context that repeats messages: new, with keys, and destroyed. -/
theorem life_goes_one_way_of_an_echo :
    ∃ c₀ c dead : Context Unit, ∃ history later,
      c₀.IsNew ∧ c₀.Reaches history c ∧ c.Reaches later dead ∧
      c₀.state = .initialized ∧ c.state = .keyReady ∧ (∃ m, c.machine? = some m) ∧
      c.state.rank ≤ dead.state.rank ∧ dead.csprng = none ∧ dead.Over := by
  let entropy : Entropy := { host := fun _ _ n => .ok (List.replicate n 7) }
  obtain ⟨c₀, hcreate, hnew, hready, hdead, hgone⟩ : ∃ c₀ : Context Unit,
      (ContextSettings.create { scheme := .sigHelloWorld, paramSet := 0 } .echo entropy).answer =
        .ok c₀ ∧
      c₀.state = .initialized ∧ (c₀.run [.keygen] entropy).context.state = .keyReady ∧
      ((c₀.run [.keygen] entropy).context.run [.destroy] entropy).context.state = .destroyed ∧
      ((c₀.run [.keygen] entropy).context.run [.destroy] entropy).context.destroyed = true :=
    ⟨_, rfl, rfl, rfl, rfl, rfl⟩
  have hcreated : c₀.IsNew := ⟨_, _, _, hcreate⟩
  have hreach := c₀.reaches_run [.keygen] entropy
  have hlater := (c₀.run [.keygen] entropy).context.reaches_run [.destroy] entropy
  obtain ⟨-, -, -, hmachine, -, hranks, -⟩ := life_goes_one_way hcreated hreach
  obtain ⟨-, hcsprng, -, -, -, -, hover⟩ := life_goes_one_way hcreated (hreach.trans hlater)
  refine ⟨c₀, _, _, _, _, hcreated, hreach, hlater, hnew, hready, hmachine (.inl ?_),
    hranks _ _ hlater, hcsprng.mp hgone, hover hdead⟩
  rw [hready]
  rfl

end Context

end LatticeSuite
