import LatticeSuite.Proofs.Context.Steps
import LatticeSuite.Scheme.Dilithium

/-!
# A call that fails changes next to nothing

Whoever gets an error must be able to go on as if the call had not been made.
It cannot be literally so: the failure is recorded, a backend may have drawn
random bytes and changed its own state before it gave up, and a generation of
keys may have seeded the generator again.

> A failed call leaves the context as it was, but for one record of the failure
> and for what its point of failure says of generator and backend.

The theorem is about an arbitrary context, so it covers keys of two different
pairs and a slot that is empty while the other is not: whatever the slots held,
they hold it still.
-/

namespace LatticeSuite

variable {σ : Type}

/-- Where the generator could not be seeded again, it and the backend stay. -/
theorem Failure.untouched_of_entropy {c : Context σ} {entropy left : Entropy} {call : Call}
    {e : ContextError} {csprng : Option Csprng} {backend : Option (Backend σ × σ)}
    (h : Failure c entropy call e csprng backend left) {cause : EntropyError}
    (he : e = .keygen (.entropy cause)) : csprng = c.csprng ∧ backend = c.backend := by
  have hscheme : ∀ scheme cause',
      ContextError.ofScheme scheme cause' ≠ .keygen (.entropy cause) := by
    intro scheme cause'
    unfold ContextError.ofScheme
    split
    next => simp
    next => simp
  cases h with
  | refused => exact ⟨rfl, rfl⟩
  | reseed => exact ⟨rfl, rfl⟩
  | keygen => exact absurd he (by simp)
  | unpad => exact absurd he (by simp)
  | sign => exact absurd he (hscheme _ _)
  | verify => exact absurd he (hscheme _ _)
  | encrypt => exact absurd he (hscheme _ _)
  | decrypt => exact absurd he (hscheme _ _)
  | encapsulate => exact absurd he (hscheme _ _)
  | decapsulate => exact absurd he (hscheme _ _)

namespace Context

/-- **A failed call changes nothing but what its point of failure forces.** Both
slots, the codings, the counters, the debug level, the configuration and the
mark of a destroyed context are as before; the failure is recorded once; the
generator and the backend are as the point of failure left them; and a failure
to seed the generator again leaves both of them alone. -/
theorem failed_call_is_atomic (c : Context σ) (call : Call) (entropy : Entropy)
    {e : ContextError} (h : (c.perform call entropy).1.answer = .error e) :
    ∃ csprng backend,
      (c.perform call entropy).1.context =
          { c with csprng, backend, errors := c.errors.push e.code () } ∧
        Failure c entropy call e csprng backend (c.perform call entropy).2 ∧
        ∀ cause, e = .keygen (.entropy cause) → csprng = c.csprng ∧ backend = c.backend := by
  rcases c.ends_perform call entropy with
    ⟨e', csprng, backend, hanswer, hcontext, hfailure⟩ | ⟨reply, hanswer, -⟩
  · rw [hanswer] at h
    obtain rfl := Except.error.inj h
    refine ⟨csprng, backend, hcontext, hfailure, ?_⟩
    intro cause he
    exact hfailure.untouched_of_entropy he
  · rw [hanswer] at h
    exact absurd h (by simp)

/-- The law on a context with a public key alone, whose generator is to be
seeded from a callback that is not installed. -/
theorem failed_call_is_atomic_without_callback :
    let c : Context Unit :=
      { scheme := .sigDilithium
        paramSet := 0
        features := {}
        descriptor := Dilithium.descriptor
        parameterSet := Dilithium.parameterSet .dilithium2
        config := .ofFeatures {} Dilithium.descriptor 0
        csprng := some
          { engine := .system, source := .callback, seedPeriod := 1, seedPeriod_pos := by decide }
        backend := some (Dilithium.backend Unit .dilithium2, ())
        publicSlot := { key := some ⟨.publicKey, .sigDilithium, 0, [1, 2, 3]⟩ }
        signatureCoding := .raw }
    (c.perform .keygen {}).1.answer = .error (.keygen (.entropy .noCallback)) ∧
      ∃ csprng backend,
        (c.perform .keygen {}).1.context =
            { c with csprng, backend, errors := c.errors.push .keygen () } ∧
          Failure c {} .keygen (.keygen (.entropy .noCallback)) csprng backend
            (c.perform .keygen {}).2 ∧
          ∀ cause, ContextError.keygen (.entropy .noCallback) = .keygen (.entropy cause) →
            csprng = c.csprng ∧ backend = c.backend := by
  intro c
  have h : (c.perform .keygen {}).1.answer = .error (.keygen (.entropy .noCallback)) := rfl
  exact ⟨h, failed_call_is_atomic c .keygen {} h⟩

end Context

end LatticeSuite
