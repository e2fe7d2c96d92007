import LatticeSuite.Context.Create
import LatticeSuite.Proofs.Context.Steps

/-!
# Histories of contexts

A law about "every reachable context" has to say what a context can have been
through. `Reaches c history c'` says it: `history` is a list of calls with their
answers, and it made `c'` out of `c`.

The entropy is chosen anew for every call. Between two calls the application
may install another callback, and another context may draw from the host, so
the entropy that a call meets is not the entropy that the call before it left.
`Context.run` is the special case in which nothing comes in between
(`reaches_run`), and a law over `Reaches` covers it.

A law about two runs needs them to meet the same surroundings. For that, what comes in
between is written into a script next to the calls, and `Context.play` plays it.
-/

namespace LatticeSuite

variable {σ : Type}

/-- A call and its answer. -/
structure Event where
  call : Call
  answer : Except ContextError Reply

namespace Context

/-- `c` is what the creation of a context answers. -/
def IsNew (c : Context σ) : Prop :=
  ∃ (s : ContextSettings) (registry : Registry σ) (entropy : Entropy),
    (s.create registry entropy).answer = .ok c

/-- `c` became `c'` by the calls of a history. -/
inductive Reaches (c : Context σ) : List Event → Context σ → Prop
  | start : Reaches c [] c
  | call {history : List Event} {c' : Context σ} (h : Reaches c history c') (call : Call)
      (entropy : Entropy) :
    Reaches c (history ++ [⟨call, (c'.perform call entropy).1.answer⟩])
      (c'.perform call entropy).1.context

theorem Reaches.trans {c c' c'' : Context σ} {xs ys : List Event} (h : Reaches c xs c')
    (h' : Reaches c' ys c'') : Reaches c (xs ++ ys) c'' := by
  induction h' with
  | start =>
    rw [List.append_nil]
    exact h
  | call _ call entropy ih =>
    rw [← List.append_assoc]
    exact ih.call call entropy

/-- A run is a history in which each call meets the entropy that the one before
it left. -/
theorem reaches_run (c : Context σ) (calls : List Call) (entropy : Entropy) :
    Reaches c (List.zipWith Event.mk calls (c.run calls entropy).answers)
      (c.run calls entropy).context := by
  induction calls generalizing c entropy with
  | nil => exact .start
  | cons call calls ih =>
    have hfirst : Reaches c [⟨call, (c.perform call entropy).1.answer⟩]
        (c.perform call entropy).1.context := Reaches.start.call call entropy
    exact hfirst.trans (ih _ _)

/-! ## Scripts -/

/-- What happens next: a call, which may bear a mark, or something that has nothing to
do with the context and leaves other entropy, as when another context draws. -/
inductive Turn (ι : Type) where
  | call (mark : ι) (call : Call)
  | elsewhere (change : Entropy → Entropy)

/-- What came of a script: the calls with their marks and answers, the context and the
entropy after the last turn, and all that the calls logged. -/
structure Played (ι σ : Type) where
  events : List (ι × Event)
  context : Context σ
  entropy : Entropy
  log : List LogRecord

/-- Play a script. Each call meets the entropy that the turn before it left. -/
def play {ι : Type} (c : Context σ) : (script : List (Turn ι)) → (entropy : Entropy) → Played ι σ
  | [], entropy => { events := [], context := c, entropy, log := [] }
  | .elsewhere change :: script, entropy => c.play script (change entropy)
  | .call mark call :: script, entropy =>
    let (o, entropy) := c.perform call entropy
    let rest := o.context.play script entropy
    { rest with events := (mark, ⟨call, o.answer⟩) :: rest.events, log := o.log ++ rest.log }

section

variable {ι : Type} (c : Context σ) (mark : ι) (call : Call) (script : List (Turn ι))
  (entropy : Entropy)

@[simp] theorem events_play_call : (c.play (.call mark call :: script) entropy).events =
    (mark, ⟨call, (c.perform call entropy).1.answer⟩) ::
      ((c.perform call entropy).1.context.play script (c.perform call entropy).2).events :=
  rfl

@[simp] theorem context_play_call : (c.play (.call mark call :: script) entropy).context =
    ((c.perform call entropy).1.context.play script (c.perform call entropy).2).context :=
  rfl

@[simp] theorem entropy_play_call : (c.play (.call mark call :: script) entropy).entropy =
    ((c.perform call entropy).1.context.play script (c.perform call entropy).2).entropy :=
  rfl

end

/-! ## Creation -/

/-- What a created context was made from: flags that are right, a scheme that
is installed, a generator that was seeded and a backend for the configuration. -/
theorem built_of_create {s : ContextSettings} {registry : Registry σ} {before : Entropy}
    {c : Context σ} (h : (s.create registry before).answer = .ok c) :
    ∃ (after : Entropy) (features : FeatureConfig) (entry : SchemeEntry σ) (csprng : Csprng)
      (backend : Backend σ × σ),
      Flags.resolve s.flags = .ok features ∧
      registry.lookup s.scheme s.paramSet = .ok entry ∧
      Supply.construct features.csprng before = (.ok csprng, after) ∧
      entry.factory.instantiate (.ofFeatures features entry.descriptor s.paramSet) =
        .ok backend ∧
      c =
        { scheme := s.scheme
          paramSet := s.paramSet
          features
          descriptor := entry.descriptor
          parameterSet := entry.parameterSet
          config := .ofFeatures features entry.descriptor s.paramSet
          csprng := some csprng
          backend := some backend
          publicSlot := { coding := s.publicCoding }
          privateSlot := { coding := s.privateCoding }
          signatureCoding := s.signatureCoding.getD features.signatureCoding
          debugLevel := s.debugLevel } := by
  unfold ContextSettings.create at h
  -- each check of the settings ends in an error but for the last, behind which is the context
  split at h
  next c' entropy' hbuild =>
    obtain rfl := Except.ok.inj h
    unfold ContextSettings.build at hbuild
    split at hbuild
    next => exact absurd (Prod.mk.inj hbuild).1 (by simp)
    next features hfeatures =>
      split at hbuild
      next => exact absurd (Prod.mk.inj hbuild).1 (by simp)
      next entry hentry =>
        dsimp only at hbuild
        split at hbuild
        next => exact absurd (Prod.mk.inj hbuild).1 (by simp)
        next csprng left hcsprng =>
          split at hbuild
          next => exact absurd (Prod.mk.inj hbuild).1 (by simp)
          next backend hbackend =>
            exact ⟨left, features, entry, csprng, backend, hfeatures, hentry, hcsprng, hbackend,
              (Except.ok.inj (Prod.mk.inj hbuild).1).symm⟩
  next => exact absurd h (by simp)

/-- A context that was created has not failed yet. -/
theorem IsNew.errors_eq {c : Context σ} (h : c.IsNew) : c.errors = {} := by
  obtain ⟨s, registry, entropy, h⟩ := h
  obtain ⟨_, features, entry, csprng, backend, -, -, -, -, rfl⟩ := built_of_create h
  rfl

end Context

end LatticeSuite
