import LatticeSuite.Proofs.Coding.Envelope
import LatticeSuite.Proofs.Context.Lifecycle

/-!
# What no call changes, and how a key gets into a slot

A context is made for one parameter set of one scheme and stays with it.

> No call changes scheme, parameter set, description or configuration, and none
> exchanges the backend (`Context.SameScheme`).

Its slots do change, in three calls out of sixteen. `Context.Files` lists what a
slot may hold after a call: what it held before, nothing after a destruction, a
key from the backend's generation, or a key from an envelope that was read for this
slot and had the right length. A law about keys in slots has to look at these four
cases and at no call.
-/

namespace LatticeSuite

variable {σ : Type}

/-- The key of a class. -/
def KeyPair.bytes (pair : KeyPair) : KeyClass → Bytes
  | .publicKey => pair.publicKey
  | .privateKey => pair.privateKey

namespace Context

/-! ## Storing keys -/

/-- Storing a key touches the slots only. -/
theorem exists_storeKey_eq (c : Context σ) (key : KeyMaterial) :
    ∃ publicSlot privateSlot, c.storeKey key = { c with publicSlot, privateSlot } := by
  unfold storeKey
  split
  next => exact ⟨_, _, rfl⟩
  next => exact ⟨_, _, rfl⟩

theorem slot_storeKey_self (c : Context σ) (key : KeyMaterial) :
    (c.storeKey key).slot key.keyClass = { c.slot key.keyClass with key := some key } := by
  unfold storeKey
  split
  next hclass => rw [hclass]; rfl
  next hclass => rw [hclass]; rfl

theorem slot_storeKey_of_ne (c : Context σ) (key : KeyMaterial) {keyClass : KeyClass}
    (hne : keyClass ≠ key.keyClass) : (c.storeKey key).slot keyClass = c.slot keyClass := by
  unfold storeKey
  split
  next hclass =>
    cases keyClass with
    | publicKey => exact absurd hclass.symm hne
    | privateKey => rfl
  next hclass =>
    cases keyClass with
    | publicKey => rfl
    | privateKey => exact absurd hclass.symm hne

theorem slot_storePair (c : Context σ) (pair : KeyPair) (keyClass : KeyClass) :
    (c.storePair pair).slot keyClass =
      { c.slot keyClass with
        key := some { keyClass, scheme := c.scheme, paramSet := c.paramSet,
                      bytes := pair.bytes keyClass } } := by
  cases keyClass with
  | publicKey => rfl
  | privateKey => rfl

/-! ## The scheme stays -/

/-- `c'` works for the same scheme as `c`, and with the same backend if it has one. -/
structure SameScheme (c c' : Context σ) : Prop where
  scheme : c'.scheme = c.scheme
  paramSet : c'.paramSet = c.paramSet
  descriptor : c'.descriptor = c.descriptor
  parameterSet : c'.parameterSet = c.parameterSet
  config : c'.config = c.config
  backend : ∀ b s, c'.backend = some (b, s) → ∃ s', c.backend = some (b, s')

theorem backend_of_machine? {c : Context σ} {m : Machine σ} (hm : c.machine? = some m)
    {state : σ} (b : Backend σ) (s : σ) (h : some (m.backend, state) = some (b, s)) :
    ∃ s', c.backend = some (b, s') := by
  obtain ⟨rfl, -⟩ := Prod.mk.inj (Option.some.inj h)
  exact ⟨m.state, (machine?_eq_some hm).2⟩

end Context

open Context

theorem Failure.sameBackend {c : Context σ} {entropy left : Entropy} {call : Call}
    {e : ContextError} {csprng : Option Csprng} {backend : Option (Backend σ × σ)}
    (h : Failure c entropy call e csprng backend left) (b : Backend σ) (s : σ)
    (hb : backend = some (b, s)) : ∃ s', c.backend = some (b, s') := by
  cases h with
  | refused => exact ⟨s, hb⟩
  | reseed => exact ⟨s, hb⟩
  | keygen hm => exact backend_of_machine? hm b s hb
  | sign _ hm => exact backend_of_machine? hm b s hb
  | verify _ hm => exact backend_of_machine? hm b s hb
  | encrypt _ hm => exact backend_of_machine? hm b s hb
  | decrypt _ hm => exact backend_of_machine? hm b s hb
  | unpad _ hm => exact backend_of_machine? hm b s hb
  | encapsulate _ hm => exact backend_of_machine? hm b s hb
  | decapsulate _ hm => exact backend_of_machine? hm b s hb

theorem Success.sameScheme {c c' : Context σ} {entropy left : Entropy} {call : Call}
    {reply : Reply} (h : Success c entropy call reply c' left) : c.SameScheme c' := by
  have hkept : ∀ b s, c.backend = some (b, s) → ∃ s', c.backend = some (b, s') :=
    fun _ s hb => ⟨s, hb⟩
  cases h with
  | keygen _ hm => exact ⟨rfl, rfl, rfl, rfl, rfl, backend_of_machine? hm⟩
  | loadKey =>
    obtain ⟨_, _, hstored⟩ := c.exists_storeKey_eq ‹KeyMaterial›
    rw [hstored]
    exact ⟨rfl, rfl, rfl, rfl, rfl, hkept⟩
  | sign _ _ hm => exact ⟨rfl, rfl, rfl, rfl, rfl, backend_of_machine? hm⟩
  | verify _ _ hm => exact ⟨rfl, rfl, rfl, rfl, rfl, backend_of_machine? hm⟩
  | encrypt _ _ hm => exact ⟨rfl, rfl, rfl, rfl, rfl, backend_of_machine? hm⟩
  | decrypt _ _ hm => exact ⟨rfl, rfl, rfl, rfl, rfl, backend_of_machine? hm⟩
  | encapsulate _ _ hm => exact ⟨rfl, rfl, rfl, rfl, rfl, backend_of_machine? hm⟩
  | decapsulate _ _ hm => exact ⟨rfl, rfl, rfl, rfl, rfl, backend_of_machine? hm⟩
  | destroy => exact ⟨rfl, rfl, rfl, rfl, rfl, fun _ _ hb => absurd hb (by simp [release])⟩
  | encodeKey => exact ⟨rfl, rfl, rfl, rfl, rfl, hkept⟩
  | reject => exact ⟨rfl, rfl, rfl, rfl, rfl, hkept⟩
  | setKeyCoding => exact ⟨rfl, rfl, rfl, rfl, rfl, hkept⟩
  | setSignatureCoding => exact ⟨rfl, rfl, rfl, rfl, rfl, hkept⟩
  | setDebugLevel => exact ⟨rfl, rfl, rfl, rfl, rfl, hkept⟩
  | takeError => exact ⟨rfl, rfl, rfl, rfl, rfl, hkept⟩
  | peekError => exact ⟨rfl, rfl, rfl, rfl, rfl, hkept⟩
  | clearErrors => exact ⟨rfl, rfl, rfl, rfl, rfl, hkept⟩
  | destroyed => exact ⟨rfl, rfl, rfl, rfl, rfl, hkept⟩

namespace Context

theorem sameScheme_perform (c : Context σ) (call : Call) (entropy : Entropy) :
    c.SameScheme (c.perform call entropy).1.context := by
  rcases c.ends_perform call entropy with
    ⟨e, csprng, backend, -, hcontext, hfailure⟩ | ⟨reply, -, hsuccess⟩
  · rw [hcontext]
    exact ⟨rfl, rfl, rfl, rfl, rfl, hfailure.sameBackend⟩
  · exact hsuccess.sameScheme

theorem SameScheme.trans {c c' c'' : Context σ} (h : c.SameScheme c') (h' : c'.SameScheme c'') :
    c.SameScheme c'' := by
  refine ⟨h'.scheme.trans h.scheme, h'.paramSet.trans h.paramSet,
    h'.descriptor.trans h.descriptor, h'.parameterSet.trans h.parameterSet,
    h'.config.trans h.config, ?_⟩
  intro b s hb
  obtain ⟨s', hb'⟩ := h'.backend b s hb
  exact h.backend b s' hb'

theorem Reaches.sameScheme {c₀ c : Context σ} {history : List Event} (h : c₀.Reaches history c) :
    c₀.SameScheme c := by
  induction h with
  | start => exact ⟨rfl, rfl, rfl, rfl, rfl, fun _ s hb => ⟨s, hb⟩⟩
  | call _ call entropy ih => exact ih.trans (sameScheme_perform _ call entropy)

/-! ## What a slot holds -/

/-- What the slot of a class may hold after a call. -/
inductive Files (c : Context σ) : Call → KeyClass → Option KeyMaterial → Prop
  | kept (call : Call) (keyClass : KeyClass) : Files c call keyClass (c.slot keyClass).key
  | released (keyClass : KeyClass) : Files c .destroy keyClass none
  | generated {m : Machine σ} {seeded left : Supply} {pair : KeyPair} {state : σ}
      (hm : c.machine? = some m) (h : m.backend.keygen m.state seeded = (.ok pair, state, left))
      (keyClass : KeyClass) :
    Files c .keygen keyClass
      (some { keyClass, scheme := c.scheme, paramSet := c.paramSet, bytes := pair.bytes keyClass })
  | loaded {keyClass : KeyClass} {envelope : Bytes} {key : KeyMaterial}
      (hkey : Envelope.decodeKey envelope (c.slot keyClass).coding keyClass c.scheme c.paramSet =
        .ok key)
      (hlength : key.length = c.keyBytes keyClass) :
    Files c (.loadKey keyClass envelope) keyClass (some key)

end Context

theorem Success.files {c c' : Context σ} {entropy left : Entropy} {call : Call} {reply : Reply}
    (h : Success c entropy call reply c' left) (keyClass : KeyClass) :
    c.Files call keyClass (c'.slot keyClass).key := by
  cases h with
  | keygen _ hm _ h =>
    show c.Files .keygen keyClass ((storePair _ _).slot keyClass).key
    rw [slot_storePair]
    exact .generated hm h keyClass
  | @loadKey ownClass envelope key _ hkey hlength =>
    show c.Files _ keyClass ((c.storeKey key).slot keyClass).key
    have hclass : key.keyClass = ownClass := by rw [(Envelope.decodeKey_eq_ok hkey).1]
    by_cases hsame : keyClass = ownClass
    · rw [hsame, ← hclass, slot_storeKey_self, hclass]
      exact .loaded hkey hlength
    · rw [slot_storeKey_of_ne c key (hclass ▸ hsame)]
      exact .kept _ _
  | destroy =>
    cases keyClass with
    | publicKey => exact .released _
    | privateKey => exact .released _
  | sign => exact .kept _ _
  | verify => exact .kept _ _
  | encrypt => exact .kept _ _
  | decrypt => exact .kept _ _
  | encapsulate => exact .kept _ _
  | decapsulate => exact .kept _ _
  | encodeKey => exact .kept _ _
  | reject => exact .kept _ _
  | setKeyCoding =>
    cases keyClass with
    | publicKey => exact .kept _ .publicKey
    | privateKey => exact .kept _ .privateKey
  | setSignatureCoding => exact .kept _ _
  | setDebugLevel => exact .kept _ _
  | takeError => exact .kept _ _
  | peekError => exact .kept _ _
  | clearErrors => exact .kept _ _
  | destroyed => exact .kept _ _

namespace Context

/-- **Only these get into a slot.** -/
theorem files_perform (c : Context σ) (call : Call) (entropy : Entropy) (keyClass : KeyClass) :
    c.Files call keyClass ((c.perform call entropy).1.context.slot keyClass).key := by
  rcases c.ends_perform call entropy with
    ⟨e, csprng, backend, -, hcontext, -⟩ | ⟨reply, -, hsuccess⟩
  · rw [hcontext]
    exact .kept _ _
  · exact hsuccess.files keyClass

end Context

end LatticeSuite
