import LatticeSuite.Proofs.Context.Frame
import LatticeSuite.Proofs.Scheme.BuiltIn

/-!
# Contexts for the schemes of the library

A context of the library's own schemes is known better than others: its backend is
one of three tables, and its parameter set is the one that the numbers in its key
envelopes name. `Context.Fits` says so and adds what it means for the slots.

> In every state that such a context can reach, a key in a slot is a key of that
> class, of the context's scheme and parameter set, and of the length that these
> fix (`Context.Reaches.fits`).

The invariant needs both ways into a slot to be guarded. A generated key has its
length because the backend's key generation is known; a loaded one because it is
checked.
-/

namespace LatticeSuite.Context

variable {σ : Type}

/-- `c` was created for a scheme of the library, from a registry that may hold
others next to it. -/
def IsBuiltIn [Inhabited σ] (c : Context σ) : Prop :=
  ∃ (s : ContextSettings) (registry : Registry σ) (entropy : Entropy),
    registry.factory? s.scheme = (Registry.builtIn : Registry σ).factory? s.scheme ∧
      (s.create registry entropy).answer = .ok c

theorem IsBuiltIn.isNew [Inhabited σ] {c : Context σ} (h : c.IsBuiltIn) : c.IsNew := by
  obtain ⟨s, registry, entropy, -, h⟩ := h
  exact ⟨s, registry, entropy, h⟩

/-- A key of this class for this context. -/
structure KeyFits (c : Context σ) (keyClass : KeyClass) (key : KeyMaterial) : Prop where
  class_eq : key.keyClass = keyClass
  scheme_eq : key.scheme = c.scheme
  paramSet_eq : key.paramSet = c.paramSet
  length_eq : key.length = c.keyBytes keyClass

/-- A context of a scheme of the library, with keys in its slots that fit. -/
structure Fits (c : Context σ) (stock : BuiltIn) : Prop where
  named : BuiltIn.of? c.scheme c.paramSet = some stock
  descriptor : c.descriptor = stock.descriptor
  parameterSet : c.parameterSet = stock.parameterSet
  backend : ∀ b s, c.backend = some (b, s) → b = stock.backend σ c.config.hash
  slots : ∀ keyClass key, (c.slot keyClass).key = some key → c.KeyFits keyClass key

theorem Fits.keyBytes {c : Context σ} {stock : BuiltIn} (h : c.Fits stock) (keyClass : KeyClass) :
    c.keyBytes keyClass = stock.keyBytes keyClass := by
  cases keyClass with
  | publicKey => exact congrArg ParameterSet.publicKeyBytes h.parameterSet
  | privateKey => exact congrArg ParameterSet.privateKeyBytes h.parameterSet

theorem Fits.machine {c : Context σ} {stock : BuiltIn} (h : c.Fits stock) {m : Machine σ}
    (hm : c.machine? = some m) : m.backend = stock.backend σ c.config.hash :=
  h.backend m.backend m.state (machine?_eq_some hm).2

theorem IsBuiltIn.fits [Inhabited σ] {c : Context σ} (h : c.IsBuiltIn) :
    ∃ stock, c.Fits stock := by
  obtain ⟨s, registry, entropy, hbuiltIn, h⟩ := h
  obtain ⟨_, features, entry, csprng, made, -, hlookup, -, hmade, rfl⟩ := built_of_create h
  obtain ⟨stock, hnamed, hdescriptor, hset, hbackend⟩ :=
    BuiltIn.of_instantiate hbuiltIn hlookup hmade
  refine ⟨stock, hnamed, hdescriptor, hset, ?_, ?_⟩
  · intro b state hb
    obtain rfl := Option.some.inj hb
    exact hbackend
  · intro keyClass key hkey
    cases keyClass with
    | publicKey => exact absurd hkey (by simp [slot])
    | privateKey => exact absurd hkey (by simp [slot])

theorem SameScheme.keyBytes {c c' : Context σ} (h : c.SameScheme c') (keyClass : KeyClass) :
    c'.keyBytes keyClass = c.keyBytes keyClass := by
  cases keyClass with
  | publicKey => exact congrArg ParameterSet.publicKeyBytes h.parameterSet
  | privateKey => exact congrArg ParameterSet.privateKeyBytes h.parameterSet

theorem KeyFits.of_sameScheme {c c' : Context σ} {keyClass : KeyClass} {key : KeyMaterial}
    (hkey : c.KeyFits keyClass key) (h : c.SameScheme c') : c'.KeyFits keyClass key :=
  ⟨hkey.class_eq, hkey.scheme_eq.trans h.scheme.symm, hkey.paramSet_eq.trans h.paramSet.symm,
    hkey.length_eq.trans (h.keyBytes keyClass).symm⟩

/-- Whatever comes into a slot fits. -/
theorem Files.fits {c : Context σ} {stock : BuiltIn} (h : c.Fits stock) {call : Call}
    {keyClass : KeyClass} {key : KeyMaterial} (hfiles : c.Files call keyClass (some key)) :
    c.KeyFits keyClass key := by
  generalize hstored : some key = stored at hfiles
  cases hfiles with
  | kept => exact h.slots keyClass key hstored.symm
  | released => exact absurd hstored (by simp)
  | generated hm hpair =>
    obtain rfl := Option.some.inj hstored
    rw [h.machine hm] at hpair
    obtain ⟨hpublic, hprivate⟩ := BuiltIn.lengths_of_keygen hpair
    refine ⟨rfl, rfl, rfl, ?_⟩
    rw [h.keyBytes]
    cases keyClass with
    | publicKey => exact hpublic
    | privateKey => exact hprivate
  | loaded hkey hlength =>
    obtain rfl := Option.some.inj hstored
    have hown := (Envelope.decodeKey_eq_ok hkey).1
    refine ⟨?_, ?_, ?_, hlength⟩
    · rw [hown]
    · rw [hown]
    · rw [hown]

/-- **Keys in slots fit**, whatever is called. -/
theorem Fits.perform {c : Context σ} {stock : BuiltIn} (h : c.Fits stock) (call : Call)
    (entropy : Entropy) : (c.perform call entropy).1.context.Fits stock := by
  have hsame := c.sameScheme_perform call entropy
  refine ⟨?_, ?_, ?_, ?_, ?_⟩
  · rw [hsame.scheme, hsame.paramSet]
    exact h.named
  · rw [hsame.descriptor]
    exact h.descriptor
  · rw [hsame.parameterSet]
    exact h.parameterSet
  · intro b s hb
    obtain ⟨s', hb'⟩ := hsame.backend b s hb
    rw [hsame.config]
    exact h.backend b s' hb'
  · intro keyClass key hkey
    have hfiles := c.files_perform call entropy keyClass
    rw [hkey] at hfiles
    exact (hfiles.fits h).of_sameScheme hsame

theorem Reaches.fits {c₀ c : Context σ} {stock : BuiltIn} {history : List Event}
    (h : c₀.Reaches history c) (hfits : c₀.Fits stock) : c.Fits stock := by
  induction h with
  | start => exact hfits
  | call _ call entropy ih => exact ih.perform call entropy

theorem Fits.eq_of_named {c : Context σ} {stock named : BuiltIn} (h : c.Fits stock)
    (hscheme : c.scheme = named.scheme) (hparam : c.paramSet = named.paramSet) :
    stock = named := by
  have hnamed := h.named
  rw [hscheme, hparam, named.of?_self] at hnamed
  exact (Option.some.inj hnamed).symm

/-! ## There are such contexts -/

/-- A host that answers every request with bytes of one value. -/
def steadyHost : Entropy :=
  { host := fun _ _ n => .ok (List.replicate n 7) }

/-- What the default settings choose on such a host: the host's own generator and
no coding. -/
structure IsPlain (c : Context σ) : Prop where
  live : c.destroyed = false
  publicSlot : c.publicSlot = {}
  privateSlot : c.privateSlot = {}
  hash : c.config.hash = .sha3_256
  csprng : c.csprng = some (Csprng.ofSeed {} (List.replicate Seed.size 7))

/-- Every scheme of the library has contexts, at every level. -/
theorem exists_isBuiltIn (stock : BuiltIn) :
    ∃ c : Context Unit, c.IsBuiltIn ∧ c.scheme = stock.scheme ∧ c.paramSet = stock.paramSet ∧
      c.IsPlain := by
  have hplain : ∃ c : Context Unit,
      (ContextSettings.create { scheme := stock.scheme, paramSet := stock.paramSet }
        Registry.builtIn steadyHost).answer = .ok c ∧
        c.scheme = stock.scheme ∧ c.paramSet = stock.paramSet ∧ c.IsPlain := by
    rcases stock with l | l | l
    all_goals cases l <;> exact ⟨_, rfl, rfl, rfl, ⟨rfl, rfl, rfl, rfl, rfl⟩⟩
  obtain ⟨c, hcreate, hrest⟩ := hplain
  exact ⟨c, ⟨_, _, _, rfl, hcreate⟩, hrest⟩

end LatticeSuite.Context
