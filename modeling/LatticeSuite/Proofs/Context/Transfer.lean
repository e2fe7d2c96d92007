import LatticeSuite.Proofs.Context.KeySlots

/-!
# Keys move between contexts

A key leaves a context in an envelope and enters another one from it. Between two
contexts of one scheme and one parameter set nothing may get lost, whatever the two
went through before.

> Under one coding, the receiver holds what the sender held, and its own envelope is
> the sender's, byte by byte. Under two codings, the receiver says which one it
> expects and which one it found, and keeps its slots
> (`Context.keys_move_between_contexts`).

The envelope gives the key back; that the receiver also wants it is what the
invariant of the slots is for, since the key has the length that the receiver's
parameter set declares.
-/

namespace LatticeSuite.Context

variable {σ τ : Type}

theorem answer_encodeKey {c : Context σ} (hlive : c.destroyed = false) {keyClass : KeyClass}
    {key : KeyMaterial} (hkey : (c.slot keyClass).key = some key) (entropy : Entropy) :
    (c.perform (.encodeKey keyClass) entropy).1.answer =
      .ok (.bytes (Envelope.encodeKey key (c.slot keyClass).coding)) := by
  show (c.encodeKey keyClass).answer.map Reply.bytes = _
  unfold encodeKey
  rw [isLive_state, hlive, hkey]
  rfl

/-- The key of an envelope is loaded, nothing else changes but a count, and the
key's envelope is the one it came in. -/
structure Receives (c : Context σ) (keyClass : KeyClass) (key : KeyMaterial) (envelope : Bytes)
    (entropy : Entropy) : Prop where
  answer_eq : (c.perform (.loadKey keyClass envelope) entropy).1.answer = .ok .done
  key_eq : ((c.perform (.loadKey keyClass envelope) entropy).1.context.slot keyClass).key =
    some key
  other_eq : ∀ k, k ≠ keyClass →
    (c.perform (.loadKey keyClass envelope) entropy).1.context.slot k = c.slot k
  coding_eq : ∀ k, ((c.perform (.loadKey keyClass envelope) entropy).1.context.slot k).coding =
    (c.slot k).coding
  signatureCoding_eq : (c.perform (.loadKey keyClass envelope) entropy).1.context.signatureCoding =
    c.signatureCoding
  csprng_eq : (c.perform (.loadKey keyClass envelope) entropy).1.context.csprng = c.csprng
  entropy_eq : (c.perform (.loadKey keyClass envelope) entropy).2 = entropy
  encodes : ∀ later, ((c.perform (.loadKey keyClass envelope) entropy).1.context.perform
    (.encodeKey keyClass) later).1.answer = .ok (.bytes envelope)

theorem receives_encodeKey {c : Context σ} (hlive : c.destroyed = false) {keyClass : KeyClass}
    {key : KeyMaterial} (hfits : c.KeyFits keyClass key)
    (hlength : key.length ≤ Envelope.maxRawLength) (entropy : Entropy) :
    c.Receives keyClass key (Envelope.encodeKey key (c.slot keyClass).coding) entropy := by
  obtain ⟨hanswer, hcontext⟩ := perform_loadKey_encodeKey hlive hfits hlength entropy
  have hslot : ∀ k, (c.perform (.loadKey keyClass (Envelope.encodeKey key
      (c.slot keyClass).coding)) entropy).1.context.slot k = (c.storeKey key).slot k := by
    intro k
    rw [hcontext]
    cases k with
    | publicKey => rfl
    | privateKey => rfl
  have hown : (c.storeKey key).slot keyClass = { c.slot keyClass with key := some key } := by
    have hself := c.slot_storeKey_self key
    rwa [hfits.class_eq] at hself
  refine ⟨hanswer, ?_, ?_, ?_, ?_, ?_, rfl, ?_⟩
  · rw [hslot, hown]
  · intro k hk
    rw [hslot, c.slot_storeKey_of_ne key (hfits.class_eq.symm ▸ hk)]
  · intro k
    rw [hslot]
    by_cases hk : k = keyClass
    · rw [hk, hown]
    · rw [c.slot_storeKey_of_ne key (hfits.class_eq.symm ▸ hk)]
  · rw [hcontext]
    obtain ⟨_, _, hstored⟩ := c.exists_storeKey_eq key
    rw [hstored]
  · rw [hcontext]
    exact c.csprng_storeKey key
  · intro later
    have hlive' : (c.perform (.loadKey keyClass (Envelope.encodeKey key
        (c.slot keyClass).coding)) entropy).1.context.destroyed = false := by
      rw [hcontext]
      exact (c.destroyed_storeKey key).trans hlive
    have hkey := hslot keyClass
    rw [hown] at hkey
    rw [answer_encodeKey hlive' (congrArg KeySlot.key hkey), hkey]

/-- The coding of an envelope is compared before anything in it is decoded. -/
theorem answer_loadKey_of_ne {c : Context σ} (hlive : c.destroyed = false) {keyClass : KeyClass}
    (key : KeyMaterial) {coding : KeyCoding} (hne : (c.slot keyClass).coding ≠ coding)
    (entropy : Entropy) :
    (c.perform (.loadKey keyClass (Envelope.encodeKey key coding)) entropy).1.answer =
      .error (.decode (.codingMismatch (c.slot keyClass).coding coding.tag)) := by
  show (c.loadKey keyClass (Envelope.encodeKey key coding)).answer.map _ = _
  unfold loadKey
  rw [isLive_state, hlive, Envelope.decodeKey_of_ne key hne]
  rfl

theorem Refuses.of_answer {c : Context σ} {keyClass : KeyClass} {envelope : Bytes}
    {entropy : Entropy} {e : ContextError}
    (h : (c.perform (.loadKey keyClass envelope) entropy).1.answer = .error e) :
    c.Refuses keyClass envelope entropy := by
  rcases c.perform_loadKey_cases keyClass envelope entropy with hrefused | ⟨hanswer, -⟩
  · exact hrefused
  · rw [h] at hanswer
    exact absurd hanswer (by simp)

/-- A key that fits one context fits every other one of its scheme and parameter set. -/
theorem KeyFits.of_fits {a : Context σ} {b : Context τ} {stock stock' : BuiltIn}
    (ha : a.Fits stock) (hb : b.Fits stock') (hscheme : b.scheme = a.scheme)
    (hparam : b.paramSet = a.paramSet) {keyClass : KeyClass} {key : KeyMaterial}
    (h : a.KeyFits keyClass key) : b.KeyFits keyClass key := by
  have hnamed := hb.named
  rw [hscheme, hparam, ha.named] at hnamed
  obtain rfl := Option.some.inj hnamed
  exact ⟨h.class_eq, h.scheme_eq.trans hscheme.symm, h.paramSet_eq.trans hparam.symm,
    h.length_eq.trans ((ha.keyBytes keyClass).trans (hb.keyBytes keyClass).symm)⟩

/-- **Keys move between contexts without loss.** Take two live contexts of one scheme
of the library and one parameter set, in any states that they can reach, and a key
that the first one holds. Its envelope can be written. If the second one has the
same coding for keys of that class, it loads the envelope, holds the key then, and
keeps its other slot, its codings and its generator, and its own envelope of the key
is the same byte by byte. If its coding is another, it refuses the envelope, names
its own coding and the tag that it found, and keeps its slots. -/
theorem keys_move_between_contexts [Inhabited σ] [Inhabited τ] {a₀ a : Context σ}
    {b₀ b : Context τ} {sent received : List Event} (ha₀ : a₀.IsBuiltIn)
    (ha : a₀.Reaches sent a) (hb₀ : b₀.IsBuiltIn) (hb : b₀.Reaches received b)
    (hlive : a.destroyed = false) (hlive' : b.destroyed = false)
    (hscheme : b.scheme = a.scheme) (hparam : b.paramSet = a.paramSet) {keyClass : KeyClass}
    {key : KeyMaterial} (hkey : (a.slot keyClass).key = some key) (entropy entropy' : Entropy) :
    let coding := (a.slot keyClass).coding
    let envelope := Envelope.encodeKey key coding
    (a.perform (.encodeKey keyClass) entropy).1.answer = .ok (.bytes envelope) ∧
    ((b.slot keyClass).coding = coding → b.Receives keyClass key envelope entropy') ∧
    ((b.slot keyClass).coding ≠ coding →
      (b.perform (.loadKey keyClass envelope) entropy').1.answer =
          .error (.decode (.codingMismatch (b.slot keyClass).coding coding.tag)) ∧
        ∀ k, (b.perform (.loadKey keyClass envelope) entropy').1.context.slot k = b.slot k) := by
  intro coding envelope
  obtain ⟨stock, hfits₀⟩ := ha₀.fits
  obtain ⟨stock', hfits₀'⟩ := hb₀.fits
  have hfits := ha.fits hfits₀
  have hown := hfits.slots keyClass key hkey
  refine ⟨answer_encodeKey hlive hkey entropy, ?_, ?_⟩
  · intro hcoding
    have hlength : key.length ≤ Envelope.maxRawLength :=
      (hown.length_eq.trans (hfits.keyBytes keyClass)).trans_le
        (stock.keyBytes_le_maxRawLength keyClass)
    have hreceives := receives_encodeKey hlive'
      (hown.of_fits hfits (hb.fits hfits₀') hscheme hparam) hlength entropy'
    rwa [hcoding] at hreceives
  · intro hne
    have hanswer := answer_loadKey_of_ne hlive' key hne entropy'
    obtain ⟨-, -, hslots⟩ := Refuses.of_answer hanswer
    exact ⟨hanswer, hslots⟩

/-- The law on a Kyber context with a public key, a new one, and one that expects
arithmetic coding. -/
theorem keys_move_between_contexts_of_zeros :
    ∃ (a b b' : Context Unit) (key : KeyMaterial), key.length = 800 ∧
      (a.slot .publicKey).key = some key ∧
      (a.perform (.encodeKey .publicKey) {}).1.answer =
        .ok (.bytes (Envelope.encodeKey key .raw)) ∧
      b.Receives .publicKey key (Envelope.encodeKey key .raw) {} ∧
      (b'.perform (.loadKey .publicKey (Envelope.encodeKey key .raw)) {}).1.answer =
        .error (.decode (.codingMismatch .bac 0)) := by
  obtain ⟨a₀, sent, a, ha⟩ :=
    exists_holding (.kyber .kyber512) .publicKey (List.replicate 800 0) List.length_replicate
  obtain ⟨b, hb, hscheme', hparam', hplain⟩ := exists_isBuiltIn (.kyber .kyber512)
  -- the third context is the second one, told to expect another coding
  let b' : Context Unit := (b.perform (.setKeyCoding .bac .bac) {}).1.context
  have hb' : b.Reaches _ b' := Reaches.start.call (.setKeyCoding .bac .bac) {}
  have hscheme := hscheme'.trans ha.scheme.symm
  have hparam := hparam'.trans ha.paramSet.symm
  obtain ⟨hencode, hreceives, -⟩ := keys_move_between_contexts ha.built ha.reaches hb .start
    ha.live hplain.live hscheme hparam ha.held {} {}
  obtain ⟨-, -, hrefuses⟩ := keys_move_between_contexts ha.built ha.reaches hb hb' ha.live
    hplain.live hscheme hparam ha.held {} {}
  rw [ha.coding] at hencode hreceives hrefuses
  refine ⟨a, b, b', ⟨.publicKey, .kemKyber, 0, List.replicate 800 0⟩, List.length_replicate,
    ha.held, hencode, ?_, ?_⟩
  · exact hreceives (congrArg KeySlot.coding hplain.publicSlot)
  · exact (hrefuses (show KeyCoding.bac ≠ .raw by decide)).1

end LatticeSuite.Context
