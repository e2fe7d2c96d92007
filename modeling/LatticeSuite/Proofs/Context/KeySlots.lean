import LatticeSuite.Proofs.Context.BuiltIn
import LatticeSuite.Proofs.Context.Exchange

/-!
# What gets into a key slot

Backends check the length of every key they are given, and a context checks it too
when a key is loaded. The second check makes the first one idle:

> A slot holds keys of its own class, of the context's scheme and parameter set and
> of the length that these fix, and nothing else gets in.

From outside, nothing gets in but behind the header that such a key has under the
slot's coding (`Context.perform_loadKey_cases`). Inside, no backend of the library is
asked about a key of another length. That its checks are idle is said by replacing
it: any backend that does the same with keys of the right length makes the same of
every run (`Context.Fits.run_exchange`), whatever it does with the others.
-/

namespace LatticeSuite

variable {σ : Type}

/-- The other backend generates keys alike and does the same with keys of these
lengths. -/
structure Backend.SameOnLengths (b : Backend σ) (keyBytes : KeyClass → Nat)
    (other : Backend σ) : Prop where
  keygen : b.keygen = other.keygen
  keys : ∀ keyClass key, key.length = keyBytes keyClass → b.AgreeOn other keyClass key

/-- The keys of the library can be written into envelopes. -/
theorem BuiltIn.keyBytes_le_maxRawLength (stock : BuiltIn) (keyClass : KeyClass) :
    stock.keyBytes keyClass ≤ Envelope.maxRawLength := by
  rcases stock with l | l | l
  all_goals cases l <;> cases keyClass <;> decide

/-! ## Loading -/

theorem Success.loaded {c c' : Context σ} {entropy left : Entropy} {keyClass : KeyClass}
    {envelope : Bytes} {reply : Reply}
    (h : Success c entropy (.loadKey keyClass envelope) reply c' left) :
    reply = .done ∧ ∃ key,
      Envelope.decodeKey envelope (c.slot keyClass).coding keyClass c.scheme c.paramSet = .ok key ∧
      key.length = c.keyBytes keyClass ∧ (c'.slot keyClass).key = some key := by
  cases h with
  | @loadKey _ _ key _ hkey hlength =>
    refine ⟨rfl, key, hkey, hlength, ?_⟩
    have hclass : key.keyClass = keyClass := by rw [(Envelope.decodeKey_eq_ok hkey).1]
    show ((c.storeKey key).slot keyClass).key = some key
    rw [← hclass, Context.slot_storeKey_self]

namespace Context

/-- The load is refused, and the slots are left alone. -/
def Refuses (c : Context σ) (keyClass : KeyClass) (envelope : Bytes) (entropy : Entropy) : Prop :=
  ∃ e, (c.perform (.loadKey keyClass envelope) entropy).1.answer = .error e ∧
    ∀ k, (c.perform (.loadKey keyClass envelope) entropy).1.context.slot k = c.slot k

/-- A load is refused, or the envelope is one of a key
that fits, and this key is in the slot. -/
theorem perform_loadKey_cases (c : Context σ) (keyClass : KeyClass) (envelope : Bytes)
    (entropy : Entropy) :
    let o := (c.perform (.loadKey keyClass envelope) entropy).1
    c.Refuses keyClass envelope entropy ∨
      o.answer = .ok .done ∧ ∃ key payload, c.KeyFits keyClass key ∧
        envelope = Envelope.keyHeader key (c.slot keyClass).coding ++ payload ∧
        (o.context.slot keyClass).key = some key := by
  intro o
  rcases c.ends_perform (.loadKey keyClass envelope) entropy with
    ⟨e, csprng, backend, hanswer, hcontext, -⟩ | ⟨reply, hanswer, hsuccess⟩
  · refine .inl ⟨e, hanswer, ?_⟩
    intro k
    rw [hcontext]
    cases k with
    | publicKey => rfl
    | privateKey => rfl
  · obtain ⟨rfl, key, hkey, hlength, hstored⟩ := hsuccess.loaded
    obtain ⟨hown, payload, henvelope, -⟩ := Envelope.decodeKey_eq_ok hkey
    refine .inr ⟨hanswer, key, payload, ?_, henvelope, hstored⟩
    rw [hown] at hlength ⊢
    exact ⟨rfl, rfl, rfl, hlength⟩

/-- The envelope of a key that fits is loaded under its own coding. -/
theorem perform_loadKey_encodeKey {c : Context σ} (hlive : c.destroyed = false)
    {keyClass : KeyClass} {key : KeyMaterial} (hfits : c.KeyFits keyClass key)
    (hlength : key.length ≤ Envelope.maxRawLength) (entropy : Entropy) :
    let envelope := Envelope.encodeKey key (c.slot keyClass).coding
    let o := (c.perform (.loadKey keyClass envelope) entropy).1
    o.answer = .ok .done ∧
      o.context =
        { c.storeKey key with
          statistics :=
            c.statistics.modifyKeys keyClass (·.recordLoad key.length envelope.length) } := by
  intro envelope o
  have hdecode := Envelope.decodeKey_encodeKey hlength (c.slot keyClass).coding
  rw [hfits.class_eq, hfits.scheme_eq, hfits.paramSet_eq] at hdecode
  have hload : c.loadKey keyClass envelope =
      (c.storeKey key).succeed
        (·.modifyKeys keyClass (·.recordLoad key.length envelope.length)) () := by
    unfold loadKey
    rw [isLive_state, hlive, hdecode]
    exact if_neg (not_not.mpr hfits.length_eq)
  have ho : o = (c.loadKey keyClass envelope).map fun () => .done := rfl
  rw [ho, hload]
  refine ⟨rfl, ?_⟩
  rw [← statistics_storeKey c key]
  rfl

/-- An envelope of a key that does not fit is refused, whatever its coding and its
payload. -/
theorem refuses_of_not_fits {c : Context σ} {keyClass : KeyClass}
    (hbytes : c.keyBytes keyClass < 2 ^ 32) {foreign : KeyMaterial}
    (hlength : foreign.length < 2 ^ 32) (hforeign : ¬c.KeyFits keyClass foreign)
    (coding : KeyCoding) (payload : Bytes) (entropy : Entropy) :
    c.Refuses keyClass (Envelope.keyHeader foreign coding ++ payload) entropy := by
  rcases c.perform_loadKey_cases keyClass (Envelope.keyHeader foreign coding ++ payload) entropy
    with hrefused | ⟨-, key, payload', hfits, henvelope, -⟩
  · exact hrefused
  · obtain ⟨-, hclass, hscheme, hparam, hmod⟩ := Envelope.keyHeader_inj henvelope
    rw [hfits.length_eq, Nat.mod_eq_of_lt hlength, Nat.mod_eq_of_lt hbytes] at hmod
    exact absurd ⟨hclass.trans hfits.class_eq, hscheme.trans hfits.scheme_eq,
      hparam.trans hfits.paramSet_eq, hmod⟩ hforeign

/-! ## The length checks of the backends -/

theorem Fits.gate {c : Context σ} {stock : BuiltIn} (h : c.Fits stock) {operation : Operation}
    {keyClass : KeyClass} {key : Bytes} {m : Machine σ}
    (hgate : c.gate operation keyClass = .ok (key, m)) :
    m.backend = stock.backend σ c.config.hash ∧ key.length = stock.keyBytes keyClass := by
  obtain ⟨held, hkey, rfl, hm⟩ := of_gate hgate
  exact ⟨h.machine hm, (h.slots keyClass held hkey).length_eq.trans (h.keyBytes keyClass)⟩

theorem Fits.unaffected {c : Context σ} {stock : BuiltIn} (h : c.Fits stock) {other : Backend σ}
    (hother : (stock.backend σ c.config.hash).SameOnLengths stock.keyBytes other) :
    c.Unaffected other := by
  refine ⟨?_, ?_⟩
  · intro m hm
    rw [h.machine hm]
    exact hother.keygen
  · intro m keyClass key hm hkey
    rw [h.machine hm]
    exact hother.keys keyClass key.bytes
      ((h.slots keyClass key hkey).length_eq.trans (h.keyBytes keyClass))

/-- **Backends of the library are asked about keys of their lengths only.** -/
theorem Fits.run_exchange {c : Context σ} {stock : BuiltIn} (h : c.Fits stock) {other : Backend σ}
    (hother : (stock.backend σ c.config.hash).SameOnLengths stock.keyBytes other)
    (calls : List Call) (entropy : Entropy) :
    (c.exchange other).run calls entropy =
      { c.run calls entropy with context := (c.run calls entropy).context.exchange other } := by
  induction calls generalizing c entropy with
  | nil => rfl
  | cons call calls ih =>
    have hstep := perform_exchange (h.unaffected hother) call entropy
    have hsame := c.sameScheme_perform call entropy
    have hrest := ih (h.perform call entropy) (by rw [hsame.config]; exact hother)
      (c.perform call entropy).2
    simp only [run, hstep]
    rw [show ((c.perform call entropy).1.exchange other).context =
      (c.perform call entropy).1.context.exchange other from rfl, hrest]
    rfl

/-- **Key slots hold keys that fit.** In every state that a context of a scheme of
the library can reach, it works for the scheme and the parameter set that it was
created for, and a key in a slot is a key of that class, scheme and parameter set
with the length that the parameter set declares. A load files such a key from
behind its header or is refused, and an envelope of any other key is refused. What
an operation hands to the backend behind the gates is a key of the declared length;
so with any other backend that does the same on keys of these lengths every run
goes the same way. -/
theorem key_slots_hold_fitting_keys [Inhabited σ] {c₀ c : Context σ} {history : List Event}
    (hbuilt : c₀.IsBuiltIn) (hreach : c₀.Reaches history c) :
    c₀.SameScheme c ∧
    (∀ keyClass key, (c.slot keyClass).key = some key → c.KeyFits keyClass key) ∧
    (∀ keyClass envelope entropy,
      let o := (c.perform (.loadKey keyClass envelope) entropy).1
      c.Refuses keyClass envelope entropy ∨
        o.answer = .ok .done ∧ ∃ key payload, c.KeyFits keyClass key ∧
          envelope = Envelope.keyHeader key (c.slot keyClass).coding ++ payload ∧
          (o.context.slot keyClass).key = some key) ∧
    (∀ keyClass foreign, foreign.length < 2 ^ 32 → ¬c.KeyFits keyClass foreign →
      ∀ coding payload entropy,
        c.Refuses keyClass (Envelope.keyHeader foreign coding ++ payload) entropy) ∧
    ∃ stock, BuiltIn.of? c.scheme c.paramSet = some stock ∧
      (∀ operation keyClass key m, c.gate operation keyClass = .ok (key, m) →
        m.backend = stock.backend σ c.config.hash ∧ key.length = stock.keyBytes keyClass) ∧
      ∀ other, (stock.backend σ c.config.hash).SameOnLengths stock.keyBytes other →
        ∀ calls entropy, (c.exchange other).run calls entropy =
          { c.run calls entropy with
            context := (c.run calls entropy).context.exchange other } := by
  obtain ⟨stock, hfits₀⟩ := hbuilt.fits
  have hfits := hreach.fits hfits₀
  refine ⟨hreach.sameScheme, hfits.slots, c.perform_loadKey_cases, ?_, stock, hfits.named, ?_, ?_⟩
  · intro keyClass foreign hlength hforeign
    have hbytes : c.keyBytes keyClass < 2 ^ 32 := by
      rw [hfits.keyBytes]
      exact Nat.lt_of_le_of_lt (stock.keyBytes_le_maxRawLength keyClass) (by decide)
    exact refuses_of_not_fits hbytes hlength hforeign
  · intro operation keyClass key m hgate
    exact hfits.gate hgate
  · intro other hother
    exact hfits.run_exchange hother

/-- A context that was created with the default settings and then given a key. -/
structure Holding (c₀ : Context Unit) (history : List Event) (c : Context Unit)
    (stock : BuiltIn) (keyClass : KeyClass) (bytes : Bytes) : Prop where
  built : c₀.IsBuiltIn
  reaches : c₀.Reaches history c
  fits : c.Fits stock
  live : c.destroyed = false
  scheme : c.scheme = stock.scheme
  paramSet : c.paramSet = stock.paramSet
  held : (c.slot keyClass).key =
    some { keyClass, scheme := stock.scheme, paramSet := stock.paramSet, bytes }
  coding : (c.slot keyClass).coding = .raw
  hash : c.config.hash = .sha3_256
  csprng : c.csprng = some (Csprng.ofSeed {} (List.replicate Seed.size 7))

/-- Every key of the right length can be in the slot of its class. -/
theorem exists_holding (stock : BuiltIn) (keyClass : KeyClass) (bytes : Bytes)
    (hlength : bytes.length = stock.keyBytes keyClass) :
    ∃ c₀ history c, Holding c₀ history c stock keyClass bytes := by
  obtain ⟨c₀, hbuilt, hscheme, hparam, hplain⟩ := exists_isBuiltIn stock
  obtain ⟨stock', hfits⟩ := hbuilt.fits
  obtain rfl := hfits.eq_of_named hscheme hparam
  let key : KeyMaterial :=
    { keyClass, scheme := stock'.scheme, paramSet := stock'.paramSet, bytes }
  have hkey : c₀.KeyFits keyClass key :=
    ⟨rfl, hscheme.symm, hparam.symm, hlength.trans (hfits.keyBytes keyClass).symm⟩
  have hbound : key.length ≤ Envelope.maxRawLength :=
    hlength.trans_le (stock'.keyBytes_le_maxRawLength keyClass)
  let load : Call := .loadKey keyClass (Envelope.encodeKey key (c₀.slot keyClass).coding)
  have hcontext : (c₀.perform load steadyHost).1.context = _ :=
    (perform_loadKey_encodeKey hplain.live hkey hbound steadyHost).2
  have hreach : c₀.Reaches _ _ := Reaches.start.call load steadyHost
  have hsame := hreach.sameScheme
  have hslot : (c₀.perform load steadyHost).1.context.slot keyClass =
      { c₀.slot keyClass with key := some key } := by
    rw [hcontext]
    cases keyClass with
    | publicKey => rfl
    | privateKey => rfl
  refine ⟨c₀, _, _, hbuilt, hreach, hreach.fits hfits, ?_, hsame.scheme.trans hscheme,
    hsame.paramSet.trans hparam, ?_, ?_, ?_, ?_⟩
  · rw [hcontext]
    exact (c₀.destroyed_storeKey key).trans hplain.live
  · rw [hslot]
  · rw [hslot]
    cases keyClass with
    | publicKey => exact congrArg KeySlot.coding hplain.publicSlot
    | privateKey => exact congrArg KeySlot.coding hplain.privateSlot
  · rw [hsame.config, hplain.hash]
  · rw [hcontext]
    exact (c₀.csprng_storeKey key).trans hplain.csprng

/-- The law on a Kyber context with a public key, and a private key that is offered
in its place. -/
theorem key_slots_hold_fitting_keys_of_zeros :
    ∃ (c₀ c : Context Unit) (history : List Event) (key foreign : KeyMaterial),
      c₀.IsBuiltIn ∧ c₀.Reaches history c ∧ (c.slot .publicKey).key = some key ∧
      key.length = 800 ∧ c.KeyFits .publicKey key ∧
      foreign.bytes = key.bytes ∧ c.Refuses .publicKey (Envelope.encodeKey foreign .raw) {} := by
  let zeros : Bytes := List.replicate 800 0
  obtain ⟨c₀, history, c, h⟩ :=
    exists_holding (.kyber .kyber512) .publicKey zeros List.length_replicate
  obtain ⟨-, hslots, -, hforeign, -⟩ := key_slots_hold_fitting_keys h.built h.reaches
  have hlength : zeros.length < 2 ^ 32 := by
    rw [List.length_replicate]
    decide
  refine ⟨c₀, c, history, _, ⟨.privateKey, .kemKyber, 0, zeros⟩, h.built, h.reaches, h.held,
    List.length_replicate, hslots _ _ h.held, rfl, ?_⟩
  refine hforeign .publicKey ⟨.privateKey, .kemKyber, 0, zeros⟩ hlength ?_ .raw _ {}
  intro hfits
  exact absurd hfits.class_eq (by decide)

end Context

end LatticeSuite
