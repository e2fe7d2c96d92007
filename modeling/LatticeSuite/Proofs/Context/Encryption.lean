import LatticeSuite.Proofs.Context.Decryption
import LatticeSuite.Proofs.Context.Padding
import LatticeSuite.Proofs.Random.Chronicle

/-!
# What one context encrypts, another one decrypts

Between two contexts of hybrid encryption lie a padding, an encapsulation, a key
derivation and a sealed message. Each of them is undone on the other side from what
the ciphertext shows, and from the secret.

> A ciphertext has the length that the parameter set declares, for the padded
> plaintext. Whoever holds a private key that decapsulates the secret of its first
> piece gets the plaintext (`Context.hybrid_encryption_round_trip`).

That the secret is the same is left to ML-KEM, which may fail. The rest may not: the
frame is cut where it was put together (`KyberHybrid.decrypt_of_encrypt`), and the
padding comes off (`Padding.unpad?_pad`).
-/

namespace LatticeSuite

open MlKem (Level)

variable {σ τ : Type}

theorem Success.encrypted {c c' : Context σ} {entropy left : Entropy}
    {plaintext ciphertext : Bytes} {padding : Padding}
    (h : Success c entropy (.encrypt plaintext padding) (.bytes ciphertext) c' left) :
    ∃ (key : KeyMaterial) (m : Machine σ) (state : σ) (supply : Supply),
      c.publicSlot.key = some key ∧ c.machine? = some m ∧
        m.backend.encrypt key.bytes (padding.pad plaintext) m.state
          { csprng := m.csprng, entropy } = (.ok ciphertext, state, supply) := by
  cases h with
  | encrypt _ hkey hm hrun => exact ⟨_, _, _, _, hkey, hm, hrun⟩

namespace Context

/-- An encryption under this entropy starts with this encapsulation, made with the
context's generator for the public key that it holds. -/
def Encapsulates (c : Context σ) (l : Level) (entropy : Entropy) (kem : Encapsulation) : Prop :=
  ∃ csprng key left, c.csprng = some csprng ∧ c.publicSlot.key = some key ∧
    Kyber.encapsulate l key.bytes { csprng, entropy } = (.ok kem, left)

/-- A ciphertext of a hybrid context is one of its backend, of the padded plaintext. -/
theorem encrypt_hybrid {c : Context σ} {l : Level} (hfits : c.Fits (.kyberHybrid l))
    {plaintext ciphertext : Bytes} {padding : Padding} {entropy : Entropy}
    (h : (c.perform (.encrypt plaintext padding) entropy).1.answer = .ok (.bytes ciphertext)) :
    ∃ csprng key left, c.csprng = some csprng ∧ c.publicSlot.key = some key ∧
      KyberHybrid.encrypt l c.config.hash key.bytes (padding.pad plaintext)
        { csprng, entropy } = (.ok ciphertext, left) := by
  rcases c.ends_perform (.encrypt plaintext padding) entropy with
    ⟨e, csprng, backend, hanswer, -⟩ | ⟨reply, hanswer, hsuccess⟩
  · rw [h] at hanswer
    exact absurd hanswer (by simp)
  · rw [h] at hanswer
    obtain rfl := Except.ok.inj hanswer
    obtain ⟨key, m, state, supply, hkey, hm, hrun⟩ := hsuccess.encrypted
    rw [show m.backend = KyberHybrid.backend σ l c.config.hash from hfits.machine hm] at hrun
    refine ⟨m.csprng, key, supply, (machine?_eq_some hm).1, hkey, ?_⟩
    obtain ⟨hresult, hleft⟩ := Prod.mk.inj hrun
    exact Prod.ext hresult (Prod.mk.inj hleft).2

theorem answer_encrypt_hybrid {c : Context σ} {l : Level} (hfits : c.Fits (.kyberHybrid l))
    (hlive : c.destroyed = false) {m : Machine σ} (hm : c.machine? = some m) {key : KeyMaterial}
    (hkey : c.publicSlot.key = some key) {plaintext ciphertext : Bytes} {padding : Padding}
    {entropy : Entropy} {left : Supply}
    (h : KyberHybrid.encrypt l c.config.hash key.bytes (padding.pad plaintext)
      { csprng := m.csprng, entropy } = (.ok ciphertext, left)) :
    (c.perform (.encrypt plaintext padding) entropy).1.answer = .ok (.bytes ciphertext) := by
  have hadmits : c.Admits .encrypt .publicKey key :=
    ⟨hlive, by rw [hfits.descriptor]; rfl, hkey⟩
  show (c.encrypt plaintext padding entropy).1.answer.map Reply.bytes = _
  rw [encrypt, answer_drawing (hadmits.gate_eq hm), show m.backend = _ from hfits.machine hm]
  show Except.map Reply.bytes (Except.mapError _ (KyberHybrid.encrypt l c.config.hash key.bytes
    (padding.pad plaintext) { csprng := m.csprng, entropy }).1) = _
  rw [h]
  rfl

/-- **Hybrid encryption round trip.** Take two live contexts of hybrid encryption with
one parameter set and one hash, in any states that they can reach, and any plaintext
under any padding. A ciphertext that the first one makes of it is as long as the
padded plaintext and what the parameter set adds. If the private key of the second
one decapsulates the first piece of it to the secret that the first one encapsulated,
the second one decrypts the ciphertext to the plaintext. No key derivation fails on
the way, whatever the hash. -/
theorem hybrid_encryption_round_trip [Inhabited σ] [Inhabited τ] {a₀ a : Context σ}
    {b₀ b : Context τ} {sent received : List Event} (ha₀ : a₀.IsBuiltIn)
    (ha : a₀.Reaches sent a) (hb₀ : b₀.IsBuiltIn) (hb : b₀.Reaches received b)
    (hlive : b.destroyed = false) (hscheme : a.scheme = .encKyberHybrid)
    (hscheme' : b.scheme = .encKyberHybrid) (hparam : b.paramSet = a.paramSet)
    (hhash : b.config.hash = a.config.hash) {plaintext ciphertext : Bytes} {padding : Padding}
    {entropy : Entropy}
    (h : (a.perform (.encrypt plaintext padding) entropy).1.answer = .ok (.bytes ciphertext)) :
    ciphertext.length = a.parameterSet.outputBytes + (padding.pad plaintext).length ∧
    (∀ kdf secret encapsulation,
      ∃ key, KyberHybrid.sealingKey kdf secret encapsulation = .ok key) ∧
    ∃ l kem, Level.ofIndex? a.paramSet = some l ∧ a.Encapsulates l entropy kem ∧
      ∀ privateKey, b.privateSlot.key = some privateKey →
        Kyber.decapsulate l privateKey.bytes (ciphertext.take l.ciphertextBytes) =
          .ok kem.secret →
        ∀ entropy', (b.perform (.decrypt ciphertext padding) entropy').1.answer =
          .ok (.bytes plaintext) := by
  obtain ⟨stock, hfits₀⟩ := ha₀.fits
  obtain ⟨stock', hfits₀'⟩ := hb₀.fits
  have hfits := ha.fits hfits₀
  have hfits' := hb.fits hfits₀'
  obtain ⟨l, rfl, hl⟩ := hfits.exists_hybrid hscheme
  obtain ⟨l', rfl, hl'⟩ := hfits'.exists_hybrid hscheme'
  obtain rfl : l = l' := by
    rw [hparam, hl] at hl'
    exact Option.some.inj hl'
  obtain ⟨csprng, publicKey, left, hcsprng, hpublic, hencrypt⟩ := encrypt_hybrid hfits h
  obtain ⟨kem, middle, -, -, hkem, -⟩ := KyberHybrid.encrypt_eq_ok hencrypt
  refine ⟨?_, KyberHybrid.exists_sealingKey, l, kem, hl,
    ⟨csprng, publicKey, middle, hcsprng, hpublic, hkem⟩, ?_⟩
  · rw [KyberHybrid.length_of_encrypt hencrypt, hfits.parameterSet]
    rfl
  · intro privateKey hprivate hsecret entropy'
    have hpadded := KyberHybrid.decrypt_of_encrypt hencrypt hkem hsecret
    rw [answer_decrypt_hybrid hfits' (hb.whole hb₀.isNew) hlive hprivate, hybridResult, hhash,
      hpadded]
    simp only [Except.bind, Padding.unpad?_pad, Option.elim_some]

/-- On a steady host every encryption under a public key succeeds. -/
theorem exists_encrypt_steady {l : Level} {publicKey : Bytes}
    {key : MlKem.Encryption.PublicKey} (hkey : Kyber.publicKey? l publicKey = some key)
    (kdf : HashAlgorithm) (plaintext : Bytes) :
    let supply : Supply :=
      { csprng := Csprng.ofSeed {} (List.replicate Seed.size 7), entropy := steadyHost }
    ∃ kem middle ciphertext left,
      Kyber.encapsulate l publicKey supply = (.ok kem, middle) ∧
        KyberHybrid.encrypt l kdf publicKey plaintext supply = (.ok ciphertext, left) := by
  intro supply
  have hmessage : supply.fill 32 = _ := Supply.fill_of_emit (by decide) (by decide) rfl
  obtain ⟨kem, hkem⟩ := Kyber.exists_encapsulate hkey (congrArg Supply.Filled.failure hmessage)
  have hnonce : ((supply.fill 32).supply.fill KyberHybrid.nonceBytes).failure = none := by
    rw [hmessage]
    exact congrArg Supply.Filled.failure (Supply.fill_of_emit (by decide) (by decide) rfl)
  obtain ⟨ciphertext, left, hencrypt⟩ := KyberHybrid.exists_encrypt hkem hnonce plaintext
  exact ⟨kem, _, ciphertext, left, hkem, hencrypt⟩

/-- The law on a key pair of zeros, a plaintext of three bytes, and blocks of sixteen. -/
theorem hybrid_encryption_round_trip_of_zeros :
    ∃ (a b : Context Unit) (ciphertext : Bytes),
      (a.perform (.encrypt [1, 0x80, 0] (.iso7816 16 (by decide))) steadyHost).1.answer =
        .ok (.bytes ciphertext) ∧
      ciphertext.length = 768 + 12 + 16 + 16 ∧
      (b.perform (.decrypt ciphertext (.iso7816 16 (by decide))) {}).1.answer =
        .ok (.bytes [1, 0x80, 0]) := by
  obtain ⟨a₀, sent, a, ha⟩ := exists_holding (.kyberHybrid .kyber512) .publicKey _
    (Kyber.length_publicKey_zeroPair .kyber512)
  obtain ⟨b₀, received, b, hb⟩ := exists_holding (.kyberHybrid .kyber512) .privateKey _
    (Kyber.length_privateKey_zeroPair .kyber512)
  obtain ⟨m, hm⟩ := (ha.reaches.whole ha.built.isNew).exists_machine ha.live
  have hcsprng := (machine?_eq_some hm).1
  have hown := Option.some.inj (hcsprng.symm.trans ha.csprng)
  obtain ⟨kem, middle, ciphertext, left, hkem, hencrypt⟩ := exists_encrypt_steady
    (Kyber.publicKey?_zeroPair .kyber512) a.config.hash
    ((Padding.iso7816 16 (by decide)).pad [1, 0x80, 0])
  rw [← hown] at hkem hencrypt
  have hanswer := answer_encrypt_hybrid ha.fits ha.live hm ha.held hencrypt
  obtain ⟨hlength, -, l, kem', hl, ⟨csprng, key, middle', hcsprng', hkey, hkem'⟩, hdecrypts⟩ :=
    hybrid_encryption_round_trip ha.built ha.reaches hb.built hb.reaches hb.live ha.scheme
      hb.scheme (hb.paramSet.trans ha.paramSet.symm) (hb.hash.trans ha.hash.symm) hanswer
  -- the encapsulation of the law is the one that was made
  obtain rfl : Level.kyber512 = l := by
    rw [ha.paramSet] at hl
    exact Option.some.inj hl
  obtain rfl := Option.some.inj (hcsprng.symm.trans hcsprng')
  obtain rfl := Option.some.inj (ha.held.symm.trans hkey)
  obtain rfl := Except.ok.inj (Prod.mk.inj (hkem.symm.trans hkem')).1
  refine ⟨a, b, ciphertext, hanswer, ?_, ?_⟩
  · rw [hlength, ha.fits.parameterSet]
    decide
  · refine hdecrypts _ hb.held ?_ {}
    rw [KyberHybrid.take_of_encrypt hencrypt hkem]
    exact Kyber.decapsulate_zeroPair hkem

end Context

end LatticeSuite
