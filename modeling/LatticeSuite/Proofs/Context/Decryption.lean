import LatticeSuite.Proofs.Context.KeySlots
import LatticeSuite.Proofs.MlKem.Encoding
import LatticeSuite.Proofs.Scheme.Hybrid

/-!
# Failed decryptions look alike

A decryption can fail over a ciphertext that is too short, a private key that is
none, an encapsulation, a tag, or padding. Who sends ciphertexts must not learn over
which, neither from the answer nor from anything that the context shows later.

> Behind a private key a decryption succeeds or answers `cryptoOp`, and after any two
> failures from one state the contexts are the same
> (`Context.failed_decryptions_are_indistinguishable`).

The same up to one thing: padding is looked at behind the backend, and the record of a
failure names the place where it was noticed, to those who may read it. Places are left out
here (`Context.fail`).

The backend does tell an invalid key from the rest. That nothing of this gets out is
the work of `ContextError.ofScheme`, and it does its work because a hybrid backend
never disowns the operation.
-/

namespace LatticeSuite.Context

open MlKem (Level)

variable {σ : Type} {c : Context σ} {ciphertext : Bytes} {padding : Padding} {entropy : Entropy}

theorem Fits.exists_hybrid {stock : BuiltIn} (h : c.Fits stock)
    (hscheme : c.scheme = .encKyberHybrid) :
    ∃ l, stock = .kyberHybrid l ∧ Level.ofIndex? c.paramSet = some l := by
  have hnamed := h.named
  rw [hscheme] at hnamed
  obtain ⟨l, hl, rfl⟩ := Option.map_eq_some_iff.mp hnamed
  exact ⟨l, rfl, hl⟩

/-- What comes of a ciphertext: the plaintext of a hybrid decryption without its
padding. -/
def hybridResult (l : Level) (kdf : HashAlgorithm) (key ciphertext : Bytes) (padding : Padding) :
    Except SchemeError Bytes :=
  (KyberHybrid.decrypt l kdf key ciphertext).bind fun padded =>
    (padding.unpad? padded).elim (.error .failed) .ok

/-- A hybrid backend decrypts without a state. -/
theorem opened_hybrid (l : Level) (kdf : HashAlgorithm) (key ciphertext : Bytes)
    (padding : Padding) (s : σ) :
    opened ciphertext padding (KyberHybrid.backend σ l kdf) key s =
      (hybridResult l kdf key ciphertext padding, s) := by
  unfold opened hybridResult KyberHybrid.backend QuietOperation.ofResult
  dsimp only
  cases KyberHybrid.decrypt l kdf key ciphertext with
  | error e => rfl
  | ok padded =>
    dsimp only [Except.bind]
    cases padding.unpad? padded with
    | none => rfl
    | some plaintext => rfl

/-- Whatever fails, the context is told of it as of any other failure. -/
theorem ofScheme_hybridResult {l : Level} {kdf : HashAlgorithm} {key ciphertext : Bytes}
    {padding : Padding} {cause : SchemeError}
    (h : hybridResult l kdf key ciphertext padding = .error cause) (scheme : SchemeId) :
    ContextError.ofScheme scheme cause = .cryptoOp := by
  unfold hybridResult at h
  cases hdecrypt : KyberHybrid.decrypt l kdf key ciphertext with
  | error e =>
    rw [hdecrypt] at h
    obtain rfl := Except.error.inj h
    rcases KyberHybrid.decrypt_error hdecrypt with rfl | rfl
    · rfl
    · rfl
  | ok padded =>
    rw [hdecrypt, Except.bind] at h
    cases hpad : padding.unpad? padded with
    | none =>
      rw [hpad] at h
      obtain rfl := Except.error.inj h
      rfl
    | some plaintext =>
      rw [hpad] at h
      exact absurd h (by simp)

/-- A hybrid context decrypts as its backend does, and nothing but a count or the
record of a failure comes of it. -/
theorem decrypt_hybrid {l : Level} (hfits : c.Fits (.kyberHybrid l)) (hwhole : c.Whole)
    (hlive : c.destroyed = false) {key : KeyMaterial} (hkey : c.privateSlot.key = some key)
    (ciphertext : Bytes) (padding : Padding) :
    c.decrypt ciphertext padding =
      match hybridResult l c.config.hash key.bytes ciphertext padding with
      | .error _ => c.fail "private_decrypt" .cryptoOp
      | .ok plaintext =>
        c.succeed (fun s => { s with decryptions := s.decryptions + 1 }) plaintext := by
  obtain ⟨m, hm⟩ := hwhole.exists_machine hlive
  have hadmits : c.Admits .decrypt .privateKey key :=
    ⟨hlive, by rw [hfits.descriptor]; rfl, hkey⟩
  have hrun := opened_hybrid l c.config.hash key.bytes ciphertext padding m.state
  have hbackend : m.backend = KyberHybrid.backend σ l c.config.hash := hfits.machine hm
  rw [← hbackend] at hrun
  have hquiet := quiet_of_stateless (hadmits.gate_eq hm) hm "private_decrypt"
    (fun _ s => { s with decryptions := s.decryptions + 1 }) hrun
  rw [show c.decrypt ciphertext padding = _ from hquiet]
  cases hresult : hybridResult l c.config.hash key.bytes ciphertext padding with
  | error cause =>
    dsimp only
    rw [ofScheme_hybridResult hresult]
  | ok plaintext => rfl

theorem answer_decrypt_hybrid {l : Level} (hfits : c.Fits (.kyberHybrid l)) (hwhole : c.Whole)
    (hlive : c.destroyed = false) {key : KeyMaterial} (hkey : c.privateSlot.key = some key)
    (ciphertext : Bytes) (padding : Padding) (entropy : Entropy) :
    (c.perform (.decrypt ciphertext padding) entropy).1.answer =
      match hybridResult l c.config.hash key.bytes ciphertext padding with
      | .error _ => .error .cryptoOp
      | .ok plaintext => .ok (.bytes plaintext) := by
  show (c.decrypt ciphertext padding).answer.map Reply.bytes = _
  rw [decrypt_hybrid hfits hwhole hlive hkey]
  cases hybridResult l c.config.hash key.bytes ciphertext padding with
  | error cause => rfl
  | ok plaintext => rfl

/-- The end of every decryption that fails. -/
structure FailsToDecrypt (c : Context σ) (ciphertext : Bytes) (padding : Padding)
    (entropy : Entropy) : Prop where
  answer_eq : (c.perform (.decrypt ciphertext padding) entropy).1.answer = .error .cryptoOp
  /-- The state of before with one more failure, up to the place that is recorded with it. -/
  context_eq : (c.perform (.decrypt ciphertext padding) entropy).1.context =
    { c with errors := c.errors.push .cryptoOp () }
  /-- What is logged, up to the place at the end of it. -/
  log_eq : (c.perform (.decrypt ciphertext padding) entropy).1.log =
    c.emit .error "private_decrypt failed: Cryptographic operation failed"
  entropy_eq : (c.perform (.decrypt ciphertext padding) entropy).2 = entropy

theorem decrypt_cases {stock : BuiltIn} (hfits : c.Fits stock) (hwhole : c.Whole)
    (hlive : c.destroyed = false) (hscheme : c.scheme = .encKyberHybrid) {key : KeyMaterial}
    (hkey : c.privateSlot.key = some key) (ciphertext : Bytes) (padding : Padding)
    (entropy : Entropy) :
    (∃ plaintext, (c.perform (.decrypt ciphertext padding) entropy).1.answer =
        .ok (.bytes plaintext)) ∨
      c.FailsToDecrypt ciphertext padding entropy := by
  obtain ⟨l, rfl, -⟩ := hfits.exists_hybrid hscheme
  have hdecrypt := decrypt_hybrid hfits hwhole hlive hkey ciphertext padding
  have hperform : c.perform (.decrypt ciphertext padding) entropy =
      ((c.decrypt ciphertext padding).map .bytes, entropy) := rfl
  cases hresult : hybridResult l c.config.hash key.bytes ciphertext padding with
  | error cause =>
    rw [hresult] at hdecrypt
    rw [hdecrypt] at hperform
    right
    constructor <;> rw [hperform] <;> rfl
  | ok plaintext =>
    rw [hresult] at hdecrypt
    refine .inl ⟨plaintext, ?_⟩
    rw [hperform, hdecrypt]
    rfl

/-- **Failed decryptions are indistinguishable.** In every state that a live context
of hybrid encryption can reach and in which it holds a private key, a decryption
succeeds or answers `cryptoOp`. Any two ciphertexts, under any two paddings, that
fail in one state get the same answer and leave the same context, which is the one of
before with one more failure on record. The same is logged of both, up to the place. -/
theorem failed_decryptions_are_indistinguishable [Inhabited σ] {c₀ c : Context σ}
    {history : List Event} (hbuilt : c₀.IsBuiltIn) (hreach : c₀.Reaches history c)
    (hlive : c.destroyed = false) (hscheme : c.scheme = .encKyberHybrid) {key : KeyMaterial}
    (hkey : c.privateSlot.key = some key) :
    (∀ ciphertext padding entropy,
      (∃ plaintext, (c.perform (.decrypt ciphertext padding) entropy).1.answer =
          .ok (.bytes plaintext)) ∨
        (c.perform (.decrypt ciphertext padding) entropy).1.answer = .error .cryptoOp) ∧
    ∀ ciphertext padding entropy ciphertext' padding' entropy' e e',
      (c.perform (.decrypt ciphertext padding) entropy).1.answer = .error e →
      (c.perform (.decrypt ciphertext' padding') entropy').1.answer = .error e' →
      e = e' ∧
        (c.perform (.decrypt ciphertext padding) entropy).1.context =
          (c.perform (.decrypt ciphertext' padding') entropy').1.context ∧
        (c.perform (.decrypt ciphertext padding) entropy).1.context =
          { c with errors := c.errors.push .cryptoOp () } ∧
        (c.perform (.decrypt ciphertext padding) entropy).1.log =
          (c.perform (.decrypt ciphertext' padding') entropy').1.log ∧
        (c.perform (.decrypt ciphertext padding) entropy).2 = entropy := by
  obtain ⟨stock, hfits₀⟩ := hbuilt.fits
  have hcases := decrypt_cases (hreach.fits hfits₀) (hreach.whole hbuilt.isNew) hlive hscheme hkey
  refine ⟨?_, ?_⟩
  · intro ciphertext padding entropy
    rcases hcases ciphertext padding entropy with hok | hfails
    · exact .inl hok
    · exact .inr hfails.answer_eq
  · intro ciphertext padding entropy ciphertext' padding' entropy' e e' he he'
    have hfails : ∀ ct pad en e, (c.perform (.decrypt ct pad) en).1.answer = .error e →
        c.FailsToDecrypt ct pad en := by
      intro ct pad en e he
      rcases hcases ct pad en with ⟨plaintext, hok⟩ | hfails
      · rw [hok] at he
        exact absurd he (by simp)
      · exact hfails
    have hfirst := hfails ciphertext padding entropy e he
    have hsecond := hfails ciphertext' padding' entropy' e' he'
    refine ⟨?_, hfirst.context_eq.trans hsecond.context_eq.symm, hfirst.context_eq,
      hfirst.log_eq.trans hsecond.log_eq.symm, hfirst.entropy_eq⟩
    rw [hfirst.answer_eq] at he
    rw [hsecond.answer_eq] at he'
    exact (Except.error.inj he).symm.trans (Except.error.inj he')

/-- The law on a private key that is none: over a ciphertext that is too short for it
to matter, the backend gives another reason than over one that is not. -/
theorem failed_decryptions_are_indistinguishable_of_ones :
    ∃ (c₀ c : Context Unit) (history : List Event) (key : KeyMaterial) (long : Bytes),
      c₀.IsBuiltIn ∧ c₀.Reaches history c ∧ c.privateSlot.key = some key ∧
      KyberHybrid.decrypt .kyber512 c.config.hash key.bytes [] = .error .failed ∧
      KyberHybrid.decrypt .kyber512 c.config.hash key.bytes long = .error .invalidKey ∧
      (c.perform (.decrypt [] .none) {}).1.answer = .error .cryptoOp ∧
      (c.perform (.decrypt long (.iso7816 16 (by decide))) {}).1.answer = .error .cryptoOp ∧
      (c.perform (.decrypt [] .none) {}).1.context =
        (c.perform (.decrypt long (.iso7816 16 (by decide))) {}).1.context := by
  obtain ⟨c₀, history, c, h⟩ := exists_holding (.kyberHybrid .kyber512) .privateKey
    (List.replicate (Level.privateKeyBytes .kyber512) 0xff) List.length_replicate
  have hshort : KyberHybrid.decrypt .kyber512 c.config.hash
      (List.replicate (Level.privateKeyBytes .kyber512) 0xff) [] = .error .failed := rfl
  have hnone : Kyber.privateKey? .kyber512
      (List.replicate (Level.privateKeyBytes .kyber512) 0xff) = none := by
    rw [Kyber.privateKey?, if_pos List.length_replicate,
      MlKem.PrivateKey.decode?_replicate_max]
  have hlong : KyberHybrid.decrypt .kyber512 c.config.hash
      (List.replicate (Level.privateKeyBytes .kyber512) 0xff) (List.replicate 800 0) =
        .error .invalidKey := by
    have hlength : ¬(List.replicate 800 (0 : UInt8)).length <
        Level.ciphertextBytes .kyber512 + KyberHybrid.nonceBytes + KyberHybrid.tagBytes := by
      rw [List.length_replicate]
      decide
    rw [KyberHybrid.decrypt, if_neg hlength]
    simp only [Kyber.decapsulate, hnone]
  have hanswer := fun ciphertext padding =>
    answer_decrypt_hybrid h.fits (h.reaches.whole h.built.isNew) h.live h.held ciphertext padding {}
  have hfirst : (c.perform (.decrypt [] .none) {}).1.answer = .error .cryptoOp := by
    rw [hanswer, hybridResult, hshort]
    rfl
  have hsecond : (c.perform (.decrypt (List.replicate 800 0)
      (.iso7816 16 (by decide))) {}).1.answer = .error .cryptoOp := by
    rw [hanswer, hybridResult, hlong]
    rfl
  obtain ⟨-, hsame⟩ := failed_decryptions_are_indistinguishable h.built h.reaches h.live h.scheme
    h.held
  exact ⟨c₀, c, history, _, List.replicate 800 0, h.built, h.reaches, h.held, hshort, hlong, hfirst,
    hsecond, (hsame _ _ _ _ _ _ _ _ hfirst hsecond).2.1⟩

end LatticeSuite.Context
