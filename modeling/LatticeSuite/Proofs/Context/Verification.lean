import LatticeSuite.Proofs.Context.KeySlots
import LatticeSuite.Proofs.Context.Signing

/-!
# A Dilithium verification is a verdict

Who verifies is handed a signature by a stranger. It may be cut, be an envelope of
another coding, declare a length that it does not have, or be of any length behind a
header that is right; and none of it may make the verification fail or leave a mark on
the context other than a count.

> A live Dilithium context with a public key answers every verification with a verdict
> (`Context.dilithium_verification_is_a_verdict`).

The three ways in which it could fail are closed at three places. A bad envelope is a
verdict by itself (`verdict`). The backend rejects a signature of the wrong length, and
disowns a key of the wrong length only. And a key of the wrong length is in no slot of a
context that was created, whatever happened to it (`Reaches.fits`), also if it was loaded.
-/

namespace LatticeSuite.Context

open MlDsa (Level)

variable {σ : Type} {c : Context σ}

theorem Fits.exists_dilithium {stock : BuiltIn} (h : c.Fits stock)
    (hscheme : c.scheme = .sigDilithium) :
    ∃ l, stock = .dilithium l ∧ Level.ofIndex? c.paramSet = some l := by
  have hnamed := h.named
  rw [hscheme] at hnamed
  obtain ⟨l, hl, rfl⟩ := Option.map_eq_some_iff.mp hnamed
  exact ⟨l, rfl, hl⟩

/-- Whether what is offered is an envelope of the coding with a signature of the right
length in it that is valid. -/
def acceptsDilithium (l : Level) (coding : KeyCoding) (key message envelope : Bytes) : Bool :=
  match Envelope.decodeSignature envelope coding with
  | .error _ => false
  | .ok signature =>
    signature.length == l.signatureBytes && MlDsa.verify l key message signature

/-- A Dilithium backend has a verdict on everything, and no state. -/
theorem verdict_dilithium {l : Level} {key : Bytes} (hlength : key.length = l.publicKeyBytes)
    (coding : KeyCoding) (message envelope : Bytes) (s : σ) :
    verdict coding message envelope (Dilithium.backend σ l) key s =
      (.ok (acceptsDilithium l coding key message envelope), s) := by
  unfold verdict acceptsDilithium
  cases Envelope.decodeSignature envelope coding with
  | error cause => rfl
  | ok signature =>
    show (Dilithium.verify l key message signature, s) = _
    unfold Dilithium.verify
    rw [if_pos hlength]

/-- **A Dilithium verification is a verdict.** In every state that a context for
Dilithium can reach, if it is live and holds a public key, a verification of whatever
message and envelope answers with a verdict, whatever the coding of signatures is. It
accepts what is a valid signature in an envelope of that coding. Nothing of the context
is changed but one of two counters, which grows by one, and no entropy is asked for. -/
theorem dilithium_verification_is_a_verdict [Inhabited σ] {c₀ : Context σ}
    {history : List Event} (hbuilt : c₀.IsBuiltIn) (hreach : c₀.Reaches history c)
    (hscheme : c.scheme = .sigDilithium) (hlive : c.destroyed = false) {key : KeyMaterial}
    (hkey : c.publicSlot.key = some key) :
    ∃ l, Level.ofIndex? c.paramSet = some l ∧
      ∀ (message envelope : Bytes) (entropy : Entropy),
        let valid := acceptsDilithium l c.signatureCoding key.bytes message envelope
        let r := c.perform (.verify message envelope) entropy
        r.1.answer = .ok (.verdict valid) ∧
        r.1.context =
          { c with
            statistics :=
              if valid then { c.statistics with verified := c.statistics.verified + 1 }
              else { c.statistics with unverified := c.statistics.unverified + 1 } } ∧
        r.2 = entropy := by
  obtain ⟨stock, hfits₀⟩ := hbuilt.fits
  have hfits := hreach.fits hfits₀
  obtain ⟨l, rfl, hl⟩ := hfits.exists_dilithium hscheme
  obtain ⟨m, hm⟩ := (hreach.whole hbuilt.isNew).exists_machine hlive
  have hadmits : c.Admits .verify .publicKey key :=
    ⟨hlive, by rw [hfits.descriptor]; rfl, hkey⟩
  have hlength : key.bytes.length = l.publicKeyBytes :=
    (hfits.slots .publicKey key hkey).length_eq.trans (hfits.keyBytes .publicKey)
  refine ⟨l, hl, ?_⟩
  intro message envelope entropy valid r
  have hrun := verdict_dilithium hlength c.signatureCoding message envelope m.state
  have hbackend : m.backend = Dilithium.backend σ l := hfits.machine hm
  rw [← hbackend] at hrun
  have hquiet := quiet_of_answered (hadmits.gate_eq hm) hm "verify"
    (fun valid s => s.recordVerdict valid) hrun
  obtain ⟨hanswer, hcontext, hentropy⟩ := c.perform_verify message envelope entropy
  rw [hquiet] at hanswer hcontext
  exact ⟨hanswer, hcontext, hentropy⟩

/-- The law on a context with a public key that was loaded, which codes signatures, and
an envelope that declares four gigabytes and has none. -/
theorem dilithium_verification_is_a_verdict_on_an_empty_envelope :
    ∃ (c₀ c : Context Unit) (history : List Event) (key : KeyMaterial),
      c₀.IsBuiltIn ∧ c₀.Reaches history c ∧ c.scheme = .sigDilithium ∧
      c.destroyed = false ∧ c.publicSlot.key = some key ∧
      (c.perform (.verify [5] [1, 255, 255, 255, 255]) {}).1.answer = .ok (.verdict false) ∧
      (c.perform (.verify [5] [1, 255, 255, 255, 255]) {}).1.context.statistics =
        { c.statistics with unverified := c.statistics.unverified + 1 } := by
  let zeros : Bytes := List.replicate 1312 0
  obtain ⟨c₀, history, c, h⟩ :=
    exists_holding (.dilithium .dilithium2) .publicKey zeros List.length_replicate
  have hreach := h.reaches.call (.setSignatureCoding .bac) {}
  obtain ⟨l, -, hverdict⟩ :=
    dilithium_verification_is_a_verdict h.built hreach h.scheme h.live h.held
  obtain ⟨hanswer, hcontext, -⟩ := hverdict [5] [1, 255, 255, 255, 255] {}
  exact ⟨c₀, _, _, _, h.built, hreach, h.scheme, h.live, h.held, hanswer,
    congrArg Context.statistics hcontext⟩

end LatticeSuite.Context
