import LatticeSuite.Proofs.Coding.Envelope
import LatticeSuite.Proofs.Context.Lifecycle

/-!
# Signatures pass through their coding

The coding of signatures is a setting of the context, and it must not matter to
anyone who signs and verifies under the same one.

> A verifier says of a signer's envelope what its backend says of the raw
> signature, whatever the coding (`signature_coding_is_transparent`).

Two contexts with different codings do not understand each other, unless one of
them writes no envelope at all. The reader looks at the tag first, so the
envelope is as good as a false signature before anything in it is decoded
(`Envelope.decodeSignature_of_ne`), and the backend is not asked. That it is not
asked is said by exchanging it: any other backend in its place, with any state,
and the verifier does the same.

The operations are not opened here but at one place each, and only to see past
what they log.
-/

namespace LatticeSuite

/-- The tag of another coding is noticed. -/
theorem Envelope.decodeSignature_of_ne (signature : Bytes) {coding other : KeyCoding}
    (hne : other ≠ coding) (hcoded : coding ≠ .raw) (hother : other ≠ .raw) :
    decodeSignature (encodeSignature signature coding) other =
      .error (.codingMismatch other coding.tag) := by
  have htag : coding.tag ≠ other.tag := fun h => hne (KeyCoding.tag_inj h).symm
  obtain ⟨n₀, n₁, n₂, n₃, hn⟩ := exists_four_bytes (Bytes.length_toBE 4 signature.length)
  rw [encodeSignature_eq signature hcoded, signatureHeader, hn]
  simp only [List.cons_append, List.nil_append, decodeSignature, if_neg hother, if_pos htag]

namespace Context

variable {σ : Type} {c : Context σ} {m : Machine σ} {key message : Bytes} {entropy : Entropy}

theorem answer_sign (hgate : c.gate .sign .privateKey = .ok (key, m)) {signature : Bytes}
    {state : σ} {left : Supply}
    (h : m.backend.sign key message m.state { csprng := m.csprng, entropy } =
      (.ok signature, state, left)) :
    (c.perform (.sign message) entropy).1.answer =
      .ok (.bytes (Envelope.encodeSignature signature c.signatureCoding)) := by
  show Except.map Reply.bytes (Except.map (Envelope.encodeSignature · c.signatureCoding)
    (c.drawing "sign" .sign .privateKey (fun b key => b.sign key message)
      (fun s => { s with signatures := s.signatures + 1 }) entropy).1.answer) = _
  rw [answer_drawing hgate, h]
  rfl

/-- But for the log, a verification is its verdict. -/
theorem perform_verify (c : Context σ) (message envelope : Bytes) (entropy : Entropy) :
    let o := c.quiet "verify" .verify .publicKey (verdict c.signatureCoding message envelope)
      fun valid s => s.recordVerdict valid
    (c.perform (.verify message envelope) entropy).1.answer = o.answer.map .verdict ∧
      (c.perform (.verify message envelope) entropy).1.context = o.context ∧
      (c.perform (.verify message envelope) entropy).2 = entropy := by
  intro o
  show (c.verify message envelope).answer.map _ = _ ∧ (c.verify message envelope).context = _ ∧ _
  unfold verify
  dsimp only
  split
  next => exact ⟨rfl, rfl, rfl⟩
  next => exact ⟨rfl, rfl, rfl⟩

theorem answer_verify (hgate : c.gate .verify .publicKey = .ok (key, m))
    {envelope signature : Bytes}
    (hsig : Envelope.decodeSignature envelope c.signatureCoding = .ok signature) :
    (c.perform (.verify message envelope) entropy).1.answer =
      ((m.backend.verify key message signature m.state).1.mapError (.ofScheme c.scheme)).map
        .verdict := by
  have hverdict : verdict c.signatureCoding message envelope m.backend key =
      m.backend.verify key message signature := by
    unfold verdict
    rw [hsig]
  rw [(c.perform_verify message envelope entropy).1, answer_quiet hgate, hverdict]

/-- The verification is counted as failed, and that is all that happens. -/
structure Rejects (c : Context σ) (message envelope : Bytes) (entropy : Entropy) : Prop where
  answer_eq : (c.perform (.verify message envelope) entropy).1.answer = .ok (.verdict false)
  context_eq : (c.perform (.verify message envelope) entropy).1.context =
    { c with statistics := c.statistics.recordVerdict false }
  entropy_eq : (c.perform (.verify message envelope) entropy).2 = entropy

theorem rejects_of_error {pk : KeyMaterial} (h : c.Admits .verify .publicKey pk)
    (hm : c.machine? = some m) {envelope : Bytes} {cause : DecodeError}
    (hsig : Envelope.decodeSignature envelope c.signatureCoding = .error cause) :
    c.Rejects message envelope entropy := by
  have hverdict : verdict c.signatureCoding message envelope m.backend pk.bytes m.state =
      (.ok false, m.state) := by
    unfold verdict
    rw [hsig]
    rfl
  obtain ⟨hanswer, hcontext, hentropy⟩ := c.perform_verify message envelope entropy
  have hquiet := quiet_of_answered (h.gate_eq hm) hm "verify"
    (fun valid s => s.recordVerdict valid) hverdict
  rw [hquiet] at hanswer hcontext
  exact ⟨hanswer, hcontext, hentropy⟩

end Context

open Context

/-- **The coding of signatures is transparent.** What a signer's backend returns
for a message comes in an envelope of the signer's coding. Under the same coding
a verifier says of that envelope what its backend says of the raw signature. Under
another one, and neither of them raw, it rejects the envelope, and it would
whatever its backend was. -/
theorem signature_coding_is_transparent {σ : Type}
    {signer₀ signer verifier₀ verifier : Context σ} {signed verified : List Event}
    (hsigner₀ : signer₀.IsNew) (hsigner : signer₀.Reaches signed signer)
    (hverifier₀ : verifier₀.IsNew) (hverifier : verifier₀.Reaches verified verifier)
    {privateKey publicKey : KeyMaterial} (hsign : signer.Admits .sign .privateKey privateKey)
    (hverify : verifier.Admits .verify .publicKey publicKey) (message : Bytes)
    (entropy entropy' : Entropy) :
    ∃ ms mv, signer.machine? = some ms ∧ verifier.machine? = some mv ∧
      ∀ signature state left,
        ms.backend.sign privateKey.bytes message ms.state { csprng := ms.csprng, entropy } =
          (.ok signature, state, left) →
        let envelope := Envelope.encodeSignature signature signer.signatureCoding
        (signer.perform (.sign message) entropy).1.answer = .ok (.bytes envelope) ∧
        (signature.length ≤ Envelope.maxRawLength →
          verifier.signatureCoding = signer.signatureCoding →
          ∀ valid, (verifier.perform (.verify message envelope) entropy').1.answer =
              .ok (.verdict valid) ↔
            (mv.backend.verify publicKey.bytes message signature mv.state).1 = .ok valid) ∧
        (verifier.signatureCoding ≠ signer.signatureCoding →
          signer.signatureCoding ≠ .raw → verifier.signatureCoding ≠ .raw →
          verifier.Rejects message envelope entropy' ∧
            ∀ (backend : Backend σ) (state : σ),
              { verifier with backend := some (backend, state) }.Rejects message envelope
                entropy') := by
  obtain ⟨ms, hms⟩ := (hsigner.whole hsigner₀).exists_machine hsign.live
  obtain ⟨mv, hmv⟩ := (hverifier.whole hverifier₀).exists_machine hverify.live
  refine ⟨ms, mv, hms, hmv, ?_⟩
  intro signature state left hraw envelope
  refine ⟨answer_sign (hsign.gate_eq hms) hraw, ?_, ?_⟩
  · intro hlength hcoding valid
    have hsig : Envelope.decodeSignature envelope verifier.signatureCoding = .ok signature := by
      rw [hcoding]
      exact Envelope.decodeSignature_encodeSignature fun _ => hlength
    rw [answer_verify (hverify.gate_eq hmv) hsig]
    cases (mv.backend.verify publicKey.bytes message signature mv.state).1 with
    | error cause => simp [Except.mapError, Except.map]
    | ok verdict => simp [Except.mapError, Except.map]
  · intro hne hcoded hcoded'
    have hsig := Envelope.decodeSignature_of_ne signature hne hcoded hcoded'
    refine ⟨rejects_of_error hverify hmv hsig, ?_⟩
    intro backend state
    -- the gates do not look at the backend either
    have hadmits : { verifier with backend := some (backend, state) }.Admits .verify .publicKey
        publicKey := ⟨hverify.live, hverify.offered, hverify.held⟩
    have hmachine : { verifier with backend := some (backend, state) }.machine? =
        some { csprng := mv.csprng, backend, state } := by
      rw [machine?, (machine?_eq_some hmv).1]
    exact rejects_of_error hadmits hmachine hsig

/-- A backend to which a message is its own signature. -/
def Backend.echo : Backend Unit :=
  { id := .sigHelloWorld
    keygen := .ofSupply fun supply => (.ok ⟨[], []⟩, supply)
    sign := fun _ message => .ofSupply fun supply => (.ok message, supply)
    verify := fun _ message signature => .ofResult (.ok (message == signature)) }

def Registry.echo : Registry Unit :=
  Registry.empty.insert
    { descriptor :=
        { id := .sigHelloWorld
          capabilities := .signature
          parameterSets := [⟨"echo", 0, 0, 0⟩]
          defaultHash := .sha2_256
          defaultReduction := .reference }
      instantiate := fun _ => .ok (.echo, ()) }

theorem exists_echo : ∃ c₀ : Context Unit, c₀.IsNew ∧
    ∀ coding, ∃ history c, c₀.Reaches history c ∧ c.signatureCoding = coding ∧
      c.Admits .sign .privateKey ⟨.privateKey, .sigHelloWorld, 0, []⟩ ∧
      c.Admits .verify .publicKey ⟨.publicKey, .sigHelloWorld, 0, []⟩ ∧
      ∀ m, c.machine? = some m → m.backend = .echo := by
  let entropy : Entropy := { host := fun _ _ n => .ok (List.replicate n 7) }
  obtain ⟨c₀, hcreate, hrun⟩ : ∃ c₀ : Context Unit,
      (ContextSettings.create { scheme := .sigHelloWorld, paramSet := 0 } .echo entropy).answer =
        .ok c₀ ∧
      ∀ coding, let c := (c₀.run [.keygen, .setSignatureCoding coding] entropy).context
        c.signatureCoding = coding ∧
        c.Admits .sign .privateKey ⟨.privateKey, .sigHelloWorld, 0, []⟩ ∧
        c.Admits .verify .publicKey ⟨.publicKey, .sigHelloWorld, 0, []⟩ ∧
        c.backend = some (.echo, ()) :=
    ⟨_, rfl, fun _ => ⟨rfl, ⟨rfl, rfl, rfl⟩, ⟨rfl, rfl, rfl⟩, rfl⟩⟩
  refine ⟨c₀, ⟨_, _, _, hcreate⟩, ?_⟩
  intro coding
  obtain ⟨hcoding, hsign, hverify, hbackend⟩ := hrun coding
  refine ⟨_, _, c₀.reaches_run _ entropy, hcoding, hsign, hverify, ?_⟩
  intro m hm
  rw [(machine?_eq_some hm).2] at hbackend
  exact (Prod.mk.inj (Option.some.inj hbackend)).1

/-- The law on a context that repeats messages and codes their runs, with itself
and with one that codes by tables. -/
theorem signature_coding_is_transparent_of_an_echo :
    ∃ c₀ c other : Context Unit, ∃ history history',
      c₀.IsNew ∧ c₀.Reaches history c ∧ c₀.Reaches history' other ∧
      (c.perform (.sign [7, 7]) {}).1.answer =
        .ok (.bytes (Envelope.encodeSignature [7, 7] .bacRle)) ∧
      (c.perform (.verify [7, 7] (Envelope.encodeSignature [7, 7] .bacRle)) {}).1.answer =
        .ok (.verdict true) ∧
      other.Rejects [7, 7] (Envelope.encodeSignature [7, 7] .bacRle) {} := by
  obtain ⟨c₀, hnew, hecho⟩ := exists_echo
  obtain ⟨history, c, hc, hcoding, hsign, hverify, hbackend⟩ := hecho .bacRle
  obtain ⟨history', other, hother, hcoding', -, hverify', -⟩ := hecho .huffmanStatic
  obtain ⟨ms, mv, hms, hmv, hself⟩ := signature_coding_is_transparent hnew hc hnew hc hsign hverify
    [7, 7] {} {}
  obtain ⟨ms', _, hms', -, hstranger⟩ := signature_coding_is_transparent hnew hc hnew hother hsign
    hverify' [7, 7] {} {}
  have hself' := hself [7, 7] _ _ (by rw [hbackend ms hms]; rfl)
  have hstranger' := hstranger [7, 7] _ _ (by rw [hbackend ms' hms']; rfl)
  rw [hcoding] at hself' hstranger'
  rw [hcoding'] at hstranger'
  refine ⟨c₀, c, other, history, history', hnew, hc, hother, hself'.1, ?_, ?_⟩
  · exact (hself'.2.1 (by decide) rfl true).mpr (by rw [hbackend mv hmv]; rfl)
  · exact (hstranger'.2.2 (by decide) (by decide) (by decide)).1

end LatticeSuite
