import LatticeSuite.Proofs.Context.Signing

/-!
# The gates of the cryptographic operations

What a caller is told of an operation that cannot be made must not depend on which of
the six it was. They ask for a live context, for the capability and for the key, and
the first of these that is missing is what they answer.

> The six operations pass the same gates in the same order, and at a gate nothing is
> asked of generator, backend or entropy (`Context.six_operations_have_one_gate_order`).

`Call.demand?` is the table of what each of them needs. That nothing is asked at a gate
is again said by exchange: with any generator, any backend and any entropy in place of
those that are there, the call ends the same way and hands them back (`Context.Stops`).

Behind the gates three things can be told: a result, `cryptoOp`, or that the operation
is not offered after all. The last one only the backend can cause (`Context.Disowns`).
-/

namespace LatticeSuite

variable {σ α β : Type}

/-- The capability and the key that a cryptographic operation needs. -/
def Call.demand? : Call → Option (Operation × KeyClass)
  | .sign _ => some (.sign, .privateKey)
  | .verify _ _ => some (.verify, .publicKey)
  | .encrypt _ _ => some (.encrypt, .publicKey)
  | .decrypt _ _ => some (.decrypt, .privateKey)
  | .encapsulate => some (.encapsulate, .publicKey)
  | .decapsulate _ => some (.decapsulate, .privateKey)
  | _ => none

namespace Context

variable {c : Context σ} {call : Call} {operation : Operation} {keyClass : KeyClass}
  {e : ContextError}

/-! ## At a gate -/

theorem gate_of_destroyed (hdead : c.destroyed = true) (operation : Operation)
    (keyClass : KeyClass) : c.gate operation keyClass = .error .destroyed := by
  unfold gate
  rw [isLive_state, hdead]
  rfl

theorem gate_of_unsupported (hlive : c.destroyed = false)
    (hoffered : c.descriptor.capabilities.supports operation = false) (keyClass : KeyClass) :
    c.gate operation keyClass = .error (.unsupported c.scheme operation) := by
  unfold gate
  rw [isLive_state, hlive, hoffered]
  rfl

theorem gate_of_absent (hlive : c.destroyed = false)
    (hoffered : c.descriptor.capabilities.supports operation = true)
    (hempty : (c.slot keyClass).key = none) :
    c.gate operation keyClass = .error (.keyAbsent keyClass) := by
  unfold gate
  rw [isLive_state, hlive, hoffered, hempty]
  rfl

theorem drawing_refused (hgate : c.gate operation keyClass = .error e) (name : String)
    (run : Backend σ → (key : Bytes) → DrawingOperation σ α) (count : Statistics → Statistics)
    (entropy : Entropy) :
    c.drawing name operation keyClass run count entropy = (c.fail name e, entropy) := by
  unfold drawing
  rw [hgate]

theorem quiet_refused (hgate : c.gate operation keyClass = .error e) (name : String)
    (run : Backend σ → (key : Bytes) → QuietOperation σ α) (count : α → Statistics → Statistics) :
    c.quiet name operation keyClass run count = c.fail name e := by
  unfold quiet
  rw [hgate]

/-- The call fails, the failure is recorded, and that is all that happens. -/
structure Refused (c : Context σ) (call : Call) (e : ContextError) (entropy : Entropy) :
    Prop where
  answer_eq : (c.perform call entropy).1.answer = .error e
  context_eq : (c.perform call entropy).1.context = { c with errors := c.errors.push e.code () }
  entropy_eq : (c.perform call entropy).2 = entropy

theorem refused_of_perform {name : String} {f : α → Reply} {entropy : Entropy}
    (h : c.perform call entropy = ((c.fail name e).map f, entropy)) : c.Refused call e entropy := by
  refine ⟨?_, ?_, ?_⟩
  · rw [h]
    rfl
  · rw [h]
    rfl
  · rw [h]

/-- All six stop where the gate is closed. -/
theorem refused_of_gate (hdemand : call.demand? = some (operation, keyClass))
    (hgate : c.gate operation keyClass = .error e) (entropy : Entropy) :
    c.Refused call e entropy := by
  cases call with
  | sign message =>
    obtain ⟨rfl, rfl⟩ := Prod.mk.inj (Option.some.inj hdemand)
    have hperform : c.perform (.sign message) entropy =
        (((c.fail "sign" e).map fun signature =>
          Envelope.encodeSignature signature c.signatureCoding).map .bytes, entropy) := by
      simp only [perform, sign, drawing_refused hgate]
    rw [Outcome.map_map] at hperform
    exact refused_of_perform hperform
  | verify message envelope =>
    obtain ⟨rfl, rfl⟩ := Prod.mk.inj (Option.some.inj hdemand)
    have hperform : c.perform (.verify message envelope) entropy =
        ((c.fail "verify" e).map .verdict, entropy) := by
      simp only [perform, verify, quiet_refused hgate]
      rfl
    exact refused_of_perform hperform
  | encrypt plaintext padding =>
    obtain ⟨rfl, rfl⟩ := Prod.mk.inj (Option.some.inj hdemand)
    have hperform : c.perform (.encrypt plaintext padding) entropy =
        ((c.fail "public_encrypt" e).map .bytes, entropy) := by
      simp only [perform, encrypt, drawing_refused hgate]
    exact refused_of_perform hperform
  | decrypt ciphertext padding =>
    obtain ⟨rfl, rfl⟩ := Prod.mk.inj (Option.some.inj hdemand)
    have hperform : c.perform (.decrypt ciphertext padding) entropy =
        ((c.fail "private_decrypt" e).map .bytes, entropy) := by
      simp only [perform, decrypt, quiet_refused hgate]
    exact refused_of_perform hperform
  | encapsulate =>
    obtain ⟨rfl, rfl⟩ := Prod.mk.inj (Option.some.inj hdemand)
    have hperform : c.perform .encapsulate entropy =
        ((c.fail "encapsulate" e).map .encapsulated, entropy) := by
      simp only [perform, encapsulate, drawing_refused hgate]
    exact refused_of_perform hperform
  | decapsulate ciphertext =>
    obtain ⟨rfl, rfl⟩ := Prod.mk.inj (Option.some.inj hdemand)
    have hperform : c.perform (.decapsulate ciphertext) entropy =
        ((c.fail "decapsulate" e).map .bytes, entropy) := by
      simp only [perform, decapsulate, quiet_refused hgate]
    exact refused_of_perform hperform
  | _ => exact absurd hdemand (by simp [Call.demand?])

/-- The call is refused with `e`, and would be with any generator and any backend in
place of those that are there. -/
def Stops (c : Context σ) (call : Call) (e : ContextError) : Prop :=
  ∀ (csprng : Option Csprng) (backend : Option (Backend σ × σ)) (entropy : Entropy),
    { c with csprng, backend }.Refused call e entropy

/-- A gate is closed for good, whatever is behind it. -/
theorem stops_of_gate (hdemand : call.demand? = some (operation, keyClass))
    (hgate : ∀ (csprng : Option Csprng) (backend : Option (Backend σ × σ)),
      { c with csprng, backend }.gate operation keyClass = .error e) : c.Stops call e := by
  intro csprng backend entropy
  exact refused_of_gate hdemand (hgate csprng backend) entropy

/-! ## Behind the gates -/

/-- The backend, asked with this key for what the call needs, disowns an operation. -/
def Disowns (c : Context σ) (m : Machine σ) (key : Bytes) (entropy : Entropy)
    (operation : Operation) : Call → Prop
  | .sign message =>
    (m.backend.sign key message m.state { csprng := m.csprng, entropy }).1 =
      .error (.unsupported operation)
  | .verify message envelope =>
    ∃ signature, Envelope.decodeSignature envelope c.signatureCoding = .ok signature ∧
      (m.backend.verify key message signature m.state).1 = .error (.unsupported operation)
  | .encrypt plaintext padding =>
    (m.backend.encrypt key (padding.pad plaintext) m.state { csprng := m.csprng, entropy }).1 =
      .error (.unsupported operation)
  | .decrypt ciphertext _ =>
    (m.backend.decrypt key ciphertext m.state).1 = .error (.unsupported operation)
  | .encapsulate =>
    (m.backend.encapsulate key m.state { csprng := m.csprng, entropy }).1 =
      .error (.unsupported operation)
  | .decapsulate ciphertext =>
    (m.backend.decapsulate key ciphertext m.state).1 = .error (.unsupported operation)
  | _ => False

/-- What can be told of an operation whose backend was asked. -/
inductive Tells (c : Context σ) (disowns : Operation → Prop) : Except ContextError Reply → Prop
  | result (reply : Reply) : Tells c disowns (.ok reply)
  | cryptoOp : Tells c disowns (.error .cryptoOp)
  | unsupported {operation : Operation} (h : disowns operation) :
    Tells c disowns (.error (.unsupported c.scheme operation))

/-- Of a backend's errors only a disowned operation is told. -/
theorem tells_mapError {disowns : Operation → Prop} (r : Except SchemeError α) (f : α → Reply)
    (h : ∀ operation, r = .error (.unsupported operation) → disowns operation) :
    c.Tells disowns ((r.mapError (.ofScheme c.scheme)).map f) := by
  cases r with
  | ok a => exact .result (f a)
  | error cause =>
    cases cause with
    | unsupported operation => exact .unsupported (h operation rfl)
    | _ => exact .cryptoOp

theorem tells_of_gate {key : Bytes} {m : Machine σ}
    (hdemand : call.demand? = some (operation, keyClass))
    (hgate : c.gate operation keyClass = .ok (key, m)) (entropy : Entropy) :
    c.Tells (c.Disowns m key entropy · call) (c.perform call entropy).1.answer := by
  cases call with
  | sign message =>
    obtain ⟨rfl, rfl⟩ := Prod.mk.inj (Option.some.inj hdemand)
    show c.Tells _ ((c.drawing "sign" .sign .privateKey (fun b key => b.sign key message)
      (fun s => { s with signatures := s.signatures + 1 }) entropy).1.map _ |>.map _).answer
    rw [Outcome.map_map]
    show c.Tells _ (Except.map _ _)
    rw [answer_drawing hgate]
    exact tells_mapError _ _ fun _ h => h
  | verify message envelope =>
    obtain ⟨rfl, rfl⟩ := Prod.mk.inj (Option.some.inj hdemand)
    rw [(c.perform_verify message envelope entropy).1, answer_quiet hgate]
    refine tells_mapError _ _ ?_
    intro operation h
    rcases verdict_cases c.signatureCoding message envelope m.backend key with
      ⟨signature, hsig, hrun⟩ | ⟨_, _, hrun⟩
    · rw [hrun] at h
      exact ⟨signature, hsig, h⟩
    · rw [hrun] at h
      exact absurd h (by simp)
  | encrypt plaintext padding =>
    obtain ⟨rfl, rfl⟩ := Prod.mk.inj (Option.some.inj hdemand)
    show c.Tells _ (Except.map _ (c.encrypt plaintext padding entropy).1.answer)
    rw [encrypt, answer_drawing hgate]
    exact tells_mapError _ _ fun _ h => h
  | decrypt ciphertext padding =>
    obtain ⟨rfl, rfl⟩ := Prod.mk.inj (Option.some.inj hdemand)
    show c.Tells _ (Except.map _ (c.decrypt ciphertext padding).answer)
    rw [decrypt, answer_quiet hgate]
    refine tells_mapError _ _ ?_
    intro operation h
    -- malformed padding is a failure that the backend has nothing to do with
    rcases opened_error (Prod.ext h rfl) with hrun | ⟨_, _, _, hcause⟩
    · exact congrArg Prod.fst hrun
    · exact absurd hcause (by simp)
  | encapsulate =>
    obtain ⟨rfl, rfl⟩ := Prod.mk.inj (Option.some.inj hdemand)
    show c.Tells _ (Except.map _ (c.encapsulate entropy).1.answer)
    rw [encapsulate, answer_drawing hgate]
    exact tells_mapError _ _ fun _ h => h
  | decapsulate ciphertext =>
    obtain ⟨rfl, rfl⟩ := Prod.mk.inj (Option.some.inj hdemand)
    show c.Tells _ (Except.map _ (c.decapsulate ciphertext).answer)
    rw [decapsulate, answer_quiet hgate]
    exact tells_mapError _ _ fun _ h => h
  | _ => exact absurd hdemand (by simp [Call.demand?])

/-- **The six cryptographic operations have one gate order.** In every state that a
created context can reach, each of them answers `destroyed` if the context is
destroyed, else that it is not offered if the description lacks its capability, else
that its key is absent if the slot is empty; and in these cases it neither touches nor
looks at generator, backend and entropy. Behind the gates there is a machine, and the
operation gives a result, or `cryptoOp`, or disowns an operation as the backend did.
A signature in a malformed envelope is a false one and no failure. -/
theorem six_operations_have_one_gate_order {c₀ c : Context σ} {history : List Event}
    (hnew : c₀.IsNew) (hreach : c₀.Reaches history c) {call : Call} {operation : Operation}
    {keyClass : KeyClass} (hdemand : call.demand? = some (operation, keyClass)) :
    (c.destroyed = true → c.Stops call .destroyed) ∧
    (c.destroyed = false → c.descriptor.capabilities.supports operation = false →
      c.Stops call (.unsupported c.scheme operation)) ∧
    (c.destroyed = false → c.descriptor.capabilities.supports operation = true →
      (c.slot keyClass).key = none → c.Stops call (.keyAbsent keyClass)) ∧
    (∀ key, c.Admits operation keyClass key → ∃ m, c.machine? = some m ∧
      ∀ entropy, c.Tells (c.Disowns m key.bytes entropy · call)
        (c.perform call entropy).1.answer) ∧
    ∀ message envelope cause key entropy, c.Admits .verify .publicKey key →
      Envelope.decodeSignature envelope c.signatureCoding = .error cause →
      (c.perform (.verify message envelope) entropy).1.answer = .ok (.verdict false) := by
  refine ⟨?_, ?_, ?_, ?_, ?_⟩
  · intro hdead
    refine stops_of_gate hdemand ?_
    intro csprng backend
    refine gate_of_destroyed ?_ operation keyClass
    exact hdead
  · intro hlive hoffered
    refine stops_of_gate hdemand ?_
    intro csprng backend
    refine gate_of_unsupported ?_ ?_ keyClass
    · exact hlive
    · exact hoffered
  · intro hlive hoffered hempty
    refine stops_of_gate hdemand ?_
    intro csprng backend
    refine gate_of_absent hlive hoffered ?_
    cases keyClass with
    | publicKey => exact hempty
    | privateKey => exact hempty
  · intro key hadmits
    obtain ⟨m, hm⟩ := (hreach.whole hnew).exists_machine hadmits.live
    exact ⟨m, hm, tells_of_gate hdemand (hadmits.gate_eq hm)⟩
  · intro message envelope cause key entropy hadmits hsig
    obtain ⟨m, hm⟩ := (hreach.whole hnew).exists_machine hadmits.live
    exact (rejects_of_error hadmits hm hsig).answer_eq

/-- The law on a new context that repeats messages, on what a key generation and a
destruction make of it, and on an envelope that is too short. -/
theorem six_operations_have_one_gate_order_of_an_echo :
    ∃ c₀ c dead : Context Unit, c₀.IsNew ∧
      c₀.Stops (.sign [1]) (.keyAbsent .privateKey) ∧
      c₀.Stops .encapsulate (.unsupported .sigHelloWorld .encapsulate) ∧
      dead.Stops .encapsulate .destroyed ∧
      (c.perform (.verify [1] [1]) {}).1.answer = .ok (.verdict false) ∧
      ∃ m, c.Tells (c.Disowns m [] {} · (.sign [1])) (c.perform (.sign [1]) {}).1.answer := by
  let entropy : Entropy := { host := fun _ _ n => .ok (List.replicate n 7) }
  obtain ⟨c₀, hcreate, hlive, hscheme, hcapabilities, hempty, hdead⟩ : ∃ c₀ : Context Unit,
      (ContextSettings.create { scheme := .sigHelloWorld, paramSet := 0 } .echo entropy).answer =
        .ok c₀ ∧
      c₀.destroyed = false ∧ c₀.scheme = .sigHelloWorld ∧
      c₀.descriptor.capabilities = .signature ∧ (c₀.slot .privateKey).key = none ∧
      (c₀.run [.destroy] entropy).context.destroyed = true :=
    ⟨_, rfl, rfl, rfl, rfl, rfl, rfl⟩
  have hnew : c₀.IsNew := ⟨_, _, _, hcreate⟩
  obtain ⟨hnew', hecho⟩ := exists_echo.choose_spec
  obtain ⟨history, c, hreach, hcoding, hsign, hverify, -⟩ := hecho .bac
  obtain ⟨-, -, habsent, -⟩ := six_operations_have_one_gate_order hnew .start
    (show (Call.sign [1]).demand? = some (.sign, .privateKey) from rfl)
  obtain ⟨-, hunsupported, -⟩ := six_operations_have_one_gate_order hnew .start
    (show Call.encapsulate.demand? = some (.encapsulate, .publicKey) from rfl)
  obtain ⟨hdestroyed, -⟩ := six_operations_have_one_gate_order hnew (c₀.reaches_run _ entropy)
    (show Call.encapsulate.demand? = some (.encapsulate, .publicKey) from rfl)
  obtain ⟨-, -, -, hadmitted, hmalformed⟩ := six_operations_have_one_gate_order hnew' hreach
    (show (Call.sign [1]).demand? = some (.sign, .privateKey) from rfl)
  obtain ⟨m, -, htells⟩ := hadmitted _ hsign
  refine ⟨c₀, c, _, hnew, habsent hlive ?_ hempty, ?_, hdestroyed hdead, ?_, m, htells {}⟩
  · rw [hcapabilities]
    rfl
  · rw [← hscheme]
    exact hunsupported hlive (by rw [hcapabilities]; rfl)
  · exact hmalformed [1] [1] .truncated _ {} hverify (by rw [hcoding]; rfl)

end Context

end LatticeSuite
