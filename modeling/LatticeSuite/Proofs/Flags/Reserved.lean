import LatticeSuite.Proofs.Flags.Resolve

/-!
# Which reserved bits a refusal names

A list of flag words is refused for reserved bits in two places. Each of the three words
is checked against its fields, and that check names all the bits of the word that are
outside them. But before it comes to that the chain has been followed, and where the third
word announces a fourth one, the walk ends with a refusal of its own (`Overruns`), which
names this one bit of the third word and looks for no other.

No field is refused in this way (`NoReserved`), so a refusal can be traced back through the
decoding to the check or to the walk it comes from (`resolve_eq_reservedBits`). The law is

> `reserved_bits_are_named_but_for_an_overrun`: a refusal names a word that was supplied
> and only reserved bits of it, and it names all of them unless the list overruns.

There are lists that overrun with further reserved bits in the third word
(`not_forall_reserved_bits_are_named`).
-/

namespace LatticeSuite.Flags

variable {α β : Type} {index w : Nat} {word b : UInt32} {words : List UInt32}

/-! ## Where the refusal comes from -/

/-- A decoding that is never refused for reserved bits. -/
def NoReserved (x : Resolved α) : Prop :=
  ∀ w b, x ≠ .error (.reservedBits w b)

theorem NoReserved.bind {x : Resolved α} {f : α → Resolved β} (hx : NoReserved x)
    (hf : ∀ a, NoReserved (f a)) : NoReserved (x >>= f) := by
  intro w b h
  cases x with
  | error e => exact hx w b (congrArg Except.error (Except.error.inj h))
  | ok a => exact hf a w b h

theorem noReserved_ok (a : α) : NoReserved (.ok a) := fun _ _ h => nomatch h

theorem noReserved_invalidField (field : String) :
    NoReserved (α := α) (.error (.invalidField field)) := fun _ _ h => nomatch h

theorem noReserved_precisionOf (code : Nat) : NoReserved (precisionOf code) := by
  unfold precisionOf
  split <;> first | exact noReserved_ok _ | exact noReserved_invalidField _

theorem noReserved_hashFamilyOf (code : Nat) : NoReserved (hashFamilyOf code) := by
  unfold hashFamilyOf
  split <;> first | exact noReserved_ok _ | exact noReserved_invalidField _

theorem noReserved_reductionOf (code : Nat) : NoReserved (reductionOf code) := by
  unfold reductionOf
  split <;> first | exact noReserved_ok _ | exact noReserved_invalidField _

theorem noReserved_threadingOf (word : UInt32) : NoReserved (threadingOf word) := by
  unfold threadingOf
  split
  · exact noReserved_invalidField _
  · exact noReserved_ok _

theorem noReserved_hashSelectionOf (family : HashFamily) (length : DigestLength) :
    NoReserved (hashSelectionOf family length) := by
  unfold hashSelectionOf
  split
  · exact fun _ _ h => nomatch h
  · exact noReserved_ok _

/-- A refusal for reserved bits that no later step can have made. -/
theorem eq_of_bind_eq_reservedBits {x : Resolved α} {f : α → Resolved β}
    (hf : ∀ a, NoReserved (f a)) (h : x >>= f = .error (.reservedBits w b)) :
    x = .error (.reservedBits w b) := by
  cases x with
  | error e => exact congrArg Except.error (Except.error.inj h)
  | ok a => exact absurd h (hf a w b)

/-- A refusal comes from the first step or from one behind it. -/
theorem cases_of_bind_eq_error {x : Resolved α} {f : α → Resolved β} {e : FlagError}
    (h : x >>= f = .error e) : x = .error e ∨ ∃ a, x = .ok a ∧ f a = .error e := by
  cases x with
  | error e' => exact Or.inl (congrArg Except.error (Except.error.inj h))
  | ok a => exact Or.inr ⟨a, rfl, h⟩

/-! ## The check of a word -/

theorem checkReserved_eq_error (h : checkReserved index word = .error (.reservedBits w b)) :
    w = index ∧ b = word &&& ~~~definedBits index ∧ b ≠ 0 := by
  unfold checkReserved at h
  dsimp only at h
  split at h
  next => exact nomatch h
  next hne =>
    obtain ⟨rfl, rfl⟩ := FlagError.reservedBits.inj (Except.error.inj h)
    exact ⟨rfl, rfl, hne⟩

theorem features_eq_reservedBits (h : features word = .error (.reservedBits w b)) :
    checkReserved 0 word = .error (.reservedBits w b) := by
  refine eq_of_bind_eq_reservedBits (fun _ => ?_) h
  refine (noReserved_precisionOf _).bind fun _ => ?_
  refine (noReserved_hashFamilyOf _).bind fun _ => ?_
  refine (noReserved_hashSelectionOf _ _).bind fun _ => ?_
  refine (noReserved_reductionOf _).bind fun _ => ?_
  exact (noReserved_threadingOf _).bind fun _ => noReserved_ok _

theorem csprngRequest_eq_reservedBits (h : csprngRequest word = .error (.reservedBits w b)) :
    checkReserved 1 word = .error (.reservedBits w b) :=
  eq_of_bind_eq_reservedBits (fun _ => noReserved_ok _) h

theorem sideChannel_eq_reservedBits (h : sideChannel word = .error (.reservedBits w b)) :
    checkReserved 2 word = .error (.reservedBits w b) :=
  eq_of_bind_eq_reservedBits (fun _ => noReserved_ok _) h

/-! ## The walk along the chain -/

/-- A list whose third word announces a fourth one. -/
structure Overruns (words : List UInt32) : Prop where
  supplied : 2 < words.length
  announced : ∀ k ≤ 2, (words.getD k 0).toNat.testBit 31 = true

theorem overruns_of_announced {w₀ w₁ w₂ : UInt32} {rest : List UInt32}
    (h₀ : w₀.toNat.testBit 31 = true) (h₁ : w₁.toNat.testBit 31 = true)
    (h₂ : w₂.toNat.testBit 31 = true) : Overruns (w₀ :: w₁ :: w₂ :: rest) where
  supplied := by simp
  announced k hk := by
    obtain rfl | rfl | rfl : k = 0 ∨ k = 1 ∨ k = 2 := by omega
    · exact h₀
    · exact h₁
    · exact h₂

theorem Overruns.chain_eq (h : Overruns words) :
    chain words = .error (.reservedBits 2 moreBit) := by
  rcases words with _ | ⟨w₀, _ | ⟨w₁, _ | ⟨w₂, rest⟩⟩⟩
  · exact absurd h.supplied (by simp)
  · exact absurd h.supplied (by simp)
  · exact absurd h.supplied (by simp)
  · have h₀ : w₀.toNat.testBit 31 = true := h.announced 0 (by decide)
    have h₁ : w₁.toNat.testBit 31 = true := h.announced 1 (by decide)
    have h₂ : w₂.toNat.testBit 31 = true := h.announced 2 (by decide)
    simp [chain, has_moreBit, h₀, h₁, h₂]

/-- Only an overrun ends the walk with reserved bits. -/
theorem overruns_of_chain (h : chain words = .error (.reservedBits w b)) : Overruns words := by
  rcases words with _ | ⟨w₀, rest⟩
  · exact nomatch h
  cases h₀ : w₀.toNat.testBit 31 with
  | false => simp [chain, has_moreBit, h₀] at h
  | true =>
    rcases rest with _ | ⟨w₁, rest⟩
    · simp [chain, has_moreBit, h₀] at h
    cases h₁ : w₁.toNat.testBit 31 with
    | false => simp [chain, has_moreBit, h₀, h₁] at h
    | true =>
      rcases rest with _ | ⟨w₂, rest⟩
      · simp [chain, has_moreBit, h₀, h₁] at h
      cases h₂ : w₂.toNat.testBit 31 with
      | false => simp [chain, has_moreBit, h₀, h₁, h₂] at h
      | true => exact overruns_of_announced h₀ h₁ h₂

theorem chain_eq_reservedBits (h : chain words = .error (.reservedBits w b)) :
    Overruns words ∧ w = 2 ∧ b = moreBit := by
  have hover := overruns_of_chain h
  rw [hover.chain_eq] at h
  obtain ⟨rfl, rfl⟩ := FlagError.reservedBits.inj (Except.error.inj h)
  exact ⟨hover, rfl, rfl⟩

theorem Overruns.resolve_eq (h : Overruns words) :
    resolve words = .error (.reservedBits 2 moreBit) := by
  rw [resolve, h.chain_eq]
  rfl

/-- A word of the chain with bits outside its fields was supplied. -/
theorem EndsAt.getElem?_of_reserved {last : Nat} (h : EndsAt words last)
    (hne : consulted words index &&& ~~~definedBits index ≠ 0) :
    words[index]? = some (consulted words index) := by
  have hword : consulted words index ≠ 0 := fun hzero => hne (by rw [hzero, UInt32.zero_and])
  -- behind the chain there are no bits
  have hle : index ≤ last := by
    refine Nat.le_of_not_lt fun hlt => hword ?_
    obtain ⟨n, rfl⟩ : ∃ n, index = last + 1 + n := ⟨index - (last + 1), by omega⟩
    exact h.consulted_behind n
  rw [h.consulted_eq hle, List.getD_eq_getElem?_getD] at hword ⊢
  cases hget : words[index]? with
  | none => exact absurd (by rw [hget]; rfl) hword
  | some word => rfl

/-- **A refusal comes from the walk or from the check of a word of the chain.** -/
theorem resolve_eq_reservedBits (h : resolve words = .error (.reservedBits w b)) :
    (Overruns words ∧ w = 2 ∧ b = moreBit) ∨
      (∃ last, EndsAt words last) ∧
        checkReserved w (consulted words w) = .error (.reservedBits w b) := by
  rcases cases_of_bind_eq_error h with h | ⟨c, hchain, h⟩
  · exact Or.inl (chain_eq_reservedBits h)
  obtain ⟨hends, rfl⟩ := chain_eq_ok_iff.mp hchain
  refine Or.inr ⟨hends, ?_⟩
  rcases cases_of_bind_eq_error h with h | ⟨_, -, h⟩
  · have hcheck := features_eq_reservedBits h
    obtain ⟨rfl, -⟩ := checkReserved_eq_error hcheck
    exact hcheck
  rcases cases_of_bind_eq_error h with h | ⟨_, -, h⟩
  · have hcheck := csprngRequest_eq_reservedBits h
    obtain ⟨rfl, -⟩ := checkReserved_eq_error hcheck
    exact hcheck
  have hcheck := sideChannel_eq_reservedBits
    (eq_of_bind_eq_reservedBits (fun _ => noReserved_ok _) h)
  obtain ⟨rfl, -⟩ := checkReserved_eq_error hcheck
  exact hcheck

/-! ## What is named -/

theorem Overruns.exists_third (h : Overruns words) :
    ∃ word, words[2]? = some word ∧ word.toNat.testBit 31 = true := by
  have hget := List.getElem?_eq_getElem h.supplied
  have hbit := h.announced 2 (Nat.le_refl 2)
  rw [List.getD_eq_getElem?_getD, hget] at hbit
  exact ⟨_, hget, hbit⟩

/-- In the third word the announcement of a successor is no field. -/
theorem moreBit_and (h : word.toNat.testBit 31 = true) :
    moreBit &&& (word &&& ~~~definedBits 2) = moreBit := by
  have hfree : (~~~definedBits 2).toNat.testBit 31 = true := by decide
  have hmore : moreBit.toNat = 2 ^ 31 := by decide
  apply eq_of_testBit_eq
  intro k
  rw [testBit_and, testBit_and, hmore, Nat.testBit_two_pow]
  by_cases hk : 31 = k
  · rw [← hk, h, hfree]
    rfl
  · rw [decide_eq_false hk, Bool.false_and]

/-- **Reserved bits are named, all of them but for an overrun.** The word that is named was
supplied, and the bits named are bits of it that belong to no field. They are all of these,
unless the third word announces a fourth: then it is this one bit. -/
theorem reserved_bits_are_named_but_for_an_overrun (words : List UInt32) :
    (Overruns words → resolve words = .error (.reservedBits 2 moreBit)) ∧
      ∀ w b, resolve words = .error (.reservedBits w b) →
        ∃ word, words[w]? = some word ∧ b ≠ 0 ∧ b &&& (word &&& ~~~definedBits w) = b ∧
          (¬Overruns words → b = word &&& ~~~definedBits w) := by
  refine ⟨fun h => h.resolve_eq, fun w b h => ?_⟩
  rcases resolve_eq_reservedBits h with ⟨hover, rfl, rfl⟩ | ⟨⟨last, hends⟩, hcheck⟩
  · obtain ⟨word, hget, hbit⟩ := hover.exists_third
    exact ⟨word, hget, by decide, moreBit_and hbit, fun hnot => absurd hover hnot⟩
  · obtain ⟨-, rfl, hne⟩ := checkReserved_eq_error hcheck
    exact ⟨_, hends.getElem?_of_reserved hne, hne, UInt32.and_self, fun _ => rfl⟩

/-- Two reserved bits in the second word are both named. Of the same two in a third word
that goes on, the walk names one. -/
theorem reserved_bits_are_named_but_for_an_overrun_of_two_lists :
    (∃ word, ([0x80000000, 0xc0] : List UInt32)[1]? = some word ∧
        0xc0 = word &&& ~~~definedBits 1) ∧
      resolve [0x80000000, 0x80000000, 0x800000c0] = .error (.reservedBits 2 moreBit) := by
  constructor
  · have hrefused : resolve [0x80000000, 0xc0] = .error (.reservedBits 1 0xc0) := by decide
    have hnot : ¬Overruns [0x80000000, 0xc0] := fun h => absurd h.supplied (by decide)
    obtain ⟨word, hget, -, -, hall⟩ :=
      (reserved_bits_are_named_but_for_an_overrun [0x80000000, 0xc0]).2 1 0xc0 hrefused
    exact ⟨word, hget, hall hnot⟩
  · exact (reserved_bits_are_named_but_for_an_overrun _).1 ⟨by decide, by decide⟩

/-- Not all reserved bits are named: a third word may go on and have others. -/
theorem not_forall_reserved_bits_are_named :
    ¬∀ words w b, resolve words = .error (.reservedBits w b) →
      ∃ word, words[w]? = some word ∧ b = word &&& ~~~definedBits w := by
  intro h
  obtain ⟨word, hget, heq⟩ :=
    h [0x80000000, 0x80000000, 0x80000040] 2 moreBit (by decide)
  obtain rfl : 0x80000040 = word := Option.some.inj hget
  exact absurd heq (by decide)

end LatticeSuite.Flags
