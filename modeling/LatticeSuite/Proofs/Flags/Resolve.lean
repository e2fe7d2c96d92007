import LatticeSuite.Proofs.Flags.Layout
import Mathlib.Data.List.Nodup

/-!
# Which flag words are accepted

The words of a list are followed as long as they announce a successor.
`consulted` is this chain with zeros behind it, and `EndsAt words last` says that
it comes to an end among the words that are there. Following the chain, decoding
each of the three words and decoding the whole list each have one lemma that says
when they succeed and with what (`chain_eq_ok_iff`, `features_eq_ok_iff`,
`csprngRequest_eq_ok_iff`, `sideChannel_eq_ok_iff`, `resolve_eq_ok_iff`).

What the codes of a field stand for is a table, and a code is refused when it is
beyond the table (`exists_ok_iff_lt`). Put together,

> `exists_resolve_eq_ok_iff`: a list is accepted if and only if its chain has an
> end, no word of the chain has bits outside the fields, and the codes in word 0
> have a meaning (`Documented`).

Words behind the chain are not looked at (`resolve_take_append`).
-/

namespace LatticeSuite.Flags

/-! ## The chain -/

/-- The word at an index of the chain, and zero behind the chain. -/
def consulted (words : List UInt32) : (index : Nat) → UInt32
  | 0 => words.getD 0 0
  | k + 1 => if (consulted words k).toNat.testBit 31 then words.getD (k + 1) 0 else 0

/-- The chain of a list ends at an index: the word is there and announces no
other, and those before it do. No words at all are one word of zero. -/
structure EndsAt (words : List UInt32) (last : Nat) : Prop where
  known : last ≤ 2
  supplied : last < words.length ∨ words = []
  announced : ∀ k < last, (words.getD k 0).toNat.testBit 31 = true
  final : (words.getD last 0).toNat.testBit 31 = false

/-- The three words of a list. -/
def chained (words : List UInt32) : Words :=
  ⟨consulted words 0, consulted words 1, consulted words 2⟩

theorem consulted_of_announced {words : List UInt32} {n : Nat}
    (h : ∀ k < n, (words.getD k 0).toNat.testBit 31 = true) :
    consulted words n = words.getD n 0 := by
  induction n with
  | zero => rfl
  | succ n ih =>
    rw [consulted, ih fun k hk => h k (Nat.lt_succ_of_lt hk), if_pos (h n (Nat.lt_succ_self n))]

namespace EndsAt

variable {words : List UInt32} {last : Nat}

theorem consulted_eq (h : EndsAt words last) {k : Nat} (hk : k ≤ last) :
    consulted words k = words.getD k 0 :=
  consulted_of_announced fun j hj => h.announced j (Nat.lt_of_lt_of_le hj hk)

theorem consulted_behind (h : EndsAt words last) (n : Nat) :
    consulted words (last + 1 + n) = 0 := by
  induction n with
  | zero =>
    have hlast : (consulted words last).toNat.testBit 31 = false := by
      rw [h.consulted_eq (Nat.le_refl last)]
      exact h.final
    rw [Nat.add_zero, consulted, hlast]
    rfl
  | succ n ih =>
    -- a zero announces nothing
    rw [← Nat.add_assoc, consulted, ih]
    rfl

theorem chain_eq (h : EndsAt words last) : chain words = .ok (chained words) := by
  match words, last, h with
  | [], _, _ => rfl
  | w₀ :: rest, 0, h =>
    have h₀ : w₀.toNat.testBit 31 = false := h.final
    simp [chain, chained, consulted, has_moreBit, h₀]
  | [_], k + 1, h => exact absurd h.supplied (by simp)
  | w₀ :: w₁ :: rest, 1, h =>
    have h₀ : w₀.toNat.testBit 31 = true := h.announced 0 (by decide)
    have h₁ : w₁.toNat.testBit 31 = false := h.final
    simp [chain, chained, consulted, has_moreBit, h₀, h₁]
  | [_, _], k + 2, h => exact absurd h.supplied (by simp)
  | w₀ :: w₁ :: w₂ :: rest, 2, h =>
    have h₀ : w₀.toNat.testBit 31 = true := h.announced 0 (by decide)
    have h₁ : w₁.toNat.testBit 31 = true := h.announced 1 (by decide)
    have h₂ : w₂.toNat.testBit 31 = false := h.final
    simp [chain, chained, consulted, has_moreBit, h₀, h₁, h₂]
  | _ :: _ :: _ :: _, k + 3, h => exact absurd h.known (by omega)

end EndsAt

theorem endsAt_of_chain {words : List UInt32} {w : Words} (h : chain words = .ok w) :
    ∃ last, EndsAt words last := by
  match words, h with
  | [], _ => exact ⟨0, by decide, Or.inr rfl, by simp, rfl⟩
  | w₀ :: rest, h =>
    cases h₀ : w₀.toNat.testBit 31 with
    | false => exact ⟨0, by decide, Or.inl (by simp), by simp, h₀⟩
    | true =>
      match rest, h with
      | [], h => simp [chain, has_moreBit, h₀] at h
      | w₁ :: rest, h =>
        cases h₁ : w₁.toNat.testBit 31 with
        | false =>
          refine ⟨1, by decide, Or.inl (by simp), fun k hk => ?_, h₁⟩
          obtain rfl : k = 0 := Nat.lt_one_iff.mp hk
          exact h₀
        | true =>
          match rest, h with
          | [], h => simp [chain, has_moreBit, h₀, h₁] at h
          | w₂ :: rest, h =>
            cases h₂ : w₂.toNat.testBit 31 with
            | true => simp [chain, has_moreBit, h₀, h₁, h₂] at h
            | false =>
              refine ⟨2, by decide, Or.inl (by simp), fun k hk => ?_, h₂⟩
              match k, hk with
              | 0, _ => exact h₀
              | 1, _ => exact h₁

theorem chain_eq_ok_iff {words : List UInt32} {w : Words} :
    chain words = .ok w ↔ (∃ last, EndsAt words last) ∧ w = chained words := by
  constructor
  · intro h
    obtain ⟨last, hlast⟩ := endsAt_of_chain h
    rw [hlast.chain_eq] at h
    exact ⟨⟨last, hlast⟩, (Except.ok.inj h).symm⟩
  · rintro ⟨⟨last, hlast⟩, rfl⟩
    exact hlast.chain_eq

/-! ## The three words -/

/-- What is decoded in steps is decoded in every step. -/
theorem exists_of_bind_eq_ok {α β : Type} {x : Resolved α} {f : α → Resolved β} {b : β}
    (h : x >>= f = .ok b) : ∃ a, x = .ok a ∧ f a = .ok b := by
  cases x with
  | error e => exact nomatch h
  | ok a => exact ⟨a, rfl, h⟩

/-- What word 0 says, part by part. -/
structure Word0 (word : UInt32) (f : FeatureConfig) : Prop where
  reserved : checkReserved 0 word = .ok ()
  entropy : f.entropy = codersOf word
  samplePrecision : precisionOf (precisionField.read word) = .ok f.samplePrecision
  sampleBlinding : f.sampleBlinding = has word sampleBlindingBit
  sampler : f.sampler = firstSet samplerBits word
  family : hashFamilyOf (hashFunctionField.read word) = .ok f.hash.family
  length : f.hash.length = hashLengthOf (hashLengthField.read word)
  compatible : ¬(f.hash.family = .whirlpool ∧ f.hash.length ≠ .bits512)
  reduction : reductionOf (reductionField.read word) = .ok f.reduction
  threading : threadingOf word = .ok f.threading

/-- What the other words say does not matter to word 0. -/
theorem Word0.besides {word : UInt32} {f : FeatureConfig} (h : Word0 word f)
    (csprng : CsprngRequest) (sideChannel : SideChannelConfig) :
    Word0 word { f with csprng, sideChannel } :=
  ⟨h.reserved, h.entropy, h.samplePrecision, h.sampleBlinding, h.sampler, h.family, h.length,
    h.compatible, h.reduction, h.threading⟩

theorem hashSelectionOf_eq_ok_iff {family : HashFamily} {length : DigestLength}
    {s : HashSelection} :
    hashSelectionOf family length = .ok s ↔
      ¬(family = .whirlpool ∧ length ≠ .bits512) ∧ s = { family, length } := by
  rw [hashSelectionOf]
  split
  next h => simp [h]
  next h => exact ⟨fun hs => ⟨h, (Except.ok.inj hs).symm⟩, fun hs => by rw [hs.2]⟩

theorem features_eq_ok_iff {word : UInt32} {f : FeatureConfig} :
    features word = .ok f ↔ Word0 word f ∧ f.csprng = {} ∧ f.sideChannel = {} := by
  constructor
  · intro h
    obtain ⟨⟨⟩, hreserved, h⟩ := exists_of_bind_eq_ok h
    obtain ⟨precision, hprecision, h⟩ := exists_of_bind_eq_ok h
    obtain ⟨family, hfamily, h⟩ := exists_of_bind_eq_ok h
    obtain ⟨hash, hhash, h⟩ := exists_of_bind_eq_ok h
    obtain ⟨reduction, hreduction, h⟩ := exists_of_bind_eq_ok h
    obtain ⟨threading, hthreading, h⟩ := exists_of_bind_eq_ok h
    obtain ⟨hcompatible, rfl⟩ := hashSelectionOf_eq_ok_iff.mp hhash
    obtain rfl := Except.ok.inj h
    exact ⟨⟨hreserved, rfl, hprecision, rfl, rfl, hfamily, rfl, hcompatible, hreduction,
      hthreading⟩, rfl, rfl⟩
  · rintro ⟨h, hcsprng, hside⟩
    have hhash : hashSelectionOf f.hash.family (hashLengthOf (hashLengthField.read word)) =
        .ok f.hash := by
      rw [← h.length]
      exact hashSelectionOf_eq_ok_iff.mpr ⟨h.compatible, rfl⟩
    rw [features, h.reserved, h.samplePrecision, h.family]
    simp only [bind, Except.bind]
    rw [hhash, h.reduction, h.threading, ← h.entropy, ← h.sampleBlinding, ← h.sampler]
    show Except.ok { f with csprng := {}, sideChannel := {} } = .ok f
    rw [← hcsprng, ← hside]

theorem csprngRequest_eq_ok_iff {word : UInt32} {r : CsprngRequest} :
    csprngRequest word = .ok r ↔ checkReserved 1 word = .ok () ∧
      r = { algorithm := (firstSet generatorBits word).getD .system
            source := (firstSet sourceBits word).getD .os } := by
  constructor
  · intro h
    obtain ⟨⟨⟩, hreserved, h⟩ := exists_of_bind_eq_ok h
    exact ⟨hreserved, (Except.ok.inj h).symm⟩
  · rintro ⟨hreserved, rfl⟩
    rw [csprngRequest, hreserved]
    rfl

theorem sideChannel_eq_ok_iff {word : UInt32} {c : SideChannelConfig} :
    sideChannel word = .ok c ↔ checkReserved 2 word = .ok () ∧
      c = { discard := discardOf (discardField.read word)
            cacheAccess := has word cacheAccessBit
            nonCtMask := has word nonCtMaskBit
            shuffle := has word shuffleBit
            blinding := has word blindingBit } := by
  constructor
  · intro h
    obtain ⟨⟨⟩, hreserved, h⟩ := exists_of_bind_eq_ok h
    exact ⟨hreserved, (Except.ok.inj h).symm⟩
  · rintro ⟨hreserved, rfl⟩
    rw [sideChannel, hreserved]
    rfl

/-- What the words of a chain say. -/
structure Says (w : Words) (f : FeatureConfig) : Prop where
  word0 : Word0 w.word0 f
  csprng : csprngRequest w.word1 = .ok f.csprng
  sideChannel : sideChannel w.word2 = .ok f.sideChannel

theorem resolve_eq_ok_iff {words : List UInt32} {f : FeatureConfig} :
    resolve words = .ok f ↔ (∃ last, EndsAt words last) ∧ Says (chained words) f := by
  constructor
  · intro h
    obtain ⟨w, hchain, h⟩ := exists_of_bind_eq_ok h
    obtain ⟨hends, rfl⟩ := chain_eq_ok_iff.mp hchain
    obtain ⟨g, hfeatures, h⟩ := exists_of_bind_eq_ok h
    obtain ⟨csprng, hcsprng, h⟩ := exists_of_bind_eq_ok h
    obtain ⟨side, hside, h⟩ := exists_of_bind_eq_ok h
    obtain rfl := Except.ok.inj h
    obtain ⟨hword0, -⟩ := features_eq_ok_iff.mp hfeatures
    exact ⟨hends, hword0.besides csprng side, hcsprng, hside⟩
  · rintro ⟨hends, hword0, hcsprng, hside⟩
    have hchain : chain words = .ok (chained words) := chain_eq_ok_iff.mpr ⟨hends, rfl⟩
    have hfeatures : features (chained words).word0 =
        .ok { f with csprng := {}, sideChannel := {} } :=
      features_eq_ok_iff.mpr ⟨hword0.besides {} {}, rfl, rfl⟩
    rw [resolve, hchain]
    simp only [bind, Except.bind, hfeatures, hcsprng, hside]
    rfl

/-! ## Codes and what they stand for -/

/-- What the codes of the precision field stand for. -/
def precisions : List SamplePrecision :=
  [.default, .bits32, .bits64, .bits128, .bits192, .bits256]

/-- What the codes of the reduction field stand for. -/
def reductions : List (Option ReductionStrategy) :=
  [none, some .reference, some .barrett, some .floatingPoint]

theorem precisionOf_eq_ok_iff {c : Nat} {p : SamplePrecision} :
    precisionOf c = .ok p ↔ precisions[c]? = some p := by
  rcases c with _ | _ | _ | _ | _ | _ | c <;> simp [precisionOf, precisions]

theorem hashFamilyOf_eq_ok_iff {c : Nat} {family : HashFamily} :
    hashFamilyOf c = .ok family ↔ HashFamily.all[c]? = some family := by
  rcases c with _ | _ | _ | _ | _ | c <;> simp [hashFamilyOf, HashFamily.all]

theorem reductionOf_eq_ok_iff {c : Nat} {r : Option ReductionStrategy} :
    reductionOf c = .ok r ↔ reductions[c]? = some r := by
  rcases c with _ | _ | _ | _ | c <;> simp [reductionOf, reductions]

/-- The codes of a table are those below its length. -/
theorem exists_ok_iff_lt {α : Type} {read : Nat → Resolved α} {table : List α}
    (h : ∀ {c a}, read c = .ok a ↔ table[c]? = some a) (c : Nat) :
    (∃ a, read c = .ok a) ↔ c < table.length := by
  constructor
  · rintro ⟨a, ha⟩
    exact (List.getElem?_eq_some_iff.mp (h.mp ha)).1
  · intro hc
    exact ⟨table[c], h.mpr (List.getElem?_eq_getElem hc)⟩

theorem exists_precision_iff (c : Nat) : (∃ p, precisionOf c = .ok p) ↔ c ≤ 5 :=
  (exists_ok_iff_lt precisionOf_eq_ok_iff c).trans Nat.lt_succ_iff

theorem exists_family_iff (c : Nat) : (∃ family, hashFamilyOf c = .ok family) ↔ c ≤ 4 :=
  (exists_ok_iff_lt hashFamilyOf_eq_ok_iff c).trans Nat.lt_succ_iff

theorem exists_reduction_iff (c : Nat) : (∃ r, reductionOf c = .ok r) ↔ c ≤ 3 :=
  (exists_ok_iff_lt reductionOf_eq_ok_iff c).trans Nat.lt_succ_iff

/-- A code stands for one thing. -/
theorem eq_of_code_eq {α : Type} {read : Nat → Resolved α} {c c' : Nat} {a b : α}
    (ha : read c = .ok a) (hb : read c' = .ok b) (hc : c = c') : a = b :=
  Except.ok.inj (ha.symm.trans (hc ▸ hb))

/-- No two codes stand for one family. -/
theorem family_eq_iff {c c' : Nat} {a b : HashFamily} (ha : hashFamilyOf c = .ok a)
    (hb : hashFamilyOf c' = .ok b) : a = b ↔ c = c' := by
  have hnodup : HashFamily.all.Nodup := by decide
  constructor
  · rintro rfl
    rw [hashFamilyOf_eq_ok_iff] at ha hb
    obtain ⟨hc, hget⟩ := List.getElem?_eq_some_iff.mp ha
    obtain ⟨hc', hget'⟩ := List.getElem?_eq_some_iff.mp hb
    exact (List.Nodup.getElem_inj_iff hnodup).mp (hget.trans hget'.symm)
  · rintro rfl
    exact Except.ok.inj (ha.symm.trans hb)

theorem eq_whirlpool_iff {c : Nat} {family : HashFamily} (h : hashFamilyOf c = .ok family) :
    family = .whirlpool ↔ c = 4 :=
  family_eq_iff h rfl

theorem getElem?_lengths {c : Nat} (h : c < 4) : DigestLength.all[c]? = some (hashLengthOf c) := by
  have hall : ∀ c < 4, DigestLength.all[c]? = some (hashLengthOf c) := by decide
  exact hall c h

theorem hashLengthOf_eq_bits512_iff {c : Nat} : hashLengthOf c = .bits512 ↔ c = 0 := by
  rcases c with _ | _ | _ | c <;> simp [hashLengthOf]

theorem has_unknownThreading_iff (word : UInt32) :
    has word (threadingMask &&& ~~~threadingKnown) = false ↔
      word.toNat.testBit 29 = false ∧ word.toNat.testBit 30 = false := by
  have hmask : ∀ k < 32, (threadingMask &&& ~~~threadingKnown).toNat.testBit k =
      decide (k = 29 ∨ k = 30) := by
    decide
  rw [has_eq_false_iff]
  constructor
  · intro h
    exact ⟨h 29 (by decide), h 30 (by decide)⟩
  · rintro ⟨h₂₉, h₃₀⟩ k hk
    rw [hmask k (lt_of_testBit hk), decide_eq_true_iff] at hk
    rcases hk with rfl | rfl
    · exact h₂₉
    · exact h₃₀

theorem threadingOf_eq_ok_iff {word : UInt32} {t : ThreadingFlags} :
    threadingOf word = .ok t ↔
      (word.toNat.testBit 29 = false ∧ word.toNat.testBit 30 = false) ∧
        t = { keygen := has word threadingKeygenBit
              encryptSign := has word threadingEncryptSignBit
              decryptVerify := has word threadingDecryptVerifyBit } := by
  rw [← has_unknownThreading_iff, threadingOf]
  cases has word (threadingMask &&& ~~~threadingKnown) with
  | true => simp
  | false => exact ⟨fun h => ⟨rfl, (Except.ok.inj h).symm⟩, fun h => by rw [h.2]; rfl⟩

/-! ## Acceptance -/

/-- The words of a list as the layout allows them: a chain with an end, no bits
outside the fields, and codes with a meaning in word 0. -/
structure Documented (words : List UInt32) (last : Nat) : Prop where
  ends : EndsAt words last
  defined : ∀ index ≤ last, ∀ k,
    (words.getD index 0).toNat.testBit k = true → k ∈ fieldBits index
  precision : code (words.getD 0 0) 4 3 ≤ 5
  hash : code (words.getD 0 0) 18 3 ≤ 4
  /-- Whirlpool has one length only. -/
  whirlpool : code (words.getD 0 0) 18 3 = 4 → code (words.getD 0 0) 16 2 = 0
  reduction : code (words.getD 0 0) 21 3 ≤ 3
  /-- Two bits of the threading field have no meaning. -/
  threading : (words.getD 0 0).toNat.testBit 29 = false ∧
    (words.getD 0 0).toNat.testBit 30 = false

theorem Says.reserved {words : List UInt32} {f : FeatureConfig} (h : Says (chained words) f)
    {index : Nat} (hi : index < wordCount) :
    checkReserved index (consulted words index) = .ok () := by
  match index, hi with
  | 0, _ => exact h.word0.reserved
  | 1, _ => exact (csprngRequest_eq_ok_iff.mp h.csprng).1
  | 2, _ => exact (sideChannel_eq_ok_iff.mp h.sideChannel).1

theorem Says.documented {words : List UInt32} {f : FeatureConfig} {last : Nat}
    (h : Says (chained words) f) (hends : EndsAt words last) : Documented words last := by
  have hword := h.word0
  have hlast := hends.known
  refine ⟨hends, ?_, ?_, ?_, ?_, ?_, ?_⟩
  · intro index hi
    have hknown : index < wordCount := by
      show index < 3
      omega
    rw [← hends.consulted_eq hi]
    exact (checkReserved_eq_ok_iff _ hknown).mp (h.reserved hknown)
  · rw [← precision_read]
    exact (exists_precision_iff _).mp ⟨_, hword.samplePrecision⟩
  · rw [← hashFunction_read]
    exact (exists_family_iff _).mp ⟨_, hword.family⟩
  · intro hcode
    rw [← hashFunction_read] at hcode
    have hfamily : f.hash.family = .whirlpool := (eq_whirlpool_iff hword.family).mpr hcode
    have hlength : f.hash.length = .bits512 :=
      Decidable.byContradiction fun hne => hword.compatible ⟨hfamily, hne⟩
    rw [hword.length] at hlength
    rw [← hashLength_read]
    exact hashLengthOf_eq_bits512_iff.mp hlength
  · rw [← reduction_read]
    exact (exists_reduction_iff _).mp ⟨_, hword.reduction⟩
  · exact (threadingOf_eq_ok_iff.mp hword.threading).1

theorem Documented.reserved {words : List UInt32} {last : Nat} (h : Documented words last)
    {index : Nat} (hi : index < wordCount) :
    checkReserved index (consulted words index) = .ok () := by
  rw [checkReserved_eq_ok_iff _ hi]
  intro k hk
  by_cases hle : index ≤ last
  · rw [h.ends.consulted_eq hle] at hk
    exact h.defined index hle k hk
  · -- behind the chain there are no bits
    obtain ⟨n, rfl⟩ : ∃ n, index = last + 1 + n := ⟨index - (last + 1), by omega⟩
    rw [h.ends.consulted_behind n] at hk
    exact absurd hk (by simp)

theorem Documented.exists_says {words : List UInt32} {last : Nat} (h : Documented words last) :
    ∃ f, Says (chained words) f := by
  obtain ⟨precision, hprecision⟩ := (exists_precision_iff _).mpr h.precision
  obtain ⟨family, hfamily⟩ := (exists_family_iff _).mpr h.hash
  obtain ⟨reduction, hreduction⟩ := (exists_reduction_iff _).mpr h.reduction
  rw [← precision_read] at hprecision
  have hcompatible : ¬(family = .whirlpool ∧
      hashLengthOf (hashLengthField.read (words.getD 0 0)) ≠ .bits512) := by
    rintro ⟨hwhirlpool, hne⟩
    have hzero := h.whirlpool ((eq_whirlpool_iff hfamily).mp hwhirlpool)
    rw [← hashLength_read] at hzero
    exact hne (hashLengthOf_eq_bits512_iff.mpr hzero)
  rw [← hashFunction_read] at hfamily
  rw [← reduction_read] at hreduction
  refine ⟨{
      entropy := codersOf (words.getD 0 0)
      samplePrecision := precision
      sampleBlinding := has (words.getD 0 0) sampleBlindingBit
      sampler := firstSet samplerBits (words.getD 0 0)
      hash := { family, length := hashLengthOf (hashLengthField.read (words.getD 0 0)) }
      reduction
      threading := _
      csprng := _
      sideChannel := _ }, ⟨h.reserved (by decide), rfl, hprecision, rfl, rfl, hfamily, rfl,
        hcompatible, hreduction, threadingOf_eq_ok_iff.mpr ⟨h.threading, rfl⟩⟩,
    csprngRequest_eq_ok_iff.mpr ⟨h.reserved (by decide), rfl⟩,
    sideChannel_eq_ok_iff.mpr ⟨h.reserved (by decide), rfl⟩⟩

/-- **A list is accepted** if and only if it is documented. -/
theorem exists_resolve_eq_ok_iff (words : List UInt32) :
    (∃ f, resolve words = .ok f) ↔ ∃ last, Documented words last := by
  constructor
  · rintro ⟨f, hf⟩
    obtain ⟨⟨last, hends⟩, hsays⟩ := resolve_eq_ok_iff.mp hf
    exact ⟨last, hsays.documented hends⟩
  · rintro ⟨last, h⟩
    obtain ⟨f, hf⟩ := h.exists_says
    exact ⟨f, resolve_eq_ok_iff.mpr ⟨⟨last, h.ends⟩, hf⟩⟩

/-! ## Words behind the chain -/

/-- Lists that agree up to the end of a chain have one chain. -/
theorem EndsAt.congr {as bs : List UInt32} {last : Nat} (h : EndsAt as last)
    (hlen : last < bs.length) (heq : ∀ k ≤ last, bs.getD k 0 = as.getD k 0) :
    EndsAt bs last where
  known := h.known
  supplied := Or.inl hlen
  announced k hk := by
    rw [heq k (Nat.le_of_lt hk)]
    exact h.announced k hk
  final := by
    rw [heq last (Nat.le_refl last)]
    exact h.final

theorem EndsAt.consulted_congr {as bs : List UInt32} {last : Nat} (ha : EndsAt as last)
    (hb : EndsAt bs last) (heq : ∀ k ≤ last, bs.getD k 0 = as.getD k 0) (index : Nat) :
    consulted bs index = consulted as index := by
  by_cases hle : index ≤ last
  · rw [hb.consulted_eq hle, ha.consulted_eq hle, heq index hle]
  · obtain ⟨n, rfl⟩ : ∃ n, index = last + 1 + n := ⟨index - (last + 1), by omega⟩
    rw [hb.consulted_behind n, ha.consulted_behind n]

/-- **Words behind the chain** are not looked at. -/
theorem resolve_take_append {words : List UInt32} {last : Nat} (h : EndsAt words last)
    (hlen : last < words.length) (others : List UInt32) :
    resolve (words.take (last + 1) ++ others) = resolve words := by
  have heq : ∀ k ≤ last, (words.take (last + 1) ++ others).getD k 0 = words.getD k 0 := by
    intro k hk
    have hk' : k < (words.take (last + 1)).length := by
      rw [List.length_take]
      omega
    rw [List.getD_eq_getElem?_getD, List.getElem?_append_left hk',
      List.getElem?_take_of_lt (Nat.lt_succ_of_le hk), ← List.getD_eq_getElem?_getD]
  have hends : EndsAt (words.take (last + 1) ++ others) last := by
    refine h.congr ?_ heq
    rw [List.length_append, List.length_take]
    omega
  have hchain : chained (words.take (last + 1) ++ others) = chained words := by
    simp only [chained, h.consulted_congr hends heq]
  rw [resolve, resolve, hends.chain_eq, h.chain_eq, hchain]

end LatticeSuite.Flags
