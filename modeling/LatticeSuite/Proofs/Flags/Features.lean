import LatticeSuite.Proofs.Flags.Resolve
import LatticeSuite.Scheme.Kyber

/-!
# What each field of the flag words decides

A `Feature` is a part of the configuration, with the word and the positions it is
decided at, and a configuration is its features (`Feature.ext`). Each of them is
read through masks that lie within its positions, so nothing else can matter to it
(`Says.value_eq`).

The digest is the one part that a scheme can choose as well. Where the words name
a family, they do the choosing (`hash_of_resolve`): the pairs of a family and a
length that are accepted all have a digest. The law is

> `flag_words_are_read_field_by_field`: a list is accepted if and only if it is
> `Documented`, two accepted lists that agree on the positions of a feature agree
> on the feature, words behind the chain change nothing, and a digest that the
> words name is the digest a backend gets.
-/

namespace LatticeSuite

/-- A family and a length that go together have a digest, and it is theirs. -/
theorem HashAlgorithm.exists_ofFamily? {family : HashFamily} {length : DigestLength}
    (hfamily : family ≠ .schemeDefault)
    (hlength : ¬(family = .whirlpool ∧ length ≠ .bits512)) :
    ∃ a, ofFamily? family length = some a ∧ a.family = family ∧ a.length = length := by
  cases family <;> cases length <;>
    first
    | exact absurd rfl hfamily
    | exact absurd ⟨rfl, by decide⟩ hlength
    | exact ⟨_, rfl, rfl, rfl⟩

namespace Flags

/-! ## Features -/

/-- The parts of a configuration that the words decide. -/
inductive Feature where
  | bac | bacRle | strongSwan | huffmanStatic
  | samplePrecision | sampleBlinding | sampler
  | hashFamily | hashLength | reduction
  | threadedKeygen | threadedEncryptSign | threadedDecryptVerify
  | csprng | csprngAlgorithm | entropySource
  | discard | cacheAccess | nonCtMask | shuffle | blinding

namespace Feature

/-- The word that decides a feature. -/
def word : Feature → Nat
  | csprng | csprngAlgorithm | entropySource => 1
  | discard | cacheAccess | nonCtMask | shuffle | blinding => 2
  | _ => 0

/-- The positions that decide a feature. -/
def positions : Feature → List Nat
  | bac => [0]
  | bacRle => [1]
  | strongSwan => [2]
  | huffmanStatic => [3]
  | samplePrecision => span 4 3
  | sampleBlinding => [8]
  | sampler => span 9 6
  | hashFamily => span 18 3
  | hashLength => span 16 2
  | reduction => span 21 3
  | threadedKeygen => [26]
  | threadedEncryptSign => [27]
  | threadedDecryptVerify => [28]
  | csprng => generatorPositions ++ span 24 4
  | csprngAlgorithm => generatorPositions
  | entropySource => span 24 4
  | discard => span 0 2
  | cacheAccess => [2]
  | nonCtMask => [3]
  | shuffle => [4]
  | blinding => [5]

/-- What a feature can be. -/
def Value : Feature → Type
  | samplePrecision => SamplePrecision
  | sampler => Option GaussianSampler
  | hashFamily => HashFamily
  | hashLength => DigestLength
  | reduction => Option ReductionStrategy
  | csprng => CsprngRequest
  | csprngAlgorithm => CsprngAlgorithm
  | entropySource => EntropySource
  | discard => DiscardRate
  | _ => Bool

/-- A feature of a configuration. -/
def value : (x : Feature) → FeatureConfig → x.Value
  | bac, f => f.entropy.bac
  | bacRle, f => f.entropy.bacRle
  | strongSwan, f => f.entropy.strongSwan
  | huffmanStatic, f => f.entropy.huffmanStatic
  | samplePrecision, f => f.samplePrecision
  | sampleBlinding, f => f.sampleBlinding
  | sampler, f => f.sampler
  | hashFamily, f => f.hash.family
  | hashLength, f => f.hash.length
  | reduction, f => f.reduction
  | threadedKeygen, f => f.threading.keygen
  | threadedEncryptSign, f => f.threading.encryptSign
  | threadedDecryptVerify, f => f.threading.decryptVerify
  | csprng, f => f.csprng
  | csprngAlgorithm, f => f.csprng.algorithm
  | entropySource, f => f.csprng.source
  | discard, f => f.sideChannel.discard
  | cacheAccess, f => f.sideChannel.cacheAccess
  | nonCtMask, f => f.sideChannel.nonCtMask
  | shuffle, f => f.sideChannel.shuffle
  | blinding, f => f.sideChannel.blinding

/-- Nothing of a configuration is left out. -/
theorem ext {f g : FeatureConfig} (h : ∀ x : Feature, x.value f = x.value g) : f = g := by
  obtain ⟨⟨_, _, _, _⟩, _, _, _, ⟨_, _⟩, _, ⟨_, _, _⟩, _, ⟨_, _, _, _, _⟩⟩ := f
  obtain ⟨⟨_, _, _, _⟩, _, _, _, ⟨_, _⟩, _, ⟨_, _, _⟩, _, ⟨_, _, _, _, _⟩⟩ := g
  simp only [FeatureConfig.mk.injEq, EntropyCoders.mk.injEq, HashSelection.mk.injEq,
    ThreadingFlags.mk.injEq, SideChannelConfig.mk.injEq]
  exact ⟨⟨h bac, h bacRle, h strongSwan, h huffmanStatic⟩, h samplePrecision, h sampleBlinding,
    h sampler, ⟨h hashFamily, h hashLength⟩, h reduction,
    ⟨h threadedKeygen, h threadedEncryptSign, h threadedDecryptVerify⟩, h csprng,
    h discard, h cacheAccess, h nonCtMask, h shuffle, h blinding⟩

end Feature

/-- **A feature is decided by its own positions.** -/
theorem Says.value_eq {as bs : List UInt32} {f g : FeatureConfig} (hf : Says (chained as) f)
    (hg : Says (chained bs) g) (x : Feature)
    (h : AgreeOn x.positions (consulted as x.word) (consulted bs x.word)) :
    x.value f = x.value g := by
  have hv := hf.word0
  have hw := hg.word0
  obtain ⟨-, hcv⟩ := csprngRequest_eq_ok_iff.mp hf.csprng
  obtain ⟨-, hcw⟩ := csprngRequest_eq_ok_iff.mp hg.csprng
  obtain ⟨-, hsv⟩ := sideChannel_eq_ok_iff.mp hf.sideChannel
  obtain ⟨-, hsw⟩ := sideChannel_eq_ok_iff.mp hg.sideChannel
  have htv := (threadingOf_eq_ok_iff.mp hv.threading).2
  have htw := (threadingOf_eq_ok_iff.mp hw.threading).2
  cases x with
  | bac | bacRle | strongSwan | huffmanStatic =>
    dsimp only [Feature.value]
    rw [hv.entropy, hw.entropy]
    exact h.has_eq (by decide)
  | samplePrecision =>
    exact eq_of_code_eq hv.samplePrecision hw.samplePrecision (h.read_eq (by decide))
  | sampleBlinding =>
    dsimp only [Feature.value]
    rw [hv.sampleBlinding, hw.sampleBlinding]
    exact h.has_eq (by decide)
  | sampler =>
    dsimp only [Feature.value]
    rw [hv.sampler, hw.sampler]
    exact h.firstSet_eq (by decide)
  | hashFamily => exact eq_of_code_eq hv.family hw.family (h.read_eq (by decide))
  | hashLength =>
    dsimp only [Feature.value]
    rw [hv.length, hw.length]
    exact congrArg hashLengthOf (h.read_eq (by decide))
  | reduction => exact eq_of_code_eq hv.reduction hw.reduction (h.read_eq (by decide))
  | threadedKeygen | threadedEncryptSign | threadedDecryptVerify =>
    dsimp only [Feature.value]
    rw [htv, htw]
    exact h.has_eq (by decide)
  | csprng =>
    have hgenerator : firstSet generatorBits (chained as).word1 =
        firstSet generatorBits (chained bs).word1 := h.firstSet_eq (by decide)
    have hsource : firstSet sourceBits (chained as).word1 =
        firstSet sourceBits (chained bs).word1 := h.firstSet_eq (by decide)
    dsimp only [Feature.value]
    rw [hcv, hcw, hgenerator, hsource]
  | csprngAlgorithm =>
    have hgenerator : firstSet generatorBits (chained as).word1 =
        firstSet generatorBits (chained bs).word1 := h.firstSet_eq (by decide)
    dsimp only [Feature.value]
    rw [hcv, hcw, hgenerator]
  | entropySource =>
    have hsource : firstSet sourceBits (chained as).word1 =
        firstSet sourceBits (chained bs).word1 := h.firstSet_eq (by decide)
    dsimp only [Feature.value]
    rw [hcv, hcw, hsource]
  | discard =>
    dsimp only [Feature.value]
    rw [hsv, hsw]
    exact congrArg discardOf (h.read_eq (by decide))
  | cacheAccess | nonCtMask | shuffle | blinding =>
    dsimp only [Feature.value]
    rw [hsv, hsw]
    exact h.has_eq (by decide)

/-! ## Digests -/

/-- **A digest that is named** is the digest of the backend, whatever the scheme
would have chosen. -/
theorem hash_of_resolve {words : List UInt32} {f : FeatureConfig} (h : resolve words = .ok f)
    (hcode : code (consulted words 0) 18 3 ≠ 0) (d : SchemeDescriptor) (paramSet : UInt32) :
    HashFamily.all[code (consulted words 0) 18 3]? =
        some (SchemeConfig.ofFeatures f d paramSet).hash.family ∧
      DigestLength.all[code (consulted words 0) 16 2]? =
        some (SchemeConfig.ofFeatures f d paramSet).hash.length := by
  obtain ⟨-, hsays⟩ := resolve_eq_ok_iff.mp h
  have hword := hsays.word0
  have hfamily : hashFamilyOf (code (consulted words 0) 18 3) = .ok f.hash.family := by
    rw [← hashFunction_read]
    exact hword.family
  have hlength : f.hash.length = hashLengthOf (code (consulted words 0) 16 2) := by
    rw [← hashLength_read]
    exact hword.length
  have hzero : hashFamilyOf 0 = .ok .schemeDefault := rfl
  have hnamed : f.hash.family ≠ .schemeDefault := fun hdefault =>
    hcode ((family_eq_iff hfamily hzero).mp hdefault)
  obtain ⟨a, ha, hafamily, halength⟩ :=
    HashAlgorithm.exists_ofFamily? hnamed hword.compatible
  have hhash : (SchemeConfig.ofFeatures f d paramSet).hash = a := by
    show (HashAlgorithm.ofFamily? f.hash.family f.hash.length).getD d.defaultHash = a
    rw [ha, Option.getD_some]
  rw [hhash, hafamily, halength, hlength]
  exact ⟨hashFamilyOf_eq_ok_iff.mp hfamily, getElem?_lengths (Nat.mod_lt _ (by decide))⟩

/-- **Flag words are read field by field.** Accepted are the documented lists, a
feature is decided at its own positions and a configuration is its features,
words behind the chain are not looked at, and a digest that is named is the one
that a backend gets. -/
theorem flag_words_are_read_field_by_field :
    (∀ words, (∃ f, resolve words = .ok f) ↔ ∃ last, Documented words last) ∧
      (∀ f g : FeatureConfig, (∀ x : Feature, x.value f = x.value g) → f = g) ∧
      (∀ as bs f g, resolve as = .ok f → resolve bs = .ok g → ∀ x : Feature,
        AgreeOn x.positions (consulted as x.word) (consulted bs x.word) →
          x.value f = x.value g) ∧
      (∀ words last others, EndsAt words last → last < words.length →
        resolve (words.take (last + 1) ++ others) = resolve words) ∧
      ∀ words f d paramSet, resolve words = .ok f → code (consulted words 0) 18 3 ≠ 0 →
        HashFamily.all[code (consulted words 0) 18 3]? =
            some (SchemeConfig.ofFeatures f d paramSet).hash.family ∧
          DigestLength.all[code (consulted words 0) 16 2]? =
            some (SchemeConfig.ofFeatures f d paramSet).hash.length := by
  refine ⟨exists_resolve_eq_ok_iff, fun f g => Feature.ext, ?_, ?_, ?_⟩
  · intro as bs f g hf hg x hagree
    exact (resolve_eq_ok_iff.mp hf).2.value_eq (resolve_eq_ok_iff.mp hg).2 x hagree
  · intro words last others hends hlen
    exact resolve_take_append hends hlen others
  · intro words f d paramSet hf hcode
    exact hash_of_resolve hf hcode d paramSet

/-- The law on words that name SHA3-256 and a generator. Other words with the same length
of digests name no family, and behind both there may be anything. -/
theorem flag_words_are_read_field_by_field_of_a_named_digest :
    ∃ f g,
      resolve [0x800e0000, 0x2, 0x77] = .ok f ∧ resolve [0x80020001, 0x2] = .ok g ∧
      (∃ last, Documented [0x800e0000, 0x2, 0x77] last) ∧
      Feature.hashLength.value f = Feature.hashLength.value g ∧
      resolve [0x800e0000, 0x2, 0xffffffff] = .ok f ∧
      (SchemeConfig.ofFeatures f Kyber.descriptor 0).hash.family = .sha3 ∧
      (SchemeConfig.ofFeatures f Kyber.descriptor 0).hash.length = .bits256 := by
  obtain ⟨haccepted, -, hfeature, hbehind, hhash⟩ := flag_words_are_read_field_by_field
  let f : FeatureConfig :=
    { hash := { family := .sha3, length := .bits256 }, csprng := { algorithm := .chaCha20 } }
  let g : FeatureConfig :=
    { entropy := { bac := true }, hash := { length := .bits256 }
      csprng := { algorithm := .chaCha20 } }
  have hf : resolve [0x800e0000, 0x2, 0x77] = .ok f := by decide
  have hg : resolve [0x80020001, 0x2] = .ok g := by decide
  have hends : EndsAt [0x800e0000, 0x2, 0x77] 1 :=
    ⟨by decide, Or.inl (by decide), by decide, by decide⟩
  have hothers := hbehind _ 1 [0xffffffff] hends (by decide)
  obtain ⟨hfamily, hlength⟩ := hhash _ f Kyber.descriptor 0 hf (by decide)
  exact ⟨f, g, hf, hg, (haccepted _).mp ⟨f, hf⟩, hfeature _ _ f g hf hg .hashLength (by decide),
    hothers.trans hf, (Option.some.inj hfamily).symm, (Option.some.inj hlength).symm⟩

end Flags

end LatticeSuite
