import LatticeSuite.Proofs.Cipher.Keystream
import LatticeSuite.Proofs.Random.Counter
import LatticeSuite.Proofs.Random.History
import LatticeSuite.Proofs.Random.Output

/-!
# Hash_DRBG counts modulo a power of 256

The state of a Hash_DRBG is two byte strings, and all that it does with them is to
increment one and to add to it. SP 800-90A says the same of two numbers:

- a request gives the digests of `V`, `V + 1`, `V + 2` and so on (`hashFrom_eq`);
- behind it `V` has become `V + H(3 ‖ V) + C` and the number of the request
  (`ofBE_v_step`);
- a seeding derives `V` from what it is given and `C` from `V`, and both are the front of a
  row of digests (`derive_eq`).

Every sum is modulo `256 ^ seedLength`, since neither string ever changes its length
(`Sized`), and the addends are shorter or as long. `Conforms` collects what it comes to, and
it holds of every state that seedings and requests lead to.

What a request leaves behind does not depend on its size. So two instances that are
seeded alike stay alike, however much is asked of either (`serveAll_alike`).
-/

namespace LatticeSuite

namespace HashDrbg

open Generator (Request requestsFrom)

/-! ## The two numbers -/

theorem length_derive (a : HashAlgorithm) (input : Bytes) (n : Nat) :
    (derive a input n).length = n := by
  have hdigest : ∀ i, (a.digest (UInt8.ofNat (i + 1) :: Bytes.toBE 4 (8 * n) ++ input)).length =
      a.outputSize := fun i => a.length_digest _
  have hfit := le_ceilDiv_mul n a.outputSize_pos
  rw [Nat.mul_comm] at hfit
  rw [derive, List.length_take, Bytes.length_flatMap hdigest, List.length_range]
  exact Nat.min_eq_left hfit

/-- The row of digests that a number is derived from: digest `i` is that of `i`, of the
length in bits and of the input. -/
def derivation (a : HashAlgorithm) (n : Nat) (input : Bytes) (count : Nat) : Bytes :=
  (List.range count).flatMap fun i =>
    a.digest (UInt8.ofNat (i + 1) :: Bytes.toBE 4 (8 * n) ++ input)

/-- **What is derived is the front of the row**, however many digests of it are laid out. -/
theorem derive_eq (a : HashAlgorithm) (input : Bytes) {n count : Nat}
    (hcount : n ≤ count * a.outputSize) :
    derive a input n = (derivation a n input count).take n := by
  have hdigest : ∀ i, (a.digest (UInt8.ofNat (i + 1) :: Bytes.toBE 4 (8 * n) ++ input)).length =
      a.outputSize := fun i => a.length_digest _
  exact Keystream.take_blocks hdigest (le_ceilDiv_mul n a.outputSize_pos) hcount

/-- Both numbers are derived from an input, and no request was made since. -/
structure DerivedFrom (d : HashDrbg) (input : Bytes) : Prop where
  v : ∀ count, seedLength d.algorithm ≤ count * d.algorithm.outputSize →
    d.v = (derivation d.algorithm (seedLength d.algorithm) input count).take
      (seedLength d.algorithm)
  c : ∀ count, seedLength d.algorithm ≤ count * d.algorithm.outputSize →
    d.c = (derivation d.algorithm (seedLength d.algorithm) (0 :: d.v) count).take
      (seedLength d.algorithm)
  reseedCounter : d.reseedCounter = 1

theorem derivedFrom_ofInput (a : HashAlgorithm) (input : Bytes) :
    (ofInput a input).DerivedFrom input where
  v _ := derive_eq a input
  c _ := derive_eq a _
  reseedCounter := rfl

/-- Both numbers have the length of a seed. -/
structure Sized (d : HashDrbg) : Prop where
  v : d.v.length = seedLength d.algorithm
  c : d.c.length = seedLength d.algorithm

theorem sized_ofInput (a : HashAlgorithm) (input : Bytes) : (ofInput a input).Sized where
  v := length_derive a input _
  c := length_derive a _ _

theorem Sized.step {d : HashDrbg} (h : d.Sized) : d.step.Sized where
  v := by
    show (((d.v.addInto _).addInto d.c).addInto _).length = _
    rw [Bytes.length_addInto, Bytes.length_addInto, Bytes.length_addInto]
    exact h.v
  c := h.c

theorem hashFrom_eq (a : HashAlgorithm) (count : Nat) (value : Bytes) (acc : List UInt8) :
    hashFrom a count value acc = acc.reverse ++
      (List.range count).flatMap fun i =>
        a.digest (Bytes.toBE value.length (Bytes.ofBE value + i)) := by
  induction count generalizing value acc with
  | zero => exact (List.append_nil _).symm
  | succ count ih =>
    rw [hashFrom, ih, Bytes.length_increment, List.reverseAux_eq, List.reverse_append,
      List.reverse_reverse, List.range_succ_eq_map, List.flatMap_cons, List.flatMap_map,
      Nat.add_zero, Bytes.toBE_ofBE, List.append_assoc]
    simp only [Bytes.toBE_increment_add]

/-- **A request gives the first bytes of the digests of successive values**, however many
of them are laid out. -/
theorem generate_eq (d : HashDrbg) {n count : Nat} (hcount : n ≤ count * d.algorithm.outputSize) :
    (d.generate n).1 =
      ((List.range count).flatMap fun i =>
        d.algorithm.digest (Bytes.toBE d.v.length
          ((Bytes.ofBE d.v + i) % 256 ^ d.v.length))).take n := by
  have hdigest : ∀ i, (d.algorithm.digest (Bytes.toBE d.v.length (Bytes.ofBE d.v + i))).length =
      d.algorithm.outputSize := fun i => d.algorithm.length_digest _
  unfold generate
  dsimp only
  rw [hashFrom_eq, List.reverse_nil, List.nil_append]
  simp only [Bytes.toBE_mod]
  exact Keystream.take_blocks hdigest (le_ceilDiv_mul n d.algorithm.outputSize_pos) hcount

/-- **Behind a request the counter is a sum.** The number of the request is added as a
word of 64 bits. -/
theorem ofBE_v_step (d : HashDrbg) :
    Bytes.ofBE d.step.v =
      (Bytes.ofBE d.v + Bytes.ofBE (d.algorithm.digest (3 :: d.v)) + Bytes.ofBE d.c +
        d.reseedCounter % 2 ^ 64) % 256 ^ d.v.length := by
  show Bytes.ofBE (((d.v.addInto _).addInto d.c).addInto (Bytes.toBE 8 d.reseedCounter)) = _
  simp only [Bytes.ofBE_addInto, Bytes.length_addInto, Bytes.ofBE_toBE, Nat.mod_add_mod]

/-- **What SP 800-90A says of an instance**, with `V` and `C` as numbers. -/
structure Conforms (d : HashDrbg) : Prop where
  length_v : d.v.length = if d.algorithm.outputSize ≤ 32 then 55 else 111
  length_c : d.c.length = if d.algorithm.outputSize ≤ 32 then 55 else 111
  length_output : ∀ n, (d.generate n).1.length = n
  output : ∀ n count, n ≤ count * d.algorithm.outputSize →
    (d.generate n).1 =
      ((List.range count).flatMap fun i =>
        d.algorithm.digest (Bytes.toBE d.v.length
          ((Bytes.ofBE d.v + i) % 256 ^ d.v.length))).take n
  next_v : ∀ n, Bytes.ofBE (d.generate n).2.v =
    (Bytes.ofBE d.v + Bytes.ofBE (d.algorithm.digest (3 :: d.v)) + Bytes.ofBE d.c +
      d.reseedCounter % 2 ^ 64) % 256 ^ d.v.length
  /-- The rest of the state stays as it is, but for the number of the request. -/
  next : ∀ n, (d.generate n).2 =
    { d with v := (d.generate n).2.v, reseedCounter := d.reseedCounter + 1 }
  /-- A seeding derives both numbers anew, from `V` and the entropy. -/
  reseeded : ∀ entropy, (d.reseed entropy).algorithm = d.algorithm ∧
    (d.reseed entropy).DerivedFrom (1 :: d.v ++ entropy)

theorem Sized.conforms {d : HashDrbg} (h : d.Sized) : d.Conforms where
  length_v := h.v
  length_c := h.c
  length_output := d.length_generate
  output _ _ := d.generate_eq
  next_v _ := d.ofBE_v_step
  next _ := rfl
  reseeded _ := ⟨rfl, derivedFrom_ofInput _ _⟩

/-! ## Histories -/

/-- Whatever an instance is asked for, it stays one over its digest. -/
theorem exists_sized_serveAll {d : HashDrbg} (h : d.Sized) (history : List Request) :
    ∃ t : HashDrbg, ((Generator.hashDrbg d).serveAll history).2 = .hashDrbg t ∧
      t.algorithm = d.algorithm ∧ t.Sized := by
  refine Generator.serveAll_invariant
    (I := fun g => ∃ t, g = .hashDrbg t ∧ t.algorithm = d.algorithm ∧ t.Sized) ?_ ?_
    ⟨d, rfl, rfl, h⟩ history
  · rintro g n ⟨t, rfl, halgorithm, ht⟩
    exact ⟨t.step, rfl, halgorithm, ht.step⟩
  · rintro g entropy ⟨t, rfl, halgorithm, ht⟩
    exact ⟨t.reseed entropy, rfl, halgorithm, sized_ofInput _ _⟩

/-! ## Two instances -/

/-- The same seedings, and requests of any size. -/
inductive Alike : Request → Request → Prop
  | reseed (entropy : Bytes) : Alike (.reseed entropy) (.reseed entropy)
  | generate (m n : Nat) : Alike (.generate m) (.generate n)

/-- The same bytes as far as there are any in both. -/
def Agree (out out' : Bytes) : Prop :=
  out.take out'.length = out'.take out.length

theorem agree_generate (d : HashDrbg) (m n : Nat) : Agree (d.generate m).1 (d.generate n).1 := by
  -- digests enough for both
  have hcount : m + n ≤ (m + n) * d.algorithm.outputSize :=
    Nat.le_mul_of_pos_right _ d.algorithm.outputSize_pos
  have hm : m ≤ (m + n) * d.algorithm.outputSize := by omega
  have hn : n ≤ (m + n) * d.algorithm.outputSize := by omega
  rw [Agree, d.length_generate, d.length_generate, d.generate_eq hm, d.generate_eq hn,
    List.take_take, List.take_take, Nat.min_comm]

theorem serve_alike (d : HashDrbg) {r r' : Request} (halike : Alike r r') :
    ∃ t, ((Generator.hashDrbg d).serve r).2 = .hashDrbg t ∧
      ((Generator.hashDrbg d).serve r').2 = .hashDrbg t ∧
      Agree ((Generator.hashDrbg d).serve r).1 ((Generator.hashDrbg d).serve r').1 := by
  cases halike with
  | reseed entropy => exact ⟨d.reseed entropy, rfl, rfl, rfl⟩
  | generate m n => exact ⟨d.step, rfl, rfl, d.agree_generate m n⟩

theorem serveAll_alike (d : HashDrbg) {rs rs' : List Request} (halike : List.Forall₂ Alike rs rs') :
    ((Generator.hashDrbg d).serveAll rs).2 = ((Generator.hashDrbg d).serveAll rs').2 ∧
      List.Forall₂ Agree ((Generator.hashDrbg d).serveAll rs).1
        ((Generator.hashDrbg d).serveAll rs').1 := by
  induction halike generalizing d with
  | nil => exact ⟨rfl, .nil⟩
  | @cons r r' rs rs' hfirst _ ih =>
    obtain ⟨t, hstate, hstate', hagree⟩ := d.serve_alike hfirst
    obtain ⟨hstates, hagrees⟩ := ih t
    rw [Generator.serveAll, Generator.serveAll, hstate, hstate']
    exact ⟨hstates, .cons hagree hagrees⟩

/-- **After every history the instance is the one of SP 800-90A**, whichever digest it
uses. What it is depends on the seedings and on how many requests there were, and the
answers to requests of other sizes go on or break off, but do not differ. -/
theorem conforms_after_every_history (a : HashAlgorithm) (entropy : Bytes)
    (history : List Request) :
    let g := Generator.hashDrbg (new a entropy)
    (new a entropy).DerivedFrom (entropy ++ Seed.personalization) ∧
      ∃ d : HashDrbg, (g.serveAll history).2 = .hashDrbg d ∧ d.algorithm = a ∧ d.Conforms ∧
        d.reseedCounter = 1 + requestsFrom 0 history ∧
        (history.length < 2 ^ 64 - 1 → d.reseedCounter % 2 ^ 64 = d.reseedCounter) ∧
        (∀ m n, (d.generate m).2 = (d.generate n).2) ∧
        ∀ history', List.Forall₂ Alike history history' →
          (g.serveAll history').2 = .hashDrbg d ∧
            List.Forall₂ Agree (g.serveAll history).1 (g.serveAll history').1 := by
  intro g
  obtain ⟨d, hd, halgorithm, hsized⟩ :=
    exists_sized_serveAll (sized_ofInput a (entropy ++ Seed.personalization)) history
  have hcount : g.reseedCounter? = some (1 + 0) := rfl
  have hcounter := Generator.reseedCounter?_serveAll hcount history
  rw [show (g.serveAll history).2 = .hashDrbg d from hd] at hcounter
  have hcounter : d.reseedCounter = 1 + requestsFrom 0 history := Option.some.inj hcounter
  refine ⟨derivedFrom_ofInput _ _, d, hd, halgorithm, hsized.conforms, hcounter,
    fun hshort => ?_, fun m n => rfl, fun history' halike => ?_⟩
  · have hfew := Generator.requestsFrom_le 0 history
    exact Nat.mod_eq_of_lt (by omega)
  · obtain ⟨hstate, hagree⟩ := (new a entropy).serveAll_alike halike
    exact ⟨hstate.symm.trans hd, hagree⟩

/-- Two instances over SHA2-256 that are seeded again between two requests. -/
theorem conforms_after_every_history_of_two_instances :
    let g := Generator.hashDrbg (new .sha2_256 [1, 2])
    let one := g.serveAll [.generate 3, .reseed [5], .generate 40]
    let other := g.serveAll [.generate 100, .reseed [5], .generate 0]
    ∃ d : HashDrbg, one.2 = .hashDrbg d ∧ d.Conforms ∧ d.reseedCounter = 2 ∧
      d.reseedCounter % 2 ^ 64 = d.reseedCounter ∧
      other.2 = .hashDrbg d ∧ List.Forall₂ Agree one.1 other.1 := by
  intro g one other
  obtain ⟨-, d, hd, -, hconforms, hcounter, hword, -, halike⟩ :=
    conforms_after_every_history .sha2_256 [1, 2] [.generate 3, .reseed [5], .generate 40]
  obtain ⟨hother, hagree⟩ := halike [.generate 100, .reseed [5], .generate 0]
    (.cons (.generate 3 100) (.cons (.reseed [5]) (.cons (.generate 40 0) .nil)))
  exact ⟨d, hd, hconforms, hcounter, hword (by decide), hother, hagree⟩

end HashDrbg

end LatticeSuite
