import LatticeSuite.Proofs.Cipher.Keystream
import LatticeSuite.Proofs.Random.Counter
import LatticeSuite.Proofs.Random.History
import LatticeSuite.Proofs.Random.Output
import Mathlib.Data.List.Nodup

/-!
# CTR_DRBG counts modulo 2 ^ 128

A CTR_DRBG encrypts its counter, block after block, and increments sixteen bytes to do so.
SP 800-90A says the same of a number `V` and of the cipher `E` under the current key:

- a request gives the first bytes of `E (V + 1) ‖ E (V + 2) ‖ …`;
- the three blocks behind them are the next key and the next `V`;
- a seeding takes three blocks as well, the first ones, and adds the digest of what it is
  given.

So output and next state come from one run of counter values (`blocks_eq`), and the state
takes it up where the output has left it (`value_of_counter`). `Conforms` collects what it
comes to, and it holds of every state whose key and counter have their lengths
(`Sized.conforms`), those included whose counter is about to start from zero again.

The values of a run are different as long as it is not longer than all of them
(`nodup_values`), and no request that can be counted in 64 bits makes it so long.
-/

namespace LatticeSuite

theorem Bytes.xor_replicate_zero {bs : Bytes} {n : Nat} (h : bs.length = n) :
    Bytes.xor bs (List.replicate n 0) = bs := by
  subst h
  refine List.ext_getElem ?_ ?_
  · rw [Bytes.xor, List.length_zipWith, List.length_replicate, Nat.min_self]
  · intro i _ _
    simp only [Bytes.xor, List.getElem_zipWith, List.getElem_replicate, UInt8.xor_zero]

namespace CtrDrbg

open Generator (Request requestsFrom)

/-! ## The values of the counter -/

/-- The value `i` further on, as it is written. -/
def value (d : CtrDrbg) (i : Nat) : Bytes :=
  Bytes.toBE 16 ((Bytes.ofBE d.counter + i) % 2 ^ 128)

/-- What that value is encrypted to under the current key. -/
def block (d : CtrDrbg) (i : Nat) : Bytes :=
  Aes256.encrypt (Aes256.expandKey d.key) (d.value i)

/-- The three blocks behind `used` others, which are as long as key and counter together. -/
def fresh (d : CtrDrbg) (used : Nat) : Bytes :=
  d.block (used + 1) ++ d.block (used + 2) ++ d.block (used + 3)

theorem value_eq (d : CtrDrbg) (i : Nat) :
    d.value i = Bytes.toBE 16 (Bytes.ofBE d.counter + i) :=
  Bytes.toBE_mod 16 _

theorem length_block (d : CtrDrbg) (i : Nat) : (d.block i).length = 16 :=
  Aes256.length_encrypt _ _

theorem length_fresh (d : CtrDrbg) (used : Nat) : (d.fresh used).length = 48 := by
  rw [fresh, List.length_append, List.length_append, length_block, length_block, length_block]

theorem value_inj (d : CtrDrbg) {i j : Nat} (hi : i < 2 ^ 128) (hj : j < 2 ^ 128)
    (h : d.value i = d.value j) : i = j := by
  have hnumber := congrArg Bytes.ofBE h
  rw [value, value, Bytes.ofBE_toBE_of_lt (Nat.mod_lt _ (by decide)),
    Bytes.ofBE_toBE_of_lt (Nat.mod_lt _ (by decide))] at hnumber
  omega

/-- **No value comes twice** in a run that is not longer than all of them. -/
theorem nodup_values (d : CtrDrbg) {count : Nat} (h : count < 2 ^ 128) :
    ((List.range count).map fun i => d.value (i + 1)).Nodup := by
  refine List.Nodup.map_on ?_ List.nodup_range
  intro i hi j hj heq
  have hi' := List.mem_range.mp hi
  have hj' := List.mem_range.mp hj
  exact Nat.succ.inj (d.value_inj (by omega) (by omega) heq)

/-- A state that goes on from a later value. -/
theorem value_of_counter (d : CtrDrbg) (used i : Nat) :
    ({ d with counter := d.value used } : CtrDrbg).value i = d.value (used + i) := by
  have hread : Bytes.ofBE (d.value used) = (Bytes.ofBE d.counter + used) % 2 ^ 128 :=
    Bytes.ofBE_toBE_of_lt (Nat.mod_lt _ (by decide))
  show Bytes.toBE 16 ((Bytes.ofBE (d.value used) + i) % 2 ^ 128) = _
  rw [hread, Nat.mod_add_mod, Nat.add_assoc]
  rfl

theorem fresh_of_counter (d : CtrDrbg) (used : Nat) :
    ({ d with counter := d.value used } : CtrDrbg).fresh 0 = d.fresh used := by
  have hblock : ∀ i, ({ d with counter := d.value used } : CtrDrbg).block i =
      d.block (used + i) := by
    intro i
    rw [block, value_of_counter]
    rfl
  rw [fresh, hblock, hblock, hblock]
  rfl

/-! ## One run of blocks -/

theorem blocksFrom_eq (keys : Aes256.RoundKeys) (count : Nat) (counter : Bytes)
    (acc : List UInt8) :
    blocksFrom keys count counter acc =
      (acc.reverse ++ (List.range count).flatMap fun i =>
          Aes256.encrypt keys (Bytes.toBE counter.length (Bytes.ofBE counter + (i + 1))),
        Bytes.toBE counter.length (Bytes.ofBE counter + count)) := by
  induction count generalizing counter acc with
  | zero => rw [Nat.add_zero, Bytes.toBE_ofBE, List.range_zero, List.flatMap_nil,
      List.append_nil, blocksFrom]
  | succ count ih =>
    show blocksFrom keys count counter.increment _ = _
    rw [ih, Bytes.length_increment, List.reverseAux_eq, List.reverse_append,
      List.reverse_reverse, List.append_assoc, List.range_succ_eq_map, List.flatMap_cons,
      List.flatMap_map, Nat.zero_add, ← Bytes.increment_eq, Bytes.toBE_increment_add]
    simp only [Bytes.toBE_increment_add]

/-- Encryption goes through the values one by one and stops at the last. -/
theorem blocks_eq {d : CtrDrbg} (h : d.counter.length = 16) (count : Nat) :
    d.blocks count =
      ((List.range count).flatMap fun i => d.block (i + 1), d.value count) := by
  rw [blocks, blocksFrom_eq, h, List.reverse_nil, List.nil_append]
  simp only [block, value_eq]

theorem blocks_three {d : CtrDrbg} (h : d.counter.length = 16) : (d.blocks 3).1 = d.fresh 0 := by
  rw [blocks_eq h, fresh, List.append_assoc]
  show d.block 1 ++ (d.block 2 ++ (d.block 3 ++ [])) = _
  rw [List.append_nil]

/-! ## States and requests -/

/-- Key and counter have their lengths. -/
structure Sized (d : CtrDrbg) : Prop where
  key : d.key.length = 32
  counter : d.counter.length = 16

/-- The state whose key and counter are the two parts of 48 bytes. -/
def ofParts (bs : Bytes) (reseedCounter : Nat) : CtrDrbg :=
  { key := bs.take 32, counter := bs.drop 32, reseedCounter }

theorem sized_ofParts {bs : Bytes} (h : bs.length = 48) (reseedCounter : Nat) :
    (ofParts bs reseedCounter).Sized where
  key := by
    rw [ofParts, List.length_take, h]
    rfl
  counter := by
    rw [ofParts, List.length_drop, h]

/-- The state that a first seeding starts from. -/
def zeros : CtrDrbg :=
  { key := List.replicate 32 0, counter := List.replicate 16 0, reseedCounter := 1 }

theorem sized_zeros : zeros.Sized := ⟨List.length_replicate, List.length_replicate⟩

theorem update_eq {d : CtrDrbg} (h : d.counter.length = 16) (provided : Bytes) :
    d.update provided = ofParts (Bytes.xor (d.fresh 0) provided) d.reseedCounter := by
  unfold update
  rw [blocks_three h]
  rfl

/-- The seed material added to three blocks. -/
def seeded (d : CtrDrbg) (entropy : Bytes) : Bytes :=
  Bytes.xor (d.fresh 0) (Sha2.sha384 (entropy ++ Seed.personalization))

theorem length_seeded (d : CtrDrbg) (entropy : Bytes) : (d.seeded entropy).length = 48 := by
  have hdigest : (Sha2.sha384 (entropy ++ Seed.personalization)).length = 48 :=
    HashAlgorithm.length_digest .sha2_384 _
  rw [seeded, Bytes.xor, List.length_zipWith, length_fresh, hdigest, Nat.min_self]

/-- **A seeding adds a digest to the first three blocks.** -/
theorem reseed_eq {d : CtrDrbg} (h : d.counter.length = 16) (entropy : Bytes) :
    d.reseed entropy = ofParts (d.seeded entropy) 1 := by
  rw [reseed, update_eq h]
  rfl

theorem new_eq (entropy : Bytes) : new entropy = ofParts (zeros.seeded entropy) 1 :=
  update_eq sized_zeros.counter _

/-- **The blocks behind the output are the next state.** -/
theorem generate_eq {d : CtrDrbg} (h : d.counter.length = 16) (n : Nat) :
    d.generate n =
      (((List.range ((n + 15) / 16)).flatMap fun i => d.block (i + 1)).take n,
        ofParts (d.fresh ((n + 15) / 16)) (d.reseedCounter + 1)) := by
  have hlater : ({ d with counter := d.value ((n + 15) / 16) } : CtrDrbg).counter.length = 16 :=
    Bytes.length_toBE _ _
  unfold generate
  rw [blocks_eq h]
  dsimp only
  rw [update_eq hlater, fresh_of_counter, Bytes.xor_replicate_zero (length_fresh _ _)]
  rfl

/-- **A request gives the first bytes of the run**, however many blocks of it are laid out. -/
theorem output_eq {d : CtrDrbg} (h : d.counter.length = 16) {n count : Nat}
    (hcount : n ≤ count * 16) :
    (d.generate n).1 = ((List.range count).flatMap fun i => d.block (i + 1)).take n := by
  have hfit := le_ceilDiv_mul n (Nat.succ_pos 15)
  rw [generate_eq h]
  exact Keystream.take_blocks (fun i => d.length_block (i + 1)) hfit hcount

theorem take_generate {d : CtrDrbg} (h : d.counter.length = 16) {m n : Nat} (hle : m ≤ n) :
    (d.generate n).1.take m = (d.generate m).1 := by
  have hn : n ≤ n * 16 := Nat.le_mul_of_pos_right n (by decide)
  rw [output_eq h hn, output_eq h (Nat.le_trans hle hn), List.take_take, Nat.min_eq_left hle]

/-- **What SP 800-90A says of an instance**, with `V` as a number. -/
structure Conforms (d : CtrDrbg) : Prop where
  length_key : d.key.length = 32
  length_counter : d.counter.length = 16
  length_output : ∀ n, (d.generate n).1.length = n
  output : ∀ n count, n ≤ count * 16 →
    (d.generate n).1 = ((List.range count).flatMap fun i => d.block (i + 1)).take n
  /-- The three blocks behind those of the output are the next key and `V`. -/
  next : ∀ n, (d.generate n).2 = ofParts (d.fresh ((n + 15) / 16)) (d.reseedCounter + 1)
  reseeded : ∀ entropy, d.reseed entropy = ofParts (d.seeded entropy) 1
  /-- The values of the output and of the next state are all different. -/
  distinct : ∀ n < 2 ^ 64,
    ((List.range ((n + 15) / 16 + 3)).map fun i => d.value (i + 1)).Nodup
  /-- Who asks for less gets the front of it. -/
  agree : ∀ m n, m ≤ n → (d.generate n).1.take m = (d.generate m).1

theorem Sized.conforms {d : CtrDrbg} (h : d.Sized) : d.Conforms where
  length_key := h.key
  length_counter := h.counter
  length_output := d.length_generate
  output _ _ := output_eq h.counter
  next n := congrArg Prod.snd (generate_eq h.counter n)
  reseeded := reseed_eq h.counter
  distinct n hn := d.nodup_values (by omega)
  agree _ _ := take_generate h.counter

/-! ## Histories -/

theorem Sized.generate {d : CtrDrbg} (h : d.Sized) (n : Nat) : (d.generate n).2.Sized := by
  rw [generate_eq h.counter]
  exact sized_ofParts (d.length_fresh _) _

theorem Sized.reseed {d : CtrDrbg} (h : d.Sized) (entropy : Bytes) : (d.reseed entropy).Sized := by
  rw [reseed_eq h.counter]
  exact sized_ofParts (d.length_seeded entropy) 1

theorem exists_sized_serveAll {d : CtrDrbg} (h : d.Sized) (history : List Request) :
    ∃ t : CtrDrbg, ((Generator.ctrDrbg d).serveAll history).2 = .ctrDrbg t ∧ t.Sized := by
  refine Generator.serveAll_invariant (I := fun g => ∃ t, g = .ctrDrbg t ∧ t.Sized) ?_ ?_
    ⟨d, rfl, h⟩ history
  · rintro g n ⟨t, rfl, ht⟩
    exact ⟨(t.generate n).2, rfl, ht.generate n⟩
  · rintro g entropy ⟨t, rfl, ht⟩
    exact ⟨t.reseed entropy, rfl, ht.reseed entropy⟩

/-- **In every history requests encrypt successive counters.** An instance is seeded from a
key and a counter of zeros, and whatever it is asked for, it is the one of SP 800-90A: output
and next state are one run of blocks, cut where the request ends, and nothing but seedings
and the number of blocks has a bearing on it. -/
theorem requests_encrypt_successive_counters (entropy : Bytes) (history : List Request) :
    new entropy = ofParts (zeros.seeded entropy) 1 ∧
      ∃ d : CtrDrbg, ((Generator.ctrDrbg (new entropy)).serveAll history).2 = .ctrDrbg d ∧
        d.Conforms ∧
        d.reseedCounter = 1 + requestsFrom 0 history ∧
        (history.length < 2 ^ 64 - 1 → d.reseedCounter < 2 ^ 64) := by
  have hnew : (new entropy).Sized := by
    rw [new_eq]
    exact sized_ofParts (zeros.length_seeded entropy) 1
  obtain ⟨d, hd, hsized⟩ := exists_sized_serveAll hnew history
  have hcount : (Generator.ctrDrbg (new entropy)).reseedCounter? = some (1 + 0) := rfl
  have hcounter := Generator.reseedCounter?_serveAll hcount history
  rw [hd] at hcounter
  have hcounter : d.reseedCounter = 1 + requestsFrom 0 history := Option.some.inj hcounter
  refine ⟨new_eq entropy, d, hd, hsized.conforms, hcounter, fun hshort => ?_⟩
  have hfew := Generator.requestsFrom_le 0 history
  omega

/-- The law behind a seeding between two requests. -/
theorem requests_encrypt_successive_counters_of_one_instance :
    ∃ d : CtrDrbg, ((Generator.ctrDrbg (new [1, 2])).serveAll
        [.generate 3, .reseed [5], .generate 40]).2 = .ctrDrbg d ∧
      d.Conforms ∧ d.reseedCounter = 2 ∧ d.reseedCounter < 2 ^ 64 ∧
      (d.generate 40).1.take 17 = (d.generate 17).1 := by
  obtain ⟨-, d, hd, hconforms, hcounter, hword⟩ :=
    requests_encrypt_successive_counters [1, 2] [.generate 3, .reseed [5], .generate 40]
  exact ⟨d, hd, hconforms, hcounter, hword (by decide), hconforms.agree 17 40 (by decide)⟩

/-- A counter that starts from zero again. -/
example : (⟨List.replicate 32 0, List.replicate 16 0xff, 1⟩ : CtrDrbg).value 1 =
    List.replicate 16 0 := by decide

end CtrDrbg

end LatticeSuite
