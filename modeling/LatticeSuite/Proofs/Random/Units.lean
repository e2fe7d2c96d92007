import LatticeSuite.Proofs.Cipher.Keystream
import LatticeSuite.Proofs.Random.Output
import Mathlib.Logic.Function.Iterate

/-!
# Units of a generator

What a generator gives is made of units: single bytes for the keystreams of Salsa20 and
AES, words of four bytes for ChaCha20 and of eight for ISAAC and KISS
(`CsprngAlgorithm.unit?`). A request takes as many as it touches, and what it leaves of
the last one is lost. Requests for whole units lose nothing:

> `Generator.generate_mul`: a request for `k` units gives the next `k` of them, in order.

> `Generator.generate_add`: a request for `m + n` bytes, with `m` in whole units, is one
> for `m` and one for `n` in the state behind it.

The two DRBGs have no units, because they replace their state after every request.
-/

namespace LatticeSuite

namespace Words

variable {σ : Type} (next : σ → UInt64 × σ)

theorem bytesFrom_add (j k : Nat) (s : σ) (acc : List UInt8) :
    bytesFrom next (j + k) s acc =
      bytesFrom next k (bytesFrom next j s acc).2 (bytesFrom next j s acc).1 := by
  induction j generalizing s acc with
  | zero =>
    rw [Nat.zero_add]
    rfl
  | succ j ih =>
    rw [Nat.succ_add]
    exact ih _ _

/-- New bytes go in front of those that are there. -/
theorem bytesFrom_append (k : Nat) (s : σ) (acc acc' : List UInt8) :
    bytesFrom next k s (acc ++ acc') =
      ((bytesFrom next k s acc).1 ++ acc', (bytesFrom next k s acc).2) := by
  induction k generalizing s acc with
  | zero => rfl
  | succ k ih =>
    rw [bytesFrom, bytesFrom]
    dsimp only
    rw [List.reverseAux_eq, List.reverseAux_eq, ← List.append_assoc]
    exact ih _ _

theorem length_words (k : Nat) (s : σ) : (bytesFrom next k s []).1.reverse.length = 8 * k := by
  rw [List.length_reverse, length_bytesFrom, List.length_nil, Nat.zero_add, Nat.mul_comm]

theorem snd_bytesFrom (k : Nat) (s : σ) (acc : List UInt8) :
    (bytesFrom next k s acc).2 = (fun s => (next s).2)^[k] s := by
  induction k generalizing s acc with
  | zero => rfl
  | succ k ih => exact ih _ _

/-- **A request takes the steps** of as many words as it touches. -/
theorem snd_fill (n : Nat) (s : σ) :
    (fill next n s).2 = (fun s => (next s).2)^[(n + 7) / 8] s :=
  snd_bytesFrom next _ s []

/-- Of whole words nothing is cut off. -/
theorem fill_words (k : Nat) (s : σ) :
    fill next (8 * k) s = ((bytesFrom next k s []).1.reverse, (bytesFrom next k s []).2) := by
  have hcount : (8 * k + 7) / 8 = k := by omega
  unfold fill
  dsimp only
  rw [hcount, List.take_of_length_le (Nat.le_of_eq (length_words next k s))]

/-- **Behind whole words a request goes on with the next word.** -/
theorem fill_add {m : Nat} (hm : 8 ∣ m) (n : Nat) (s : σ) :
    fill next (m + n) s =
      ((fill next m s).1 ++ (fill next n (fill next m s).2).1,
        (fill next n (fill next m s).2).2) := by
  obtain ⟨k, rfl⟩ := hm
  have hcount : (8 * k + n + 7) / 8 = k + (n + 7) / 8 := by omega
  have hboth : fill next (8 * k + n) s =
      ((bytesFrom next (k + (n + 7) / 8) s []).1.reverse.take (8 * k + n),
        (bytesFrom next (k + (n + 7) / 8) s []).2) := by
    rw [← hcount]
    rfl
  have hlength := length_words next k s
  rw [hboth, bytesFrom_add, fill_words]
  generalize bytesFrom next k s [] = first at hlength ⊢
  have hsecond := bytesFrom_append next ((n + 7) / 8) first.2 [] first.1
  rw [List.nil_append] at hsecond
  rw [hsecond, List.reverse_append, ← hlength, List.take_length_add_append]
  rfl

/-- Word `i` of those to come. -/
def word : σ → Nat → UInt64
  | s, 0 => (next s).1
  | s, i + 1 => word (next s).2 i

/-- **No word is left out, and none comes twice.** -/
theorem fill_mul (k : Nat) (s : σ) :
    (fill next (8 * k) s).1 = (List.range k).flatMap fun i => Bytes.ofWord64LE (word next s i) := by
  induction k generalizing s with
  | zero => rfl
  | succ k ih =>
    have hfirst : fill next 8 s = (Bytes.ofWord64LE (next s).1, (next s).2) := by
      refine (fill_words next 1 s).trans ?_
      show ((List.reverseAux _ []).reverse, _) = _
      rw [List.reverseAux_eq, List.append_nil, List.reverse_reverse]
      rfl
    rw [Nat.mul_succ, Nat.add_comm, fill_add next (Nat.dvd_refl 8), hfirst, ih,
      List.range_succ_eq_map, List.flatMap_cons, List.flatMap_map]
    rfl

end Words

namespace Isaac64

theorem index_refill (s : Isaac64) : s.refill.index = 0 := by
  unfold refill
  dsimp only

/-- **A refill reads memory and registers alone.** What is left of the batch and how much of
it is used have no bearing on the next one. -/
theorem refill_congr {s t : Isaac64} (hmemory : s.memory = t.memory) (ha : s.a = t.a)
    (hb : s.b = t.b) (hc : s.c = t.c) : s.refill = t.refill := by
  rw [refill, refill, hmemory, ha, hb, hc]

theorem next_of_lt {s : Isaac64} (h : s.index < 256) :
    next s = (s.batch.getD s.index 0, { s with index := s.index + 1 }) := by
  rw [next, if_neg (Nat.not_le_of_lt h)]

theorem word_of_batch {s : Isaac64} {i : Nat} (h : s.index + i < 256) :
    Words.word next s i = s.batch.getD (s.index + i) 0 := by
  induction i generalizing s with
  | zero =>
    rw [Words.word, next_of_lt h]
    rfl
  | succ i ih =>
    rw [Words.word, next_of_lt (by omega), ih (by show s.index + 1 + i < 256; omega)]
    show s.batch.getD (s.index + 1 + i) 0 = _
    rw [Nat.add_right_comm, Nat.add_assoc]

/-- The words go on with those of the next batch where this one ends. -/
theorem word_of_refill {s : Isaac64} {k : Nat} (h : s.index + k = 256) (i : Nat) :
    Words.word next s (k + i) = Words.word next s.refill i := by
  induction k generalizing s with
  | zero =>
    have hnext : next s = next s.refill := by
      rw [next, if_pos (by omega), next, if_neg (by rw [index_refill]; decide)]
    rw [Nat.zero_add]
    cases i <;> rw [Words.word, Words.word, hnext]
  | succ k ih =>
    have hsame : { s with index := s.index + 1 }.refill = s.refill := refill_congr rfl rfl rfl rfl
    rw [Nat.succ_add, Words.word, next_of_lt (by omega),
      ih (by show s.index + 1 + k = 256; omega), hsame]

theorem iterate_next {s : Isaac64} {k : Nat} (h : s.index + k ≤ 256) :
    (fun s => (next s).2)^[k] s = { s with index := s.index + k } := by
  induction k with
  | zero => rfl
  | succ k ih =>
    have hlt : ({ s with index := s.index + k } : Isaac64).index < 256 := h
    rw [Function.iterate_succ_apply', ih (by omega), next_of_lt hlt]
    rfl

/-- A request that the batch allows uses so many of its words up. -/
theorem snd_generate {s : Isaac64} {k : Nat} (h : s.index + k ≤ 256) :
    (s.generate (8 * k)).2 = { s with index := s.index + k } := by
  have hcount : (8 * k + 7) / 8 = k := by omega
  rw [generate, Words.snd_fill, hcount, iterate_next h]

theorem index_new (seed : Bytes) : (new seed).index = 0 := by
  unfold new ofBlock
  dsimp only
  exact index_refill _

end Isaac64

/-- How many bytes a generator gives at once. What a request leaves of them is lost. -/
def CsprngAlgorithm.unit? : CsprngAlgorithm → Option Nat
  | .salsa20 | .aesCtr => some 1
  | .chaCha20 => some 4
  | .isaac | .kiss => some 8
  | .system | .aesCtrDrbg | .hashDrbg _ => none

theorem AesStream.generate_add (g : AesStream) (m n : Nat) :
    g.generate (m + n) =
      ((g.generate m).1 ++ ((g.generate m).2.generate n).1, ((g.generate m).2.generate n).2) := by
  have hblock : ∀ i, (g.block i).length = 16 := fun i => Aes256.length_encrypt g.keys _
  refine Prod.ext (Keystream.slice_add (by decide) hblock g.position m n) ?_
  show ({ g with position := g.position + (m + n) } : AesStream) = _
  rw [← Nat.add_assoc]
  rfl

theorem SalsaStream.generate_add (g : SalsaStream) (m n : Nat) :
    g.generate (m + n) =
      ((g.generate m).1 ++ ((g.generate m).2.generate n).1, ((g.generate m).2.generate n).2) := by
  refine Prod.ext
    (Keystream.slice_add (by decide) (Salsa20.length_block g.key) g.position m n) ?_
  show ({ g with position := g.position + (m + n) } : SalsaStream) = _
  rw [← Nat.add_assoc]
  rfl

theorem ChaChaStream.generate_add (g : ChaChaStream) {m : Nat} (hm : 4 ∣ m) (n : Nat) :
    g.generate (m + n) =
      ((g.generate m).1 ++ ((g.generate m).2.generate n).1, ((g.generate m).2.generate n).2) := by
  obtain ⟨words, rfl⟩ := hm
  have hfirst : (4 * words + 3) / 4 = words := by omega
  have hboth : (4 * words + n + 3) / 4 = words + (n + 3) / 4 := by omega
  have hblock : ∀ i, (g.block i).length = 64 := fun i => ChaCha20.length_block g.key _
  have hslice := Keystream.slice_add (by decide) hblock (4 * g.words) (4 * words) n
  unfold generate
  dsimp only
  rw [hfirst, hboth, Nat.mul_add, Nat.add_assoc]
  exact Prod.ext hslice rfl

/-- **Behind whole units a request goes on with the next unit.** -/
theorem Generator.generate_add {g : Generator} {u : Nat} (hu : g.algorithm.unit? = some u) {m : Nat}
    (hm : u ∣ m) (n : Nat) :
    g.generate (m + n) =
      ((g.generate m).1 ++ ((g.generate m).2.generate n).1, ((g.generate m).2.generate n).2) := by
  cases g with
  | ctrDrbg s => exact nomatch hu
  | hashDrbg s => exact nomatch hu
  | aesCtr s =>
    show ((s.generate (m + n)).1, Generator.aesCtr (s.generate (m + n)).2) = _
    rw [s.generate_add m n]
    rfl
  | salsa20 s =>
    show ((s.generate (m + n)).1, Generator.salsa20 (s.generate (m + n)).2) = _
    rw [s.generate_add m n]
    rfl
  | chaCha20 s =>
    obtain rfl := Option.some.inj hu
    show ((s.generate (m + n)).1, Generator.chaCha20 (s.generate (m + n)).2) = _
    rw [s.generate_add hm n]
    rfl
  | isaac s =>
    obtain rfl := Option.some.inj hu
    show ((Words.fill _ (m + n) s).1, Generator.isaac (Words.fill _ (m + n) s).2) = _
    rw [Words.fill_add Isaac64.next hm n s]
    rfl
  | kiss s =>
    obtain rfl := Option.some.inj hu
    show ((Words.fill _ (m + n) s).1, Generator.kiss (Words.fill _ (m + n) s).2) = _
    rw [Words.fill_add Kiss64.next hm n s]
    rfl

/-- Unit `i` of those to come. -/
def Generator.unitAt : Generator → Nat → Bytes
  | .salsa20 s, i => Keystream.slice 64 s.key.block (s.position + i) 1
  | .aesCtr s, i => Keystream.slice 16 s.block (s.position + i) 1
  | .chaCha20 s, i => Keystream.slice 64 s.block (4 * s.words + 4 * i) 4
  | .isaac s, i => Bytes.ofWord64LE (Words.word Isaac64.next s i)
  | .kiss s, i => Bytes.ofWord64LE (Words.word Kiss64.next s i)
  | .ctrDrbg _, _ | .hashDrbg _, _ => []

/-- **A request for whole units gives the next ones in their order.** -/
theorem Generator.generate_mul {g : Generator} {u : Nat} (hu : g.algorithm.unit? = some u)
    (k : Nat) : (g.generate (u * k)).1 = (List.range k).flatMap g.unitAt := by
  cases g with
  | ctrDrbg s => exact nomatch hu
  | hashDrbg s => exact nomatch hu
  | aesCtr s =>
    obtain rfl := Option.some.inj hu
    have hblock : ∀ i, (s.block i).length = 16 := fun i => Aes256.length_encrypt s.keys _
    refine (Keystream.slice_mul (by decide) hblock s.position 1 k).trans ?_
    simp only [Nat.one_mul]
    rfl
  | salsa20 s =>
    obtain rfl := Option.some.inj hu
    refine (Keystream.slice_mul (by decide) (Salsa20.length_block s.key) s.position 1 k).trans ?_
    simp only [Nat.one_mul]
    rfl
  | chaCha20 s =>
    obtain rfl := Option.some.inj hu
    have hblock : ∀ i, (s.block i).length = 64 := fun i => ChaCha20.length_block s.key _
    exact Keystream.slice_mul (by decide) hblock (4 * s.words) 4 k
  | isaac s =>
    obtain rfl := Option.some.inj hu
    exact Words.fill_mul Isaac64.next k s
  | kiss s =>
    obtain rfl := Option.some.inj hu
    exact Words.fill_mul Kiss64.next k s

end LatticeSuite
