import LatticeSuite.Proofs.Huffman.Canonical
import Mathlib.Algebra.BigOperators.Group.Finset.Basic
import Mathlib.Data.List.Forall2
import Mathlib.Tactic.Linarith

/-!
# No other lengths code a byte string in fewer bits

Joining the two lightest trees is a greedy choice, and that it is the best one is
an exchange argument. Take any lengths whose words fit. The longest of them may
as well belong to the lightest tree and the next longest to the second lightest,
since an exchange with a heavier tree does not cost more (`exists_longest_two`).
Then the longest may be shortened to the second longest: the part of all bit
strings that the others leave is a whole number of words of that length, and not
zero (`kraftSum_level`). So the two are siblings, and their join gets one bit less
than either (`exists_joined`). Now the forest is that of the next round
(`Grown.exists_next`), and induction along `joinAll` gives

> `Grown.pathCost_le`: the depths in the joined tree cost no more than any lengths
> whose Kraft sum is at most 1.

For a byte string the trees are leaves and the costs are the bits of its code.
Words of eight bits each would fit too, so a coded string has no more bits than the
string itself.
-/

namespace LatticeSuite.Huffman

/-! ## Exchange -/

/-- What a choice of lengths costs, given the weight and the length of each tree. -/
def cost (pairs : List (Nat × Nat)) : Nat :=
  (pairs.map fun p => p.1 * p.2).sum

@[simp] theorem cost_cons (p : Nat × Nat) (pairs : List (Nat × Nat)) :
    cost (p :: pairs) = p.1 * p.2 + cost pairs := by
  rw [cost, List.map_cons, List.sum_cons]
  rfl

theorem cost_perm {pairs pairs' : List (Nat × Nat)} (h : pairs.Perm pairs') :
    cost pairs = cost pairs' :=
  (h.map _).sum_eq

/-- The lightest tree may have the longest length: otherwise it exchanges its
own with a longer one, and that does not cost more. -/
theorem exists_longest {w : Nat} (n : Nat) {rest : List (Nat × Nat)} (hw : ∀ p ∈ rest, w ≤ p.1) :
    ∃ n' rest', rest'.map Prod.fst = rest.map Prod.fst ∧
      (n' :: rest'.map Prod.snd).Perm (n :: rest.map Prod.snd) ∧
      (∀ p ∈ rest', p.2 ≤ n') ∧ cost ((w, n') :: rest') ≤ cost ((w, n) :: rest) := by
  induction rest with
  | nil => exact ⟨n, [], rfl, List.Perm.refl _, by simp, Nat.le_refl _⟩
  | cons q rest ih =>
    obtain ⟨v, m⟩ := q
    obtain ⟨n', rest', hfst, hsnd, hmax, hcost⟩ := ih fun p hp => hw p (List.mem_cons_of_mem _ hp)
    have hv : w ≤ v := hw (v, m) List.mem_cons_self
    simp only [cost_cons] at hcost
    rcases Nat.le_total m n' with hle | hle
    · refine ⟨n', (v, m) :: rest', by simp [hfst], ?_, ?_, ?_⟩
      · exact (List.Perm.swap _ _ _).trans ((hsnd.cons m).trans (List.Perm.swap _ _ _))
      · intro p hp
        rcases List.mem_cons.mp hp with rfl | hp'
        · exact hle
        · exact hmax p hp'
      · simp only [cost_cons]
        omega
    · -- the length of `v` is the longest so far, and the two are exchanged
      refine ⟨m, (v, n') :: rest', by simp [hfst], ?_, ?_, ?_⟩
      · exact (hsnd.cons m).trans (List.Perm.swap _ _ _)
      · intro p hp
        rcases List.mem_cons.mp hp with rfl | hp'
        · exact hle
        · exact Nat.le_trans (hmax p hp') hle
      · have hswap : w * m + v * n' ≤ w * n' + v * m := by nlinarith
        simp only [cost_cons]
        omega

/-- The two lightest trees may have the two longest lengths, the lightest the longest. -/
theorem exists_longest_two {a b : Nat} (n m : Nat) {rest : List (Nat × Nat)} (hab : a ≤ b)
    (hb : ∀ p ∈ rest, b ≤ p.1) :
    ∃ n' m' rest', rest'.map Prod.fst = rest.map Prod.fst ∧
      (n' :: m' :: rest'.map Prod.snd).Perm (n :: m :: rest.map Prod.snd) ∧
      m' ≤ n' ∧ (∀ p ∈ rest', p.2 ≤ m') ∧
      cost ((a, n') :: (b, m') :: rest') ≤ cost ((a, n) :: (b, m) :: rest) := by
  have ha : ∀ p ∈ (b, m) :: rest, a ≤ p.1 := by
    intro p hp
    rcases List.mem_cons.mp hp with rfl | hp'
    · exact hab
    · exact Nat.le_trans hab (hb p hp')
  obtain ⟨n₁, rest₁, hfst₁, hsnd₁, hmax₁, hcost₁⟩ := exists_longest n ha
  -- the exchange keeps the weights in their order, so the second lightest is still first
  obtain ⟨⟨b', m₁⟩, rest₂, rfl, rfl, hfst₂⟩ := List.map_eq_cons_iff.mp hfst₁
  have hb₂ : ∀ p ∈ rest₂, b' ≤ p.1 := by
    intro p hp
    have hp' : p.1 ∈ rest.map Prod.fst := hfst₂ ▸ List.mem_map_of_mem hp
    obtain ⟨q, hq, heq⟩ := List.mem_map.mp hp'
    exact heq ▸ hb q hq
  obtain ⟨m₂, rest₃, hfst₃, hsnd₃, hmax₃, hcost₃⟩ := exists_longest m₁ hb₂
  refine ⟨n₁, m₂, rest₃, hfst₃.trans hfst₂, (hsnd₃.cons n₁).trans hsnd₁, ?_, hmax₃, ?_⟩
  · have hmem : m₂ ∈ ((b', m₁) :: rest₂).map Prod.snd := hsnd₃.subset List.mem_cons_self
    obtain ⟨p, hp, rfl⟩ := List.mem_map.mp hmem
    exact hmax₁ p hp
  · simp only [cost_cons] at hcost₁ hcost₃ ⊢
    omega

/-- A longest word may be shortened to the length of the next one: what the
others leave over is a number of words of that length, and not none. -/
theorem kraftSum_level {n m : Nat} {lengths : List Nat} (hn : m ≤ n) (hmax : ∀ k ∈ lengths, k ≤ m)
    (h : kraftSum (n :: m :: lengths) ≤ 1) : kraftSum (m :: m :: lengths) ≤ 1 := by
  have hpos : (0 : ℚ) < (1 / 2) ^ n := by positivity
  have hlist : ∀ k ∈ m :: lengths, k ≤ m := by
    intro k hk
    rcases List.mem_cons.mp hk with rfl | hk'
    · exact Nat.le_refl _
    · exact hmax k hk'
  have hlt : kraftSum (m :: lengths) < 1 := by
    rw [kraftSum_cons n] at h
    linarith
  have hle := (kraftSum_le_one_iff hlist).mp (le_of_lt hlt)
  -- in words of `m` bits the sum is a whole number, so there is room for one more
  have hne : ((m :: lengths).map fun k => 2 ^ (m - k)).sum ≠ 2 ^ m := by
    intro heq
    rw [kraftSum_eq hlist, heq] at hlt
    push_cast at hlt
    rw [← mul_pow] at hlt
    norm_num at hlt
  have hlist' : ∀ k ∈ m :: m :: lengths, k ≤ m := by
    intro k hk
    rcases List.mem_cons.mp hk with rfl | hk'
    · exact Nat.le_refl _
    · exact hlist k hk'
  rw [kraftSum_le_one_iff hlist', List.map_cons, List.sum_cons, Nat.sub_self, Nat.pow_zero]
  omega

/-- Two siblings take up what their parent does. -/
theorem two_halves (n : Nat) : (1 / 2 : ℚ) ^ (n + 1) + (1 / 2) ^ (n + 1) = (1 / 2) ^ n := by
  rw [pow_succ]
  ring

/-- The two lightest trees can be joined: whatever lengths are chosen, others
cost no more under which the join gets one bit less than each of the two had. -/
theorem exists_joined {a b n m : Nat} {rest : List (Nat × Nat)} (hab : a ≤ b)
    (hb : ∀ p ∈ rest, b ≤ p.1) (hk : kraftSum (n :: m :: rest.map Prod.snd) ≤ 1) :
    ∃ k rest', rest'.map Prod.fst = rest.map Prod.fst ∧
      kraftSum (k :: rest'.map Prod.snd) ≤ 1 ∧
      cost ((a + b, k) :: rest') + (a + b) ≤ cost ((a, n) :: (b, m) :: rest) := by
  obtain ⟨n', m', rest', hfst, hsnd, hle, hmax, hcost⟩ := exists_longest_two n m hab hb
  have hlevel : kraftSum (m' :: m' :: rest'.map Prod.snd) ≤ 1 := by
    refine kraftSum_level hle ?_ ((kraftSum_perm hsnd).trans_le hk)
    intro k hk'
    obtain ⟨p, hp, rfl⟩ := List.mem_map.mp hk'
    exact hmax p hp
  have hshort : a * m' ≤ a * n' := Nat.mul_le_mul_left a hle
  -- two words of no bits would take up everything twice
  obtain ⟨k, rfl⟩ : ∃ k, m' = k + 1 := by
    refine Nat.exists_eq_succ_of_ne_zero ?_
    rintro rfl
    have hnonneg := kraftSum_nonneg (rest'.map Prod.snd)
    simp only [kraftSum_cons, pow_zero] at hlevel
    linarith
  refine ⟨k, rest', hfst, ?_, ?_⟩
  · rw [kraftSum_cons, kraftSum_cons, ← add_assoc, two_halves] at hlevel
    exact hlevel
  · have hjoin : (a + b) * k + (a + b) = a * (k + 1) + b * (k + 1) := by ring
    simp only [cost_cons] at hcost ⊢
    omega

/-! ## The tree of a forest -/

/-- The total of weight times depth over the leaves of a tree. -/
def Tree.pathCost (f : UInt8 → Nat) (t : Tree) : Nat :=
  cost ((t.depths 0).map fun p => (f p.1, p.2))

theorem Tree.cost_depths_succ (f : UInt8 → Nat) (t : Tree) (d : Nat) :
    cost ((t.depths (d + 1)).map fun p => (f p.1, p.2)) =
      cost ((t.depths d).map fun p => (f p.1, p.2)) + t.weight f := by
  induction t generalizing d with
  | leaf s =>
    show f s * (d + 1) + 0 = f s * d + 0 + (f s + 0)
    ring
  | node l r ihl ihr =>
    rw [depths, depths, List.map_append, List.map_append, cost, cost, List.map_append,
      List.map_append, List.sum_append, List.sum_append, weight_node]
    have hl := ihl (d + 1)
    have hr := ihr (d + 1)
    rw [cost, cost] at hl hr
    omega

theorem Tree.pathCost_node (f : UInt8 → Nat) (l r : Tree) :
    (Tree.node l r).pathCost f = l.pathCost f + r.pathCost f + (l.weight f + r.weight f) := by
  have hl := l.cost_depths_succ f 0
  have hr := r.cost_depths_succ f 0
  rw [pathCost, depths, List.map_append, cost, List.map_append, List.sum_append]
  rw [cost] at hl hr
  rw [pathCost, pathCost]
  omega

/-- Weights in another order can be chosen the same lengths. -/
theorem exists_map_eq_of_perm {α β : Type} {f : α → β} {as : List α} {bs : List β}
    (h : (as.map f).Perm bs) : ∃ as', as.Perm as' ∧ as'.map f = bs := by
  have hrel : List.Forall₂ (fun b a => f a = b) (as.map f) as :=
    List.forall₂_map_left_iff.mpr (List.forall₂_same.mpr fun _ _ => rfl)
  obtain ⟨as', hforall, hperm⟩ := List.perm_comp_forall₂ h.symm hrel
  refine ⟨as', hperm.symm, ?_⟩
  clear hperm hrel h
  induction hforall with
  | nil => rfl
  | cons hb _ ih => rw [List.map_cons, hb, ih]

/-- **One round.** Lengths for a forest give way to lengths for the forest of the next
round, which save what the join weighs. -/
theorem Grown.exists_next {f : UInt8 → Nat} {a b : Weighted} {forest : List Weighted}
    (h : Grown f (a :: b :: forest)) {pairs : List (Nat × Nat)}
    (hperm : (pairs.map Prod.fst).Perm ((a :: b :: forest).map Weighted.weight))
    (hk : kraftSum (pairs.map Prod.snd) ≤ 1) :
    ∃ next : List (Nat × Nat),
      (next.map Prod.fst).Perm ((insert (a.join b) forest).map Weighted.weight) ∧
      kraftSum (next.map Prod.snd) ≤ 1 ∧
      cost next + (a.weight + b.weight) ≤ cost pairs := by
  obtain ⟨pairs', hpairs, hfst⟩ := exists_map_eq_of_perm hperm
  obtain ⟨⟨a', n⟩, behind, rfl, rfl, hbehind⟩ := List.map_eq_cons_iff.mp hfst
  obtain ⟨⟨b', m⟩, rest, rfl, rfl, hrest⟩ := List.map_eq_cons_iff.mp hbehind
  obtain ⟨hle_a, hsorted⟩ := List.pairwise_cons.mp h.sorted
  obtain ⟨hle_b, -⟩ := List.pairwise_cons.mp hsorted
  have hb : ∀ p ∈ rest, b.weight ≤ p.1 := by
    intro p hp
    have hp' : p.1 ∈ forest.map Weighted.weight := hrest ▸ List.mem_map_of_mem hp
    obtain ⟨u, hu, heq⟩ := List.mem_map.mp hp'
    exact heq ▸ hle_b u hu
  have hfit : kraftSum (n :: m :: rest.map Prod.snd) ≤ 1 :=
    (kraftSum_perm (hpairs.map Prod.snd)).symm.trans_le hk
  obtain ⟨k, rest', hfst', hk', hcost⟩ := exists_joined (hle_a b List.mem_cons_self) hb hfit
  refine ⟨((a.join b).weight, k) :: rest', ?_, hk', (cost_perm hpairs).symm ▸ hcost⟩
  rw [List.map_cons, hfst', hrest]
  exact ((insert_perm (a.join b) forest).map Weighted.weight).symm

/-- **No choice of lengths beats joining**: of all lengths that fit, those that
the tree gives the trees of a forest cost least. -/
theorem Grown.pathCost_le {f : UInt8 → Nat} {forest : List Weighted} (h : Grown f forest)
    {t : Tree} (ht : Huffman.joinAll forest = some t) {pairs : List (Nat × Nat)}
    (hperm : (pairs.map Prod.fst).Perm (forest.map Weighted.weight))
    (hk : kraftSum (pairs.map Prod.snd) ≤ 1) :
    t.pathCost f ≤ (forest.map fun u => u.tree.pathCost f).sum + cost pairs := by
  fun_induction Huffman.joinAll forest generalizing pairs with
  | case1 => exact absurd ht (by simp)
  | case2 u =>
    obtain rfl : u.tree = t := Option.some.inj ht
    simp
  | case3 a b forest ih =>
    obtain ⟨next, hnext, hk', hcost⟩ := h.exists_next hperm hk
    have hjoined := ih h.join ht hnext hk'
    have hnode : (a.join b).tree.pathCost f =
        a.tree.pathCost f + b.tree.pathCost f + (a.weight + b.weight) := by
      rw [h.weight_eq a (by simp), h.weight_eq b (by simp)]
      exact Tree.pathCost_node f a.tree b.tree
    rw [((insert_perm (a.join b) forest).map fun u => u.tree.pathCost f).sum_eq, List.map_cons,
      List.sum_cons, hnode] at hjoined
    rw [List.map_cons, List.map_cons, List.sum_cons, List.sum_cons]
    omega

/-! ## The code of a byte string -/

/-- The bits that lengths take for a byte string: how often each byte occurs times
the length that it gets. -/
def codedBits (raw : Bytes) (length : UInt8 → Nat) : Nat :=
  (raw.dedup.map fun s => raw.count s * length s).sum

theorem codedBits_eq_sum (raw : Bytes) (length : UInt8 → Nat) :
    codedBits raw length = (raw.map length).sum := by
  have h := Finset.sum_list_map_count raw length
  simp only [smul_eq_mul] at h
  rw [h]
  rfl

theorem codedBits_eq_cost (raw : Bytes) (length : UInt8 → Nat) :
    codedBits raw length = cost (raw.dedup.map fun s => (raw.count s, length s)) := by
  rw [codedBits, cost, List.map_map]
  rfl

/-- The length of the word of each byte. -/
def wordLength (raw : Bytes) (s : UInt8) : Nat :=
  ((codeLengths raw).of s).toNat

/-- A tree with two leaves or more costs the bits of its words. -/
theorem codedBits_wordLength {raw : Bytes} {t : Tree} (ht : joinAll (leaves raw) = some t)
    (hperm : t.alphabet.Perm raw.dedup) (htwo : 2 ≤ t.alphabet.length) :
    codedBits raw (wordLength raw) = t.pathCost raw.count := by
  have hpairs : ((t.depths 0).map fun p => (raw.count p.1, p.2)) =
      t.alphabet.map fun s => (raw.count s, wordLength raw s) := by
    rw [← t.map_fst_depths 0, List.map_map]
    refine List.map_congr_left ?_
    intro p hp
    rw [← Tree.wordLengths_eq_depths htwo] at hp
    rw [Function.comp_apply, wordLength, length_of_codeLengths ht hperm hp]
  rw [codedBits_eq_cost, Tree.pathCost, hpairs]
  exact cost_perm (hperm.map _).symm

/-- **No lengths that fit take fewer bits.** -/
theorem codedBits_le {raw : Bytes} {length : UInt8 → Nat} (hpos : ∀ s ∈ raw, 1 ≤ length s)
    (hk : kraftSum (raw.dedup.map length) ≤ 1) :
    codedBits raw (wordLength raw) ≤ codedBits raw length := by
  by_cases hne : raw = []
  · subst hne
    exact Nat.le_refl 0
  obtain ⟨t, ht, hperm, -⟩ := exists_tree hne
  rcases Nat.lt_or_ge t.alphabet.length 2 with hone | htwo
  · -- a single byte has a word of one bit, which is the least there is
    refine List.sum_le_sum fun s hs => Nat.mul_le_mul_left _ ?_
    obtain ⟨d, hd⟩ := exists_wordLength hperm (List.mem_dedup.mp hs)
    have hd' : d = 1 := by
      have hbounds := Tree.mem_wordLengths hd
      have hheight := t.height_lt_length_alphabet
      omega
    rw [wordLength, length_of_codeLengths ht hperm hd, hd']
    exact hpos s (List.mem_dedup.mp hs)
  · have hleaves : ((leaves raw).map fun u => u.tree.pathCost raw.count).sum = 0 := by
      refine List.sum_eq_zero ?_
      intro x hx
      obtain ⟨u, hu, rfl⟩ := List.mem_map.mp hx
      obtain ⟨s, rfl⟩ := exists_leaf hu
      rfl
    have hcounts : ((raw.dedup.map fun s => (raw.count s, length s)).map Prod.fst).Perm
        ((leaves raw).map Weighted.weight) := by
      rw [List.map_map]
      exact (weights_leaves raw).symm
    have hle := (leaves_grown raw).pathCost_le ht hcounts (by rw [List.map_map]; exact hk)
    rw [codedBits_wordLength ht hperm htwo, codedBits_eq_cost]
    omega

theorem length_encodeBits (l : CodeLengths) (raw : Bytes) :
    (l.encodeBits raw).length = (raw.map fun s => (l.word s).length).sum := by
  rw [l.encodeBits_eq, List.length_flatMap]

/-- What is written takes no more bits than the lengths say. -/
theorem length_encodeBits_le (raw : Bytes) :
    ((codeLengths raw).encodeBits raw).length ≤ codedBits raw (wordLength raw) := by
  rw [length_encodeBits, codedBits_eq_sum]
  exact List.sum_le_sum fun s _ => (codeLengths raw).length_word_le s

theorem length_encodeBits_eq {raw : Bytes} (hlen : raw.length < Nat.fib (maxLength + 3)) :
    ((codeLengths raw).encodeBits raw).length = codedBits raw (wordLength raw) := by
  rw [length_encodeBits, codedBits_eq_sum]
  refine congrArg List.sum (List.map_congr_left ?_)
  intro s hs
  obtain ⟨hpos, hmax⟩ := of_codeLengths hlen hs
  rw [CodeLengths.word_eq hpos hmax, length_bitsBE, wordLength]

/-- Words of eight bits fit, so the words of a string take no more. -/
theorem codedBits_le_eight (raw : Bytes) : codedBits raw (wordLength raw) ≤ 8 * raw.length := by
  have hfit : kraftSum (raw.dedup.map fun _ => 8) ≤ 1 := by
    have hmax : ∀ n ∈ raw.dedup.map fun _ => 8, n ≤ 8 := by
      intro n hn
      obtain ⟨s, -, rfl⟩ := List.mem_map.mp hn
      exact Nat.le_refl 8
    rw [kraftSum_le_one_iff hmax, List.map_const', List.map_replicate, List.sum_replicate]
    have hdedup := length_le_of_nodup raw.nodup_dedup
    simpa using hdedup
  refine Nat.le_trans (codedBits_le (fun _ _ => by decide) hfit) ?_
  rw [codedBits_eq_sum, List.map_const', List.sum_replicate, smul_eq_mul, Nat.mul_comm]

/-- Bits take no more bytes than they fill or begin. -/
theorem length_ofBits_le {bits : List Bool} {n : Nat} (h : bits.length ≤ 8 * n) :
    (Bytes.ofBits bits).length ≤ n := by
  obtain ⟨k, hk, hbits⟩ := Bytes.toBits_ofBits bits
  have hlen := congrArg List.length hbits
  rw [Bytes.length_toBits, List.length_append, List.length_replicate] at hlen
  omega

theorem length_write (f : TableFormat) (raw : Bytes) :
    (f.write (codeLengths raw)).length =
      match f with
      | .dense => 256
      | .sparse => 2 + 2 * raw.dedup.length := by
  cases f with
  | dense => exact (codeLengths raw).length_toList
  | sparse =>
    have hentries : (codeLengths raw).entries.length = raw.dedup.length := by
      have hperm := CodeLengths.wordLengths_perm (l := codeLengths raw) raw.nodup_dedup fun s => by
        rw [of_codeLengths_ne_zero_iff, List.mem_dedup]
      have hlen := hperm.length_eq
      rw [CodeLengths.wordLengths, List.length_map, List.length_map] at hlen
      exact hlen
    rw [TableFormat.write, List.length_append, Bytes.length_toBE, length_flatMap_pairs, hentries]

/-- **The lengths of a byte string are the best there are**, and what is written is
never much longer than the string. -/
theorem code_lengths_are_optimal (raw : Bytes) :
    (∀ s, (codeLengths raw).of s ≠ 0 ↔ s ∈ raw) ∧
    (codeLengths raw).kraftSum ≤ 1 ∧
    (∀ length : UInt8 → Nat, (∀ s ∈ raw, 1 ≤ length s) →
      kraftSum (raw.dedup.map length) ≤ 1 →
      codedBits raw (fun s => ((codeLengths raw).of s).toNat) ≤ codedBits raw length) ∧
    (2 ≤ raw.dedup.length → (codeLengths raw).kraftSum = 1) ∧
    (raw.length < Nat.fib (maxLength + 3) → ((codeLengths raw).encodeBits raw).length =
      codedBits raw fun s => ((codeLengths raw).of s).toNat) ∧
    ((codeLengths raw).encodeBits raw).length ≤ 8 * raw.length ∧
    (encode .dense raw).length ≤ 256 + raw.length ∧
    (encode .sparse raw).length ≤ 2 + 2 * raw.dedup.length + raw.length := by
  have hbits : ((codeLengths raw).encodeBits raw).length ≤ 8 * raw.length :=
    Nat.le_trans (length_encodeBits_le raw) (codedBits_le_eight raw)
  have hstream := length_ofBits_le hbits
  refine ⟨fun s => of_codeLengths_ne_zero_iff, kraftSum_codeLengths_le raw,
    fun length => codedBits_le, kraftSum_codeLengths, length_encodeBits_eq, hbits, ?_, ?_⟩
  · rw [encode, List.length_append, length_write]
    exact Nat.add_le_add_left hstream 256
  · rw [encode, List.length_append, length_write]
    exact Nat.add_le_add_left hstream _

theorem code_lengths_are_optimal_of_four_bytes :
    (∀ s ∈ ([0x61, 0x62, 0x63, 0x61] : Bytes), 1 ≤ (fun _ => 2) s) ∧
      kraftSum (([0x61, 0x62, 0x63, 0x61] : Bytes).dedup.map fun _ => 2) ≤ 1 ∧
      codedBits [0x61, 0x62, 0x63, 0x61]
        (fun s => ((codeLengths [0x61, 0x62, 0x63, 0x61]).of s).toNat) ≤
          codedBits [0x61, 0x62, 0x63, 0x61] (fun _ => 2) ∧
      2 ≤ ([0x61, 0x62, 0x63, 0x61] : Bytes).dedup.length ∧
      (codeLengths [0x61, 0x62, 0x63, 0x61]).kraftSum = 1 ∧
      [0x61, 0x62, 0x63, 0x61].length < Nat.fib (maxLength + 3) ∧
      ((codeLengths [0x61, 0x62, 0x63, 0x61]).encodeBits [0x61, 0x62, 0x63, 0x61]).length =
        codedBits [0x61, 0x62, 0x63, 0x61]
          fun s => ((codeLengths [0x61, 0x62, 0x63, 0x61]).of s).toNat := by
  have hdedup : ([0x61, 0x62, 0x63, 0x61] : Bytes).dedup = [0x62, 0x63, 0x61] := by decide
  have hfit : kraftSum (([0x61, 0x62, 0x63, 0x61] : Bytes).dedup.map fun _ => 2) ≤ 1 := by
    rw [hdedup, List.map_const']
    norm_num [List.replicate]
  have htwo : 2 ≤ ([0x61, 0x62, 0x63, 0x61] : Bytes).dedup.length := by decide
  have hlen : [0x61, 0x62, 0x63, 0x61].length < Nat.fib (maxLength + 3) := by decide +kernel
  obtain ⟨-, -, hbest, hfull, hbits, -⟩ := code_lengths_are_optimal [0x61, 0x62, 0x63, 0x61]
  have hone : ∀ s ∈ ([0x61, 0x62, 0x63, 0x61] : Bytes), 1 ≤ 2 := fun _ _ => Nat.le_succ 1
  exact ⟨hone, hfit, hbest (fun _ => 2) hone hfit, htwo, hfull htwo, hlen, hbits hlen⟩

end LatticeSuite.Huffman
