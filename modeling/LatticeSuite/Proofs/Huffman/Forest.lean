import LatticeSuite.Coding.Huffman.Tree
import LatticeSuite.Proofs.Huffman.Words
import Mathlib.Algebra.BigOperators.Group.List.Basic
import Mathlib.Algebra.Order.BigOperators.Group.List
import Mathlib.Data.List.Dedup
import Mathlib.Data.Nat.Fib.Basic

/-!
# Growing a Huffman tree

`joinAll` replaces the two lightest trees of a sorted forest by their join
until one is left. `Grown` is what every forest on the way satisfies: it is
sorted, every entry carries the weight of its tree, every tree is `Fair`, and
no child of a root is heavier than any tree of the forest. The last point is
what makes the next join fair: a root is joined with a tree that is at least
as heavy as its own children, because the children were the lightest when they
were joined.

A fair tree cannot be deep. Going down the longest path, each subtree weighs
at least as much as the two below it on the path together, so weights grow
like the Fibonacci numbers:

> `Fair.fib_le`: `fib (height + 2) ≤ weight`.

`exists_tree` sums up what the rest of the theory needs to know about the tree
of a byte string: its symbols are those of the string, and it is fair for
their counts.
-/

namespace LatticeSuite.Huffman

/-! ## Trees -/

namespace Tree

/-- The symbols at the leaves, from left to right. -/
def alphabet : Tree → List UInt8
  | leaf s => [s]
  | node l r => l.alphabet ++ r.alphabet

/-- The length of the longest path to a leaf. -/
def height : Tree → Nat
  | leaf _ => 0
  | node l r => max l.height r.height + 1

/-- The subtrees right below the root. -/
def children : Tree → List Tree
  | leaf _ => []
  | node l r => [l, r]

/-- The weight of the leaves, given the weight of each symbol. -/
def weight (f : UInt8 → Nat) (t : Tree) : Nat :=
  (t.alphabet.map f).sum

/-- Each of two siblings weighs at least as much as each child of the other. -/
def Fair (f : UInt8 → Nat) : Tree → Prop
  | leaf _ => True
  | node l r => l.Fair f ∧ r.Fair f ∧
      (∀ c ∈ l.children, c.weight f ≤ r.weight f) ∧ ∀ c ∈ r.children, c.weight f ≤ l.weight f

variable {f : UInt8 → Nat}

@[simp] theorem weight_node (l r : Tree) :
    (node l r).weight f = l.weight f + r.weight f := by
  rw [weight, alphabet, List.map_append, List.sum_append]
  rfl

theorem height_eq_zero_or (t : Tree) :
    t.height = 0 ∨ ∃ c ∈ t.children, t.height = c.height + 1 := by
  cases t with
  | leaf s => exact Or.inl rfl
  | node l r =>
    rcases Nat.le_total l.height r.height with h | h
    · exact Or.inr ⟨r, by simp [children], by rw [height, Nat.max_eq_right h]⟩
    · exact Or.inr ⟨l, by simp [children], by rw [height, Nat.max_eq_left h]⟩

/-- The taller of two siblings and the other one together: its taller child
weighs at most as much as the other. -/
private theorem fib_le_add {l r : Tree} (hl : Nat.fib (l.height + 2) ≤ l.weight f)
    (hchildren : ∀ c ∈ l.children, Nat.fib (c.height + 2) ≤ c.weight f)
    (hr : Nat.fib (r.height + 2) ≤ r.weight f)
    (hfair : ∀ c ∈ l.children, c.weight f ≤ r.weight f) :
    Nat.fib (l.height + 3) ≤ l.weight f + r.weight f := by
  have hsum : Nat.fib (l.height + 3) = Nat.fib (l.height + 1) + Nat.fib (l.height + 2) :=
    Nat.fib_add_two
  have hother : Nat.fib (l.height + 1) ≤ r.weight f := by
    rcases l.height_eq_zero_or with hzero | ⟨c, hc, hheight⟩
    · rw [hzero]
      exact Nat.le_trans (Nat.fib_mono (Nat.le_add_left 1 (r.height + 1))) hr
    · rw [hheight]
      exact Nat.le_trans (hchildren c hc) (hfair c hc)
  omega

/-- **A fair tree is no higher than its weight allows.** -/
theorem Fair.fib_le {t : Tree} (hfair : t.Fair f) (hpos : ∀ s ∈ t.alphabet, 1 ≤ f s) :
    Nat.fib (t.height + 2) ≤ t.weight f := by
  -- a join compares a tree with the children of its sibling, so these are in the induction
  suffices h : Nat.fib (t.height + 2) ≤ t.weight f ∧
      ∀ c ∈ t.children, Nat.fib (c.height + 2) ≤ c.weight f from h.1
  induction t with
  | leaf s =>
    refine ⟨?_, by simp [children]⟩
    have hs := hpos s (List.mem_singleton_self s)
    simpa [height, weight, alphabet] using hs
  | node l r ihl ihr =>
    obtain ⟨hfl, hfr, hlr, hrl⟩ := hfair
    obtain ⟨hl, hlc⟩ := ihl hfl fun s hs => hpos s (List.mem_append_left _ hs)
    obtain ⟨hr, hrc⟩ := ihr hfr fun s hs => hpos s (List.mem_append_right _ hs)
    constructor
    · rw [height, weight_node]
      rcases Nat.le_total l.height r.height with h | h
      · rw [Nat.max_eq_right h, Nat.add_comm (l.weight f)]
        exact fib_le_add hr hrc hl hrl
      · rw [Nat.max_eq_left h]
        exact fib_le_add hl hlc hr hlr
    · intro c hc
      rcases List.mem_cons.mp hc with rfl | hc'
      · exact hl
      · rw [List.mem_singleton.mp hc']
        exact hr

end Tree

/-! ## Forests -/

/-- The symbols of a forest. -/
def alphabets (forest : List Weighted) : List UInt8 :=
  forest.flatMap fun t => t.tree.alphabet

theorem insert_perm (t : Weighted) (forest : List Weighted) :
    (insert t forest).Perm (t :: forest) := by
  induction forest with
  | nil => exact List.Perm.refl _
  | cons u forest ih =>
    rw [insert]
    split
    next => exact List.Perm.refl _
    next => exact (ih.cons u).trans (List.Perm.swap t u forest)

/-- Sorted by weight. -/
def Sorted (forest : List Weighted) : Prop :=
  forest.Pairwise fun t u => t.weight ≤ u.weight

theorem Sorted.insert {forest : List Weighted} (h : Sorted forest) (t : Weighted) :
    Sorted (insert t forest) := by
  induction forest with
  | nil => exact List.pairwise_singleton _ t
  | cons u forest ih =>
    obtain ⟨hu, hrest⟩ := List.pairwise_cons.mp h
    rw [Huffman.insert]
    split
    next hlt =>
      refine List.pairwise_cons.mpr ⟨?_, h⟩
      intro v hv
      rcases List.mem_cons.mp hv with rfl | hv'
      · exact Nat.le_of_lt hlt
      · exact Nat.le_trans (Nat.le_of_lt hlt) (hu v hv')
    next hge =>
      refine List.pairwise_cons.mpr ⟨?_, ih hrest⟩
      intro v hv
      rcases List.mem_cons.mp ((insert_perm t forest).mem_iff.mp hv) with rfl | hv'
      · exact Nat.le_of_not_lt hge
      · exact hu v hv'

/-- A forest on the way from single leaves to one tree. -/
structure Grown (f : UInt8 → Nat) (forest : List Weighted) : Prop where
  sorted : Sorted forest
  weight_eq : ∀ t ∈ forest, t.weight = t.tree.weight f
  fair : ∀ t ∈ forest, t.tree.Fair f
  children_le : ∀ t ∈ forest, ∀ c ∈ t.tree.children, ∀ u ∈ forest, c.weight f ≤ u.weight

/-- Joining the two lightest trees. -/
theorem Grown.join {f : UInt8 → Nat} {a b : Weighted} {forest : List Weighted}
    (h : Grown f (a :: b :: forest)) : Grown f (insert (a.join b) forest) := by
  have ha : a ∈ a :: b :: forest := by simp
  have hb : b ∈ a :: b :: forest := by simp
  have hsub : ∀ t ∈ forest, t ∈ a :: b :: forest := fun t ht => by simp [ht]
  obtain ⟨hle_a, hsorted⟩ := List.pairwise_cons.mp h.sorted
  obtain ⟨hle_b, hrest⟩ := List.pairwise_cons.mp hsorted
  have hmem : ∀ t, t ∈ insert (a.join b) forest → t = a.join b ∨ t ∈ forest :=
    fun t ht => List.mem_cons.mp ((insert_perm _ _).mem_iff.mp ht)
  have hwa := h.weight_eq a ha
  have hwb := h.weight_eq b hb
  have hjoin : (a.join b).weight = (a.join b).tree.weight f := by
    show a.weight + b.weight = (Tree.node a.tree b.tree).weight f
    rw [Tree.weight_node, hwa, hwb]
  have hle_join : a.weight ≤ (a.join b).weight := Nat.le_add_right _ _
  refine ⟨Sorted.insert hrest _, ?_, ?_, ?_⟩
  · intro t ht
    rcases hmem t ht with rfl | ht'
    · exact hjoin
    · exact h.weight_eq t (hsub t ht')
  · intro t ht
    rcases hmem t ht with rfl | ht'
    · refine ⟨h.fair a ha, h.fair b hb, ?_, ?_⟩
      · intro c hc
        rw [← hwb]
        exact h.children_le a ha c hc b hb
      · intro c hc
        rw [← hwa]
        exact h.children_le b hb c hc a ha
    · exact h.fair t (hsub t ht')
  · intro t ht c hc u hu
    rcases hmem t ht with rfl | ht'
    · -- the children of the join are `a` and `b`, the lightest there were
      have hchild : c = a.tree ∨ c = b.tree := by
        simpa [Weighted.join, Tree.children] using hc
      rcases hmem u hu with rfl | hu'
      · rcases hchild with rfl | rfl
        · rw [← hwa]
          exact hle_join
        · rw [← hwb]
          exact Nat.le_add_left _ _
      · rcases hchild with rfl | rfl
        · rw [← hwa]
          exact hle_a u (List.mem_cons_of_mem _ hu')
        · rw [← hwb]
          exact hle_b u hu'
    · have hca := h.children_le t (hsub t ht') c hc
      rcases hmem u hu with rfl | hu'
      · exact Nat.le_trans (hca a ha) hle_join
      · exact hca u (hsub u hu')

theorem alphabets_join (a b : Weighted) (forest : List Weighted) :
    (alphabets (insert (a.join b) forest)).Perm (alphabets (a :: b :: forest)) := by
  refine ((insert_perm _ _).flatMap_right _).trans ?_
  show ((a.tree.alphabet ++ b.tree.alphabet) ++ alphabets forest).Perm
    (a.tree.alphabet ++ (b.tree.alphabet ++ alphabets forest))
  rw [List.append_assoc]

/-- A grown forest becomes one fair tree with the same symbols. -/
theorem Grown.joinAll {f : UInt8 → Nat} {forest : List Weighted} (h : Grown f forest)
    (hne : forest ≠ []) :
    ∃ t, joinAll forest = some t ∧ t.alphabet.Perm (alphabets forest) ∧ t.Fair f := by
  fun_induction Huffman.joinAll forest with
  | case1 => exact absurd rfl hne
  | case2 t =>
    refine ⟨t.tree, rfl, ?_, h.fair t (List.mem_singleton_self t)⟩
    rw [alphabets, List.flatMap_cons, List.flatMap_nil, List.append_nil]
  | case3 a b forest ih =>
    have hne' : insert (a.join b) forest ≠ [] := by
      intro hnil
      have hlen := length_insert (a.join b) forest
      rw [hnil] at hlen
      exact absurd hlen (by simp)
    obtain ⟨t, ht, hperm, hfair⟩ := ih h.join hne'
    exact ⟨t, ht, hperm.trans (alphabets_join a b forest), hfair⟩

/-! ## The tree of a byte string -/

theorem get_counts (raw : Bytes) (s : UInt8) :
    (counts raw).get ⟨s.toNat, UInt8.toNat_lt s⟩ = raw.count s := by
  suffices h : ∀ t : Vector Nat 256,
      (raw.foldl countByte t).get ⟨s.toNat, UInt8.toNat_lt s⟩ =
        t.get ⟨s.toNat, UInt8.toNat_lt s⟩ + raw.count s by
    have hzero : (Vector.replicate 256 0).get ⟨s.toNat, UInt8.toNat_lt s⟩ = 0 :=
      Vector.getElem_replicate _
    rw [counts, h, hzero, Nat.zero_add]
  induction raw with
  | nil =>
    intro t
    rfl
  | cons b raw ih =>
    intro t
    have hstep : (countByte t b).get ⟨s.toNat, UInt8.toNat_lt s⟩ =
        t.get ⟨s.toNat, UInt8.toNat_lt s⟩ + if b = s then 1 else 0 := by
      by_cases hb : b = s
      · subst hb
        rw [if_pos rfl]
        exact get_set_self t b _
      · rw [if_neg hb]
        exact get_set_of_ne t hb _
    rw [List.foldl_cons, ih, hstep, List.count_cons, beq_eq_decide, Nat.add_assoc]
    by_cases hb : b = s <;> simp [hb, Nat.add_comm]

theorem mem_occurring {raw : Bytes} {p : UInt8 × Nat} :
    p ∈ occurring raw ↔ p.1 ∈ raw ∧ p.2 = raw.count p.1 := by
  obtain ⟨s, n⟩ := p
  rw [occurring]
  simp only [List.mem_filter, List.mem_map, get_counts, decide_eq_true_iff]
  constructor
  · rintro ⟨⟨s', -, heq⟩, hpos⟩
    obtain ⟨rfl, rfl⟩ := Prod.mk.inj heq
    exact ⟨List.count_pos_iff.mp hpos, rfl⟩
  · rintro ⟨hs, rfl⟩
    exact ⟨⟨s, mem_symbols s, rfl⟩, List.count_pos_iff.mpr hs⟩

/-- The symbols that occur are the bytes of the string, each once. -/
theorem occurring_perm (raw : Bytes) : ((occurring raw).map Prod.fst).Perm raw.dedup := by
  have hnodup : ((occurring raw).map Prod.fst).Nodup := by
    have hall : ((symbols.map fun s =>
        (s, (counts raw).get ⟨s.toNat, UInt8.toNat_lt s⟩)).map Prod.fst).Nodup := by
      rw [List.map_map]
      exact (List.map_id symbols).symm ▸ nodup_symbols
    exact hall.sublist (List.filter_sublist.map Prod.fst)
  refine (List.perm_ext_iff_of_nodup hnodup raw.nodup_dedup).mpr ?_
  intro s
  rw [List.mem_dedup]
  constructor
  · intro hs
    obtain ⟨p, hp, rfl⟩ := List.mem_map.mp hs
    exact (mem_occurring.mp hp).1
  · intro hs
    exact List.mem_map.mpr ⟨(s, raw.count s), mem_occurring.mpr ⟨hs, rfl⟩, rfl⟩

/-- Planting leaves one after the other. -/
private theorem plant (pairs : List (UInt8 × Nat)) (forest : List Weighted) (h : Sorted forest) :
    Sorted (pairs.foldl (fun forest p => insert ⟨p.2, .leaf p.1⟩ forest) forest) ∧
      (pairs.foldl (fun forest p => insert ⟨p.2, .leaf p.1⟩ forest) forest).Perm
        (pairs.map (fun p => ⟨p.2, .leaf p.1⟩) ++ forest) := by
  induction pairs generalizing forest with
  | nil => exact ⟨h, List.Perm.refl _⟩
  | cons p pairs ih =>
    obtain ⟨hsorted, hperm⟩ := ih (insert ⟨p.2, .leaf p.1⟩ forest) (h.insert _)
    refine ⟨hsorted, hperm.trans ?_⟩
    exact ((insert_perm _ _).append_left _).trans List.perm_middle

theorem leaves_perm (raw : Bytes) :
    (leaves raw).Perm ((occurring raw).map fun p => ⟨p.2, .leaf p.1⟩) := by
  have h := (plant (occurring raw) [] List.Pairwise.nil).2
  rw [List.append_nil] at h
  exact h

theorem exists_leaf {raw : Bytes} {t : Weighted} (ht : t ∈ leaves raw) :
    ∃ s, t = ⟨raw.count s, .leaf s⟩ := by
  obtain ⟨p, hp, rfl⟩ := List.mem_map.mp ((leaves_perm raw).mem_iff.mp ht)
  exact ⟨p.1, by rw [(mem_occurring.mp hp).2]⟩

theorem leaves_grown (raw : Bytes) : Grown raw.count (leaves raw) := by
  refine ⟨(plant (occurring raw) [] List.Pairwise.nil).1, ?_, ?_, ?_⟩
  · intro t ht
    obtain ⟨s, rfl⟩ := exists_leaf ht
    show raw.count s = ([s].map raw.count).sum
    simp
  · intro t ht
    obtain ⟨s, rfl⟩ := exists_leaf ht
    trivial
  · intro t ht c hc
    obtain ⟨s, rfl⟩ := exists_leaf ht
    exact absurd hc (by simp [Tree.children])

/-- The leaves weigh what the bytes count. -/
theorem weights_leaves (raw : Bytes) :
    ((leaves raw).map Weighted.weight).Perm (raw.dedup.map raw.count) := by
  have hcounts : (occurring raw).map Prod.snd = ((occurring raw).map Prod.fst).map raw.count := by
    rw [List.map_map]
    refine List.map_congr_left ?_
    intro p hp
    exact (mem_occurring.mp hp).2
  have hweights := (leaves_perm raw).map Weighted.weight
  rw [List.map_map] at hweights
  refine hweights.trans ?_
  show ((occurring raw).map Prod.snd).Perm _
  rw [hcounts]
  exact (occurring_perm raw).map raw.count

theorem alphabets_leaves (raw : Bytes) : (alphabets (leaves raw)).Perm raw.dedup := by
  refine ((leaves_perm raw).flatMap_right _).trans ?_
  rw [List.flatMap_map]
  have hmap : ((occurring raw).flatMap fun p => Tree.alphabet (.leaf p.1)) =
      (occurring raw).map Prod.fst :=
    List.map_eq_flatMap.symm
  exact hmap ▸ occurring_perm raw

/-- **The tree of a byte string** has the symbols of the string at its leaves
and is fair for their counts. -/
theorem exists_tree {raw : Bytes} (hne : raw ≠ []) :
    ∃ t, joinAll (leaves raw) = some t ∧ t.alphabet.Perm raw.dedup ∧ t.Fair raw.count := by
  have hleaves : leaves raw ≠ [] := by
    intro hnil
    have hperm := alphabets_leaves raw
    rw [hnil] at hperm
    obtain ⟨b, hb⟩ := List.exists_mem_of_ne_nil raw hne
    exact absurd (hperm.mem_iff.mpr (List.mem_dedup.mpr hb)) (by simp [alphabets])
  obtain ⟨t, ht, hperm, hfair⟩ := (leaves_grown raw).joinAll hleaves
  exact ⟨t, ht, hperm.trans (alphabets_leaves raw), hfair⟩

/-- The leaves weigh as much as there are bytes. -/
theorem weight_eq_length {raw : Bytes} {t : Tree} (h : t.alphabet.Perm raw.dedup) :
    t.weight raw.count = raw.length := by
  rw [Tree.weight, (h.map raw.count).sum_eq]
  exact List.sum_map_count_dedup_eq_length raw

/-- **A tree of `n` bytes is as high as the Fibonacci numbers allow.** -/
theorem fib_height_le {raw : Bytes} {t : Tree} (hperm : t.alphabet.Perm raw.dedup)
    (hfair : t.Fair raw.count) : Nat.fib (t.height + 2) ≤ raw.length := by
  rw [← weight_eq_length hperm]
  refine hfair.fib_le ?_
  intro s hs
  exact List.count_pos_iff.mpr (List.mem_dedup.mp (hperm.mem_iff.mp hs))

end LatticeSuite.Huffman
