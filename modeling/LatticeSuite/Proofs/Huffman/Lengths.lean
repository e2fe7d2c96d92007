import LatticeSuite.Proofs.Huffman.Forest

/-!
# The code lengths of a byte string fit

The lengths are the depths of the symbols in the tree of the string, and a
tree's leaves use up exactly the bit strings there are (`kraft_depths`). So
the words fit: `fits` asks at every length whether enough bit strings are
left, and by `fits_of_kraft` this follows from the sum over all lengths.

How deep a tree can be is a matter of the Fibonacci bound: `fib 59` bytes are
needed for a word of more than 56 bits, the longest that a table may declare
(`height_le`), and that is more than a header can count. No word is longer than
a byte can say, however many bytes there are, because there are no more than
256 leaves (`length_of_codeLengths`).

`of_codeLengths` and `check_codeLengths` are what the coder takes from here.
-/

namespace LatticeSuite.Huffman

/-! ## Depths -/

namespace Tree

theorem map_fst_depths (t : Tree) (d : Nat) : (t.depths d).map Prod.fst = t.alphabet := by
  induction t generalizing d with
  | leaf s => rfl
  | node l r ihl ihr => rw [depths, alphabet, List.map_append, ihl, ihr]

theorem mem_depths {t : Tree} {d : Nat} {p : UInt8 × Nat} (h : p ∈ t.depths d) :
    d ≤ p.2 ∧ p.2 ≤ d + t.height := by
  induction t generalizing d with
  | leaf s =>
    rw [List.mem_singleton.mp h]
    exact ⟨Nat.le_refl d, Nat.le_refl d⟩
  | node l r ihl ihr =>
    rw [height]
    rcases List.mem_append.mp h with hl | hr
    · have := ihl hl
      omega
    · have := ihr hr
      omega

/-- The leaves below a node use up the bit strings below it. -/
theorem kraft_depths (t : Tree) (d m : Nat) (h : d + t.height ≤ m) :
    ((t.depths d).map fun p => 2 ^ (m - p.2)).sum = 2 ^ (m - d) := by
  induction t generalizing d with
  | leaf s => simp [depths]
  | node l r ihl ihr =>
    rw [height] at h
    rw [depths, List.map_append, List.sum_append, ihl (d + 1) (by omega), ihr (d + 1) (by omega),
      show m - d = m - (d + 1) + 1 from by omega, Nat.pow_succ]
    omega

/-- The symbols with the lengths of their words. A single symbol still needs a bit. -/
def wordLengths : Tree → List (UInt8 × Nat)
  | leaf s => [(s, 1)]
  | t => t.depths 0

theorem map_fst_wordLengths (t : Tree) : t.wordLengths.map Prod.fst = t.alphabet := by
  cases t with
  | leaf s => rfl
  | node l r => exact map_fst_depths (node l r) 0

theorem mem_wordLengths {t : Tree} {p : UInt8 × Nat} (h : p ∈ t.wordLengths) :
    1 ≤ p.2 ∧ p.2 ≤ max 1 t.height := by
  cases t with
  | leaf s =>
    rw [List.mem_singleton.mp h]
    exact ⟨Nat.le_refl 1, Nat.le_refl 1⟩
  | node l r =>
    have hpos : 1 ≤ p.2 := by
      rcases List.mem_append.mp h with hl | hr
      · exact (mem_depths hl).1
      · exact (mem_depths hr).1
    have hle := (mem_depths (t := node l r) (d := 0) h).2
    omega

theorem mem_wordLengths_of_le {t : Tree} (ht : t.height ≤ maxLength) {p : UInt8 × Nat}
    (h : p ∈ t.wordLengths) : 1 ≤ p.2 ∧ p.2 ≤ maxLength := by
  have hbounds := mem_wordLengths h
  have hmax : maxLength = 56 := rfl
  omega

theorem kraft_wordLengths {t : Tree} {m : Nat} (h : t.height ≤ m) :
    (t.wordLengths.map fun p => 2 ^ (m - p.2)).sum ≤ 2 ^ m := by
  cases t with
  | leaf s =>
    show 2 ^ (m - 1) + 0 ≤ 2 ^ m
    exact Nat.pow_le_pow_right (by decide) (Nat.sub_le m 1)
  | node l r =>
    have hsum := kraft_depths (node l r) 0 m (by omega)
    exact Nat.le_of_eq hsum

/-- A tree that is not too heavy gives no word longer than a table may declare. -/
theorem height_le {raw : Bytes} {t : Tree} (hperm : t.alphabet.Perm raw.dedup)
    (hfair : t.Fair raw.count) (hlen : raw.length < Nat.fib (maxLength + 3)) :
    t.height ≤ maxLength := by
  have hfib := fib_height_le hperm hfair
  by_contra hge
  have hmono : Nat.fib (maxLength + 3) ≤ Nat.fib (t.height + 2) := Nat.fib_mono (by omega)
  omega

/-- A path has a leaf for each of its nodes, and one more at its end. -/
theorem height_lt_length_alphabet (t : Tree) : t.height < t.alphabet.length := by
  induction t with
  | leaf s => exact Nat.zero_lt_one
  | node l r ihl ihr =>
    rw [height, alphabet, List.length_append]
    omega

end Tree

/-! ## Lengths by symbol -/

theorem codeLengths_eq {raw : Bytes} {t : Tree} (h : joinAll (leaves raw) = some t) :
    codeLengths raw = CodeLengths.ofDepths t.wordLengths := by
  rw [codeLengths, h]
  cases t <;> rfl

theorem ofDepths_eq (depths : List (UInt8 × Nat)) :
    CodeLengths.ofDepths depths =
      enter CodeLengths.empty (depths.map fun p => (p.1, UInt8.ofNat p.2)) := by
  rw [enter, List.foldl_map]
  rfl

theorem CodeLengths.of_empty (s : UInt8) : CodeLengths.empty.of s = 0 :=
  Vector.getElem_replicate _

/-- The entries of a table are the lengths of the symbols, in order. -/
theorem CodeLengths.toList_eq (l : CodeLengths) : l.toList = symbols.map l.of := by
  refine List.ext_getElem ?_ ?_
  · rw [symbols, List.map_map, List.length_map, List.length_range]
    exact l.length_toList
  · intro i hi _
    rw [Vector.length_toList] at hi
    have hsym : (UInt8.ofNat i).toNat = i := UInt8.toNat_ofNat_of_lt' hi
    simp only [symbols, CodeLengths.of, List.getElem_map, List.getElem_range,
      Vector.getElem_toList, hsym]
    rfl

/-- A reader looks for words that are too long among all entries. -/
theorem CodeLengths.any_long_eq_false_iff (l : CodeLengths) :
    (l.toList.any fun n => decide (maxLength < n.toNat)) = false ↔
      ∀ s, (l.of s).toNat ≤ maxLength := by
  rw [l.toList_eq, List.any_map, List.any_eq_false]
  simp

/-- The length that is assigned to a symbol, if symbols come once and lengths fit a byte. -/
theorem of_ofDepths {depths : List (UInt8 × Nat)} (hnodup : (depths.map Prod.fst).Nodup)
    {s : UInt8} {d : Nat} (hmem : (s, d) ∈ depths) (hd : d < 256) :
    ((CodeLengths.ofDepths depths).of s).toNat = d := by
  have hkeys : ((depths.map fun p => (p.1, UInt8.ofNat p.2)).map Prod.fst).Nodup := by
    rw [List.map_map]
    exact hnodup
  have hentry : (s, UInt8.ofNat d) ∈ depths.map fun p => (p.1, UInt8.ofNat p.2) :=
    List.mem_map.mpr ⟨(s, d), hmem, rfl⟩
  rw [ofDepths_eq, CodeLengths.of, get_enter_of_mem hkeys _ hentry]
  exact UInt8.toNat_ofNat_of_lt' hd

theorem of_ofDepths_of_not_mem {depths : List (UInt8 × Nat)} {s : UInt8}
    (h : s ∉ depths.map Prod.fst) : (CodeLengths.ofDepths depths).of s = 0 := by
  rw [ofDepths_eq, CodeLengths.of]
  rcases get_enter (depths.map fun p => (p.1, UInt8.ofNat p.2)) CodeLengths.empty s
    with hmem | ⟨-, hget⟩
  · obtain ⟨p, hp, heq⟩ := List.mem_map.mp hmem
    exact absurd (List.mem_map.mpr ⟨p, hp, (Prod.mk.inj heq).1⟩) h
  · rw [hget]
    exact CodeLengths.of_empty s

/-! ## Fitting -/

/-- The bit strings of the longest length that the words of the groups take up. -/
def kraft : List (List UInt8) → Nat
  | [] => 0
  | group :: groups => group.length * 2 ^ groups.length + kraft groups

/-- Words fit at every length if and only if together they take up no more
than there is. -/
theorem fits_iff_kraft_le (groups : List (List UInt8)) (free : Nat) :
    fits groups free = true ↔ kraft groups ≤ free * 2 ^ groups.length := by
  induction groups generalizing free with
  | nil => simp [fits, kraft]
  | cons group groups ih =>
    have hpos : 0 < 2 ^ groups.length := Nat.pow_pos (by decide)
    have hdouble : free * 2 ^ (group :: groups).length = 2 * free * 2 ^ groups.length := by
      rw [List.length_cons, Nat.pow_succ']
      ring
    rw [fits, Bool.and_eq_true, decide_eq_true_iff, ih, Nat.sub_mul, kraft, hdouble]
    constructor
    · rintro ⟨hle, hrest⟩
      have := Nat.mul_le_mul_right (2 ^ groups.length) hle
      omega
    · intro h
      refine ⟨Nat.le_of_mul_le_mul_right (c := 2 ^ groups.length) ?_ hpos, ?_⟩
      · omega
      · omega

/-- The symbols of one length among all. -/
private theorem length_filter_mul (ss : List UInt8) (p : UInt8 → Bool) (c : Nat) :
    (ss.filter p).length * c = (ss.map fun s => if p s then c else 0).sum := by
  induction ss with
  | nil => simp
  | cons s ss ih =>
    rw [List.filter_cons, List.map_cons, List.sum_cons, ← ih]
    cases hp : p s with
    | false => simp
    | true =>
      simp only [if_true, List.length_cons]
      ring

/-- Counting the words by length or by symbol makes no difference. -/
theorem kraft_groups (ss : List UInt8) (length : UInt8 → Nat) (a n : Nat) :
    kraft ((List.range' a n).map fun k => ss.filter fun s => length s == k + 1) =
      (ss.map fun s =>
        if a < length s ∧ length s ≤ a + n then 2 ^ (a + n - length s) else 0).sum := by
  induction n generalizing a with
  | zero =>
    have hzero : (fun s => if a < length s ∧ length s ≤ a + 0 then 2 ^ (a + 0 - length s) else 0) =
        fun _ => 0 := by
      funext s
      rw [if_neg (by omega)]
    rw [hzero]
    simp [kraft]
  | succ n ih =>
    rw [List.range'_succ, List.map_cons, kraft, ih (a + 1), List.length_map, List.length_range',
      length_filter_mul, ← List.sum_map_add]
    congr 1
    refine List.map_congr_left ?_
    intro s _
    -- a length is the first one, a later one or none of them
    by_cases hfirst : length s = a + 1
    · simp only [hfirst, beq_self_eq_true, if_true]
      rw [if_neg (by omega), if_pos (by omega), show a + (n + 1) - (a + 1) = n from by omega]
      rfl
    · rw [if_neg (by simpa using hfirst), Nat.zero_add]
      by_cases hlater : a + 1 < length s ∧ length s ≤ a + 1 + n
      · rw [if_pos hlater, if_pos (by omega),
          show a + 1 + n - length s = a + (n + 1) - length s from by omega]
      · rw [if_neg hlater, if_neg (by omega)]

/-- The bit strings of the longest length that the word of a symbol takes up. -/
def CodeLengths.share (l : CodeLengths) (s : UInt8) : Nat :=
  if 0 < (l.of s).toNat ∧ (l.of s).toNat ≤ maxLength then 2 ^ (maxLength - (l.of s).toNat) else 0

theorem CodeLengths.share_of_length {l : CodeLengths} {s : UInt8} {d : Nat}
    (h : (l.of s).toNat = d) (hpos : 1 ≤ d) (hmax : d ≤ maxLength) :
    l.share s = 2 ^ (maxLength - d) := by
  subst h
  exact if_pos ⟨hpos, hmax⟩

theorem CodeLengths.share_of_zero {l : CodeLengths} {s : UInt8} (h : l.of s = 0) :
    l.share s = 0 := by
  have hzero : (l.of s).toNat = 0 := by rw [h]; rfl
  exact if_neg fun hs => absurd hzero (Nat.ne_of_gt hs.1)

theorem CodeLengths.kraft_groups_eq_sum_share (l : CodeLengths) :
    kraft l.groups = (symbols.map l.share).sum := by
  have h := kraft_groups symbols (fun s => (l.of s).toNat) 0 maxLength
  simp only [Nat.zero_add] at h
  exact h

/-- The words of a table fit if and only if the shares of the symbols add up
to no more than there is. -/
theorem CodeLengths.fits_iff (l : CodeLengths) :
    fits l.groups 1 = true ↔ (symbols.map l.share).sum ≤ 2 ^ maxLength := by
  rw [fits_iff_kraft_le, l.kraft_groups_eq_sum_share, groups, List.length_map, List.length_range,
    Nat.one_mul]

/-- Only the symbols with a word have a share. -/
theorem CodeLengths.sum_share {l : CodeLengths} {ss : List UInt8} (hnodup : ss.Nodup)
    (hnone : ∀ s, s ∉ ss → l.of s = 0) : (symbols.map l.share).sum = (ss.map l.share).sum := by
  have hfilter : ∀ all : List UInt8, (all.map l.share).sum =
      ((all.filter fun s => decide (s ∈ ss)).map l.share).sum := by
    intro all
    induction all with
    | nil => rfl
    | cons s all ih =>
      by_cases hs : s ∈ ss
      · rw [List.filter_cons_of_pos (by simpa using hs), List.map_cons, List.sum_cons, ih,
          List.map_cons, List.sum_cons]
      · rw [List.filter_cons_of_neg (by simpa using hs), List.map_cons, List.sum_cons, ih,
          CodeLengths.share_of_zero (hnone s hs), Nat.zero_add]
  have hperm : (symbols.filter fun s => decide (s ∈ ss)).Perm ss := by
    refine (List.perm_ext_iff_of_nodup (nodup_symbols.filter _) hnodup).mpr ?_
    intro s
    simp
  rw [hfilter, (hperm.map l.share).sum_eq]

/-- The words of a table that a tree gives fit. -/
theorem fits_of_tree {t : Tree} (hnodup : t.alphabet.Nodup) (hheight : t.height ≤ maxLength) :
    fits (CodeLengths.ofDepths t.wordLengths).groups 1 = true := by
  have hkeys : (t.wordLengths.map Prod.fst).Nodup := t.map_fst_wordLengths.symm ▸ hnodup
  have hnone : ∀ s, s ∉ t.wordLengths.map Prod.fst →
      (CodeLengths.ofDepths t.wordLengths).of s = 0 := fun s hs => of_ofDepths_of_not_mem hs
  have hshares : (t.wordLengths.map Prod.fst).map (CodeLengths.ofDepths t.wordLengths).share =
      t.wordLengths.map fun p => 2 ^ (maxLength - p.2) := by
    rw [List.map_map]
    refine List.map_congr_left ?_
    intro p hp
    obtain ⟨hpos, hmax⟩ := Tree.mem_wordLengths_of_le hheight hp
    have hbyte : p.2 < 256 := Nat.lt_of_le_of_lt hmax (by decide)
    rw [Function.comp_apply, CodeLengths.share_of_length (of_ofDepths hkeys hp hbyte) hpos hmax]
  rw [CodeLengths.fits_iff, CodeLengths.sum_share hkeys hnone, hshares]
  exact Tree.kraft_wordLengths hheight

/-! ## The table of a byte string -/

theorem codeLengths_nil : codeLengths [] = CodeLengths.empty := by
  have hnone : occurring [] = [] := by
    refine List.eq_nil_iff_forall_not_mem.mpr ?_
    intro p hp
    exact List.not_mem_nil (mem_occurring.mp hp).1
  have hleaves : leaves [] = [] := by
    rw [leaves, hnone, List.foldl_nil]
  rw [codeLengths, hleaves, joinAll]

/-- A byte that does not occur gets no word. -/
theorem of_codeLengths_of_not_mem {raw : Bytes} {s : UInt8} (hs : s ∉ raw) :
    (codeLengths raw).of s = 0 := by
  by_cases hne : raw = []
  · rw [hne, codeLengths_nil]
    exact CodeLengths.of_empty s
  · obtain ⟨t, ht, hperm, -⟩ := exists_tree hne
    rw [codeLengths_eq ht]
    apply of_ofDepths_of_not_mem
    rw [t.map_fst_wordLengths, hperm.mem_iff, List.mem_dedup]
    exact hs

/-- There are no more symbols than 256. -/
theorem length_le_of_nodup {bs : Bytes} (h : bs.Nodup) : bs.length ≤ 256 := by
  have hsub : bs.Subperm symbols := List.subperm_of_subset h fun s _ => mem_symbols s
  exact length_symbols ▸ hsub.length_le

/-- The words of a byte string are as long as its tree says. -/
theorem length_of_codeLengths {raw : Bytes} {t : Tree} (ht : joinAll (leaves raw) = some t)
    (hperm : t.alphabet.Perm raw.dedup) {p : UInt8 × Nat} (hp : p ∈ t.wordLengths) :
    ((codeLengths raw).of p.1).toNat = p.2 := by
  have hkeys : (t.wordLengths.map Prod.fst).Nodup := by
    rw [t.map_fst_wordLengths]
    exact hperm.nodup_iff.mpr raw.nodup_dedup
  have hbyte : p.2 < 256 := by
    have hbounds := Tree.mem_wordLengths hp
    have hheight := t.height_lt_length_alphabet
    have hleaves := length_le_of_nodup raw.nodup_dedup
    rw [hperm.length_eq] at hheight
    omega
  rw [codeLengths_eq ht]
  exact of_ofDepths hkeys hp hbyte

/-- A byte that occurs is at a leaf. -/
theorem exists_wordLength {raw : Bytes} {t : Tree} (hperm : t.alphabet.Perm raw.dedup) {s : UInt8}
    (hs : s ∈ raw) : ∃ d, (s, d) ∈ t.wordLengths := by
  have hmem : s ∈ t.wordLengths.map Prod.fst := by
    rw [t.map_fst_wordLengths]
    exact hperm.mem_iff.mpr (List.mem_dedup.mpr hs)
  obtain ⟨p, hp, rfl⟩ := List.mem_map.mp hmem
  exact ⟨p.2, hp⟩

/-- **Every byte of a string gets a word**, none longer than a table may declare. -/
theorem of_codeLengths {raw : Bytes} (hlen : raw.length < Nat.fib (maxLength + 3)) {s : UInt8}
    (hs : s ∈ raw) :
    1 ≤ ((codeLengths raw).of s).toNat ∧ ((codeLengths raw).of s).toNat ≤ maxLength := by
  obtain ⟨t, ht, hperm, hfair⟩ := exists_tree (List.ne_nil_of_mem hs)
  obtain ⟨d, hd⟩ := exists_wordLength hperm hs
  rw [length_of_codeLengths ht hperm hd]
  exact Tree.mem_wordLengths_of_le (Tree.height_le hperm hfair hlen) hd

/-- **The words of a byte string fit.** -/
theorem fits_codeLengths {raw : Bytes} (hlen : raw.length < Nat.fib (maxLength + 3)) :
    fits (codeLengths raw).groups 1 = true := by
  by_cases hne : raw = []
  · subst hne
    rw [CodeLengths.fits_iff, CodeLengths.sum_share List.nodup_nil]
    · exact Nat.zero_le _
    · intro s _
      exact of_codeLengths_of_not_mem List.not_mem_nil
  · obtain ⟨t, ht, hperm, hfair⟩ := exists_tree hne
    rw [codeLengths_eq ht]
    exact fits_of_tree (hperm.nodup_iff.mpr raw.nodup_dedup) (Tree.height_le hperm hfair hlen)

/-- **A reader accepts the table of a byte string.** -/
theorem check_codeLengths {raw : Bytes} (hlen : raw.length < Nat.fib (maxLength + 3)) :
    (codeLengths raw).check = .ok (codeLengths raw).groups := by
  have hlong := (codeLengths raw).any_long_eq_false_iff.mpr fun s => by
    by_cases hs : s ∈ raw
    · exact (of_codeLengths hlen hs).2
    · rw [of_codeLengths_of_not_mem hs]
      decide
  rw [CodeLengths.check, hlong, fits_codeLengths hlen]
  rfl

end LatticeSuite.Huffman
