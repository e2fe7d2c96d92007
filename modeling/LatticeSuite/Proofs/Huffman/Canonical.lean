import LatticeSuite.Proofs.Checked.Basic
import LatticeSuite.Proofs.Huffman.Kraft

/-!
# The words of a table, its own or a foreign one

A reader takes tables that it did not write, and all that it knows of one is
that it passed the check: no length is above 56 and the Kraft sum is at most 1.
The sum may fall short of 1. This module says what follows for every such table.

The numbers come first. `code l s` is the number of the word of `s`, the first
number of its length plus the rank of `s` among the symbols of that length.
Since the words of one length end before the bit strings do
(`firstCode_add_le`), the number has the bits it is written in. `canonicalCodes`
finds all numbers with a counter for each length, in registers and with
tables of 57 entries, and on an accepted table it never leaves them.

Then the words. None is a prefix of another, because a reader that takes the
first bits for a word does so whatever follows. And if the sum is 1, no bit
string is left without a meaning (`decodeSymbol_of_full`): a reader is never
further from the first bit string of a length than there are bit strings left,
and behind the last length none are.
-/

namespace LatticeSuite.Huffman

open Checked

namespace CodeLengths

variable {l : CodeLengths}

/-! ## The number of a word -/

/-- The number of the first word of a length. -/
def firstCode (l : CodeLengths) : Nat → Nat
  | 0 => 0
  | n + 1 => 2 * (l.firstCode n + l.wordLengths.count n)

/-- The number of the word of a symbol. -/
def code (l : CodeLengths) (s : UInt8) : Nat :=
  l.firstCode (l.of s).toNat + (l.group (l.of s).toNat).idxOf s

theorem wordLengths_eq_toList (l : CodeLengths) :
    l.wordLengths = (l.toList.filter (· ≠ 0)).map UInt8.toNat := by
  rw [wordLengths, entries, l.toList_eq, List.filter_map, List.filter_map, List.map_map,
    List.map_map]
  rfl

theorem count_zero_wordLengths (l : CodeLengths) : l.wordLengths.count 0 = 0 := by
  refine List.count_eq_zero_of_not_mem ?_
  intro hzero
  obtain ⟨p, hp, hlen⟩ := List.mem_map.mp hzero
  exact (mem_entries.mp hp).2 (UInt8.toNat_inj.mp hlen)

/-- A group has a symbol for each time its length occurs. -/
theorem count_toList (l : CodeLengths) (n : Nat) :
    (l.toList.map UInt8.toNat).count n = (l.group n).length := by
  rw [l.toList_eq, List.map_map, List.count, List.countP_map, List.countP_eq_length_filter]
  rfl

theorem length_group (l : CodeLengths) {n : Nat} (hn : 1 ≤ n) :
    (l.group n).length = l.wordLengths.count n := by
  rw [← l.count_toList, l.wordLengths_eq_toList, List.count, List.countP_map, List.countP_map,
    List.countP_filter]
  refine List.countP_congr fun b _ => ?_
  have hne : b.toNat = n → b ≠ 0 := by
    rintro rfl rfl
    exact absurd hn (by decide)
  simpa using hne

/-- The groups from length `a + 1` on. -/
def groupsFrom (l : CodeLengths) (a n : Nat) : List (List UInt8) :=
  (List.range' a n).map fun k => l.group (k + 1)

theorem groupsFrom_zero (l : CodeLengths) : l.groupsFrom 0 maxLength = l.groups := by
  rw [groupsFrom, groups, List.range_eq_range']

theorem groupsFrom_succ (l : CodeLengths) (a n : Nat) :
    l.groupsFrom a (n + 1) = l.group (a + 1) :: l.groupsFrom (a + 1) n := by
  rw [groupsFrom, List.range'_succ, List.map_cons]
  rfl

theorem firstCode_succ (l : CodeLengths) (a : Nat) :
    l.firstCode (a + 1 + 1) = 2 * (l.firstCode (a + 1) + (l.group (a + 1)).length) := by
  rw [firstCode, l.length_group (Nat.le_add_left 1 a)]

theorem firstCode_one (l : CodeLengths) : l.firstCode 1 = 0 := by
  rw [firstCode, firstCode, l.count_zero_wordLengths]

theorem nodup_group (l : CodeLengths) (n : Nat) : (l.group n).Nodup :=
  nodup_symbols.filter _

theorem mem_group_iff {s : UInt8} {n : Nat} : s ∈ l.group n ↔ (l.of s).toNat = n := by
  simp [group]

/-- Counting through the symbols of a length. -/
theorem mem_zipIdx_iff {ss : List UInt8} (hnodup : ss.Nodup) (first : Nat) {s : UInt8} {c : Nat} :
    (s, c) ∈ ss.zipIdx first ↔ s ∈ ss ∧ c = first + ss.idxOf s := by
  rw [List.mk_mem_zipIdx_iff_le_and_getElem?_sub]
  constructor
  · rintro ⟨hle, hget⟩
    obtain ⟨hlt, rfl⟩ := List.getElem?_eq_some_iff.mp hget
    refine ⟨List.getElem_mem hlt, ?_⟩
    rw [hnodup.idxOf_getElem]
    omega
  · rintro ⟨hs, rfl⟩
    refine ⟨Nat.le_add_right _ _, ?_⟩
    rw [Nat.add_sub_cancel_left]
    exact List.getElem?_idxOf hs

/-- A table assigns each symbol the word of its number. -/
theorem mem_assignWords (a n : Nat) {s : UInt8} {w : List Bool} :
    (s, w) ∈ assignWords (l.groupsFrom a n) (a + 1) (l.firstCode (a + 1)) ↔
      (a < (l.of s).toNat ∧ (l.of s).toNat ≤ a + n) ∧ w = bitsBE (l.of s).toNat (l.code s) := by
  induction n generalizing a with
  | zero =>
    refine ⟨fun h => absurd h (by simp [groupsFrom, assignWords]), fun h => ?_⟩
    omega
  | succ n ih =>
    rw [groupsFrom_succ, assignWords, List.mem_append, ← l.firstCode_succ, ih]
    have hhead : (s, w) ∈ ((l.group (a + 1)).zipIdx (l.firstCode (a + 1))).map
        (fun p => (p.1, bitsBE (a + 1) p.2)) ↔
        (l.of s).toNat = a + 1 ∧ w = bitsBE (l.of s).toNat (l.code s) := by
      constructor
      · intro h
        obtain ⟨⟨s', c⟩, hmem, heq⟩ := List.mem_map.mp h
        obtain ⟨rfl, rfl⟩ := Prod.mk.inj heq
        obtain ⟨hs, rfl⟩ := (mem_zipIdx_iff (l.nodup_group _) _).mp hmem
        have hlen := mem_group_iff.mp hs
        exact ⟨hlen, by rw [code, hlen]⟩
      · rintro ⟨hlen, rfl⟩
        refine List.mem_map.mpr ⟨(s, l.code s), ?_, by rw [hlen]⟩
        refine (mem_zipIdx_iff (l.nodup_group _) _).mpr ⟨mem_group_iff.mpr hlen, ?_⟩
        rw [code, hlen]
    rw [hhead]
    constructor
    · rintro (⟨hlen, hw⟩ | ⟨hlen, hw⟩)
      · exact ⟨by omega, hw⟩
      · exact ⟨by omega, hw⟩
    · rintro ⟨hlen, hw⟩
      by_cases hfirst : (l.of s).toNat = a + 1
      · exact Or.inl ⟨hfirst, hw⟩
      · exact Or.inr ⟨by omega, hw⟩

theorem mem_words {s : UInt8} {w : List Bool} :
    (s, w) ∈ l.words ↔ (0 < (l.of s).toNat ∧ (l.of s).toNat ≤ maxLength) ∧
      w = bitsBE (l.of s).toNat (l.code s) := by
  have h := mem_assignWords (l := l) 0 maxLength (s := s) (w := w)
  rw [groupsFrom_zero, firstCode_one, Nat.zero_add] at h
  exact h

/-- **The word of a symbol** is its number in the bits of its length. -/
theorem word_eq {s : UInt8} (hpos : 0 < (l.of s).toNat) (hmax : (l.of s).toNat ≤ maxLength) :
    l.word s = bitsBE (l.of s).toNat (l.code s) := by
  rcases get_enter l.words (Vector.replicate 256 []) s with hmem | ⟨hnone, -⟩
  · exact (mem_words.mp hmem).2
  · exact absurd rfl (hnone (s, _) (mem_words.mpr ⟨⟨hpos, hmax⟩, rfl⟩))

/-- A word is no longer than the table says; it is shorter only if the table
declares more bits than there can be. -/
theorem length_word_le (l : CodeLengths) (s : UInt8) : (l.word s).length ≤ (l.of s).toNat := by
  rcases get_enter l.words (Vector.replicate 256 []) s with hmem | ⟨-, hget⟩
  · rw [word, wordTable, ← enter, (mem_words.mp hmem).2, length_bitsBE]
  · have hnil : l.word s = [] := hget.trans (Vector.getElem_replicate _)
    rw [hnil]
    exact Nat.zero_le _

/-! ## Words that fit -/

/-- The words of one length end before the bit strings do. -/
theorem firstCode_add_le_of_fits {a n free f : Nat} (hfree : free + f = 2 ^ a)
    (hfirst : l.firstCode (a + 1) = 2 * f) (hfits : fits (l.groupsFrom a n) free = true) {k : Nat}
    (hk : a < k) (hk' : k ≤ a + n) : l.firstCode k + (l.group k).length ≤ 2 ^ k := by
  -- of the bit strings of `a` bits, `f` extend a word or are one and `free` are left
  induction n generalizing a free f with
  | zero => omega
  | succ n ih =>
    rw [groupsFrom_succ, fits, Bool.and_eq_true, decide_eq_true_iff] at hfits
    obtain ⟨hle, hfits'⟩ := hfits
    by_cases hlast : k = a + 1
    · subst hlast
      rw [hfirst, Nat.pow_succ]
      omega
    · refine ih (f := 2 * f + (l.group (a + 1)).length) ?_ ?_ hfits' (by omega) (by omega)
      · rw [Nat.pow_succ]
        omega
      · rw [l.firstCode_succ, hfirst]

theorem firstCode_add_le (hfits : fits l.groups 1 = true) {k : Nat} (hpos : 0 < k)
    (hmax : k ≤ maxLength) : l.firstCode k + l.wordLengths.count k ≤ 2 ^ k := by
  rw [← groupsFrom_zero] at hfits
  rw [← l.length_group hpos]
  refine firstCode_add_le_of_fits (f := 0) rfl ?_ hfits hpos (by omega)
  rw [l.firstCode_one]

/-- **A number fits in the bits it is written in.** -/
theorem code_lt (hfits : fits l.groups 1 = true) {s : UInt8} (hpos : 0 < (l.of s).toNat)
    (hmax : (l.of s).toNat ≤ maxLength) : l.code s < 2 ^ (l.of s).toNat := by
  have hle := firstCode_add_le hfits hpos hmax
  rw [← l.length_group hpos] at hle
  have hrank := List.idxOf_lt_length_of_mem (mem_group_iff.mpr (rfl : (l.of s).toNat = _))
  rw [code]
  omega

end CodeLengths

/-! ## Numbers from counters -/

/-- Number the first word of the next length: behind the words that are one bit
shorter, with a bit more. -/
def nextLength (counts : List Nat) (s : Nat × List Nat) (length : Nat) :
    Checked (Nat × List Nat) := do
  let shorter ← sub length 1
  let n ← read counts shorter
  let code ← fit 64 (s.1 + n)
  let code := code * 2 % 2 ^ 64
  let next ← write s.2 length code
  .ok (code, next)

/-- Give a symbol the next number of its length. -/
def takeNumber (l : CodeLengths) (s : List Nat × List Nat) (symbol : UInt8) :
    Checked (List Nat × List Nat) :=
  if l.of symbol = 0 then .ok s
  else do
    let code ← read s.2 (l.of symbol).toNat
    let codes ← write s.1 symbol.toNat code
    let following ← fit 64 (code + 1)
    let next ← write s.2 (l.of symbol).toNat following
    .ok (codes, next)

/-- The numbers of all words, by symbol: the words of each length are counted,
the first word of each length is numbered, and then the symbols take numbers in
order. -/
def canonicalCodes (l : CodeLengths) : Checked (List Nat) := do
  let counts ← ((l.toList.filter (· ≠ 0)).map UInt8.toNat).foldlM (count 64)
    (List.replicate (maxLength + 1) 0)
  let first ← (List.range' 1 maxLength).foldlM (nextLength counts)
    (0, List.replicate (maxLength + 1) 0)
  let all ← symbols.foldlM (takeNumber l) (List.replicate 256 0, first.2)
  .ok all.1

namespace CodeLengths

variable {l : CodeLengths}

theorem length_wordLengths_le (l : CodeLengths) : l.wordLengths.length ≤ 256 := by
  rw [wordLengths, List.length_map]
  exact l.length_entries_le

/-- **One length.** -/
theorem nextLength_eq (hfits : fits l.groups 1 = true) {a : Nat} (ha : a + 1 ≤ maxLength)
    (f : Nat → Nat) :
    nextLength (tabulate (maxLength + 1) fun k => l.wordLengths.count k)
        (l.firstCode a, tabulate (maxLength + 1) f) (a + 1) =
      .ok (l.firstCode (a + 1),
        tabulate (maxLength + 1) (Function.update f (a + 1) (l.firstCode (a + 1)))) := by
  have hmax : maxLength = 56 := rfl
  have hle : l.firstCode a + l.wordLengths.count a ≤ 2 ^ a := by
    rcases Nat.eq_zero_or_pos a with rfl | hpos
    · rw [firstCode, l.count_zero_wordLengths]
      decide
    · exact firstCode_add_le hfits hpos (by omega)
  have hpow : 2 ^ a ≤ 2 ^ 56 := Nat.pow_le_pow_right (by decide) (by omega)
  have hshift : (l.firstCode a + l.wordLengths.count a) * 2 % 2 ^ 64 = l.firstCode (a + 1) := by
    rw [Nat.mod_eq_of_lt (by omega), firstCode, Nat.mul_comm]
  rw [nextLength, sub_of_le (Nat.le_add_left 1 a), ok_bind, Nat.add_sub_cancel,
    read_tabulate _ (by omega), ok_bind, fit_of_lt (by omega), ok_bind]
  simp only [hshift]
  rw [write_tabulate _ (by omega), ok_bind]

/-- What the registers of the first loop hold. -/
theorem foldlM_nextLength (hfits : fits l.groups 1 = true) {a n : Nat} (hn : a + n ≤ maxLength)
    (f : Nat → Nat) (hf : ∀ k, 0 < k → k ≤ a → f k = l.firstCode k) :
    ∃ g, (List.range' (a + 1) n).foldlM
        (nextLength (tabulate (maxLength + 1) fun k => l.wordLengths.count k))
        (l.firstCode a, tabulate (maxLength + 1) f) =
          .ok (l.firstCode (a + n), tabulate (maxLength + 1) g) ∧
      ∀ k, 0 < k → k ≤ a + n → g k = l.firstCode k := by
  induction n generalizing a f with
  | zero => exact ⟨f, rfl, hf⟩
  | succ n ih =>
    have hf' : ∀ k, 0 < k → k ≤ a + 1 →
        Function.update f (a + 1) (l.firstCode (a + 1)) k = l.firstCode k := by
      intro k hpos hk
      rw [Function.update_apply]
      split
      next heq => rw [heq]
      next hne => exact hf k hpos (by omega)
    obtain ⟨g, hfold, hg⟩ := ih (by omega) _ hf'
    refine ⟨g, ?_, fun k hpos hk => hg k hpos (by omega)⟩
    rw [List.range'_succ, List.foldlM_cons, nextLength_eq hfits (by omega), ok_bind, hfold,
      show a + 1 + n = a + (n + 1) from by omega]

/-- Behind the symbols `done`: their words are numbered, and the counter of each
length is as many words ahead. -/
structure Numbered (l : CodeLengths) (done : List UInt8) (codes next : Nat → Nat) : Prop where
  codes_eq : ∀ s ∈ done, l.of s ≠ 0 → codes s.toNat = l.code s
  next_eq : ∀ n, 0 < n → n ≤ maxLength →
    next n = l.firstCode n + (done.filter fun s => (l.of s).toNat == n).length

variable {done rest : List UInt8} {s : UInt8} {codes next : Nat → Nat}

/-- The rank of a symbol is the number of those before it with words of its length. -/
theorem Numbered.next_eq_code (h : Numbered l done codes next)
    (hsplit : symbols = done ++ s :: rest) (hpos : 0 < (l.of s).toNat)
    (hmax : (l.of s).toNat ≤ maxLength) : next (l.of s).toNat = l.code s := by
  have hnew : s ∉ done := by
    have hnodup : (done ++ s :: rest).Nodup := hsplit ▸ nodup_symbols
    exact fun hmem => (List.disjoint_of_nodup_append hnodup) hmem List.mem_cons_self
  have hgroup : l.group (l.of s).toNat =
      (done.filter fun s' => (l.of s').toNat == (l.of s).toNat) ++
        s :: rest.filter fun s' => (l.of s').toNat == (l.of s).toNat := by
    rw [group, hsplit, List.filter_append, List.filter_cons_of_pos (by simp)]
  rw [h.next_eq _ hpos hmax, code, hgroup, List.idxOf_append_of_notMem, List.idxOf_cons_self,
    Nat.add_zero]
  exact fun hmem => hnew (List.mem_of_mem_filter hmem)

/-- A symbol without a word leaves the tables as they are. -/
theorem Numbered.skip (h : Numbered l done codes next) (hzero : l.of s = 0) :
    Numbered l (done ++ [s]) codes next where
  codes_eq := by
    intro s' hs' hne
    rcases List.mem_append.mp hs' with hmem | hlast
    · exact h.codes_eq s' hmem hne
    · exact absurd (List.mem_singleton.mp hlast ▸ hzero) hne
  next_eq := by
    intro n hpos hmax
    have hne : ¬(l.of s).toNat = n := by
      rw [hzero]
      exact fun h => absurd (h ▸ hpos) (by decide)
    rw [h.next_eq n hpos hmax, List.filter_append, List.filter_cons_of_neg (by simpa using hne),
      List.filter_nil, List.append_nil]

/-- A symbol with a word takes the next number of its length. -/
theorem Numbered.take (h : Numbered l done codes next) (hpos : 0 < (l.of s).toNat)
    (hmax : (l.of s).toNat ≤ maxLength) (hrank : next (l.of s).toNat = l.code s) :
    Numbered l (done ++ [s]) (Function.update codes s.toNat (l.code s))
      (Function.update next (l.of s).toNat (l.code s + 1)) where
  codes_eq := by
    intro s' hs' hne
    rw [Function.update_apply]
    by_cases hsame : s' = s
    · rw [hsame, if_pos rfl]
    · rw [if_neg fun h => hsame (UInt8.toNat_inj.mp h)]
      rcases List.mem_append.mp hs' with hmem | hlast
      · exact h.codes_eq s' hmem hne
      · exact absurd (List.mem_singleton.mp hlast) hsame
  next_eq := by
    intro n hpos' hmax'
    rw [Function.update_apply, List.filter_append, List.length_append]
    by_cases hn : n = (l.of s).toNat
    · subst hn
      rw [if_pos rfl, ← hrank, h.next_eq _ hpos hmax, List.filter_cons_of_pos (by simp)]
      rfl
    · rw [if_neg hn, h.next_eq n hpos' hmax',
        List.filter_cons_of_neg (by simpa using fun h => hn h.symm)]
      rfl

/-- **One symbol.** -/
theorem Numbered.takeNumber (h : Numbered l done codes next)
    (hlong : ∀ s, (l.of s).toNat ≤ maxLength) (hfits : fits l.groups 1 = true)
    (hsplit : symbols = done ++ s :: rest) :
    ∃ codes' next', Huffman.takeNumber l (tabulate 256 codes, tabulate (maxLength + 1) next) s =
        .ok (tabulate 256 codes', tabulate (maxLength + 1) next') ∧
      Numbered l (done ++ [s]) codes' next' := by
  rw [Huffman.takeNumber]
  by_cases hzero : l.of s = 0
  · exact ⟨codes, next, if_pos hzero, h.skip hzero⟩
  · have hpos : 0 < (l.of s).toNat := Nat.pos_of_ne_zero fun h => hzero (UInt8.toNat_inj.mp h)
    have hmax := hlong s
    have hrank := h.next_eq_code hsplit hpos hmax
    have hfollowing : l.code s + 1 < 2 ^ 64 := by
      have hlt := code_lt hfits hpos hmax
      have hpow : 2 ^ (l.of s).toNat ≤ 2 ^ 56 := Nat.pow_le_pow_right (by decide) hmax
      omega
    refine ⟨_, _, ?_, h.take hpos hmax hrank⟩
    rw [if_neg hzero, read_tabulate _ (by omega), ok_bind, write_tabulate _ (UInt8.toNat_lt s),
      ok_bind, hrank, fit_of_lt hfollowing, ok_bind, write_tabulate _ (by omega), ok_bind]

theorem Numbered.foldlM (h : Numbered l done codes next)
    (hlong : ∀ s, (l.of s).toNat ≤ maxLength) (hfits : fits l.groups 1 = true)
    (hsplit : symbols = done ++ rest) :
    ∃ codes' next', rest.foldlM (Huffman.takeNumber l)
        (tabulate 256 codes, tabulate (maxLength + 1) next) =
          .ok (tabulate 256 codes', tabulate (maxLength + 1) next') ∧
      Numbered l symbols codes' next' := by
  induction rest generalizing done codes next with
  | nil =>
    rw [List.append_nil] at hsplit
    exact ⟨codes, next, rfl, hsplit ▸ h⟩
  | cons s rest ih =>
    obtain ⟨codes', next', hstep, h'⟩ := h.takeNumber hlong hfits hsplit
    rw [List.foldlM_cons, hstep, ok_bind]
    exact ih h' (by rw [hsplit, List.append_assoc, List.singleton_append])

/-- **Counters number the words** of an accepted table, and neither leave their
registers nor their tables. -/
theorem canonicalCodes_eq (hlong : ∀ s, (l.of s).toNat ≤ maxLength)
    (hfits : fits l.groups 1 = true) :
    ∃ codes, canonicalCodes l = .ok (tabulate 256 codes) ∧
      ∀ s, l.of s ≠ 0 → codes s.toNat = l.code s := by
  have hmax : maxLength = 56 := rfl
  have hcount : l.wordLengths.foldlM (count 64) (List.replicate (maxLength + 1) 0) =
      .ok (tabulate (maxLength + 1) fun n => l.wordLengths.count n) := by
    rw [replicate_eq_tabulate, foldlM_count]
    · simp only [Nat.zero_add]
    · intro n hn
      exact Nat.lt_succ_of_le (le_of_mem_wordLengths hlong hn)
    · intro n
      have := l.length_wordLengths_le
      omega
  obtain ⟨first, hfirst, hnumbers⟩ := foldlM_nextLength hfits (a := 0) (n := maxLength)
    (by omega) (fun _ => 0) fun k hpos hk => absurd hpos (by omega)
  have hnone : Numbered l [] (fun _ => 0) first := by
    refine ⟨fun s hs => absurd hs List.not_mem_nil, fun n hpos hn => ?_⟩
    rw [hnumbers n hpos (by omega), List.filter_nil, List.length_nil, Nat.add_zero]
  obtain ⟨codes, next, hall, hnumbered⟩ := hnone.foldlM hlong hfits (List.nil_append symbols).symm
  refine ⟨codes, ?_, fun s => hnumbered.codes_eq s (mem_symbols s)⟩
  rw [canonicalCodes, ← l.wordLengths_eq_toList, hcount, ok_bind,
    replicate_eq_tabulate, replicate_eq_tabulate]
  have hzero : l.firstCode 0 = 0 := rfl
  rw [hzero] at hfirst
  rw [hfirst, ok_bind, hall, ok_bind]

/-- There is no counter for a word of 57 bits. -/
example : canonicalCodes (ofDepths [(0x61, 57)]) = .error (.fault .outOfRange) := by
  decide +kernel

end CodeLengths

/-! ## What a bit string means -/

/-- A reader is never further from the first bit string of a length than there
are bit strings left, so it finds a symbol if none are left in the end. -/
theorem decodeSymbol_of_full {groups : List (List UInt8)} {free distance : Nat}
    (hfull : kraft groups = free * 2 ^ groups.length) (hlt : distance < free) (bits : List Bool) :
    (∃ s rest, decodeSymbol groups distance bits = .ok (s, rest)) ∨
      decodeSymbol groups distance bits = .error .truncated := by
  induction groups generalizing free distance bits with
  | nil =>
    rw [kraft, List.length_nil, Nat.pow_zero] at hfull
    omega
  | cons group groups ih =>
    cases bits with
    | nil => exact Or.inr rfl
    | cons bit bits =>
      rw [decodeSymbol]
      have hbit : bit.toNat ≤ 1 := Bool.toNat_le bit
      by_cases hfound : 2 * distance + bit.toNat < group.length
      · simp only [dif_pos hfound]
        exact Or.inl ⟨_, bits, rfl⟩
      · simp only [dif_neg hfound]
        -- the words of this length are passed, and so is the distance
        have hleft : kraft groups = (2 * free - group.length) * 2 ^ groups.length := by
          rw [kraft, List.length_cons, Nat.pow_succ, Nat.mul_comm (2 ^ groups.length) 2,
            ← Nat.mul_assoc, Nat.mul_comm free 2] at hfull
          rw [Nat.sub_mul]
          omega
        exact ih hleft (by omega) bits

/-- **What an accepted table says**, whoever wrote it. -/
theorem accepted_tables_have_prefix_codes (l : CodeLengths) :
    ((∃ groups, l.check = .ok groups) ↔
      (∀ s, (l.of s).toNat ≤ maxLength) ∧ l.kraftSum ≤ 1) ∧
    ∀ groups, l.check = .ok groups →
      (∃ codes, canonicalCodes l = .ok codes ∧
        ∀ s, l.of s ≠ 0 → ∃ c, codes[s.toNat]? = some c ∧ c < 2 ^ (l.of s).toNat ∧
          l.word s = bitsBE (l.of s).toNat c) ∧
      (∀ s s', l.of s ≠ 0 → l.of s' ≠ 0 → s ≠ s' → ¬l.word s <+: l.word s') ∧
      (∀ s, l.of s ≠ 0 → (l.word s).length = (l.of s).toNat ∧
        ∀ rest, decodeSymbol groups 0 (l.word s ++ rest) = .ok (s, rest)) ∧
      (l.kraftSum = 1 → ∀ bits,
        (∃ s rest, decodeSymbol groups 0 bits = .ok (s, rest)) ∨
          decodeSymbol groups 0 bits = .error .truncated) := by
  constructor
  · constructor
    · rintro ⟨groups, h⟩
      exact (CodeLengths.check_eq_ok_iff.mp h).1
    · intro h
      exact ⟨l.groups, CodeLengths.check_eq_ok_iff.mpr ⟨h, rfl⟩⟩
  intro groups h
  obtain ⟨⟨hlong, hkraft⟩, rfl⟩ := CodeLengths.check_eq_ok_iff.mp h
  have hfits := (CodeLengths.fits_iff_kraftSum_le hlong).mpr hkraft
  have hpos : ∀ s, l.of s ≠ 0 → 0 < (l.of s).toNat := fun s hs =>
    Nat.pos_of_ne_zero fun hzero => hs (UInt8.toNat_inj.mp hzero)
  have hread : ∀ s, l.of s ≠ 0 → ∀ rest,
      decodeSymbol l.groups 0 (l.word s ++ rest) = .ok (s, rest) := fun s hs rest =>
    CodeLengths.decodeSymbol_word hfits (hpos s hs) (hlong s) rest
  refine ⟨?_, ?_, ?_, ?_⟩
  · obtain ⟨codes, hcodes, hcode⟩ := CodeLengths.canonicalCodes_eq hlong hfits
    refine ⟨_, hcodes, fun s hs => ⟨l.code s, ?_, ?_, ?_⟩⟩
    · rw [getElem?_tabulate _ (UInt8.toNat_lt s), hcode s hs]
    · exact CodeLengths.code_lt hfits (hpos s hs) (hlong s)
    · exact CodeLengths.word_eq (hpos s hs) (hlong s)
  · -- a reader cannot take the same bits for two symbols
    rintro s s' hs hs' hne ⟨rest, heq⟩
    have hword := hread s' hs' []
    rw [← heq, List.append_assoc, hread s hs] at hword
    exact hne (Prod.mk.inj (Except.ok.inj hword)).1
  · intro s hs
    refine ⟨?_, hread s hs⟩
    rw [CodeLengths.word_eq (hpos s hs) (hlong s), length_bitsBE]
  · intro hone bits
    have hfull : kraft l.groups = 1 * 2 ^ l.groups.length := by
      rw [CodeLengths.kraft_groups_eq hlong hone, Nat.one_mul, CodeLengths.groups,
        List.length_map, List.length_range]
    exact decodeSymbol_of_full hfull Nat.zero_lt_one bits

theorem accepted_tables_have_prefix_codes_of_three_words :
    ∃ l : CodeLengths, ∃ groups, l.check = .ok groups ∧ l.kraftSum = 1 ∧
      l.of 7 ≠ 0 ∧ l.of 9 ≠ 0 ∧ (7 : UInt8) ≠ 9 ∧ ¬l.word 7 <+: l.word 9 ∧
      (l.word 9).length = 2 ∧ decodeSymbol groups 0 (l.word 9 ++ [true]) = .ok (9, [true]) ∧
      ((∃ s rest, decodeSymbol groups 0 [true, false] = .ok (s, rest)) ∨
        decodeSymbol groups 0 [true, false] = .error .truncated) := by
  have hlengths : (CodeLengths.ofDepths [(4, 1), (7, 2), (9, 2)]).wordLengths = [1, 2, 2] := by
    decide +kernel
  have hone : (CodeLengths.ofDepths [(4, 1), (7, 2), (9, 2)]).kraftSum = 1 := by
    rw [CodeLengths.kraftSum, hlengths]
    norm_num
  have hshort := (CodeLengths.ofDepths [(4, 1), (7, 2), (9, 2)]).any_long_eq_false_iff.mp
    (by decide +kernel)
  have h7 : (CodeLengths.ofDepths [(4, 1), (7, 2), (9, 2)]).of 7 = 2 := by decide +kernel
  have h9 : (CodeLengths.ofDepths [(4, 1), (7, 2), (9, 2)]).of 9 = 2 := by decide +kernel
  have h7' : (CodeLengths.ofDepths [(4, 1), (7, 2), (9, 2)]).of 7 ≠ 0 := h7 ▸ by decide
  have h9' : (CodeLengths.ofDepths [(4, 1), (7, 2), (9, 2)]).of 9 ≠ 0 := h9 ▸ by decide
  obtain ⟨haccepts, hcode⟩ :=
    accepted_tables_have_prefix_codes (CodeLengths.ofDepths [(4, 1), (7, 2), (9, 2)])
  obtain ⟨groups, h⟩ := haccepts.mpr ⟨hshort, hone.le⟩
  obtain ⟨-, hprefix, hread, hfull⟩ := hcode groups h
  exact ⟨_, groups, h, hone, h7', h9', by decide, hprefix 7 9 h7' h9' (by decide),
    (hread 9 h9').1.trans (congrArg UInt8.toNat h9), (hread 9 h9').2 [true],
    hfull hone [true, false]⟩

end LatticeSuite.Huffman
