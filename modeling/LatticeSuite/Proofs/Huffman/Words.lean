import LatticeSuite.Coding.Huffman.Canonical
import LatticeSuite.Proofs.Bytes
import Mathlib.Data.List.Nodup
import Mathlib.Tactic.Linarith

/-!
# Canonical code words are read back

`assignWords` counts through the words of each length; `decodeSymbol` knows
only the groups and the distance of the bits read from the first word of
their length. `decodeSymbol_assignWords` ties the two at every length: if the
decoder has read all but the last bits of a word, its distance is the number
read less the number of the first bit string that extends no shorter word, and
from there it finds the symbol. At length zero this says that a word is read
back whatever follows it (`decodeSymbol_word`). The words must fit
(`fits`), or their numbers would not have the bits they are written in.

`decodeSymbols_encodeBits` reads a whole bit stream back, and
`decodeSymbols_truncated` finds out about any that lost a bit.
-/

namespace LatticeSuite.Huffman

/-! ## One word -/

/-- A word of `assignWords` from length `l + 1` on, `f` being the first bit
string of length `l` that extends no shorter word: what is left of it after
any bits read so far leads the decoder to its symbol. -/
theorem decodeSymbol_assignWords (groups : List (List UInt8)) (l f free : Nat)
    (hfree : free + f = 2 ^ l) (hfits : fits groups free = true) {s : UInt8} {w : List Bool}
    (hw : (s, w) ∈ assignWords groups (l + 1) (2 * f)) (rest : List Bool) :
    ∃ k c, w = bitsBE (l + 1 + k) c ∧ c < 2 ^ (l + 1 + k) ∧ f ≤ c / 2 ^ (k + 1) ∧
      decodeSymbol groups (c / 2 ^ (k + 1) - f) (bitsBE (k + 1) c ++ rest) = .ok (s, rest) := by
  induction groups generalizing l f free with
  | nil => exact absurd hw (by simp [assignWords])
  | cons group groups ih =>
    rw [fits, Bool.and_eq_true, decide_eq_true_iff] at hfits
    obtain ⟨hle, hfits'⟩ := hfits
    rw [assignWords, List.mem_append] at hw
    rcases hw with hhead | htail
    · -- a word of this length: its last bit is all that is left
      obtain ⟨⟨s', c⟩, hmem, heq⟩ := List.mem_map.mp hhead
      obtain ⟨rfl, rfl⟩ := Prod.mk.inj heq
      obtain ⟨hlo, hhi, hget⟩ := List.mem_zipIdx hmem
      have hbit : (c.testBit 0).toNat = c / 2 ^ 0 % 2 := Nat.toNat_testBit c 0
      rw [Nat.pow_zero, Nat.div_one] at hbit
      refine ⟨0, c, rfl, ?_, ?_, ?_⟩
      · rw [Nat.add_zero, Nat.pow_succ]
        omega
      · omega
      · have hdist : 2 * (c / 2 ^ (0 + 1) - f) + (c.testBit 0).toNat = c - 2 * f := by
          rw [hbit]
          omega
        rw [bitsBE, bitsBE, List.cons_append, List.nil_append, decodeSymbol]
        simp only [hdist]
        rw [dif_pos (by omega), ← hget]
    · -- a longer word: one bit more is read, and it lies behind this length
      obtain ⟨k, c, hwk, hlt, hf, hdec⟩ := ih (l + 1) (2 * f + group.length)
        (2 * free - group.length) (by rw [Nat.pow_succ]; omega) hfits' htail
      have hbit : (c.testBit (k + 1)).toNat = c / 2 ^ (k + 1) % 2 := Nat.toNat_testBit c (k + 1)
      have hhalf : c / 2 ^ (k + 1 + 1) = c / 2 ^ (k + 1) / 2 := by
        rw [Nat.pow_succ, Nat.div_div_eq_div_mul]
      rw [show l + 1 + 1 + k = l + 1 + (k + 1) from by omega] at hwk hlt
      refine ⟨k + 1, c, hwk, hlt, by omega, ?_⟩
      have hdist : 2 * (c / 2 ^ (k + 1 + 1) - f) + (c.testBit (k + 1)).toNat =
          c / 2 ^ (k + 1) - 2 * f := by
        rw [hbit, hhalf]
        omega
      rw [bitsBE, List.cons_append, decodeSymbol]
      simp only [hdist]
      rw [dif_neg (by omega), show c / 2 ^ (k + 1) - 2 * f - group.length =
        c / 2 ^ (k + 1) - (2 * f + group.length) from by omega]
      exact hdec

/-- **A code word is read back, whatever follows it.** -/
theorem decodeSymbol_word {groups : List (List UInt8)} (hfits : fits groups 1 = true)
    {s : UInt8} {w : List Bool} (hw : (s, w) ∈ assignWords groups 1 0) (rest : List Bool) :
    decodeSymbol groups 0 (w ++ rest) = .ok (s, rest) := by
  obtain ⟨k, c, hwk, hlt, -, hdec⟩ :=
    decodeSymbol_assignWords groups 0 0 1 rfl hfits hw rest
  rw [Nat.zero_add, Nat.add_comm] at hwk hlt
  rw [Nat.div_eq_of_lt hlt] at hdec
  rw [hwk]
  exact hdec

/-- Every symbol of a group has a word. -/
theorem exists_word {groups : List (List UInt8)} {group : List UInt8} {s : UInt8}
    (hg : group ∈ groups) (hs : s ∈ group) (length first : Nat) :
    ∃ w, (s, w) ∈ assignWords groups length first := by
  induction groups generalizing length first with
  | nil => exact absurd hg (by simp)
  | cons g groups ih =>
    rcases List.mem_cons.mp hg with rfl | hg'
    · obtain ⟨i, hi, rfl⟩ := List.getElem_of_mem hs
      refine ⟨bitsBE length (first + i), ?_⟩
      rw [assignWords, List.mem_append]
      refine Or.inl (List.mem_map.mpr ⟨(group[i], first + i), ?_, rfl⟩)
      rw [List.mk_mem_zipIdx_iff_le_and_getElem?_sub]
      refine ⟨by omega, ?_⟩
      rw [Nat.add_sub_cancel_left, List.getElem?_eq_getElem hi]
    · obtain ⟨w, hw⟩ := ih hg' (length + 1) (2 * (first + g.length))
      exact ⟨w, by rw [assignWords]; exact List.mem_append_right _ hw⟩

/-! ## Tables indexed by symbols -/

/-- Entering pairs into a table by symbol. -/
def enter {α : Type} (t : Vector α 256) (pairs : List (UInt8 × α)) : Vector α 256 :=
  pairs.foldl (fun t p => t.set p.1.toNat p.2 (UInt8.toNat_lt p.1)) t

section

variable {α : Type}

theorem get_set_self (t : Vector α 256) (s : UInt8) (a : α) :
    (t.set s.toNat a (UInt8.toNat_lt s)).get ⟨s.toNat, UInt8.toNat_lt s⟩ = a :=
  Vector.getElem_set_self _

theorem get_set_of_ne (t : Vector α 256) {s s' : UInt8} (h : s ≠ s') (a : α) :
    (t.set s.toNat a (UInt8.toNat_lt s)).get ⟨s'.toNat, UInt8.toNat_lt s'⟩ =
      t.get ⟨s'.toNat, UInt8.toNat_lt s'⟩ :=
  Vector.getElem_set_ne (UInt8.toNat_lt s) (UInt8.toNat_lt s') fun heq => h (UInt8.toNat.inj heq)

/-- What a table with entered pairs holds: one of the pairs, or what it held. -/
theorem get_enter (pairs : List (UInt8 × α)) (t : Vector α 256) (s : UInt8) :
    (s, (enter t pairs).get ⟨s.toNat, UInt8.toNat_lt s⟩) ∈ pairs ∨
      (∀ p ∈ pairs, p.1 ≠ s) ∧
        (enter t pairs).get ⟨s.toNat, UInt8.toNat_lt s⟩ = t.get ⟨s.toNat, UInt8.toNat_lt s⟩ := by
  induction pairs generalizing t with
  | nil => exact Or.inr ⟨by simp, rfl⟩
  | cons p pairs ih =>
    rw [enter, List.foldl_cons]
    rcases ih (t.set p.1.toNat p.2 (UInt8.toNat_lt p.1)) with hmem | ⟨hne, hget⟩
    · exact Or.inl (List.mem_cons_of_mem _ hmem)
    · rw [enter] at hget
      rw [hget]
      by_cases hp : p.1 = s
      · refine Or.inl (List.mem_cons.mpr (Or.inl ?_))
        subst hp
        rw [get_set_self]
      · refine Or.inr ⟨?_, ?_⟩
        · intro q hq
          rcases List.mem_cons.mp hq with rfl | hq'
          · exact hp
          · exact hne q hq'
        · exact get_set_of_ne t hp p.2

/-- The value entered for a symbol that is entered once. -/
theorem get_enter_of_mem {pairs : List (UInt8 × α)}
    (hnodup : (pairs.map Prod.fst).Nodup) (t : Vector α 256) {s : UInt8} {a : α}
    (h : (s, a) ∈ pairs) : (enter t pairs).get ⟨s.toNat, UInt8.toNat_lt s⟩ = a := by
  rcases get_enter pairs t s with hmem | ⟨hne, -⟩
  · exact congrArg Prod.snd (List.inj_on_of_nodup_map hnodup hmem h rfl)
  · exact absurd rfl (hne _ h)

end

/-! ## Bit streams -/

/-- The word of a symbol. -/
def CodeLengths.word (l : CodeLengths) (s : UInt8) : List Bool :=
  (wordTable l.words).get ⟨s.toNat, UInt8.toNat_lt s⟩

theorem CodeLengths.encodeBits_eq (l : CodeLengths) (raw : Bytes) :
    l.encodeBits raw = raw.flatMap l.word :=
  rfl

@[simp] theorem length_symbols : symbols.length = 256 := by
  rw [symbols, List.length_map, List.length_range]

theorem getElem_symbols {i : Nat} (h : i < symbols.length) : symbols[i] = UInt8.ofNat i := by
  simp only [symbols, List.getElem_map, List.getElem_range]

@[simp] theorem mem_symbols (s : UInt8) : s ∈ symbols :=
  List.mem_map.mpr ⟨s.toNat, List.mem_range.mpr (UInt8.toNat_lt s), UInt8.ofNat_toNat⟩

theorem nodup_symbols : symbols.Nodup := by
  refine List.Nodup.map_on ?_ List.nodup_range
  intro i hi j hj h
  have hnat := congrArg UInt8.toNat h
  rw [UInt8.toNat_ofNat_of_lt' (List.mem_range.mp hi),
    UInt8.toNat_ofNat_of_lt' (List.mem_range.mp hj)] at hnat
  exact hnat

/-- A symbol is in the group of its length. -/
theorem CodeLengths.mem_group {l : CodeLengths} {s : UInt8} (hpos : 1 ≤ (l.of s).toNat)
    (hmax : (l.of s).toNat ≤ maxLength) :
    l.group (l.of s).toNat ∈ l.groups ∧ s ∈ l.group (l.of s).toNat := by
  constructor
  · refine List.mem_map.mpr ⟨(l.of s).toNat - 1, List.mem_range.mpr (by omega), ?_⟩
    show l.group ((l.of s).toNat - 1 + 1) = _
    rw [Nat.sub_add_cancel hpos]
  · exact List.mem_filter.mpr ⟨mem_symbols s, by simp⟩

/-- The word of a symbol with a length is read back. -/
theorem CodeLengths.decodeSymbol_word {l : CodeLengths} (hfits : fits l.groups 1 = true)
    {s : UInt8} (hpos : 1 ≤ (l.of s).toNat) (hmax : (l.of s).toNat ≤ maxLength)
    (rest : List Bool) : decodeSymbol l.groups 0 (l.word s ++ rest) = .ok (s, rest) := by
  obtain ⟨hgroup, hs⟩ := l.mem_group hpos hmax
  obtain ⟨w, hw⟩ := exists_word hgroup hs 1 0
  rcases get_enter l.words (Vector.replicate 256 []) s with hmem | ⟨hne, -⟩
  · exact Huffman.decodeSymbol_word hfits hmem rest
  · exact absurd rfl (hne _ hw)

/-- Words read back one after the other. -/
theorem decodeSymbols_flatMap {groups : List (List UInt8)} {word : UInt8 → List Bool}
    (raw : Bytes) (acc : List UInt8) (rest : List Bool)
    (h : ∀ s ∈ raw, ∀ rest, decodeSymbol groups 0 (word s ++ rest) = .ok (s, rest)) :
    decodeSymbols groups raw.length (raw.flatMap word ++ rest) acc =
      .ok (acc.reverse ++ raw) := by
  induction raw generalizing acc with
  | nil => simp [decodeSymbols]
  | cons s raw ih =>
    rw [List.length_cons, List.flatMap_cons, List.append_assoc, decodeSymbols,
      h s List.mem_cons_self]
    simp only
    rw [ih (s :: acc) (fun s' hs' => h s' (List.mem_cons_of_mem _ hs')), List.reverse_cons,
      List.append_assoc, List.singleton_append]

/-! ## Cut streams -/

/-- With fewer bits a decoder ends short of them or does what it does with all. -/
theorem decodeSymbol_extend (groups : List (List UInt8)) (distance : Nat)
    (bits t : List Bool) :
    decodeSymbol groups distance bits = .error .truncated ∨
      (∃ s rest, decodeSymbol groups distance bits = .ok (s, rest) ∧
        decodeSymbol groups distance (bits ++ t) = .ok (s, rest ++ t)) ∨
      ∃ e, decodeSymbol groups distance bits = .error e ∧
        decodeSymbol groups distance (bits ++ t) = .error e := by
  induction groups generalizing distance bits with
  | nil => exact Or.inr (Or.inr ⟨_, rfl, rfl⟩)
  | cons group groups ih =>
    cases bits with
    | nil => exact Or.inl rfl
    | cons bit bits =>
      rw [List.cons_append, decodeSymbol, decodeSymbol]
      by_cases hlt : 2 * distance + bit.toNat < group.length
      · simp only [dif_pos hlt]
        exact Or.inr (Or.inl ⟨_, bits, rfl, rfl⟩)
      · simp only [dif_neg hlt]
        exact ih _ bits

/-- A word that lost bits is not taken for another. -/
theorem decodeSymbol_truncated {groups : List (List UInt8)} {s : UInt8} {w cut : List Bool}
    (hw : decodeSymbol groups 0 w = .ok (s, [])) (hcut : ProperPrefix cut w) :
    decodeSymbol groups 0 cut = .error .truncated := by
  obtain ⟨t, ht, rfl⟩ := hcut
  rcases decodeSymbol_extend groups 0 cut t with h | ⟨s', rest, -, hext⟩ | ⟨e, -, hext⟩
  · exact h
  · rw [hext] at hw
    have hrest := (Prod.mk.inj (Except.ok.inj hw)).2
    exact absurd (List.append_eq_nil_iff.mp hrest).2 ht
  · rw [hext] at hw
    exact absurd hw (by simp)

theorem decodeSymbols_truncated {groups : List (List UInt8)} {word : UInt8 → List Bool}
    (raw : Bytes) (acc : List UInt8) {cut : List Bool}
    (h : ∀ s ∈ raw, ∀ rest, decodeSymbol groups 0 (word s ++ rest) = .ok (s, rest))
    (hcut : ProperPrefix cut (raw.flatMap word)) :
    decodeSymbols groups raw.length cut acc = .error .truncated := by
  induction raw generalizing acc cut with
  | nil => exact absurd hcut.length_lt (by simp)
  | cons s raw ih =>
    rw [List.flatMap_cons] at hcut
    rw [List.length_cons, decodeSymbols]
    rcases hcut.append_cases with hin | ⟨rest, rfl, hrest⟩
    · -- the cut is inside the first word
      have hw := h s List.mem_cons_self []
      rw [List.append_nil] at hw
      rw [decodeSymbol_truncated hw hin]
    · rw [h s List.mem_cons_self]
      exact ih (s :: acc) (fun s' hs' => h s' (List.mem_cons_of_mem _ hs')) hrest

end LatticeSuite.Huffman
