import LatticeSuite.Proofs.Coding.Decisions
import LatticeSuite.Proofs.Huffman.Canonical
import Mathlib.Data.List.Induction

/-!
# The Huffman reader in registers

A table comes from the input like everything else. Its pairs name the symbols
whose lengths they set, its lengths name the counters that count them, and the
symbols are looked up at an index that the bits have been added to. So the input
says where to read and what to add up, and what keeps the reader within its
arrays and registers is what it has checked by then.

The counters come first. A length is a counter, for no length is above 56, and
what is left of the bit strings of a length is at most their number
(`foldlM_takeWords`). Then the symbols. A reader keeps the number `code` of the
bits read and the number `first` of the first word of their length, and `first`
never overtakes `code`: behind a length it goes on only if `code` is not one of
its words. Therefore `index + code - first` is the position of a symbol in the
table, in a table that is not full as well (`DecodeTable.Holds.findSymbol`), and

> `decodeChecked_eq`: in registers the reader yields the same bytes or the same
> error, on any input.
-/

namespace LatticeSuite.Huffman

open Checked

/-! ## Reading a table -/

/-- Enter the length of a symbol, which must not have one. -/
def enterPair (lengths : List UInt8) (pair : Bytes) : Checked (List UInt8) := do
  let symbol ← read pair 0
  let length ← read pair 1
  let held ← read lengths symbol.toNat
  if held ≠ 0 ∨ length = 0 then refuse (.malformed "duplicate or empty table entry")
  else write lengths symbol.toNat length

/-- The lengths of a table, and where what follows it begins. -/
def TableFormat.readChecked (f : TableFormat) (coded : Bytes) : Checked (List UInt8 × Nat) :=
  match f with
  | .dense =>
    if coded.length < 256 then refuse .truncated
    else do
      let lengths ← slice coded 0 256
      .ok (lengths, 256)
  | .sparse =>
    if coded.length < 2 then refuse .truncated
    else do
      let field ← slice coded 0 2
      if Bytes.ofBE field > 256 then refuse (.malformed "symbol count")
      else do
        let size ← fit 64 (Bytes.ofBE field * 2)
        let stop ← fit 64 (2 + size)
        if coded.length < stop then refuse .truncated
        else do
          let entries ← slice coded 2 stop
          let lengths ← (Bytes.chunks 2 entries).foldlM enterPair (List.replicate 256 0)
          .ok (lengths, stop)

theorem getElem?_toList (l : CodeLengths) (s : UInt8) : l.toList[s.toNat]? = some (l.of s) := by
  rw [Vector.getElem?_toList, Vector.getElem?_eq_getElem (UInt8.toNat_lt s)]
  rfl

theorem toList_empty : CodeLengths.empty.toList = List.replicate 256 0 :=
  Vector.toList_replicate

theorem write_toList (l : CodeLengths) (s n : UInt8) :
    write l.toList s.toNat n = .ok (l.assign s n).toList := by
  rw [write_of_lt (by rw [Vector.length_toList]; exact s.toNat_lt)]
  exact congrArg Except.ok (Vector.toList_set ..).symm

theorem foldlM_enterPair {entries : Bytes} (heven : entries.length % 2 = 0) (l : CodeLengths) :
    Refines (fun lengths l' => lengths = l'.toList)
      ((Bytes.chunks 2 entries).foldlM enterPair l.toList) (readEntries entries l) := by
  induction entries using List.twoStepInduction generalizing l with
  | nil =>
    rw [Bytes.chunks_nil, readEntries]
    · exact ⟨_, rfl, rfl⟩
    · simp
  | singleton a => exact absurd heven Nat.one_ne_zero
  | cons_cons symbol length rest ih _ =>
    rw [Bytes.chunks_pair, List.foldlM_cons, enterPair, read_of_getElem? (a := symbol) rfl,
      ok_bind, read_of_getElem? (a := length) rfl, ok_bind,
      read_of_getElem? (getElem?_toList l symbol), ok_bind, readEntries]
    by_cases hrefused : l.of symbol ≠ 0 ∨ length = 0
    · rw [if_pos hrefused, if_pos hrefused]
      rfl
    · rw [if_neg hrefused, if_neg hrefused, write_toList, ok_bind]
      refine ih ?_ _
      rw [List.length_cons, List.length_cons] at heven
      omega

theorem TableFormat.readChecked_refines (f : TableFormat) (coded : Bytes) :
    Refines (fun x y => x.1 = y.1.toList ∧ y.2 = coded.drop x.2 ∧ x.2 ≤ coded.length)
      (f.readChecked coded) (f.read coded) := by
  cases f with
  | dense =>
    rw [readChecked, read]
    by_cases hshort : coded.length < 256
    · rw [if_pos hshort, dif_neg (Nat.not_le.mpr hshort)]
      rfl
    · have hlong := Nat.le_of_not_lt hshort
      rw [if_neg hshort, dif_pos hlong, slice_zero hlong, ok_bind]
      exact ⟨_, rfl, rfl, rfl, hlong⟩
  | sparse =>
    rw [readChecked, read]
    refine Refines.guard fun hshort => ?_
    rw [slice_zero (Nat.le_of_not_lt hshort), ok_bind]
    refine Refines.guard fun hmany => ?_
    have hrest : (coded.drop 2).length < 2 * Bytes.ofBE (coded.take 2) ↔
        coded.length < 2 + Bytes.ofBE (coded.take 2) * 2 := by
      rw [List.length_drop]
      omega
    have hentries : (coded.take (2 + Bytes.ofBE (coded.take 2) * 2)).drop 2 =
        (coded.drop 2).take (2 * Bytes.ofBE (coded.take 2)) := by
      rw [List.drop_take, Nat.add_sub_cancel_left, Nat.mul_comm]
    rw [fit_of_lt (by omega), ok_bind, fit_of_lt (by omega), ok_bind]
    simp only [hrest]
    refine Refines.guard fun hcut => ?_
    rw [slice_of_le (by omega) (by omega), ok_bind, hentries, ← toList_empty]
    refine (foldlM_enterPair ?_ CodeLengths.empty).map fun lengths l hl => ⟨hl, ?_, ?_⟩
    · rw [List.length_take, List.length_drop, Nat.min_eq_left (by omega)]
      omega
    · show (coded.drop 2).drop _ = coded.drop (2 + _)
      rw [List.drop_drop, Nat.mul_comm]
    · exact Nat.le_of_not_lt hcut

/-! ## Counting the words of a table -/

/-- What a reader keeps of a table. -/
structure DecodeTable where
  /-- The number of words of each length. -/
  counts : List Nat
  /-- The symbols, by length and in order. -/
  symbols : List UInt8

/-- Count a length, unless it is too long. -/
def countLength (counts : List Nat) (length : UInt8) : Checked (List Nat) :=
  if maxLength < length.toNat then refuse (.malformed "code length")
  else count 63 counts length.toNat

/-- Take the words of the next length from what is left of the bit strings. -/
def takeWords (left : Int) (n : Nat) : Checked Int := do
  let left ← fitSigned (left * 2)
  let left ← fitSigned (left - n)
  if left < 0 then refuse (.malformed "over-subscribed code table")
  else .ok left

/-- The symbols of a length. -/
def symbolsOf (lengths : List UInt8) (length : Nat) : List UInt8 :=
  (lengths.zipIdx.filter fun p => p.1.toNat == length).map fun p => UInt8.ofNat p.2

def DecodeTable.new (lengths : List UInt8) : Checked DecodeTable := do
  let counts ← lengths.foldlM countLength (List.replicate (maxLength + 1) 0)
  let counts ← write counts 0 0
  let words ← slice counts 1 counts.length
  let _ ← words.foldlM takeWords 1
  .ok { counts, symbols := (List.range' 1 maxLength).flatMap (symbolsOf lengths) }

/-- A table with a long length is refused when its first one is met. -/
theorem foldlM_countLength_of_long {lengths : List UInt8} (f : Nat → Nat)
    (hwidth : ∀ i, f i + lengths.length < 2 ^ 63) (hlong : ∃ n ∈ lengths, maxLength < n.toNat) :
    lengths.foldlM countLength (tabulate (maxLength + 1) f) =
      refuse (.malformed "code length") := by
  induction lengths generalizing f with
  | nil =>
    obtain ⟨n, hn, -⟩ := hlong
    exact absurd hn List.not_mem_nil
  | cons n lengths ih =>
    rw [List.foldlM_cons, countLength]
    by_cases hn : maxLength < n.toNat
    · rw [if_pos hn]
      rfl
    · have hi := hwidth n.toNat
      rw [List.length_cons] at hi
      rw [if_neg hn, count_tabulate f (by omega) (by omega), ok_bind]
      refine ih _ ?_ ?_
      · intro i
        have := hwidth i
        rw [List.length_cons] at this
        rw [Function.update_apply]
        split <;> omega
      · obtain ⟨m, hm, hlt⟩ := hlong
        rcases List.mem_cons.mp hm with rfl | hmem
        · exact absurd hlt hn
        · exact ⟨m, hmem, hlt⟩

theorem foldlM_countLength_of_short {lengths : List UInt8}
    (hshort : ∀ n ∈ lengths, n.toNat ≤ maxLength) (counts : List Nat) :
    lengths.foldlM countLength counts = (lengths.map UInt8.toNat).foldlM (count 63) counts := by
  induction lengths generalizing counts with
  | nil => rfl
  | cons n lengths ih =>
    rw [List.map_cons, List.foldlM_cons, List.foldlM_cons, countLength,
      if_neg (Nat.not_lt.mpr (hshort n List.mem_cons_self))]
    exact congrArg _ (funext fun counts =>
      ih (fun m hm => hshort m (List.mem_cons_of_mem _ hm)) counts)

/-- **Counting the lengths of a table.** -/
theorem foldlM_countLength (l : CodeLengths) (hshort : ∀ n ∈ l.toList, n.toNat ≤ maxLength) :
    l.toList.foldlM countLength (tabulate (maxLength + 1) fun _ => 0) =
      .ok (tabulate (maxLength + 1) fun n => (l.group n).length) := by
  rw [foldlM_countLength_of_short hshort, foldlM_count]
  · simp only [l.count_toList, Nat.zero_add]
  · intro n hn
    obtain ⟨b, hb, rfl⟩ := List.mem_map.mp hn
    exact Nat.lt_succ_of_le (hshort b hb)
  · intro n
    rw [List.length_map, Vector.length_toList]
    omega

/-- The counters that are looked at are those of the groups. -/
theorem tail_counts (l : CodeLengths) :
    (tabulate (maxLength + 1) (Function.update (fun n => (l.group n).length) 0 0)).drop 1 =
      l.groups.map List.length := by
  rw [tabulate_succ, CodeLengths.groups, List.map_map]
  refine List.map_congr_left fun n _ => ?_
  rw [Function.update_of_ne (Nat.succ_ne_zero n)]
  rfl

/-- **What is left of the bit strings** is a number of them. -/
theorem foldlM_takeWords {α : Type} (accepted : α) {groups : List (List UInt8)} {a free : Nat}
    (hfree : free ≤ 2 ^ a) (ha : a + groups.length ≤ 56) (hgroups : ∀ g ∈ groups, g.length ≤ 256) :
    Refines (fun _ b => b = accepted) ((groups.map List.length).foldlM takeWords (free : Int))
      (if fits groups free then .ok accepted
        else .error (.malformed "over-subscribed code table")) := by
  induction groups generalizing a free with
  | nil => exact ⟨_, rfl, rfl⟩
  | cons group groups ih =>
    have hpow : 2 ^ a ≤ 2 ^ 56 := Nat.pow_le_pow_right (by decide) (by omega)
    have hgroup := hgroups group List.mem_cons_self
    rw [List.length_cons] at ha
    rw [List.map_cons, List.foldlM_cons, takeWords, fitSigned_of_lt (by omega) (by omega), ok_bind,
      fitSigned_of_lt (by omega) (by omega), ok_bind, fits]
    by_cases hle : group.length ≤ 2 * free
    · have hleft : (free : Int) * 2 - group.length = ((2 * free - group.length : Nat) : Int) := by
        omega
      rw [if_neg (by omega), ok_bind, hleft, decide_eq_true hle, Bool.true_and]
      refine ih (a := a + 1) ?_ (by omega) fun g hg => hgroups g (List.mem_cons_of_mem _ hg)
      rw [Nat.pow_succ]
      omega
    · rw [if_pos (by omega), decide_eq_false hle, Bool.false_and]
      rfl

theorem symbolsOf_toList (l : CodeLengths) (n : Nat) : symbolsOf l.toList n = l.group n := by
  have hzip : l.toList.zipIdx = symbols.map fun s => (l.of s, s.toNat) := by
    rw [l.toList_eq]
    refine List.ext_getElem (by simp) ?_
    intro i hi _
    rw [List.length_zipIdx, List.length_map, length_symbols] at hi
    rw [List.getElem_zipIdx, List.getElem_map, List.getElem_map, getElem_symbols,
      UInt8.toNat_ofNat_of_lt' hi, Nat.zero_add]
  have hid : ((fun p : UInt8 × Nat => UInt8.ofNat p.2) ∘ fun s => (l.of s, s.toNat)) = id :=
    funext fun s => UInt8.ofNat_toNat
  rw [symbolsOf, hzip, List.filter_map, List.map_map, hid, List.map_id]
  rfl

theorem length_group_le (l : CodeLengths) (n : Nat) : (l.group n).length ≤ 256 :=
  length_symbols ▸ List.length_filter_le _ _

/-- What a reader keeps of a table that passed the check. -/
structure DecodeTable.Holds (t : DecodeTable) (l : CodeLengths) : Prop where
  counts_eq : ∀ n, 0 < n → n ≤ maxLength → t.counts[n]? = some (l.group n).length
  symbols_eq : t.symbols = l.groups.flatten

theorem DecodeTable.new_refines (l : CodeLengths) :
    Refines (fun t groups => groups = l.groups ∧ t.Holds l) (DecodeTable.new l.toList) l.check := by
  have hlength : l.toList.length = 256 := Vector.length_toList ..
  rw [DecodeTable.new, CodeLengths.check, replicate_eq_tabulate]
  by_cases hlong : ∃ n ∈ l.toList, maxLength < n.toNat
  · rw [foldlM_countLength_of_long _ (by omega) hlong, if_pos]
    · rfl
    · obtain ⟨n, hn, hlt⟩ := hlong
      exact List.any_eq_true.mpr ⟨n, hn, decide_eq_true hlt⟩
  · have hshort : ∀ n ∈ l.toList, n.toNat ≤ maxLength := fun n hn =>
      Nat.le_of_not_lt fun hlt => hlong ⟨n, hn, hlt⟩
    have hnot : ¬(l.toList.any fun n => decide (maxLength < n.toNat)) = true := by
      intro hany
      obtain ⟨n, hn, hlt⟩ := List.any_eq_true.mp hany
      exact hlong ⟨n, hn, of_decide_eq_true hlt⟩
    rw [foldlM_countLength l hshort, ok_bind, write_tabulate _ (Nat.succ_pos _), ok_bind,
      slice_length (by rw [length_tabulate]; exact Nat.le_add_left 1 _), ok_bind, tail_counts,
      if_neg hnot]
    refine (foldlM_takeWords l.groups (a := 0) (Nat.le_refl 1) ?_ ?_).yield ?_
    · rw [CodeLengths.groups, List.length_map, List.length_range]
      decide
    · intro g hg
      obtain ⟨n, -, rfl⟩ := List.mem_map.mp hg
      exact length_group_le l _
    · rintro _ groups rfl
      refine ⟨rfl, ⟨?_, ?_⟩⟩
      · intro n hpos hmax
        rw [getElem?_tabulate _ (Nat.lt_succ_of_le hmax), Function.update_of_ne hpos.ne']
      · show (List.range' 1 maxLength).flatMap (symbolsOf l.toList) = l.groups.flatten
        rw [funext (symbolsOf_toList l), CodeLengths.groups, List.flatMap_def,
          List.range'_eq_map_range, List.map_map]
        simp only [Function.comp_def, Nat.add_comm 1]

/-! ## Reading symbols -/

/-- The bit at a position, and the position behind it. -/
def nextBit (data : Bytes) (pos : Nat) : Checked (Nat × Nat) :=
  match data[pos / 8]? with
  | none => refuse .truncated
  | some b => do
    let shift ← sub 7 (pos % 8)
    let pos ← fit 64 (pos + 1)
    .ok (b.toNat >>> shift &&& 1, pos)

/-- The entry at an index with a sign. -/
def readSigned (xs : List UInt8) (i : Int) : Checked UInt8 :=
  if i < 0 then .error (.fault .outOfRange) else read xs i.toNat

/-- Try the lengths one after the other: `code` is the number of the bits read,
`first` that of the first word of the length, and `index` where the symbols of
the length begin. -/
def findSymbol (t : DecodeTable) (data : Bytes) : (lengths : List Nat) →
    (code first index pos : Nat) → Checked (UInt8 × Nat)
  | [], _, _, _, _ => refuse (.malformed "invalid Huffman code")
  | length :: lengths, code, first, index, pos => do
    let (bit, pos) ← nextBit data pos
    let code := code ||| bit
    let n ← read t.counts length
    let distance ← fitSigned ((code : Int) - first)
    if distance < n then do
      let ahead ← fit 63 (index + code)
      let i ← fitSigned ((ahead : Int) - first)
      let s ← readSigned t.symbols i
      .ok (s, pos)
    else do
      let index ← fit 63 (index + n)
      let behind ← fit 63 (first + n)
      let first ← fit 63 (behind <<< 1)
      let code ← fit 63 (code <<< 1)
      findSymbol t data lengths code first index pos

/-- Read `count` symbols, appended to the reversed `acc`. -/
def findSymbols (t : DecodeTable) (data : Bytes) : (count : Nat) → (pos : Nat) →
    (acc : List UInt8) → Checked Bytes
  | 0, _, acc => .ok acc.reverse
  | k + 1, pos, acc => do
    let (s, pos) ← findSymbol t data (List.range' 1 maxLength) 0 0 0 pos
    findSymbols t data k pos (s :: acc)

/-- The `rawLength` bytes that a buffer codes. -/
def decodeChecked (f : TableFormat) (coded : Bytes) (rawLength : Nat) : Checked Bytes := do
  let (lengths, offset) ← f.readChecked coded
  let t ← DecodeTable.new lengths
  if 0 < rawLength ∧ t.symbols.isEmpty then refuse (.malformed "empty code table")
  else do
    let data ← slice coded offset coded.length
    findSymbols t data rawLength 0 []

theorem getElem?_toBits (data : Bytes) (i : Nat) :
    data.toBits[i]? = data[i / 8]?.map fun b => b.toNat.testBit (7 - i % 8) := by
  induction data generalizing i with
  | nil => rfl
  | cons b data ih =>
    show (bitsBE 8 b.toNat ++ Bytes.toBits data)[i]? = _
    by_cases hi : i < 8
    · have hlen : i < (bitsBE 8 b.toNat).length := by rwa [length_bitsBE]
      rw [List.getElem?_append_left hlen, List.getElem?_eq_getElem hlen,
        RangeCoder.getElem_bitsBE _ hlen, Nat.div_eq_of_lt hi, Nat.mod_eq_of_lt hi]
      rfl
    · have hdiv : i / 8 = (i - 8) / 8 + 1 := by omega
      have hmod : i % 8 = (i - 8) % 8 := by omega
      rw [List.getElem?_append_right (by rw [length_bitsBE]; omega), length_bitsBE, ih, hdiv, hmod,
        List.getElem?_cons_succ]

theorem nextBit_of_nil {data : Bytes} {pos : Nat} (h : data.toBits.drop pos = []) :
    nextBit data pos = refuse .truncated := by
  have hget := getElem?_toBits data pos
  rw [List.getElem?_eq_none (List.drop_eq_nil_iff.mp h)] at hget
  rw [nextBit, Option.map_eq_none_iff.mp hget.symm]

theorem nextBit_of_cons {data : Bytes} {pos : Nat} {bit : Bool} {bits : List Bool}
    (h : data.toBits.drop pos = bit :: bits) (hpos : pos + 1 < 2 ^ 64) :
    nextBit data pos = .ok (bit.toNat, pos + 1) ∧ data.toBits.drop (pos + 1) = bits := by
  constructor
  · have hget := getElem?_toBits data pos
    rw [← List.head?_drop, h, List.head?_cons] at hget
    obtain ⟨b, hb, rfl⟩ := Option.map_eq_some_iff.mp hget.symm
    have hbit : b.toNat >>> (7 - pos % 8) &&& 1 = (b.toNat.testBit (7 - pos % 8)).toNat := by
      rw [Nat.toNat_testBit, Nat.and_one_is_mod, Nat.shiftRight_eq_div_pow]
    rw [nextBit, hb]
    simp only [sub_of_le (show pos % 8 ≤ 7 by omega), ok_bind, fit_of_lt hpos, hbit]
  · rw [← List.tail_drop, h, List.tail_cons]

theorem readSigned_natCast (xs : List UInt8) (i : Nat) : readSigned xs i = read xs i :=
  if_neg (Int.not_lt.mpr (Int.natCast_nonneg i))

theorem getElem?_of_drop {xs group rest : List UInt8} {index rank : Nat}
    (h : xs.drop index = group ++ rest) (hrank : rank < group.length) :
    xs[index + rank]? = some group[rank] := by
  rw [← List.getElem?_drop, h, List.getElem?_append_left hrank, List.getElem?_eq_getElem hrank]

/-- There are at most 256 symbols of each length. -/
theorem DecodeTable.Holds.length_symbols_le {t : DecodeTable} {l : CodeLengths} (h : t.Holds l) :
    t.symbols.length ≤ 2 ^ 16 := by
  have hall : ∀ ns : List Nat,
      (ns.map fun n => l.group (n + 1)).flatten.length ≤ 256 * ns.length := by
    intro ns
    induction ns with
    | nil => exact Nat.le_refl 0
    | cons n ns ih =>
      have hgroup := length_group_le l (n + 1)
      rw [List.map_cons, List.flatten_cons, List.length_append, List.length_cons]
      omega
  have hle := hall (List.range maxLength)
  rw [List.length_range] at hle
  rw [h.symbols_eq]
  exact Nat.le_trans hle (by decide)

/-- **One length.** Where `first` is not ahead of the number `c` of the bits read, the
symbol is `c - first` places behind `index`, or one of a greater length. -/
theorem findSymbol_cons {t : DecodeTable} {data : Bytes} {length : Nat} {lengths : List Nat}
    {code first index pos bit c n : Nat} (hnext : nextBit data pos = .ok (bit, pos + 1))
    (hc : code ||| bit = c) (hcount : t.counts[length]? = some n) (hle : first ≤ c)
    (hlt : c < 2 ^ 60) (hindex : index + n < 2 ^ 60) :
    findSymbol t data (length :: lengths) code first index pos =
      if c - first < n then
        read t.symbols (index + (c - first)) >>= fun s => .ok (s, pos + 1)
      else
        findSymbol t data lengths (2 * c) (2 * (first + n)) (index + n) (pos + 1) := by
  have hdistance : (c : Int) - first = (c - first : Nat) := by omega
  rw [findSymbol, hnext, ok_bind]
  simp only [hc, hdistance]
  rw [read_of_getElem? hcount, ok_bind, fitSigned_of_lt (by omega) (by omega), ok_bind]
  by_cases hword : c - first < n
  · have hi : ((index + c : Nat) : Int) - first = (index + (c - first) : Nat) := by omega
    rw [if_pos (by omega), if_pos hword, fit_of_lt (by omega), ok_bind, hi,
      fitSigned_of_lt (by omega) (by omega), ok_bind, readSigned_natCast]
  · rw [if_neg (by omega), if_neg hword, fit_of_lt (by omega), ok_bind, fit_of_lt (by omega),
      ok_bind, Nat.shiftLeft_eq, fit_of_lt (by omega), ok_bind, Nat.shiftLeft_eq,
      fit_of_lt (by omega), ok_bind, Nat.pow_one, Nat.mul_comm c, Nat.mul_comm (first + n)]

/-- **Reading a symbol in registers.** Behind the first `a` lengths, `c` is the number
of the bits read and `f` that of the first bit string that extends no shorter word. -/
theorem DecodeTable.Holds.findSymbol {t : DecodeTable} {l : CodeLengths} (h : t.Holds l)
    (data : Bytes) {a n c f index pos : Nat} (hn : a + n ≤ maxLength) (hle : f ≤ c)
    (hlt : c < 2 ^ a) (hindex : index ≤ t.symbols.length)
    (hdrop : t.symbols.drop index = (l.groupsFrom a n).flatten) (hpos : pos + n < 2 ^ 64) :
    Refines (fun x y => x.1 = y.1 ∧ data.toBits.drop x.2 = y.2 ∧ x.2 ≤ pos + n)
      (findSymbol t data (List.range' (a + 1) n) (2 * c) (2 * f) index pos)
      (decodeSymbol (l.groupsFrom a n) (c - f) (data.toBits.drop pos)) := by
  induction n generalizing a c f index pos with
  | zero => rfl
  | succ n ih =>
    rw [l.groupsFrom_succ, List.flatten_cons] at hdrop
    rw [List.range'_succ, l.groupsFrom_succ]
    cases hbits : data.toBits.drop pos with
    | nil =>
      rw [Huffman.findSymbol, nextBit_of_nil hbits, decodeSymbol]
      rfl
    | cons bit bits =>
      have hmax : maxLength = 56 := rfl
      have hbit : bit.toNat < 2 := bit.toNat_lt
      have hpow : 2 ^ a ≤ 2 ^ 56 := Nat.pow_le_pow_right (by decide) (by omega)
      have hsymbols := h.length_symbols_le
      have hlength : index + (l.group (a + 1)).length ≤ t.symbols.length := by
        have := congrArg List.length hdrop
        rw [List.length_drop, List.length_append] at this
        omega
      have hdistance : 2 * c + bit.toNat - 2 * f = 2 * (c - f) + bit.toNat := by omega
      obtain ⟨hnext, hrest⟩ := nextBit_of_cons hbits (by omega)
      have hcount := h.counts_eq (a + 1) (Nat.succ_pos a) (by omega)
      rw [findSymbol_cons hnext (two_mul_or c bit) hcount (by omega) (by omega) (by omega),
        hdistance, decodeSymbol]
      by_cases hword : 2 * (c - f) + bit.toNat < (l.group (a + 1)).length
      · rw [if_pos hword, read_of_getElem? (getElem?_of_drop hdrop hword), ok_bind]
        simp only [dif_pos hword]
        exact ⟨_, rfl, rfl, hrest, by omega⟩
      · have hrank : 2 * (c - f) + bit.toNat - (l.group (a + 1)).length =
            2 * c + bit.toNat - (2 * f + (l.group (a + 1)).length) := by
          omega
        rw [if_neg hword]
        simp only [dif_neg hword]
        -- the bits are beyond the words of this length, so `first` stays behind `code`
        rw [hrank, ← hrest, show pos + (n + 1) = pos + 1 + n from by omega]
        refine ih (by omega) (by omega) ?_ hlength ?_ (by omega)
        · rw [Nat.pow_succ]
          omega
        · rw [← List.drop_drop, hdrop, List.drop_left]

/-- A count without symbols leads beyond them. -/
example : findSymbol { counts := [0, 2], symbols := [] } [0] [1] 0 0 0 0 =
    .error (.fault .outOfRange) := by
  decide +kernel

theorem DecodeTable.Holds.firstSymbol {t : DecodeTable} {l : CodeLengths} (h : t.Holds l)
    (data : Bytes) {pos : Nat} (hpos : pos + maxLength < 2 ^ 64) :
    Refines (fun x y => x.1 = y.1 ∧ data.toBits.drop x.2 = y.2 ∧ x.2 ≤ pos + maxLength)
      (Huffman.findSymbol t data (List.range' 1 maxLength) 0 0 0 pos)
      (decodeSymbol l.groups 0 (data.toBits.drop pos)) := by
  rw [← l.groupsFrom_zero]
  have hdrop : t.symbols.drop 0 = (l.groupsFrom 0 maxLength).flatten := by
    rw [l.groupsFrom_zero, List.drop_zero, h.symbols_eq]
  exact h.findSymbol data (a := 0) (c := 0) (f := 0) (Nat.le_of_eq (Nat.zero_add maxLength))
    (Nat.le_refl 0) Nat.one_pos (Nat.zero_le _) hdrop hpos

theorem decodeSymbols_succ_eq (groups : List (List UInt8)) (k : Nat) (bits : List Bool)
    (acc : List UInt8) :
    decodeSymbols groups (k + 1) bits acc = (decodeSymbol groups 0 bits).bind fun r =>
      decodeSymbols groups k r.2 (r.1 :: acc) := by
  rw [decodeSymbols]
  cases decodeSymbol groups 0 bits <;> rfl

/-- **Reading symbols in registers.** -/
theorem DecodeTable.Holds.findSymbols {t : DecodeTable} {l : CodeLengths} (h : t.Holds l)
    (data : Bytes) {k pos : Nat} (hpos : pos + maxLength * k < 2 ^ 64) (acc : List UInt8) :
    Refines (fun out raw => out = raw) (findSymbols t data k pos acc)
      (decodeSymbols l.groups k (data.toBits.drop pos) acc) := by
  induction k generalizing pos acc with
  | zero => exact ⟨_, rfl, rfl⟩
  | succ k ih =>
    rw [Nat.mul_succ] at hpos
    rw [Huffman.findSymbols, decodeSymbols_succ_eq]
    refine (h.firstSymbol data (by omega)).bind ?_
    rintro ⟨s, pos'⟩ ⟨s', bits⟩ - ⟨rfl, rfl, hle⟩
    exact ih (by simp only at hle; omega) (s :: acc)

theorem isEmpty_flatten (groups : List (List UInt8)) :
    groups.flatten.isEmpty = groups.all List.isEmpty := by
  induction groups with
  | nil => rfl
  | cons group groups ih =>
    rw [List.all_cons, ← ih, List.flatten_cons]
    cases group <;> rfl

theorem decodeChecked_eq (f : TableFormat) (coded : Bytes) {rawLength : Nat}
    (h : rawLength < 2 ^ 56) :
    decodeChecked f coded rawLength = ofDecoded (decode f coded rawLength) := by
  rw [← refines_eq_iff, decodeChecked]
  refine (f.readChecked_refines coded).bind ?_
  rintro ⟨lengths, offset⟩ ⟨l, stream⟩ - ⟨hl, hstream, hoffset⟩
  simp only at hl hstream hoffset
  subst hl hstream
  refine (DecodeTable.new_refines l).bind ?_
  rintro t groups - ⟨rfl, ht⟩
  rw [ht.symbols_eq, isEmpty_flatten]
  refine Refines.guard fun _ => ?_
  have hmax : maxLength = 56 := rfl
  rw [slice_length hoffset, ok_bind]
  exact ht.findSymbols (coded.drop offset) (by rw [hmax]; omega) []

theorem length_of_decodeSymbols {groups : List (List UInt8)} {k : Nat} {bits : List Bool}
    {acc : List UInt8} {raw : Bytes} (h : decodeSymbols groups k bits acc = .ok raw) :
    raw.length = acc.length + k := by
  induction k generalizing bits acc with
  | zero => rw [← Except.ok.inj h, List.length_reverse, Nat.add_zero]
  | succ k ih =>
    rw [decodeSymbols_succ_eq] at h
    obtain ⟨⟨s, rest⟩, -, h⟩ := Decoded.exists_of_bind h
    rw [ih h, List.length_cons]
    omega

/-- What is read has the length asked for. -/
theorem length_of_decode {f : TableFormat} {coded raw : Bytes} {rawLength : Nat}
    (h : decode f coded rawLength = .ok raw) : raw.length = rawLength := by
  obtain ⟨⟨l, stream⟩, -, h⟩ := Decoded.exists_of_bind h
  obtain ⟨groups, -, h⟩ := Decoded.exists_of_bind h
  split at h
  next => exact nomatch h
  next => rw [length_of_decodeSymbols h, List.length_nil, Nat.zero_add]

end LatticeSuite.Huffman
