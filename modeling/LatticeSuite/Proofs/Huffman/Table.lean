import LatticeSuite.Coding.Huffman.Table
import LatticeSuite.Proofs.Coding.Packing
import LatticeSuite.Proofs.Huffman.Lengths

/-!
# A Huffman buffer gives its byte string back

A buffer is a table and then a stream of bits, and the reader needs both: the
table is read off the front, checked, and the symbols are read from what is
left. So there are three facts to put together. A written table is read back
whatever follows it (`TableFormat.read_write`), the table of a byte string
passes the check (`check_codeLengths`), and the stream gives the symbols back
one after the other, the zeros that fill up its last byte being ignored.

> `decode f (encode f raw) raw.length = .ok raw`

The same three facts decide what a cut does. A cut inside the table leaves too
few bytes for the number of entries that the table announces, and a cut inside
the stream leaves too few bits for the last symbols: the fill of the last byte
is less than a byte, so taking a byte away takes bits of code words away.
-/

namespace LatticeSuite.Huffman

/-! ## The entries of a table -/

theorem CodeLengths.mem_entries {l : CodeLengths} {p : UInt8 × UInt8} :
    p ∈ l.entries ↔ p.2 = l.of p.1 ∧ p.2 ≠ 0 := by
  obtain ⟨s, n⟩ := p
  rw [entries]
  simp only [List.mem_filter, List.mem_map, mem_symbols, true_and, decide_eq_true_iff]
  constructor
  · rintro ⟨⟨s', heq⟩, hn⟩
    obtain ⟨rfl, rfl⟩ := Prod.mk.inj heq
    exact ⟨rfl, hn⟩
  · rintro ⟨hlen, hn⟩
    exact ⟨⟨s, by rw [hlen]⟩, hn⟩

theorem CodeLengths.nodup_entries (l : CodeLengths) : (l.entries.map Prod.fst).Nodup := by
  have hsub : (l.entries.map Prod.fst).Sublist ((symbols.map fun s => (s, l.of s)).map Prod.fst) :=
    List.filter_sublist.map _
  have hsymbols : (symbols.map fun s => (s, l.of s)).map Prod.fst = symbols := by
    rw [List.map_map]
    exact List.map_id symbols
  exact (hsymbols ▸ hsub).nodup nodup_symbols

theorem CodeLengths.length_entries_le (l : CodeLengths) : l.entries.length ≤ 256 := by
  have h := length_le_of_nodup l.nodup_entries
  rwa [List.length_map] at h

/-- Two tables with the same lengths are the same. -/
theorem CodeLengths.ext_of {l m : CodeLengths} (h : ∀ s, l.of s = m.of s) : l = m := by
  refine Vector.ext ?_
  intro i hi
  have hsym : (UInt8.ofNat i).toNat = i := UInt8.toNat_ofNat_of_lt' hi
  have hi' := h (UInt8.ofNat i)
  simp only [CodeLengths.of, hsym] at hi'
  exact hi'

theorem CodeLengths.of_assign_ne {l : CodeLengths} {s s' n : UInt8} (h : s ≠ s') :
    (l.assign s n).of s' = l.of s' :=
  get_set_of_ne l h n

/-- The entries of a table, put into an empty one, give the table. -/
theorem enter_entries (l : CodeLengths) : enter CodeLengths.empty l.entries = l := by
  refine CodeLengths.ext_of ?_
  intro s
  rcases get_enter l.entries CodeLengths.empty s with hmem | ⟨hnone, hget⟩
  · exact (CodeLengths.mem_entries.mp hmem).1
  · -- a symbol that is not entered has no word
    have hzero : l.of s = 0 := by
      by_contra hne
      exact hnone (s, l.of s) (CodeLengths.mem_entries.mpr ⟨rfl, hne⟩) rfl
    rw [hzero]
    exact hget.trans (CodeLengths.of_empty s)

/-- Pairs of new symbols and lengths that are not zero are all entered. -/
theorem readEntries_flatMap (pairs : List (UInt8 × UInt8)) (l : CodeLengths)
    (hnodup : (pairs.map Prod.fst).Nodup) (hnew : ∀ p ∈ pairs, l.of p.1 = 0 ∧ p.2 ≠ 0) :
    readEntries (pairs.flatMap fun p => [p.1, p.2]) l = .ok (enter l pairs) := by
  induction pairs generalizing l with
  | nil => rfl
  | cons p pairs ih =>
    obtain ⟨hfresh, hrest⟩ := List.nodup_cons.mp hnodup
    obtain ⟨hzero, hpos⟩ := hnew p List.mem_cons_self
    rw [List.flatMap_cons]
    show readEntries (p.1 :: p.2 :: pairs.flatMap fun p => [p.1, p.2]) l = _
    have hok : ¬(l.of p.1 ≠ 0 ∨ p.2 = 0) := by
      rintro (h | h)
      · exact h hzero
      · exact hpos h
    rw [readEntries, if_neg hok, ih (l.assign p.1 p.2) hrest]
    · rfl
    · intro q hq
      have hne : p.1 ≠ q.1 := fun h => hfresh (h ▸ List.mem_map_of_mem hq)
      rw [CodeLengths.of_assign_ne hne]
      exact hnew q (List.mem_cons_of_mem _ hq)

/-! ## The written table -/

theorem length_flatMap_pairs (pairs : List (UInt8 × UInt8)) :
    (pairs.flatMap fun p => [p.1, p.2]).length = 2 * pairs.length := by
  induction pairs with
  | nil => rfl
  | cons p pairs ih =>
    rw [List.flatMap_cons, List.length_append, ih]
    show 2 + 2 * pairs.length = 2 * (pairs.length + 1)
    omega

/-- **Pairs in any order are a table**, if no symbol comes twice and none without a length. -/
theorem TableFormat.read_pairs {pairs : List (UInt8 × UInt8)}
    (hnodup : (pairs.map Prod.fst).Nodup) (hpos : ∀ p ∈ pairs, p.2 ≠ 0) (rest : Bytes) :
    TableFormat.sparse.read
        (Bytes.toBE 2 pairs.length ++ (pairs.flatMap fun p => [p.1, p.2]) ++ rest) =
      .ok (enter CodeLengths.empty pairs, rest) := by
  have hcount := length_le_of_nodup hnodup
  rw [List.length_map] at hcount
  have hbody := length_flatMap_pairs pairs
  have hfield : (Bytes.toBE 2 pairs.length).length = 2 := Bytes.length_toBE 2 _
  have hread : Bytes.ofBE (Bytes.toBE 2 pairs.length) = pairs.length :=
    Bytes.ofBE_toBE_of_lt (by omega)
  rw [read, List.append_assoc, List.take_left' hfield, List.drop_left' hfield, hread]
  rw [if_neg (by simp only [List.length_append]; omega), if_neg (by omega),
    if_neg (by simp only [List.length_append]; omega), List.take_left' hbody,
    List.drop_left' hbody, readEntries_flatMap pairs CodeLengths.empty hnodup]
  · rfl
  · intro p hp
    exact ⟨CodeLengths.of_empty p.1, hpos p hp⟩

/-- **A table is read back** whatever follows it. -/
theorem TableFormat.read_write (f : TableFormat) (l : CodeLengths) (rest : Bytes) :
    f.read (f.write l ++ rest) = .ok (l, rest) := by
  cases f with
  | dense =>
    have hlen : l.toList.length = 256 := l.length_toList
    have hlong : 256 ≤ (l.toList ++ rest).length := by
      rw [List.length_append]
      omega
    show (if h : 256 ≤ (l.toList ++ rest).length then _ else _) = _
    rw [dif_pos hlong]
    congr 2
    · refine Vector.toList_inj.mp ?_
      exact List.take_left' hlen
    · exact List.drop_left' hlen
  | sparse =>
    have hread := TableFormat.read_pairs l.nodup_entries
      (fun p hp => (CodeLengths.mem_entries.mp hp).2) rest
    rwa [enter_entries] at hread

/-- **A table that is cut short is refused** as truncated. -/
theorem TableFormat.read_truncated (f : TableFormat) (l : CodeLengths) {cut : Bytes}
    (h : ProperPrefix cut (f.write l)) : f.read cut = .error .truncated := by
  have hlt := h.length_lt
  cases f with
  | dense =>
    have hlen : l.toList.length = 256 := l.length_toList
    have hshort : ¬256 ≤ cut.length := by
      rw [write, hlen] at hlt
      omega
    rw [read, dif_neg hshort]
  | sparse =>
    have hbody := length_flatMap_pairs l.entries
    have hfield : (Bytes.toBE 2 l.entries.length).length = 2 := Bytes.length_toBE 2 _
    rcases h.append_cases with hcut | ⟨cut', rfl, hcut⟩
    · -- not even the number of entries is there
      have hshort : cut.length < 2 := hfield ▸ hcut.length_lt
      rw [read, if_pos hshort]
    · have hcount := l.length_entries_le
      have hread : Bytes.ofBE (Bytes.toBE 2 l.entries.length) = l.entries.length :=
        Bytes.ofBE_toBE_of_lt (by omega)
      have hshort := hcut.length_lt
      rw [read, List.take_left' hfield, List.drop_left' hfield, hread]
      rw [if_neg (by simp only [List.length_append]; omega), if_neg (by omega),
        if_pos (by omega)]

/-! ## The whole buffer -/

/-- The groups of a byte string are not all empty if it holds a byte. -/
theorem groups_not_empty {raw : Bytes} (hlen : raw.length < Nat.fib (maxLength + 3)) :
    ¬(0 < raw.length ∧ (codeLengths raw).groups.all List.isEmpty = true) := by
  rintro ⟨hpos, hempty⟩
  obtain ⟨s, hs⟩ := List.exists_mem_of_length_pos hpos
  obtain ⟨hone, hmax⟩ := of_codeLengths hlen hs
  obtain ⟨hgroup, hmem⟩ := CodeLengths.mem_group hone hmax
  have hnil := List.isEmpty_iff.mp (List.all_eq_true.mp hempty _ hgroup)
  rw [hnil] at hmem
  exact List.not_mem_nil hmem

/-- Behind the table of a byte string only the bits are left to be read. -/
theorem decode_table (f : TableFormat) {raw : Bytes} (hlen : raw.length < Nat.fib (maxLength + 3))
    (stream : Bytes) :
    decode f (f.write (codeLengths raw) ++ stream) raw.length =
      decodeSymbols (codeLengths raw).groups raw.length stream.toBits [] := by
  rw [decode, TableFormat.read_write]
  show ((codeLengths raw).check >>= fun groups => _) = _
  rw [check_codeLengths hlen]
  show (if _ then _ else _) = _
  rw [if_neg (groups_not_empty hlen)]

/-- Every byte of a string is read back from its word. -/
theorem decodeSymbol_codeLengths {raw : Bytes} (hlen : raw.length < Nat.fib (maxLength + 3)) :
    ∀ s ∈ raw, ∀ rest, decodeSymbol (codeLengths raw).groups 0
      ((codeLengths raw).word s ++ rest) = .ok (s, rest) := by
  intro s hs rest
  obtain ⟨hpos, hmax⟩ := of_codeLengths hlen hs
  exact CodeLengths.decodeSymbol_word (fits_codeLengths hlen) hpos hmax rest

/-- **A Huffman buffer gives its byte string back.** -/
theorem decode_encode (f : TableFormat) {raw : Bytes}
    (hlen : raw.length < Nat.fib (maxLength + 3)) :
    decode f (encode f raw) raw.length = .ok raw := by
  obtain ⟨k, -, hbits⟩ := Bytes.toBits_ofBits ((codeLengths raw).encodeBits raw)
  rw [encode, decode_table f hlen, hbits, CodeLengths.encodeBits_eq,
    decodeSymbols_flatMap raw [] _ (decodeSymbol_codeLengths hlen)]
  rfl

/-- **A Huffman buffer that is cut short is refused** as truncated. -/
theorem decode_truncated (f : TableFormat) {raw cut : Bytes}
    (hlen : raw.length < Nat.fib (maxLength + 3))
    (h : ProperPrefix cut (encode f raw)) : decode f cut raw.length = .error .truncated := by
  rcases h.append_cases with hcut | ⟨cut', rfl, hcut⟩
  · rw [decode, f.read_truncated _ hcut]
    rfl
  · rw [decode_table f hlen]
    exact decodeSymbols_truncated raw [] (decodeSymbol_codeLengths hlen) (Bytes.toBits_of_cut hcut)

end LatticeSuite.Huffman
