import LatticeSuite.Coding.Coder
import LatticeSuite.Proofs.Huffman.Table

/-!
# One code, two tables

The lengths of a code are written in two ways: all 256 of them by symbol, or a pair for each
symbol that has one. The pairs may come in any order, and their reader goes from pair to pair
and refuses a symbol that it has seen before.

> With the same lengths in front of them, the same bits decode to the same bytes or are
> refused for the same reason (`decode_sparseTable`).

That is because a reader of pairs that does not refuse them has put every length where the
other table has it (`toList_enter`), and from there on both go the same way, also with
lengths that no code has. Encoders write one of the two tables and then the same bits.
-/

namespace LatticeSuite.Huffman

/-- Pairs of a symbol and a length as a table may hold them: no symbol twice, and no length
that is zero. -/
structure IsTable (entries : List (UInt8 × UInt8)) : Prop where
  distinct : (entries.map Prod.fst).Nodup
  positive : ∀ p ∈ entries, p.2 ≠ 0

/-- The length that pairs give a symbol; zero for one that is not among them. -/
def lengthIn (entries : List (UInt8 × UInt8)) (s : UInt8) : UInt8 :=
  (entries.lookup s).getD 0

/-- All lengths, by symbol. -/
def denseTable (entries : List (UInt8 × UInt8)) : Bytes :=
  symbols.map (lengthIn entries)

/-- The number of pairs in two bytes, and the pairs. -/
def sparseTable (entries : List (UInt8 × UInt8)) : Bytes :=
  Bytes.toBE 2 entries.length ++ entries.flatMap fun p => [p.1, p.2]

theorem lengthIn_of_mem {entries : List (UInt8 × UInt8)} (h : IsTable entries) {s n : UInt8}
    (hmem : (s, n) ∈ entries) : lengthIn entries s = n := by
  obtain ⟨front, rest, rfl⟩ := List.append_of_mem hmem
  have hnew : ∀ p ∈ front, (s != p.1) = true := by
    intro p hp
    have hdistinct := h.distinct
    rw [List.map_append, List.map_cons] at hdistinct
    have hdisjoint := List.disjoint_of_nodup_append hdistinct
    refine bne_iff_ne.mpr fun heq => ?_
    exact hdisjoint (List.mem_map_of_mem hp) (heq ▸ List.mem_cons_self)
  rw [lengthIn, List.lookup_eq_some_iff.mpr ⟨front, rest, rfl, hnew⟩, Option.getD_some]

theorem lengthIn_of_not_mem {entries : List (UInt8 × UInt8)} {s : UInt8}
    (h : ∀ p ∈ entries, p.1 ≠ s) : lengthIn entries s = 0 := by
  have hnone : entries.lookup s = none :=
    List.lookup_eq_none_iff.mpr fun p hp => bne_iff_ne.mpr fun heq => h p hp heq.symm
  rw [lengthIn, hnone, Option.getD_none]

/-- **Pairs that are entered one by one end up where the other table has them.** -/
theorem toList_enter {entries : List (UInt8 × UInt8)} (h : IsTable entries) :
    (enter CodeLengths.empty entries).toList = denseTable entries := by
  rw [CodeLengths.toList_eq, denseTable]
  refine List.map_congr_left fun s _ => ?_
  rcases get_enter entries CodeLengths.empty s with hmem | ⟨hnone, hget⟩
  · exact (lengthIn_of_mem h hmem).symm
  · rw [lengthIn_of_not_mem hnone]
    exact hget.trans (CodeLengths.of_empty s)

/-- **The format of the table makes no difference** to what is behind it. -/
theorem decode_sparseTable {entries : List (UInt8 × UInt8)} (h : IsTable entries)
    (stream : Bytes) (rawLength : Nat) :
    decode .sparse (sparseTable entries ++ stream) rawLength =
      decode .dense (denseTable entries ++ stream) rawLength := by
  have hsparse := TableFormat.read_pairs h.distinct h.positive stream
  have hdense := TableFormat.read_write .dense (enter CodeLengths.empty entries) stream
  rw [TableFormat.write, toList_enter h] at hdense
  rw [decode, decode, hdense, sparseTable, hsparse]

/-! ## Encoders -/

theorem CodeLengths.isTable_entries (l : CodeLengths) : IsTable l.entries where
  distinct := l.nodup_entries
  positive _ hp := (CodeLengths.mem_entries.mp hp).2

theorem encode_sparse (raw : Bytes) :
    encode .sparse raw = sparseTable (codeLengths raw).entries ++
      Bytes.ofBits ((codeLengths raw).encodeBits raw) := rfl

theorem encode_dense (raw : Bytes) :
    encode .dense raw = denseTable (codeLengths raw).entries ++
      Bytes.ofBits ((codeLengths raw).encodeBits raw) := by
  rw [← toList_enter (codeLengths raw).isTable_entries, enter_entries]
  rfl

/-- **The two codings with a Huffman table differ in the table only.** Behind the same
lengths they decode alike, whatever the lengths and in whatever order the pairs are, and what
they code differs in how the lengths are written. -/
theorem codings_differ_in_the_table :
    (∀ entries, IsTable entries → ∀ (stream : Bytes) (rawLength : Nat),
      KeyCoding.strongSwan.decode (sparseTable entries ++ stream) rawLength =
        KeyCoding.huffmanStatic.decode (denseTable entries ++ stream) rawLength) ∧
    ∀ raw, ∃ entries stream, IsTable entries ∧
      KeyCoding.strongSwan.encode raw = sparseTable entries ++ stream ∧
      KeyCoding.huffmanStatic.encode raw = denseTable entries ++ stream := by
  refine ⟨fun _ h => decode_sparseTable h, fun raw => ?_⟩
  exact ⟨_, _, (codeLengths raw).isTable_entries, encode_sparse raw, encode_dense raw⟩

/-- The law behind a table whose pairs are out of order, one with a length that is too long,
and one with too many words. -/
theorem codings_differ_in_the_table_of_three_tables :
    KeyCoding.strongSwan.decode (sparseTable [(7, 2), (5, 1), (9, 2)] ++ [0x58]) 3 =
        KeyCoding.huffmanStatic.decode (denseTable [(7, 2), (5, 1), (9, 2)] ++ [0x58]) 3 ∧
      KeyCoding.strongSwan.decode (sparseTable [(7, 200)] ++ [0]) 1 =
        KeyCoding.huffmanStatic.decode (denseTable [(7, 200)] ++ [0]) 1 ∧
      KeyCoding.strongSwan.decode (sparseTable [(3, 1), (2, 1), (1, 1)] ++ []) 0 =
        KeyCoding.huffmanStatic.decode (denseTable [(3, 1), (2, 1), (1, 1)] ++ []) 0 :=
  ⟨codings_differ_in_the_table.1 _ ⟨by decide, by simp⟩ [0x58] 3,
    codings_differ_in_the_table.1 _ ⟨by decide, by simp⟩ [0] 1,
    codings_differ_in_the_table.1 _ ⟨by decide, by simp⟩ [] 0⟩

end LatticeSuite.Huffman
