import LatticeSuite.Coding.Huffman.Canonical

/-!
# Huffman coding behind a table

Two ways to write the lengths ahead of the bits: all 256 of them in order, or
the number of symbols in use and a pair for each. Which of the two makes no
difference to the bits.
-/

namespace LatticeSuite.Huffman

/-- How the code lengths are written. -/
inductive TableFormat where
  /-- All 256 lengths. -/
  | dense
  /-- The number of code words in two bytes, then a symbol and a length for each. -/
  | sparse
  deriving DecidableEq, Repr

/-- The symbols that have a code word, with its length, in symbol order. -/
def CodeLengths.entries (l : CodeLengths) : List (UInt8 × UInt8) :=
  (symbols.map fun s => (s, l.of s)).filter fun p => p.2 ≠ 0

/-- The written form of a table. -/
def TableFormat.write (f : TableFormat) (l : CodeLengths) : Bytes :=
  match f with
  | .dense => l.toList
  | .sparse => Bytes.toBE 2 l.entries.length ++ l.entries.flatMap fun p => [p.1, p.2]

/-- The table that pairs add to `l`. No symbol comes twice, and none with
length zero. -/
def readEntries : (entries : Bytes) → (l : CodeLengths) → Decoded CodeLengths
  | symbol :: length :: rest, l =>
    if l.of symbol ≠ 0 ∨ length = 0 then .error (.malformed "duplicate or empty table entry")
    else readEntries rest (l.assign symbol length)
  | _, l => .ok l

/-- Read a table: its lengths and what follows it. -/
def TableFormat.read (f : TableFormat) (coded : Bytes) : Decoded (CodeLengths × Bytes) :=
  match f with
  | .dense =>
    if h : 256 ≤ coded.length then
      .ok (⟨(coded.take 256).toArray, List.length_take_of_le h⟩, coded.drop 256)
    else .error .truncated
  | .sparse =>
    if coded.length < 2 then .error .truncated
    else
      let count := Bytes.ofBE (coded.take 2)
      let rest := coded.drop 2
      if count > 256 then .error (.malformed "symbol count")
      else if rest.length < 2 * count then .error .truncated
      else
        (readEntries (rest.take (2 * count)) CodeLengths.empty).map
          fun l => (l, rest.drop (2 * count))

/-- The coded form of a byte string: the table, then the bits. -/
def encode (f : TableFormat) (raw : Bytes) : Bytes :=
  let l := codeLengths raw
  f.write l ++ Bytes.ofBits (l.encodeBits raw)

/-- The `rawLength` bytes that a buffer codes. What follows them in the buffer
is not looked at. -/
def decode (f : TableFormat) (coded : Bytes) (rawLength : Nat) : Decoded Bytes := do
  let (l, stream) ← f.read coded
  let groups ← l.check
  if 0 < rawLength ∧ groups.all List.isEmpty then
    .error (.malformed "empty code table")
  else
    decodeSymbols groups rawLength (Bytes.toBits stream) []

end LatticeSuite.Huffman
