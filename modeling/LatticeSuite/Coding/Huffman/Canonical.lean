import LatticeSuite.Coding.Bits
import LatticeSuite.Coding.Error
import LatticeSuite.Coding.Huffman.Tree

/-!
# Canonical code words

The lengths determine the code: shorter words first, and words of one length
in symbol order. So the words of one length are consecutive numbers, the
first of them right behind the extensions of all shorter words, and a decoder
needs only the symbols grouped by length. Reading a word bit by bit, it keeps
the distance of the bits read so far from the first word of their length; if
that distance is below the number of words of the length, it is the rank of
the symbol in its group.
-/

namespace LatticeSuite.Huffman

/-- The longest code word that a table may declare. -/
def maxLength : Nat := 56

/-- The symbols with code words of `length` bits, in order. -/
def CodeLengths.group (l : CodeLengths) (length : Nat) : List UInt8 :=
  symbols.filter fun s => (l.of s).toNat == length

/-- The groups of lengths `1, 2, …, 56`. -/
def CodeLengths.groups (l : CodeLengths) : List (List UInt8) :=
  (List.range maxLength).map fun k => l.group (k + 1)

/-! ## Writing -/

/-- The code words of the groups of lengths `length`, `length + 1`, …, the
first of which is the number `first`. -/
def assignWords : (groups : List (List UInt8)) → (length first : Nat) →
    List (UInt8 × List Bool)
  | [], _, _ => []
  | group :: groups, length, first =>
    (group.zipIdx first).map (fun p => (p.1, bitsBE length p.2)) ++
      assignWords groups (length + 1) (2 * (first + group.length))

/-- The code words of all symbols that have one. -/
def CodeLengths.words (l : CodeLengths) : List (UInt8 × List Bool) :=
  assignWords l.groups 1 0

/-- The code words by symbol, empty for a symbol without one. -/
def wordTable (words : List (UInt8 × List Bool)) : Vector (List Bool) 256 :=
  words.foldl (fun t p => t.set p.1.toNat p.2 (UInt8.toNat_lt p.1)) (Vector.replicate 256 [])

/-- The bits of a byte string under a code. -/
def CodeLengths.encodeBits (l : CodeLengths) (raw : Bytes) : List Bool :=
  let table := wordTable l.words
  raw.flatMap fun b => table.get ⟨b.toNat, UInt8.toNat_lt b⟩

/-! ## Reading -/

/-- Whether the words of the groups fit, `free` being the number of words of
the previous length that are not taken. -/
def fits : (groups : List (List UInt8)) → (free : Nat) → Bool
  | [], _ => true
  | group :: groups, free => decide (group.length ≤ 2 * free) && fits groups (2 * free - group.length)

/-- The groups of a table, unless a word is too long or the words do not fit. -/
def CodeLengths.check (l : CodeLengths) : Decoded (List (List UInt8)) :=
  if l.toList.any fun n => decide (maxLength < n.toNat) then .error (.malformed "code length")
  else if fits l.groups 1 then .ok l.groups
  else .error (.malformed "over-subscribed code table")

/-- Read one symbol: `distance` is that of the bits read so far from the first
bit string that extends no shorter word. -/
def decodeSymbol : (groups : List (List UInt8)) → (distance : Nat) → (bits : List Bool) →
    Decoded (UInt8 × List Bool)
  | [], _, _ => .error (.malformed "invalid Huffman code")
  | _ :: _, _, [] => .error .truncated
  | group :: groups, distance, bit :: bits =>
    let distance := 2 * distance + bit.toNat
    if h : distance < group.length then .ok (group[distance], bits)
    else decodeSymbol groups (distance - group.length) bits

/-- Read `count` symbols, appended to the reversed `acc`. -/
def decodeSymbols (groups : List (List UInt8)) : (count : Nat) → (bits : List Bool) →
    (acc : List UInt8) → Decoded Bytes
  | 0, _, acc => .ok acc.reverse
  | k + 1, bits, acc =>
    match decodeSymbol groups 0 bits with
    | .error e => .error e
    | .ok (s, bits) => decodeSymbols groups k bits (s :: acc)

end LatticeSuite.Huffman
