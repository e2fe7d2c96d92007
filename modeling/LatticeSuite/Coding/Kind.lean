/-!
# The five codings

A coding says how the payload of a key or signature envelope is written. Its
tag is the byte that names it there; `KeyCoding.ofTag?` reads the tag back.
-/

namespace LatticeSuite

/-- How the payload of an envelope is written. -/
inductive KeyCoding where
  /-- The bytes themselves. -/
  | raw
  /-- Adaptive binary arithmetic coding. -/
  | bac
  /-- Run lengths, then arithmetic coding. -/
  | bacRle
  /-- Canonical Huffman behind a table of all 256 lengths. -/
  | huffmanStatic
  /-- Canonical Huffman behind a table of the occurring symbols. -/
  | strongSwan
  deriving DecidableEq, Repr, Inhabited

namespace KeyCoding

def all : List KeyCoding :=
  [.raw, .bac, .bacRle, .huffmanStatic, .strongSwan]

/-- The byte that names a coding in an envelope. -/
def tag : KeyCoding → UInt8
  | .raw => 0
  | .bac => 1
  | .bacRle => 2
  | .huffmanStatic => 3
  | .strongSwan => 4

/-- The coding of a tag, if there is one. -/
def ofTag? (t : UInt8) : Option KeyCoding :=
  all.find? fun c => c.tag == t

def text : KeyCoding → String
  | .raw => "none"
  | .bac => "BAC"
  | .bacRle => "BAC+RLE"
  | .huffmanStatic => "static Huffman"
  | .strongSwan => "interoperable Huffman"

/-- The identifier used in diagnostic records. -/
def label : KeyCoding → String
  | .raw => "None"
  | .bac => "Bac"
  | .bacRle => "BacRle"
  | .huffmanStatic => "HuffmanStatic"
  | .strongSwan => "StrongSwan"

theorem tag_inj {a b : KeyCoding} (h : a.tag = b.tag) : a = b := by
  revert h
  cases a <;> cases b <;> decide

/-- A tag is accepted exactly when it is the tag of the coding found. -/
theorem ofTag?_eq_some_iff {t : UInt8} {c : KeyCoding} : ofTag? t = some c ↔ c.tag = t := by
  constructor
  · intro h
    simpa using List.find?_some h
  · intro h
    subst h
    cases c <;> decide

end KeyCoding

end LatticeSuite
