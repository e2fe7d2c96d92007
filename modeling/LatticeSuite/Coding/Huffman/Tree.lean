import LatticeSuite.Bytes

/-!
# Huffman trees and code lengths

The lengths of an optimal code for a byte string: the two lightest trees of a
forest are joined until one tree is left, and the length of a symbol is its
depth. The forest is kept sorted by weight, and a joined tree goes behind the
trees of its own weight, so that among equals the oldest is taken first and
leaves are taken in symbol order. This makes the lengths a function of the
byte counts alone.

A code gives every symbol a length, zero for a symbol without a code word.
-/

namespace LatticeSuite.Huffman

/-- The code length of each of the 256 symbols; zero means no code word. -/
abbrev CodeLengths := Vector UInt8 256

/-- The length of a symbol's code word. -/
def CodeLengths.of (l : CodeLengths) (s : UInt8) : UInt8 :=
  l.get ⟨s.toNat, UInt8.toNat_lt s⟩

/-- The same lengths but for one symbol. -/
def CodeLengths.assign (l : CodeLengths) (s : UInt8) (length : UInt8) : CodeLengths :=
  l.set s.toNat length (UInt8.toNat_lt s)

/-- No code words at all. -/
def CodeLengths.empty : CodeLengths := Vector.replicate 256 0

/-- Every byte value, in order. -/
def symbols : List UInt8 :=
  (List.range 256).map UInt8.ofNat

/-- A binary tree with symbols at its leaves. -/
inductive Tree where
  | leaf (symbol : UInt8)
  | node (left right : Tree)
  deriving Repr

/-- The leaves of a tree with their depths below a root at depth `d`. -/
def Tree.depths : (t : Tree) → (d : Nat) → List (UInt8 × Nat)
  | .leaf s, d => [(s, d)]
  | .node l r, d => l.depths (d + 1) ++ r.depths (d + 1)

/-- A tree and the number of bytes that its leaves stand for. -/
structure Weighted where
  weight : Nat
  tree : Tree

/-- The tree that joins two. -/
def Weighted.join (a b : Weighted) : Weighted :=
  { weight := a.weight + b.weight, tree := .node a.tree b.tree }

/-- Put a tree behind all trees that are not heavier. -/
def insert (t : Weighted) : List Weighted → List Weighted
  | [] => [t]
  | u :: forest => if t.weight < u.weight then t :: u :: forest else u :: insert t forest

@[simp] theorem length_insert (t : Weighted) (forest : List Weighted) :
    (insert t forest).length = forest.length + 1 := by
  induction forest with
  | nil => rfl
  | cons u forest ih => by_cases h : t.weight < u.weight <;> simp [insert, h, ih]

/-- Join the two lightest trees until one is left. -/
def joinAll : List Weighted → Option Tree
  | [] => none
  | [t] => some t.tree
  | a :: b :: forest => joinAll (insert (a.join b) forest)
termination_by forest => forest.length
decreasing_by simp

/-- One more occurrence of a byte. -/
def countByte (c : Vector Nat 256) (b : UInt8) : Vector Nat 256 :=
  c.set b.toNat (c.get ⟨b.toNat, UInt8.toNat_lt b⟩ + 1) (UInt8.toNat_lt b)

/-- How often each byte occurs, by byte value. -/
def counts (raw : Bytes) : Vector Nat 256 :=
  raw.foldl countByte (Vector.replicate 256 0)

/-- The symbols that occur, with their counts, in symbol order. -/
def occurring (raw : Bytes) : List (UInt8 × Nat) :=
  let c := counts raw
  (symbols.map fun s => (s, c.get ⟨s.toNat, UInt8.toNat_lt s⟩)).filter fun p => 0 < p.2

/-- The forest of single leaves, sorted by weight and then by symbol. -/
def leaves (raw : Bytes) : List Weighted :=
  (occurring raw).foldl (fun forest p => insert ⟨p.2, .leaf p.1⟩ forest) []

/-- The lengths that a list of symbols and depths assigns. -/
def CodeLengths.ofDepths (depths : List (UInt8 × Nat)) : CodeLengths :=
  depths.foldl (fun l p => l.assign p.1 (UInt8.ofNat p.2)) CodeLengths.empty

/-- The lengths of an optimal code for a byte string. A single symbol still
needs a bit. -/
def codeLengths (raw : Bytes) : CodeLengths :=
  match joinAll (leaves raw) with
  | none => CodeLengths.empty
  | some (.leaf s) => CodeLengths.ofDepths [(s, 1)]
  | some t => CodeLengths.ofDepths (t.depths 0)

end LatticeSuite.Huffman
