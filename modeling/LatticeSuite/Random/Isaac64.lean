import LatticeSuite.Random.Seed
import LatticeSuite.Random.Words

/-!
# ISAAC with 64-bit words

A memory of 256 words is stirred as a whole, which yields a batch of 256
words of output; they are handed out one by one, and the next batch is made
when they are used up. Seeding scrambles a block of 256 words into the memory
in two passes.
-/

namespace LatticeSuite

/-- Eight words that are mixed together. -/
structure Isaac64.Octet where
  (a b c d e f g h : UInt64)
  deriving Inhabited

/-- The state: the current batch, the memory, three registers, and how much of
the batch is used. -/
structure Isaac64 where
  batch : Array UInt64
  memory : Array UInt64
  a : UInt64
  b : UInt64
  c : UInt64
  index : Nat
  deriving DecidableEq

namespace Isaac64

/-- Mix eight words. -/
def Octet.mix (s : Octet) : Octet :=
  let ⟨a, b, c, d, e, f, g, h⟩ := s
  let a := a - e
  let f := f ^^^ (h >>> 9)
  let h := h + a
  let b := b - f
  let g := g ^^^ (a <<< 9)
  let a := a + b
  let c := c - g
  let h := h ^^^ (b >>> 23)
  let b := b + c
  let d := d - h
  let a := a ^^^ (c <<< 15)
  let c := c + d
  let e := e - a
  let b := b ^^^ (d >>> 14)
  let d := d + e
  let f := f - b
  let c := c ^^^ (e <<< 20)
  let e := e + f
  let g := g - c
  let d := d ^^^ (f >>> 17)
  let f := f + g
  let h := h - d
  let e := e ^^^ (g <<< 14)
  let g := g + h
  ⟨a, b, c, d, e, f, g, h⟩

/-- Add the eight words of `source` at offset `i`. -/
def Octet.addAt (s : Octet) (source : Array UInt64) (i : Nat) : Octet :=
  let w (j : Nat) : UInt64 := source.getD (i + j) 0
  ⟨s.a + w 0, s.b + w 1, s.c + w 2, s.d + w 3, s.e + w 4, s.f + w 5, s.g + w 6, s.h + w 7⟩

/-- The words in order. -/
def Octet.toArray (s : Octet) : Array UInt64 :=
  #[s.a, s.b, s.c, s.d, s.e, s.f, s.g, s.h]

/-- Eight copies of the golden ratio, mixed four times. -/
def Octet.initial : Octet :=
  let w : UInt64 := 0x9e3779b97f4a7c13
  (⟨w, w, w, w, w, w, w, w⟩ : Octet).mix.mix.mix.mix

/-- One pass over a block of words: every eight of them are mixed into the
octet, which replaces them. -/
def scramble (s : Octet) (source : Array UInt64) : Octet × Array UInt64 :=
  (List.range 32).foldl (fun (s, out) i =>
    let s := (s.addAt source (8 * i)).mix
    (s, out ++ s.toArray)) (s, #[])

/-- The change of register `a` before the word at index `i` is added. -/
def stir (a : UInt64) (i : Nat) : UInt64 :=
  match i % 4 with
  | 0 => ~~~(a ^^^ (a <<< 21))
  | 1 => a ^^^ (a >>> 5)
  | 2 => a ^^^ (a <<< 12)
  | _ => a ^^^ (a >>> 33)

/-- The part of a refill that belongs to index `i`: memory, batch and the two
registers that change. -/
def refillAt (s : Array UInt64 × Array UInt64 × UInt64 × UInt64) (i : Nat) :
    Array UInt64 × Array UInt64 × UInt64 × UInt64 :=
  let (memory, batch, a, b) := s
  let x := memory.getD i 0
  let a := stir a i + memory.getD ((i + 128) % 256) 0
  let y := memory.getD ((x >>> 3).toNat % 256) 0 + a + b
  let memory := memory.setIfInBounds i y
  let b := memory.getD ((y >>> 11).toNat % 256) 0 + x
  (memory, batch.push b, a, b)

/-- Stir the memory and make the next batch. -/
def refill (s : Isaac64) : Isaac64 :=
  let c := s.c + 1
  let (memory, batch, a, b) := (List.range 256).foldl refillAt (s.memory, #[], s.a, s.b + c)
  { memory, batch, a, b, c, index := 0 }

/-- The state that a block of 256 words seeds. -/
def ofBlock (block : Array UInt64) : Isaac64 :=
  let (s, memory) := scramble Octet.initial block
  let (_, memory) := scramble s memory
  refill { batch := #[], memory, a := 0, b := 0, c := 0, index := 0 }

/-- The state of a seed. -/
def new (seed : Bytes) : Isaac64 :=
  ofBlock (Seed.addTo (List.replicate 256 0) seed).toArray

/-- The state that the memory with fresh entropy added seeds. -/
def reseed (s : Isaac64) (entropy : Bytes) : Isaac64 :=
  ofBlock (Seed.addTo s.memory.toList entropy).toArray

/-- The next word. -/
def next (s : Isaac64) : UInt64 × Isaac64 :=
  let s := if s.index ≥ 256 then s.refill else s
  (s.batch.getD s.index 0, { s with index := s.index + 1 })

def generate (s : Isaac64) (n : Nat) : Bytes × Isaac64 :=
  Words.fill next n s

end Isaac64

end LatticeSuite
