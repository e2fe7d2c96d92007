import LatticeSuite.Bytes
import LatticeSuite.Cipher.Quad

/-!
# ChaCha20

The last row of the square is a counter and a nonce. How its four words are
shared out differs: two and two in the generator, one and three in the
authenticated cipher. So a block is a function of the key and that row.
-/

namespace LatticeSuite.ChaCha20

/-- Mix every column of the square. -/
@[inline] def mixColumns (s : Square) : Square :=
  let a := s.a.add s.b
  let d := (s.d.xor a).rotl 16
  let c := s.c.add d
  let b := (s.b.xor c).rotl 12
  let a := a.add b
  let d := (d.xor a).rotl 8
  let c := c.add d
  let b := (b.xor c).rotl 7
  ⟨a, b, c, d⟩

/-- Mix every column, then every diagonal. -/
def doubleRound (s : Square) : Square :=
  let s := mixColumns s
  let s := mixColumns ⟨s.a, s.b.turn1, s.c.turn2, s.d.turn3⟩
  ⟨s.a, s.b.turn3, s.c.turn2, s.d.turn1⟩

/-- The words of a row as bytes. -/
def rowBytes (q : Quad) : Bytes :=
  Bytes.ofWord32LE q.x0 ++ Bytes.ofWord32LE q.x1 ++ Bytes.ofWord32LE q.x2 ++ Bytes.ofWord32LE q.x3

/-- The 64 bytes of the block of a key and a last row. -/
def block (key : Quad × Quad) (last : Quad) : Bytes :=
  let start : Square := ⟨expandConstants, key.1, key.2, last⟩
  let s := (Square.iterate doubleRound 10 start).add start
  rowBytes s.a ++ rowBytes s.b ++ rowBytes s.c ++ rowBytes s.d

/-- Sixteen bytes as a row of words. -/
def rowOf (bs : Bytes) : Quad :=
  ⟨Bytes.toWord32LE bs, Bytes.toWord32LE (bs.drop 4), Bytes.toWord32LE (bs.drop 8),
   Bytes.toWord32LE (bs.drop 12)⟩

/-- A key of 32 bytes as two rows. -/
def keyOf (bs : Bytes) : Quad × Quad :=
  (rowOf bs, rowOf (bs.drop 16))

@[simp] theorem length_block (key : Quad × Quad) (last : Quad) : (block key last).length = 64 :=
  rfl

end LatticeSuite.ChaCha20
