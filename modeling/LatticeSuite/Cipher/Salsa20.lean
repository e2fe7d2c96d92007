import LatticeSuite.Bytes
import LatticeSuite.Cipher.Quad

/-!
# Salsa20

The square is held by its diagonals: row `a` holds the words on the main
diagonal and the rows below it the words found by going down from there. In
this form the rows of the specification's square are the columns of the
turned one, as in ChaCha20.
-/

namespace LatticeSuite.Salsa20

/-- Mix every column of the square. -/
@[inline] def mixColumns (s : Square) : Square :=
  let b := s.b.xor ((s.a.add s.d).rotl 7)
  let c := s.c.xor ((b.add s.a).rotl 9)
  let d := s.d.xor ((c.add b).rotl 13)
  let a := s.a.xor ((d.add c).rotl 18)
  ⟨a, b, c, d⟩

/-- Mix every column, then every row of the specification's square. -/
def doubleRound (s : Square) : Square :=
  let s := mixColumns s
  let s := mixColumns ⟨s.a, s.d.turn1, s.c.turn2, s.b.turn3⟩
  ⟨s.a, s.d.turn1, s.c.turn2, s.b.turn3⟩

/-- The sixteen words in the order of the specification's square. -/
def words (s : Square) : List UInt32 :=
  [s.a.x0, s.d.x1, s.c.x2, s.b.x3,
   s.b.x0, s.a.x1, s.d.x2, s.c.x3,
   s.c.x0, s.b.x1, s.a.x2, s.d.x3,
   s.d.x0, s.c.x1, s.b.x2, s.a.x3]

/-- A key of 32 bytes and a nonce of 8. -/
structure Key where
  key : Bytes
  nonce : Bytes
  deriving DecidableEq

/-- Block `i` of the keystream. -/
def Key.block (k : Key) (i : Nat) : Bytes :=
  let key (j : Nat) : UInt32 := Bytes.toWord32LE (k.key.drop (4 * j))
  let low := UInt32.ofNat i
  let high := UInt32.ofNat (i / 2 ^ 32)
  let n0 := Bytes.toWord32LE k.nonce
  let n1 := Bytes.toWord32LE (k.nonce.drop 4)
  let start : Square :=
    ⟨expandConstants, ⟨key 3, high, key 7, key 2⟩, ⟨low, key 6, key 1, n1⟩,
     ⟨key 5, key 0, n0, key 4⟩⟩
  (words ((Square.iterate doubleRound 10 start).add start)).flatMap Bytes.ofWord32LE

end LatticeSuite.Salsa20
