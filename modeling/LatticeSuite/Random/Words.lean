import LatticeSuite.Bytes

/-!
# Bytes from a generator of words

A request for `n` bytes takes as many 64-bit words as it touches, least
significant byte first. What is left of the last word is not used again.
-/

namespace LatticeSuite.Words

variable {σ : Type}

/-- The bytes of the next `count` words, in front of the reversed `acc`, still
reversed. -/
def bytesFrom (next : σ → UInt64 × σ) : (count : Nat) → σ → (acc : List UInt8) →
    List UInt8 × σ
  | 0, s, acc => (acc, s)
  | n + 1, s, acc =>
    let (w, s) := next s
    bytesFrom next n s ((Bytes.ofWord64LE w).reverseAux acc)

def fill (next : σ → UInt64 × σ) (n : Nat) (s : σ) : Bytes × σ :=
  let (acc, s) := bytesFrom next ((n + 7) / 8) s []
  (acc.reverse.take n, s)

end LatticeSuite.Words
