/-!
# The version of the library
-/

namespace LatticeSuite

/-- A version in three parts. -/
structure Version where
  major : UInt8
  minor : UInt8
  patch : UInt8
  deriving DecidableEq, Repr

namespace Version

def current : Version := { major := 0, minor := 1, patch := 0 }

/-- The three parts in one number, a byte each. -/
def packed (v : Version) : UInt32 :=
  v.major.toUInt32 <<< 16 ||| v.minor.toUInt32 <<< 8 ||| v.patch.toUInt32

/-- The three parts with points between them. -/
def text (v : Version) : String :=
  toString v.major.toNat ++ "." ++ toString v.minor.toNat ++ "." ++ toString v.patch.toNat

end Version

end LatticeSuite
