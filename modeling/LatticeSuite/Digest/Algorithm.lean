/-!
# The digests a configuration can name

A configuration names a family and a length separately; only some pairs are
digests. `HashAlgorithm.ofFamily?` is the partial map from pairs to the
thirteen algorithms, `HashAlgorithm.family` and `HashAlgorithm.length` go back,
and `ofFamily?_family_length` says that going there and back loses nothing.
-/

namespace LatticeSuite

/-- The family part of a digest choice; `schemeDefault` leaves it to the scheme. -/
inductive HashFamily where
  | schemeDefault | blake2 | sha2 | sha3 | whirlpool
  deriving DecidableEq, Repr, Inhabited

def HashFamily.all : List HashFamily := [.schemeDefault, .blake2, .sha2, .sha3, .whirlpool]

/-- The name of a family in a configuration's summary line. -/
def HashFamily.label : HashFamily → String
  | .schemeDefault => "SchemeDefault"
  | .blake2 => "Blake2"
  | .sha2 => "Sha2"
  | .sha3 => "Sha3"
  | .whirlpool => "Whirlpool"

/-- The length part of a digest choice. -/
inductive DigestLength where
  | bits512 | bits384 | bits256 | bits224
  deriving DecidableEq, Repr, Inhabited

/-- Every length, the greatest first. -/
def DigestLength.all : List DigestLength := [.bits512, .bits384, .bits256, .bits224]

/-- The name of a length in a configuration's summary line. -/
def DigestLength.label : DigestLength → String
  | .bits512 => "Bits512"
  | .bits384 => "Bits384"
  | .bits256 => "Bits256"
  | .bits224 => "Bits224"

def DigestLength.bytes : DigestLength → Nat
  | .bits512 => 64
  | .bits384 => 48
  | .bits256 => 32
  | .bits224 => 28

/-- A concrete digest. -/
inductive HashAlgorithm where
  | sha2_224 | sha2_256 | sha2_384 | sha2_512
  | sha3_224 | sha3_256 | sha3_384 | sha3_512
  | blake2b224 | blake2b256 | blake2b384 | blake2b512
  | whirlpool
  deriving DecidableEq, Repr

namespace HashAlgorithm

/-- Every digest, family by family, shortest first. -/
def all : List HashAlgorithm :=
  [.sha2_224, .sha2_256, .sha2_384, .sha2_512,
   .sha3_224, .sha3_256, .sha3_384, .sha3_512,
   .blake2b224, .blake2b256, .blake2b384, .blake2b512,
   .whirlpool]

/-- The digest of a family at a length. The scheme's own choice has no digest
until a scheme is known, and Whirlpool exists at 512 bits only. -/
def ofFamily? : HashFamily → DigestLength → Option HashAlgorithm
  | .schemeDefault, _ => none
  | .sha2, .bits224 => some .sha2_224
  | .sha2, .bits256 => some .sha2_256
  | .sha2, .bits384 => some .sha2_384
  | .sha2, .bits512 => some .sha2_512
  | .sha3, .bits224 => some .sha3_224
  | .sha3, .bits256 => some .sha3_256
  | .sha3, .bits384 => some .sha3_384
  | .sha3, .bits512 => some .sha3_512
  | .blake2, .bits224 => some .blake2b224
  | .blake2, .bits256 => some .blake2b256
  | .blake2, .bits384 => some .blake2b384
  | .blake2, .bits512 => some .blake2b512
  | .whirlpool, .bits512 => some .whirlpool
  | .whirlpool, _ => none

/-- The family of a digest, never `schemeDefault`. -/
def family : HashAlgorithm → HashFamily
  | .sha2_224 | .sha2_256 | .sha2_384 | .sha2_512 => .sha2
  | .sha3_224 | .sha3_256 | .sha3_384 | .sha3_512 => .sha3
  | .blake2b224 | .blake2b256 | .blake2b384 | .blake2b512 => .blake2
  | .whirlpool => .whirlpool

def length : HashAlgorithm → DigestLength
  | .sha2_224 | .sha3_224 | .blake2b224 => .bits224
  | .sha2_256 | .sha3_256 | .blake2b256 => .bits256
  | .sha2_384 | .sha3_384 | .blake2b384 => .bits384
  | .sha2_512 | .sha3_512 | .blake2b512 | .whirlpool => .bits512

def outputSize (a : HashAlgorithm) : Nat :=
  a.length.bytes

/-- The input block of the compression function or sponge in bytes, which is
the key block of HMAC. -/
def blockSize : HashAlgorithm → Nat
  | .sha2_224 | .sha2_256 => 64
  | .sha2_384 | .sha2_512 => 128
  | .sha3_224 => 144
  | .sha3_256 => 136
  | .sha3_384 => 104
  | .sha3_512 => 72
  | .blake2b224 | .blake2b256 | .blake2b384 | .blake2b512 => 128
  | .whirlpool => 64

/-- The name shown to users. -/
def name : HashAlgorithm → String
  | .sha2_224 => "SHA2-224"
  | .sha2_256 => "SHA2-256"
  | .sha2_384 => "SHA2-384"
  | .sha2_512 => "SHA2-512"
  | .sha3_224 => "SHA3-224"
  | .sha3_256 => "SHA3-256"
  | .sha3_384 => "SHA3-384"
  | .sha3_512 => "SHA3-512"
  | .blake2b224 => "BLAKE2b-224"
  | .blake2b256 => "BLAKE2b-256"
  | .blake2b384 => "BLAKE2b-384"
  | .blake2b512 => "BLAKE2b-512"
  | .whirlpool => "Whirlpool-512"

/-- The identifier used in diagnostic records. -/
def label : HashAlgorithm → String
  | .sha2_224 => "Sha2_224"
  | .sha2_256 => "Sha2_256"
  | .sha2_384 => "Sha2_384"
  | .sha2_512 => "Sha2_512"
  | .sha3_224 => "Sha3_224"
  | .sha3_256 => "Sha3_256"
  | .sha3_384 => "Sha3_384"
  | .sha3_512 => "Sha3_512"
  | .blake2b224 => "Blake2b224"
  | .blake2b256 => "Blake2b256"
  | .blake2b384 => "Blake2b384"
  | .blake2b512 => "Blake2b512"
  | .whirlpool => "Whirlpool"

/-- The digest of a digest's own family and length is the digest itself. -/
theorem ofFamily?_family_length (a : HashAlgorithm) :
    ofFamily? a.family a.length = some a := by
  cases a <;> rfl

theorem outputSize_pos (a : HashAlgorithm) : 0 < a.outputSize := by
  cases a <;> decide

theorem outputSize_le_64 (a : HashAlgorithm) : a.outputSize ≤ 64 := by
  cases a <;> decide

end HashAlgorithm

/-- A digest choice as the flags spell it. -/
structure HashSelection where
  family : HashFamily := .schemeDefault
  length : DigestLength := .bits512
  deriving DecidableEq, Repr, Inhabited

/-- The chosen digest, or the scheme's own where the choice names none. -/
def HashSelection.algorithm (s : HashSelection) (schemeDefault : HashAlgorithm) :
    HashAlgorithm :=
  (HashAlgorithm.ofFamily? s.family s.length).getD schemeDefault

end LatticeSuite
