import LatticeSuite.Coding.RunCoder
import LatticeSuite.Coding.Huffman.Table

/-!
# The coder of each coding

`KeyCoding.encode` is total; `KeyCoding.decode` is told how many bytes to
expect and yields exactly that many or says why it cannot.
-/

namespace LatticeSuite.KeyCoding

def encode : KeyCoding → Bytes → Bytes
  | .raw => id
  | .bac => RangeCoder.encode
  | .bacRle => RunCoder.encode
  | .huffmanStatic => Huffman.encode .dense
  | .strongSwan => Huffman.encode .sparse

/-- The bytes themselves, which must be `rawLength` many. -/
def decodeRaw (coded : Bytes) (rawLength : Nat) : Decoded Bytes :=
  if coded.length < rawLength then .error .truncated
  else if coded.length > rawLength then .error .lengthMismatch
  else .ok coded

/-- The `rawLength` bytes that a buffer codes. -/
def decode : KeyCoding → Bytes → (rawLength : Nat) → Decoded Bytes
  | .raw => decodeRaw
  | .bac => RangeCoder.decode
  | .bacRle => RunCoder.decode
  | .huffmanStatic => Huffman.decode .dense
  | .strongSwan => Huffman.decode .sparse

end LatticeSuite.KeyCoding
