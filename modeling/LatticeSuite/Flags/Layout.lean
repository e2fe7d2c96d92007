import LatticeSuite.Flags.Features

/-!
# The layout of the flag words

Word 0 has entropy coding, sampling, hashing, reduction and threading, word 1
the random generator and the source of its seeds, word 2 the countermeasures.
The top bit of words 0 and 1 announces a successor. `definedBits` is what the
fields of a word cover together.
-/

namespace LatticeSuite.Flags

/-- The number of words that have a meaning. -/
def wordCount : Nat := 3

/-- Announces that another word follows. -/
def moreBit : UInt32 := 0x80000000

/-- Whether any bit of a mask is set. -/
def has (word mask : UInt32) : Bool :=
  word &&& mask != 0

/-- A field of some bits from the bit `shift` up. -/
structure Field where
  mask : UInt32
  shift : UInt32

/-- The code that a word holds in a field. -/
def Field.read (f : Field) (word : UInt32) : Nat :=
  ((word &&& f.mask) >>> f.shift).toNat

/-! ## Word 0 -/

def entropyMask : UInt32 := 0x0000000f

def precisionField : Field := ⟨0x00000070, 4⟩

/-- Whether samples are blinded. -/
def sampleBlindingBit : UInt32 := 0x00000100

def samplerMask : UInt32 := 0x00007e00

/-- The samplers by their bits, highest priority first. -/
def samplerBits : List (UInt32 × GaussianSampler) :=
  [(0x00000200, .cdf), (0x00000400, .knuthYao), (0x00000800, .ziggurat),
   (0x00001000, .bac), (0x00002000, .huffman), (0x00004000, .bernoulli)]

def hashLengthField : Field := ⟨0x00030000, 16⟩

def hashFunctionField : Field := ⟨0x001c0000, 18⟩

def reductionField : Field := ⟨0x00e00000, 21⟩

/-- The threading field. Two of its five bits have no meaning yet. -/
def threadingMask : UInt32 := 0x7c000000

/-- Key generation may use worker threads. -/
def threadingKeygenBit : UInt32 := 0x04000000

/-- Encryption and signing may use worker threads. -/
def threadingEncryptSignBit : UInt32 := 0x08000000

/-- Decryption and verification may use worker threads. -/
def threadingDecryptVerifyBit : UInt32 := 0x10000000

/-- The bits of the threading field that have a meaning. -/
def threadingKnown : UInt32 :=
  threadingKeygenBit ||| threadingEncryptSignBit ||| threadingDecryptVerifyBit

/-- The bits of word 0 that belong to a field. -/
def definedBits0 : UInt32 :=
  entropyMask ||| precisionField.mask ||| sampleBlindingBit ||| samplerMask |||
    hashLengthField.mask ||| hashFunctionField.mask ||| reductionField.mask |||
    threadingMask ||| moreBit

/-! ## Word 1 -/

/-- The generators by their bits, highest priority first. -/
def generatorBits : List (UInt32 × CsprngAlgorithm) :=
  [(0x00000001, .aesCtrDrbg), (0x00000020, .aesCtr), (0x00000008, .isaac),
   (0x00000004, .salsa20), (0x00000002, .chaCha20), (0x00000010, .kiss),
   (0x00000100, .hashDrbg .sha3_512), (0x00000400, .hashDrbg .sha3_256),
   (0x00001000, .hashDrbg .sha2_512), (0x00004000, .hashDrbg .sha2_256),
   (0x00010000, .hashDrbg .blake2b512), (0x00040000, .hashDrbg .blake2b256),
   (0x00100000, .hashDrbg .whirlpool)]

def generatorMask : UInt32 := 0x0015553f

/-- The sources of seeds by their bits, highest priority first. -/
def sourceBits : List (UInt32 × EntropySource) :=
  [(0x01000000, .devRandom), (0x02000000, .devUrandom), (0x04000000, .os),
   (0x08000000, .callback)]

def sourceMask : UInt32 := 0x0f000000

/-- The bits of word 1 that belong to a field. -/
def definedBits1 : UInt32 :=
  generatorMask ||| sourceMask ||| moreBit

/-! ## Word 2 -/

/-- How many samples are thrown away. -/
def discardField : Field := ⟨0x00000003, 0⟩

/-- Cache accesses are hidden. -/
def cacheAccessBit : UInt32 := 0x00000004

/-- Code that does not run in constant time is masked. -/
def nonCtMaskBit : UInt32 := 0x00000008

/-- Samples are shuffled. -/
def shuffleBit : UInt32 := 0x00000010

/-- Values are blinded. -/
def blindingBit : UInt32 := 0x00000020

/-- The bits of word 2 that belong to a field. It is the last word and
announces nothing. -/
def definedBits2 : UInt32 :=
  discardField.mask ||| cacheAccessBit ||| nonCtMaskBit ||| shuffleBit ||| blindingBit

/-- The bits that belong to a field, by word. -/
def definedBits : (index : Nat) → UInt32
  | 0 => definedBits0
  | 1 => definedBits1
  | 2 => definedBits2
  | _ => 0

/-- The masks of the generators and sources are the sums of their bits. -/
theorem word1_masks :
    (generatorBits.map (·.1)).foldl (· ||| ·) 0 = generatorMask ∧
      (sourceBits.map (·.1)).foldl (· ||| ·) 0 = sourceMask ∧
      (samplerBits.map (·.1)).foldl (· ||| ·) 0 = samplerMask := by
  decide

end LatticeSuite.Flags
