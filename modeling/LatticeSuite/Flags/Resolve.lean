import LatticeSuite.Flags.Error
import LatticeSuite.Flags.Layout

/-!
# From flag words to features

The chain of words is followed first; then each of the three words is decoded,
a word outside the chain counting as zero. A word is refused first for bits
outside its fields, then for the first field without a meaning. Where several
bits of a group may be set, the one of highest priority decides.
-/

namespace LatticeSuite.Flags

/-- Decoding yields a value or says why the words are refused. -/
abbrev Resolved (α : Type) := Except FlagError α

/-- The three words of a configuration. -/
structure Words where
  word0 : UInt32 := 0
  word1 : UInt32 := 0
  word2 : UInt32 := 0
  deriving DecidableEq, Repr

/-- Follow the chain of announced words. -/
def chain : List UInt32 → Resolved Words
  | [] => .ok {}
  | w₀ :: rest =>
    if !has w₀ moreBit then .ok { word0 := w₀ }
    else
      match rest with
      | [] => .error (.missingWord 1)
      | w₁ :: rest =>
        if !has w₁ moreBit then .ok { word0 := w₀, word1 := w₁ }
        else
          match rest with
          | [] => .error (.missingWord 2)
          | w₂ :: _ =>
            if has w₂ moreBit then .error (.reservedBits 2 moreBit)
            else .ok { word0 := w₀, word1 := w₁, word2 := w₂ }

/-- Refuse a word with bits outside its fields. -/
def checkReserved (index : Nat) (word : UInt32) : Resolved Unit :=
  let reserved := word &&& ~~~(definedBits index)
  if reserved = 0 then .ok () else .error (.reservedBits index reserved)

/-- The value of the first bit of a list that is set. -/
def firstSet {α : Type} (bits : List (UInt32 × α)) (word : UInt32) : Option α :=
  (bits.find? fun p => has word p.1).map (·.2)

def precisionOf : (code : Nat) → Resolved SamplePrecision
  | 0 => .ok .default
  | 1 => .ok .bits32
  | 2 => .ok .bits64
  | 3 => .ok .bits128
  | 4 => .ok .bits192
  | 5 => .ok .bits256
  | _ => .error (.invalidField "sample_precision")

def hashLengthOf : (code : Nat) → DigestLength
  | 0 => .bits512
  | 1 => .bits384
  | 2 => .bits256
  | _ => .bits224

def hashFamilyOf : (code : Nat) → Resolved HashFamily
  | 0 => .ok .schemeDefault
  | 1 => .ok .blake2
  | 2 => .ok .sha2
  | 3 => .ok .sha3
  | 4 => .ok .whirlpool
  | _ => .error (.invalidField "hash_function")

/-- A family and a length that go together. Whirlpool has one length only. -/
def hashSelectionOf (family : HashFamily) (length : DigestLength) : Resolved HashSelection :=
  if family = .whirlpool ∧ length ≠ .bits512 then .error (.incompatible "hash_length")
  else .ok { family, length }

/-- The meaning of a reduction code; zero leaves the choice to the scheme. -/
def reductionOf : (code : Nat) → Resolved (Option ReductionStrategy)
  | 0 => .ok none
  | 1 => .ok (some .reference)
  | 2 => .ok (some .barrett)
  | 3 => .ok (some .floatingPoint)
  | _ => .error (.invalidField "reduction")

def threadingOf (word : UInt32) : Resolved ThreadingFlags :=
  if has word (threadingMask &&& ~~~threadingKnown) then .error (.invalidField "threading")
  else
    .ok
      { keygen := has word threadingKeygenBit
        encryptSign := has word threadingEncryptSignBit
        decryptVerify := has word threadingDecryptVerifyBit }

/-- The coders that word 0 asks for. -/
def codersOf (word : UInt32) : EntropyCoders :=
  { bac := has word 0x1, bacRle := has word 0x2, strongSwan := has word 0x4,
    huffmanStatic := has word 0x8 }

/-- The features that word 0 decides; the others have their defaults. -/
def features (word : UInt32) : Resolved FeatureConfig := do
  checkReserved 0 word
  let samplePrecision ← precisionOf (precisionField.read word)
  let family ← hashFamilyOf (hashFunctionField.read word)
  let hash ← hashSelectionOf family (hashLengthOf (hashLengthField.read word))
  let reduction ← reductionOf (reductionField.read word)
  let threading ← threadingOf word
  return {
    entropy := codersOf word
    samplePrecision
    sampleBlinding := has word sampleBlindingBit
    sampler := firstSet samplerBits word
    hash
    reduction
    threading }

/-- The generator that word 1 asks for. -/
def csprngRequest (word : UInt32) : Resolved CsprngRequest := do
  checkReserved 1 word
  return {
    algorithm := (firstSet generatorBits word).getD .system
    source := (firstSet sourceBits word).getD .os }

def discardOf : (code : Nat) → DiscardRate
  | 0 => .none
  | 1 => .low
  | 2 => .medium
  | _ => .high

/-- The countermeasures that word 2 asks for. -/
def sideChannel (word : UInt32) : Resolved SideChannelConfig := do
  checkReserved 2 word
  return {
    discard := discardOf (discardField.read word)
    cacheAccess := has word cacheAccessBit
    nonCtMask := has word nonCtMaskBit
    shuffle := has word shuffleBit
    blinding := has word blindingBit }

/-- Decode flag words. No words at all give the defaults. -/
def resolve (words : List UInt32) : Resolved FeatureConfig := do
  let w ← chain words
  let features ← features w.word0
  let csprng ← csprngRequest w.word1
  let sideChannel ← sideChannel w.word2
  return { features with csprng, sideChannel }

end LatticeSuite.Flags
