import LatticeSuite.Coding.Kind
import LatticeSuite.Digest.Algorithm
import LatticeSuite.Random.Request

/-!
# Features

What the flag words say, once they are decoded. A field of type `Option` that
is empty leaves the choice to the scheme.
-/

namespace LatticeSuite

/-- The coders asked for, each on its own bit. -/
structure EntropyCoders where
  bac : Bool := false
  bacRle : Bool := false
  strongSwan : Bool := false
  huffmanStatic : Bool := false
  deriving DecidableEq, Repr, Inhabited

/-- The coder for signatures: the first one asked for, in order of the fields. -/
def EntropyCoders.primary (e : EntropyCoders) : KeyCoding :=
  if e.bac then .bac
  else if e.bacRle then .bacRle
  else if e.strongSwan then .strongSwan
  else if e.huffmanStatic then .huffmanStatic
  else .raw

inductive SamplePrecision where
  | default | bits32 | bits64 | bits128 | bits192 | bits256
  deriving DecidableEq, Repr, Inhabited

def SamplePrecision.label : SamplePrecision → String
  | .default => "Default"
  | .bits32 => "Bits32"
  | .bits64 => "Bits64"
  | .bits128 => "Bits128"
  | .bits192 => "Bits192"
  | .bits256 => "Bits256"

/-- The Gaussian samplers, by descending priority. -/
inductive GaussianSampler where
  | cdf | knuthYao | ziggurat | bac | huffman | bernoulli
  deriving DecidableEq, Repr

/-- The name of a sampler in a configuration's summary line. -/
def GaussianSampler.name : GaussianSampler → String
  | .cdf => "CDF"
  | .knuthYao => "Knuth-Yao"
  | .ziggurat => "Ziggurat"
  | .bac => "BAC"
  | .huffman => "Huffman"
  | .bernoulli => "Bernoulli"

def GaussianSampler.label : GaussianSampler → String
  | .cdf => "Cdf"
  | .knuthYao => "KnuthYao"
  | .ziggurat => "Ziggurat"
  | .bac => "Bac"
  | .huffman => "Huffman"
  | .bernoulli => "Bernoulli"

/-- The ways to reduce modulo the scheme's prime. -/
inductive ReductionStrategy where
  | reference | barrett | floatingPoint
  deriving DecidableEq, Repr

/-- The name of a reduction in a configuration's summary line. -/
def ReductionStrategy.name : ReductionStrategy → String
  | .reference => "reference"
  | .barrett => "Barrett"
  | .floatingPoint => "floating-point"

def ReductionStrategy.label : ReductionStrategy → String
  | .reference => "Reference"
  | .barrett => "Barrett"
  | .floatingPoint => "FloatingPoint"

/-- The operations that may run on worker threads. -/
structure ThreadingFlags where
  keygen : Bool := false
  encryptSign : Bool := false
  decryptVerify : Bool := false
  deriving DecidableEq, Repr, Inhabited

/-- How many samples are thrown away to hide timing. -/
inductive DiscardRate where
  | none | low | medium | high
  deriving DecidableEq, Repr, Inhabited

def DiscardRate.label : DiscardRate → String
  | .none => "None"
  | .low => "Low"
  | .medium => "Medium"
  | .high => "High"

/-- The countermeasures against side channels. -/
structure SideChannelConfig where
  discard : DiscardRate := .none
  cacheAccess : Bool := false
  nonCtMask : Bool := false
  shuffle : Bool := false
  blinding : Bool := false
  deriving DecidableEq, Repr, Inhabited

/-- A decoded configuration. -/
structure FeatureConfig where
  entropy : EntropyCoders := {}
  samplePrecision : SamplePrecision := .default
  sampleBlinding : Bool := false
  sampler : Option GaussianSampler := .none
  hash : HashSelection := {}
  reduction : Option ReductionStrategy := .none
  threading : ThreadingFlags := {}
  csprng : CsprngRequest := {}
  sideChannel : SideChannelConfig := {}
  deriving DecidableEq, Repr

namespace FeatureConfig

/-- The coding of signatures. -/
def signatureCoding (f : FeatureConfig) : KeyCoding :=
  f.entropy.primary

/-- The summary line of a configuration. -/
def text (f : FeatureConfig) : String :=
  "coding=" ++ f.signatureCoding.text ++
    " sampler=" ++ (f.sampler.map GaussianSampler.name).getD "default" ++
    " hash=" ++ f.hash.family.label ++ "/" ++ f.hash.length.label ++
    " reduction=" ++ (f.reduction.map ReductionStrategy.name).getD "default" ++
    " csprng=" ++ f.csprng.algorithm.text

end FeatureConfig

end LatticeSuite
