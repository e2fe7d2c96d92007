import LatticeSuite.Scheme.Descriptor

/-!
# What a backend is instantiated with

The features, with every choice that the flags left open made by the scheme's
own description.
-/

namespace LatticeSuite

/-- The settings of a backend. -/
structure SchemeConfig where
  paramSet : UInt32
  hash : HashAlgorithm
  /-- Empty for schemes without Gaussian samples. -/
  sampler : Option GaussianSampler
  reduction : ReductionStrategy
  samplePrecision : SamplePrecision
  sampleBlinding : Bool
  threading : ThreadingFlags
  sideChannel : SideChannelConfig
  deriving DecidableEq, Repr

/-- The settings that features and a description give. -/
def SchemeConfig.ofFeatures (f : FeatureConfig) (d : SchemeDescriptor) (paramSet : UInt32) :
    SchemeConfig :=
  { paramSet
    hash := f.hash.algorithm d.defaultHash
    sampler := f.sampler <|> d.defaultSampler
    reduction := f.reduction.getD d.defaultReduction
    samplePrecision := f.samplePrecision
    sampleBlinding := f.sampleBlinding
    threading := f.threading
    sideChannel := f.sideChannel }

end LatticeSuite
