import LatticeSuite.Flags.Features
import LatticeSuite.Scheme.Id
import LatticeSuite.Scheme.Operation

/-!
# Descriptions of schemes

What can be known of a scheme without running it: what it offers, the sizes of
its parameter sets, and what it uses where the flags leave a choice open.
-/

namespace LatticeSuite

/-- The sizes that one parameter set fixes. -/
structure ParameterSet where
  name : String
  publicKeyBytes : Nat
  privateKeyBytes : Nat
  /-- The length of a signature, of an encapsulation, or of what encryption
  adds to a plaintext. -/
  outputBytes : Nat
  deriving DecidableEq, Repr

structure SchemeDescriptor where
  id : SchemeId
  capabilities : Capabilities
  /-- The parameter sets, by index. -/
  parameterSets : List ParameterSet
  defaultHash : HashAlgorithm
  /-- Empty for schemes without Gaussian samples. -/
  defaultSampler : Option GaussianSampler := none
  defaultReduction : ReductionStrategy
  deriving DecidableEq, Repr

namespace SchemeDescriptor

/-- The parameter set of an index. -/
def parameterSet? (d : SchemeDescriptor) (index : UInt32) : Option ParameterSet :=
  d.parameterSets[index.toNat]?

/-- There is a parameter set exactly for the indices below their number. -/
theorem isSome_parameterSet?_iff (d : SchemeDescriptor) (index : UInt32) :
    (d.parameterSet? index).isSome ↔ index.toNat < d.parameterSets.length := by
  simp [parameterSet?]

end SchemeDescriptor

end LatticeSuite
