/-!
# Why seed material is missing

One cause per source of entropy that can fail.
-/

namespace LatticeSuite

/-- Why an entropy source gave nothing. -/
inductive EntropyError where
  /-- An entropy device could not be read. -/
  | device (reason : String)
  /-- The operating system's generator failed. -/
  | os (reason : String)
  /-- The callback is the source, but none is installed. -/
  | noCallback
  /-- The callback reported a failure. -/
  | callback
  deriving DecidableEq, Repr

def EntropyError.label : EntropyError → String
  | .device _ => "Csprng.Device"
  | .os _ => "Csprng.Os"
  | .noCallback => "Csprng.NoCallback"
  | .callback => "Csprng.Callback"

def EntropyError.message : EntropyError → String
  | .device reason => "entropy device unavailable: " ++ reason
  | .os reason => "operating system RNG failed: " ++ reason
  | .noCallback => "no entropy callback registered"
  | .callback => "entropy callback failed"

end LatticeSuite
