/-!
# Why flag words are refused
-/

namespace LatticeSuite

/-- Why flag words are refused. -/
inductive FlagError where
  /-- A field holds a code without a meaning. -/
  | invalidField (field : String)
  /-- Bits outside every field are set. -/
  | reservedBits (word : Nat) (bits : UInt32)
  /-- A word announces a successor that is not there. -/
  | missingWord (word : Nat)
  /-- Two fields make sense alone, but not together. -/
  | incompatible (field : String)
  deriving DecidableEq, Repr

def FlagError.label : FlagError → String
  | .invalidField _ => "Flag.InvalidField"
  | .reservedBits _ _ => "Flag.ReservedBits"
  | .missingWord _ => "Flag.MissingWord"
  | .incompatible _ => "Flag.Incompatible"

/-- A word as eight hexadecimal digits. -/
def hexWord (w : UInt32) : String :=
  let digits := Nat.toDigits 16 w.toNat
  "0x" ++ String.ofList (List.replicate (8 - digits.length) '0' ++ digits)

def FlagError.message : FlagError → String
  | .invalidField field => "invalid value in flag field '" ++ field ++ "'"
  | .reservedBits word bits =>
    "reserved bits " ++ hexWord bits ++ " set in flag word " ++ toString word
  | .missingWord word => "flag word " ++ toString word ++ " announced but not supplied"
  | .incompatible field => "incompatible flag combination in field '" ++ field ++ "'"

end LatticeSuite
