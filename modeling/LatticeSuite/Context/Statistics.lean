import LatticeSuite.Decimal
import LatticeSuite.Key

/-!
# Statistics of a context

How often each operation succeeded, and how many key bytes went through the
coder, before and after coding.
-/

namespace LatticeSuite

/-- The traffic of keys of one class. -/
structure KeyTraffic where
  encoded : Nat := 0
  loaded : Nat := 0
  /-- The key bytes of what was encoded and loaded. -/
  rawBytes : Nat := 0
  /-- The envelope bytes of what was encoded and loaded. -/
  codedBytes : Nat := 0
  deriving DecidableEq, Repr, Inhabited

namespace KeyTraffic

/-- Count an encoding of `raw` key bytes in `coded` bytes. -/
def recordEncode (t : KeyTraffic) (raw coded : Nat) : KeyTraffic :=
  { t with
    encoded := t.encoded + 1
    rawBytes := t.rawBytes + raw
    codedBytes := t.codedBytes + coded }

/-- Count a loading of `raw` key bytes from `coded` bytes. -/
def recordLoad (t : KeyTraffic) (raw coded : Nat) : KeyTraffic :=
  { t with
    loaded := t.loaded + 1
    rawBytes := t.rawBytes + raw
    codedBytes := t.codedBytes + coded }

/-- The coded bytes in percent of the raw ones, if there were any. -/
def ratio? (t : KeyTraffic) : Option Float :=
  if t.rawBytes = 0 then none
  else
    some (100.0 * (UInt64.ofNat t.codedBytes).toFloat / (UInt64.ofNat t.rawBytes).toFloat)

end KeyTraffic

structure Statistics where
  keygens : Nat := 0
  publicKeys : KeyTraffic := {}
  privateKeys : KeyTraffic := {}
  signatures : Nat := 0
  verified : Nat := 0
  unverified : Nat := 0
  encryptions : Nat := 0
  decryptions : Nat := 0
  encapsulations : Nat := 0
  decapsulations : Nat := 0
  deriving DecidableEq, Repr, Inhabited

namespace Statistics

def keys (s : Statistics) : KeyClass → KeyTraffic
  | .publicKey => s.publicKeys
  | .privateKey => s.privateKeys

def modifyKeys (s : Statistics) (keyClass : KeyClass) (f : KeyTraffic → KeyTraffic) :
    Statistics :=
  match keyClass with
  | .publicKey => { s with publicKeys := f s.publicKeys }
  | .privateKey => { s with privateKeys := f s.privateKeys }

def recordVerdict (s : Statistics) (valid : Bool) : Statistics :=
  if valid then { s with verified := s.verified + 1 }
  else { s with unverified := s.unverified + 1 }

def ratioPlaces : Nat := 1

/-- The line on the coding of a class, if any key went through the coder. -/
def codingLine (s : Statistics) (keyClass : KeyClass) : List String :=
  match (s.keys keyClass).ratio? with
  | none => []
  | some ratio =>
    let name := keyClass.text
    [name.pushn ' ' (8 - name.length) ++ " coding:    " ++ Decimal.ofFloat ratioPlaces ratio ++
      "% of raw size"]

/-- The line on the traffic of a class. -/
def trafficLine (title : String) (t : KeyTraffic) : String :=
  title ++ toString t.encoded ++ " encoded, " ++ toString t.loaded ++ " loaded"

def lines (s : Statistics) : List String :=
  ["Key generation:     " ++ toString s.keygens,
   trafficLine "Public keys:        " s.publicKeys,
   trafficLine "Private keys:       " s.privateKeys] ++
  s.codingLine .publicKey ++ s.codingLine .privateKey ++
  ["Signatures:         " ++ toString s.signatures ++ " created, " ++ toString s.verified ++
     " verified, " ++ toString s.unverified ++ " rejected",
   "Encryption:         " ++ toString s.encryptions ++ " encrypted, " ++
     toString s.decryptions ++ " decrypted",
   "Encapsulation:      " ++ toString s.encapsulations ++ " encapsulated, " ++
     toString s.decapsulations ++ " decapsulated"]

def text (s : Statistics) : String :=
  "\n".intercalate s.lines

end Statistics

end LatticeSuite
