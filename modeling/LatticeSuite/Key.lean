import LatticeSuite.Bytes
import LatticeSuite.Scheme.Id

/-!
# Key material

Key bytes never travel alone: they carry the slot, the scheme and the
parameter set they were made for, and two keys are equal only if all of that
agrees. The diagnostic text shows the length of the bytes and nothing of
their content.
-/

namespace LatticeSuite

/-- The slot a key belongs to. -/
inductive KeyClass where
  | publicKey | privateKey
  deriving DecidableEq, Repr

namespace KeyClass

def all : List KeyClass := [.publicKey, .privateKey]

def text : KeyClass → String
  | .publicKey => "public"
  | .privateKey => "private"

/-- The identifier used in diagnostic records. -/
def label : KeyClass → String
  | .publicKey => "Public"
  | .privateKey => "Private"

/-- The byte that stands for the slot in a key envelope. -/
def tag : KeyClass → UInt8
  | .publicKey => 0
  | .privateKey => 1

theorem tag_inj {a b : KeyClass} (h : a.tag = b.tag) : a = b := by
  revert h
  cases a <;> cases b <;> decide

end KeyClass

/-- A key and what it was made for. -/
structure KeyMaterial where
  keyClass : KeyClass
  scheme : SchemeId
  paramSet : UInt32
  bytes : Bytes
  deriving DecidableEq

namespace KeyMaterial

def length (k : KeyMaterial) : Nat :=
  k.bytes.length

def isEmpty (k : KeyMaterial) : Bool :=
  k.bytes.isEmpty

/-- The diagnostic record of a key, without its bytes. -/
def describe (k : KeyMaterial) : String :=
  "KeyMaterial \x7b class: " ++ k.keyClass.label ++ ", scheme: " ++ k.scheme.label ++
    ", param_set: " ++ toString k.paramSet ++ ", len: " ++ toString k.length ++ " \x7d"

end KeyMaterial

/-- What key generation produces: the two encodings, before they are filed. -/
structure KeyPair where
  publicKey : Bytes
  privateKey : Bytes
  deriving DecidableEq, Inhabited

end LatticeSuite
