/-!
# Operations and capabilities

What a context can ask of a scheme, and which of it a scheme offers. Key
generation is offered by every scheme.
-/

namespace LatticeSuite

/-- What a context can ask of a scheme. -/
inductive Operation where
  | keygen | sign | verify | encrypt | decrypt | encapsulate | decapsulate
  deriving DecidableEq, Repr

def Operation.text : Operation → String
  | .keygen => "key generation"
  | .sign => "signing"
  | .verify => "verification"
  | .encrypt => "encryption"
  | .decrypt => "decryption"
  | .encapsulate => "encapsulation"
  | .decapsulate => "decapsulation"

def Operation.label : Operation → String
  | .keygen => "Keygen"
  | .sign => "Sign"
  | .verify => "Verify"
  | .encrypt => "Encrypt"
  | .decrypt => "Decrypt"
  | .encapsulate => "Encapsulate"
  | .decapsulate => "Decapsulate"

def Operation.all : List Operation :=
  [.keygen, .sign, .verify, .encrypt, .decrypt, .encapsulate, .decapsulate]

/-- The operations a scheme offers beyond key generation. -/
structure Capabilities where
  sign : Bool := false
  verify : Bool := false
  encrypt : Bool := false
  decrypt : Bool := false
  encapsulate : Bool := false
  decapsulate : Bool := false
  deriving DecidableEq, Repr, Inhabited

namespace Capabilities

/-- The operations of a signature scheme. -/
def signature : Capabilities := { sign := true, verify := true }

/-- The operations of a public-key encryption scheme. -/
def encryption : Capabilities := { encrypt := true, decrypt := true }

/-- The operations of a key encapsulation mechanism. -/
def kem : Capabilities := { encapsulate := true, decapsulate := true }

def all : Capabilities :=
  { sign := true, verify := true, encrypt := true, decrypt := true,
    encapsulate := true, decapsulate := true }

def supports (c : Capabilities) : Operation → Bool
  | .keygen => true
  | .sign => c.sign
  | .verify => c.verify
  | .encrypt => c.encrypt
  | .decrypt => c.decrypt
  | .encapsulate => c.encapsulate
  | .decapsulate => c.decapsulate

end Capabilities

end LatticeSuite
