/-!
# Schemes and their families

Every scheme a context can be asked for has a number, whether or not a
backend for it is installed. `SchemeId.ofNumber?` reads the number back;
`ofNumber?_eq_some_iff` says that it accepts exactly the numbers of schemes.
-/

namespace LatticeSuite

/-- What a scheme is for. -/
inductive SchemeFamily where
  | signature | encryption | kem | identityBased | keyAgreement
  deriving DecidableEq, Repr

def SchemeFamily.label : SchemeFamily → String
  | .signature => "Signature"
  | .encryption => "Encryption"
  | .kem => "Kem"
  | .identityBased => "IdentityBased"
  | .keyAgreement => "KeyAgreement"

/-- A scheme, installed or not. -/
inductive SchemeId where
  | sigHelloWorld | sigBliss | sigRingTesla | encRlwe | kemEns | sigEns
  | sigEnsWithRecovery | ibeDlp | sigDlp | sigDlpWithRecovery | sigDilithium
  | sigDilithiumG | kemKyber | encKyberCpa | encKyberHybrid | dhEcdh | sigEcdsa
  deriving DecidableEq, Repr

namespace SchemeId

def all : List SchemeId :=
  [.sigHelloWorld, .sigBliss, .sigRingTesla, .encRlwe, .kemEns, .sigEns,
   .sigEnsWithRecovery, .ibeDlp, .sigDlp, .sigDlpWithRecovery, .sigDilithium,
   .sigDilithiumG, .kemKyber, .encKyberCpa, .encKyberHybrid, .dhEcdh, .sigEcdsa]

/-- The number of a scheme in flags and key envelopes. -/
def number : SchemeId → UInt8
  | .sigHelloWorld => 1
  | .sigBliss => 2
  | .sigRingTesla => 3
  | .encRlwe => 4
  | .kemEns => 5
  | .sigEns => 6
  | .sigEnsWithRecovery => 7
  | .ibeDlp => 8
  | .sigDlp => 9
  | .sigDlpWithRecovery => 10
  | .sigDilithium => 11
  | .sigDilithiumG => 12
  | .kemKyber => 13
  | .encKyberCpa => 14
  | .encKyberHybrid => 15
  | .dhEcdh => 16
  | .sigEcdsa => 17

/-- The scheme of a number, if there is one. -/
def ofNumber? (n : UInt8) : Option SchemeId :=
  all.find? fun id => id.number == n

/-- The name shown to users. -/
def name : SchemeId → String
  | .sigHelloWorld => "Hello World"
  | .sigBliss => "BLISS-B"
  | .sigRingTesla => "Ring-TESLA"
  | .encRlwe => "RLWE Encryption"
  | .kemEns => "ENS KEM"
  | .sigEns => "ENS Signature"
  | .sigEnsWithRecovery => "ENS Signature with Recovery"
  | .ibeDlp => "DLP IBE"
  | .sigDlp => "DLP Signature"
  | .sigDlpWithRecovery => "DLP Signature with Recovery"
  | .sigDilithium => "Dilithium"
  | .sigDilithiumG => "Dilithium-G"
  | .kemKyber => "Kyber KEM"
  | .encKyberCpa => "Kyber CPA Encryption"
  | .encKyberHybrid => "Kyber Hybrid Encryption"
  | .dhEcdh => "ECDH"
  | .sigEcdsa => "ECDSA"

/-- The identifier used in diagnostic records. -/
def label : SchemeId → String
  | .sigHelloWorld => "SigHelloWorld"
  | .sigBliss => "SigBliss"
  | .sigRingTesla => "SigRingTesla"
  | .encRlwe => "EncRlwe"
  | .kemEns => "KemEns"
  | .sigEns => "SigEns"
  | .sigEnsWithRecovery => "SigEnsWithRecovery"
  | .ibeDlp => "IbeDlp"
  | .sigDlp => "SigDlp"
  | .sigDlpWithRecovery => "SigDlpWithRecovery"
  | .sigDilithium => "SigDilithium"
  | .sigDilithiumG => "SigDilithiumG"
  | .kemKyber => "KemKyber"
  | .encKyberCpa => "EncKyberCpa"
  | .encKyberHybrid => "EncKyberHybrid"
  | .dhEcdh => "DhEcdh"
  | .sigEcdsa => "SigEcdsa"

def family : SchemeId → SchemeFamily
  | .sigHelloWorld | .sigBliss | .sigRingTesla | .sigEns | .sigEnsWithRecovery
  | .sigDlp | .sigDlpWithRecovery | .sigDilithium | .sigDilithiumG | .sigEcdsa => .signature
  | .encRlwe | .encKyberCpa | .encKyberHybrid => .encryption
  | .kemEns | .kemKyber => .kem
  | .ibeDlp => .identityBased
  | .dhEcdh => .keyAgreement

theorem mem_all (id : SchemeId) : id ∈ all := by
  cases id <;> decide

theorem number_inj {a b : SchemeId} (h : a.number = b.number) : a = b := by
  revert a b
  intro a b
  cases a <;> cases b <;> decide

/-- A number is accepted exactly when it is the number of the scheme found. -/
theorem ofNumber?_eq_some_iff {n : UInt8} {id : SchemeId} :
    ofNumber? n = some id ↔ id.number = n := by
  constructor
  · intro h
    simpa using List.find?_some h
  · intro h
    subst h
    cases id <;> decide

end SchemeId

end LatticeSuite
