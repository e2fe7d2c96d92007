import LatticeSuite.Context.Basic

/-!
# The keys of a context

Generated keys go into both slots at once, and only if the generator could be
seeded again and the backend succeeded. A loaded key must name the context's
own scheme and parameter set and have the length that these fix.
-/

namespace LatticeSuite.Context

variable {σ : Type}

/-- Both keys of a pair, filed under the context's scheme. -/
def storePair (c : Context σ) (pair : KeyPair) : Context σ :=
  (c.storeKey
      { keyClass := .publicKey, scheme := c.scheme, paramSet := c.paramSet,
        bytes := pair.publicKey }).storeKey
    { keyClass := .privateKey, scheme := c.scheme, paramSet := c.paramSet,
      bytes := pair.privateKey }

def keygen (c : Context σ) (entropy : Entropy) : Outcome σ Unit × Entropy :=
  let call := "keygen"
  if !c.state.canKeygen then (c.fail call .destroyed, entropy)
  else
    match c.machine? with
    | none => (c.fail call .destroyed, entropy)
    | some m =>
      match Supply.reseed { csprng := m.csprng, entropy } with
      | (.error e, supply) =>
        ((c.withMachine { m with csprng := supply.csprng }).fail call (.keygen (.entropy e)),
          supply.entropy)
      | (.ok (), supply) =>
        match c.draw { m with csprng := supply.csprng } m.backend.keygen supply.entropy with
        | (.error e, c, entropy) => (c.fail call (.keygen (.scheme e)), entropy)
        | (.ok pair, c, entropy) =>
          let done := (c.storePair pair).succeed
            (fun s => { s with keygens := s.keygens + 1 }) ()
          ({ done with
              log := c.emit .info ("generated " ++ c.parameterSet.name ++ " key pair") },
            entropy)

def encodeCall (keyClass : KeyClass) : String :=
  keyClass.text ++ "_key_encode"

def loadCall (keyClass : KeyClass) : String :=
  keyClass.text ++ "_key_load"

/-- The envelope of the key of a class. -/
def encodeKey (c : Context σ) (keyClass : KeyClass) : Outcome σ Bytes :=
  let call := encodeCall keyClass
  if !c.state.isLive then c.fail call .destroyed
  else
    match (c.slot keyClass).key with
    | none => c.fail call (.keyAbsent keyClass)
    | some key =>
      let coded := Envelope.encodeKey key (c.slot keyClass).coding
      c.succeed (·.modifyKeys keyClass (·.recordEncode key.length coded.length)) coded

/-- Load the key of a class from an envelope. -/
def loadKey (c : Context σ) (keyClass : KeyClass) (envelope : Bytes) : Outcome σ Unit :=
  let call := loadCall keyClass
  if !c.state.isLive then c.fail call .destroyed
  else
    match Envelope.decodeKey envelope (c.slot keyClass).coding keyClass c.scheme c.paramSet with
    | .error e => c.fail call (.decode e)
    | .ok key =>
      if key.length ≠ c.keyBytes keyClass then c.fail call (.decode .invalidKey)
      else
        (c.storeKey key).succeed
          (·.modifyKeys keyClass (·.recordLoad key.length envelope.length)) ()

end LatticeSuite.Context
