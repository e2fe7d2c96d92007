import LatticeSuite.Proofs.MlDsa.Length
import LatticeSuite.Proofs.MlKem.Length
import LatticeSuite.Proofs.Scheme.Registry

/-!
# The schemes that come with the library

A registry maps schemes to factories, and a factory is a description next to a
function. So a law about the schemes of the library would begin each time with a
lookup that succeeded and a backend that came out of it. `BuiltIn` names what can
come out: three schemes, each at one of its levels.

> What a lookup finds for a scheme of the library and what its factory
> instantiates belong to one level, and the scheme and the parameter set that
> were asked for name it (`BuiltIn.of_instantiate`).

The sizes that a description declares are those of the keys that its backend
generates (`BuiltIn.lengths_of_keygen`).
-/

namespace LatticeSuite

/-! ## Levels by index -/

/-- A list of three is indexed by the numbers zero, one and two. -/
theorem getElem?_three {α : Type} (a b c : α) (index : UInt32) :
    [a, b, c][index.toNat]? =
      if index = 0 then some a else if index = 1 then some b else if index = 2 then some c
      else none := by
  split
  next h => rw [h]; rfl
  next h₀ =>
    split
    next h => rw [h]; rfl
    next h₁ =>
      split
      next h => rw [h]; rfl
      next h₂ =>
        have hlarge : 3 ≤ index.toNat := by
          rw [← UInt32.toNat_inj] at h₀ h₁ h₂
          simp at h₀ h₁ h₂
          omega
        exact List.getElem?_eq_none hlarge

theorem MlDsa.Level.getElem?_all (index : UInt32) :
    Level.all[index.toNat]? = Level.ofIndex? index :=
  getElem?_three _ _ _ index

theorem MlKem.Level.getElem?_all (index : UInt32) :
    Level.all[index.toNat]? = Level.ofIndex? index :=
  getElem?_three _ _ _ index

/-! ## The schemes -/

/-- A scheme of the library at one of its levels. -/
inductive BuiltIn where
  | dilithium (l : MlDsa.Level)
  | kyber (l : MlKem.Level)
  | kyberHybrid (l : MlKem.Level)
  deriving DecidableEq, Repr

namespace BuiltIn

def scheme : BuiltIn → SchemeId
  | .dilithium _ => .sigDilithium
  | .kyber _ => .kemKyber
  | .kyberHybrid _ => .encKyberHybrid

/-- The index of the level. -/
def paramSet : BuiltIn → UInt32
  | .dilithium .dilithium2 | .kyber .kyber512 | .kyberHybrid .kyber512 => 0
  | .dilithium .dilithium3 | .kyber .kyber768 | .kyberHybrid .kyber768 => 1
  | .dilithium .dilithium5 | .kyber .kyber1024 | .kyberHybrid .kyber1024 => 2

/-- What a scheme and a parameter set name. -/
def of? : SchemeId → (paramSet : UInt32) → Option BuiltIn
  | .sigDilithium, paramSet => (MlDsa.Level.ofIndex? paramSet).map .dilithium
  | .kemKyber, paramSet => (MlKem.Level.ofIndex? paramSet).map .kyber
  | .encKyberHybrid, paramSet => (MlKem.Level.ofIndex? paramSet).map .kyberHybrid
  | _, _ => none

def descriptor : BuiltIn → SchemeDescriptor
  | .dilithium _ => Dilithium.descriptor
  | .kyber _ => Kyber.descriptor
  | .kyberHybrid _ => KyberHybrid.descriptor

def parameterSet : BuiltIn → ParameterSet
  | .dilithium l => Dilithium.parameterSet l
  | .kyber l => Kyber.parameterSet l
  | .kyberHybrid l => KyberHybrid.parameterSet l

/-- The backend; only hybrid encryption uses the digest. -/
def backend (σ : Type) (kdf : HashAlgorithm) : BuiltIn → Backend σ
  | .dilithium l => Dilithium.backend σ l
  | .kyber l => Kyber.backend σ l
  | .kyberHybrid l => KyberHybrid.backend σ l kdf

/-- The key length that a class has. -/
def keyBytes (b : BuiltIn) : KeyClass → Nat
  | .publicKey => b.parameterSet.publicKeyBytes
  | .privateKey => b.parameterSet.privateKeyBytes

theorem of?_self (b : BuiltIn) : of? b.scheme b.paramSet = some b := by
  rcases b with l | l | l
  all_goals cases l <;> rfl

variable {σ : Type}

theorem factory?_builtIn [Inhabited σ] {scheme : SchemeId} {factory : SchemeFactory σ}
    (h : (Registry.builtIn : Registry σ).factory? scheme = some factory) :
    (scheme = .sigDilithium ∧ factory = Registry.dilithium) ∨
      (scheme = .kemKyber ∧ factory = Registry.kyber) ∨
        (scheme = .encKyberHybrid ∧ factory = Registry.kyberHybrid) := by
  rw [Registry.factory?_builtIn] at h
  obtain rfl := Registry.id_of_latest? h
  have hstock := Registry.mem_of_latest? h
  simp only [Registry.stock, List.mem_cons, List.not_mem_nil, or_false] at hstock
  obtain rfl | rfl | rfl := hstock
  · exact .inl ⟨rfl, rfl⟩
  · exact .inr (.inl ⟨rfl, rfl⟩)
  · exact .inr (.inr ⟨rfl, rfl⟩)

/-- What is found and what is made for an index are of the same level. -/
theorem exists_level {L : Type} {all : List L} {ofIndex? : UInt32 → Option L}
    {describe : L → ParameterSet} {level : SchemeConfig → Except SchemeError L}
    {backend : L → Backend σ} {state : σ} {config : SchemeConfig} {parameterSet : ParameterSet}
    {made : Backend σ × σ} (hall : ∀ index : UInt32, all[index.toNat]? = ofIndex? index)
    (hlevel : ∀ l, ofIndex? config.paramSet = some l → level config = .ok l)
    (hset : (all.map describe)[config.paramSet.toNat]? = some parameterSet)
    (hmade : (do return (backend (← level config), state)) = Except.ok made) :
    ∃ l, ofIndex? config.paramSet = some l ∧ parameterSet = describe l ∧ made.1 = backend l := by
  rw [List.getElem?_map, hall] at hset
  obtain ⟨l, hl, rfl⟩ := Option.map_eq_some_iff.mp hset
  rw [hlevel l hl] at hmade
  obtain rfl := Except.ok.inj hmade
  exact ⟨l, hl, rfl, rfl⟩

/-- **A lookup and an instantiation of a scheme of the library** agree on one
level, which is the one that was asked for. -/
theorem of_instantiate [Inhabited σ] {registry : Registry σ} {scheme : SchemeId}
    {entry : SchemeEntry σ} {config : SchemeConfig} {made : Backend σ × σ}
    (hbuiltIn : registry.factory? scheme = (Registry.builtIn : Registry σ).factory? scheme)
    (hlookup : registry.lookup scheme config.paramSet = .ok entry)
    (hmade : entry.factory.instantiate config = .ok made) :
    ∃ b, of? scheme config.paramSet = some b ∧ entry.descriptor = b.descriptor ∧
      entry.parameterSet = b.parameterSet ∧ made.1 = b.backend σ config.hash := by
  obtain ⟨hfactory, hset⟩ := Registry.lookup_eq_ok_iff.mp hlookup
  rw [hbuiltIn] at hfactory
  obtain ⟨factory, parameterSet⟩ := entry
  have hkyber : ∀ l, MlKem.Level.ofIndex? config.paramSet = some l →
      Kyber.level config = .ok l := by
    intro l hl
    rw [Kyber.level, hl]
  rcases factory?_builtIn hfactory with ⟨rfl, rfl⟩ | ⟨rfl, rfl⟩ | ⟨rfl, rfl⟩
  · obtain ⟨l, hl, hset, hbackend⟩ := exists_level MlDsa.Level.getElem?_all
      (fun l hl => by rw [Dilithium.level, hl]) hset hmade
    exact ⟨.dilithium l, congrArg (Option.map _) hl, rfl, hset, hbackend⟩
  · obtain ⟨l, hl, hset, hbackend⟩ := exists_level MlKem.Level.getElem?_all hkyber hset hmade
    exact ⟨.kyber l, congrArg (Option.map _) hl, rfl, hset, hbackend⟩
  · obtain ⟨l, hl, hset, hbackend⟩ := exists_level MlKem.Level.getElem?_all hkyber hset hmade
    exact ⟨.kyberHybrid l, congrArg (Option.map _) hl, rfl, hset, hbackend⟩

theorem lengths_of_keygen {b : BuiltIn} {kdf : HashAlgorithm} {s s' : σ} {supply left : Supply}
    {pair : KeyPair} (h : (b.backend σ kdf).keygen s supply = (.ok pair, s', left)) :
    pair.publicKey.length = b.keyBytes .publicKey ∧
      pair.privateKey.length = b.keyBytes .privateKey := by
  have hdrive : ∀ {p : DrawProgram (Option KeyPair)},
      (.ofSupply p.drive : DrawingOperation σ KeyPair) s supply = (.ok pair, s', left) →
        p.drive supply = (.ok pair, left) := by
    intro p hp
    obtain ⟨hpair, hrest⟩ := Prod.mk.inj hp
    exact Prod.ext hpair (Prod.mk.inj hrest).2
  cases b with
  | dilithium l => exact MlDsa.lengths_of_drive_keygen (hdrive h)
  | kyber l => exact MlKem.lengths_of_drive_keygen (hdrive h)
  | kyberHybrid l => exact MlKem.lengths_of_drive_keygen (hdrive h)

end BuiltIn

end LatticeSuite
