import LatticeSuite.Scheme.Dilithium
import LatticeSuite.Scheme.KyberHybrid

/-!
# The registry of schemes

Under each scheme the registry holds at most one factory: a description, and
how to make a backend of a configuration. Installing a factory replaces the one
that was there. Listings go by the number of the scheme, whatever the order of
installation was.
-/

namespace LatticeSuite

/-- How backends of a scheme are made. -/
structure SchemeFactory (σ : Type) where
  descriptor : SchemeDescriptor
  /-- A backend for a configuration, and the state it starts in. -/
  instantiate : SchemeConfig → Except SchemeError (Backend σ × σ)

/-- Why there is no scheme to work with. -/
inductive LookupError where
  | schemeUnavailable (id : SchemeId)
  | unknownParameterSet (id : SchemeId) (paramSet : UInt32)
  deriving DecidableEq, Repr

/-- What a successful lookup finds. -/
structure SchemeEntry (σ : Type) where
  factory : SchemeFactory σ
  parameterSet : ParameterSet

/-- The description of the scheme found. -/
def SchemeEntry.descriptor {σ : Type} (e : SchemeEntry σ) : SchemeDescriptor :=
  e.factory.descriptor

structure Registry (σ : Type) where
  /-- The factory installed for a scheme. -/
  factory? : SchemeId → Option (SchemeFactory σ)

namespace Registry

variable {σ : Type}

def empty : Registry σ :=
  { factory? := fun _ => none }

/-- Install a factory for the scheme that it describes. -/
def insert (r : Registry σ) (f : SchemeFactory σ) : Registry σ :=
  { factory? := fun id => if id = f.descriptor.id then some f else r.factory? id }

/-- Install a factory, and tell which one it replaces. -/
def register (r : Registry σ) (f : SchemeFactory σ) : Option (SchemeFactory σ) × Registry σ :=
  (r.factory? f.descriptor.id, r.insert f)

@[simp] theorem factory?_insert (r : Registry σ) (f : SchemeFactory σ) (id : SchemeId) :
    (r.insert f).factory? id = if id = f.descriptor.id then some f else r.factory? id :=
  rfl

/-- The scheme and the parameter set of two numbers. -/
def lookup (r : Registry σ) (id : SchemeId) (paramSet : UInt32) :
    Except LookupError (SchemeEntry σ) :=
  match r.factory? id with
  | none => .error (.schemeUnavailable id)
  | some factory =>
    match factory.descriptor.parameterSet? paramSet with
    | none => .error (.unknownParameterSet id paramSet)
    | some parameterSet => .ok { factory, parameterSet }

def descriptor? (r : Registry σ) (id : SchemeId) : Option SchemeDescriptor :=
  (r.factory? id).map (·.descriptor)

def isAvailable (r : Registry σ) (id : SchemeId) : Bool :=
  (r.factory? id).isSome

def list (r : Registry σ) : List SchemeId :=
  SchemeId.all.filter r.isAvailable

def listFamily (r : Registry σ) (family : SchemeFamily) : List SchemeId :=
  r.list.filter fun id => id.family = family

theorem mem_list (r : Registry σ) (id : SchemeId) : id ∈ r.list ↔ r.isAvailable id := by
  simp [list, SchemeId.mem_all]

/-! ## The schemes that come with the library -/

def dilithium [Inhabited σ] : SchemeFactory σ :=
  { descriptor := Dilithium.descriptor
    instantiate := fun config => do
      return (Dilithium.backend σ (← Dilithium.level config), default) }

def kyber [Inhabited σ] : SchemeFactory σ :=
  { descriptor := Kyber.descriptor
    instantiate := fun config => do
      return (Kyber.backend σ (← Kyber.level config), default) }

def kyberHybrid [Inhabited σ] : SchemeFactory σ :=
  { descriptor := KyberHybrid.descriptor
    instantiate := fun config => do
      return (KyberHybrid.backend σ (← Kyber.level config) config.hash, default) }

/-- The registry that a program starts with. -/
def builtIn [Inhabited σ] : Registry σ :=
  ((empty.insert dilithium).insert kyber).insert kyberHybrid

end Registry

end LatticeSuite
