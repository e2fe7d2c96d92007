/-!
# The life of a context

The state of a context is not stored. It follows from what the context holds,
so it cannot disagree with it.
-/

namespace LatticeSuite

/-- The states of a context, in the order of its life. -/
inductive ContextState where
  /-- The flags are decoded; only seen while a context is being created. -/
  | created
  /-- There is a backend and a generator, but no key. -/
  | initialized
  /-- There is at least one key. -/
  | keyReady
  /-- Nothing is held any more, and every operation fails. -/
  | destroyed
  deriving DecidableEq, Repr

namespace ContextState

/-- Every state, in that order. -/
def all : List ContextState := [.created, .initialized, .keyReady, .destroyed]

/-- The place of a state in the order of a context's life. -/
def rank : ContextState → Nat
  | .created => 0
  | .initialized => 1
  | .keyReady => 2
  | .destroyed => 3

/-- The state of a context that has been created. -/
def derive (destroyed hasKey : Bool) : ContextState :=
  if destroyed then .destroyed
  else if hasKey then .keyReady
  else .initialized

/-- Whether keys may be generated. -/
def canKeygen : ContextState → Bool
  | .initialized | .keyReady => true
  | _ => false

/-- Whether operations on keys are possible at all. -/
def isLive (s : ContextState) : Bool :=
  s != .destroyed

def text : ContextState → String
  | .created => "Created"
  | .initialized => "Initialized"
  | .keyReady => "KeyReady"
  | .destroyed => "Destroyed"

@[simp] theorem isLive_derive (destroyed hasKey : Bool) :
    (derive destroyed hasKey).isLive = !destroyed := by
  cases destroyed <;> cases hasKey <;> rfl

@[simp] theorem canKeygen_derive (destroyed hasKey : Bool) :
    (derive destroyed hasKey).canKeygen = !destroyed := by
  cases destroyed <;> cases hasKey <;> rfl

end ContextState

end LatticeSuite
