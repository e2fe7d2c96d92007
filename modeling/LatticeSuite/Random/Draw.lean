import LatticeSuite.Random.Csprng

/-!
# Draws with a failure that sticks

A computation that draws random bytes may have nowhere to report a failed
draw. So a `DrawView` of a supply keeps the first failure: that draw and every
later one gives zeros, and the supply is not touched again. Whoever ran the
computation asks the view at the end.

A `DrawProgram` is such a computation seen from outside: a result, or a draw
and what to do with the bytes. `DrawProgram.run` runs it on a view.
-/

namespace LatticeSuite

/-- A supply in use, with the first failure of a draw. -/
structure DrawView where
  supply : Supply
  failure : Option EntropyError := none

namespace DrawView

/-- A view before its first draw. -/
def new (supply : Supply) : DrawView :=
  { supply }

/-- Draw `n` bytes, and say whether they are random. -/
def draw (v : DrawView) (n : Nat) : (Bool × Bytes) × DrawView :=
  match v.failure with
  | some _ => ((false, List.replicate n 0), v)
  | none =>
    let filled := v.supply.fill n
    match filled.failure with
    | none => ((true, filled.written), { v with supply := filled.supply })
    | some e =>
      ((false, List.replicate n 0), { supply := filled.supply, failure := some e })

/-- Draw a 32-bit word. -/
def nextU32 (v : DrawView) : UInt32 × DrawView :=
  let ((_, bs), v) := v.draw 4
  (Bytes.toWord32LE bs, v)

/-- Draw a 64-bit word. -/
def nextU64 (v : DrawView) : UInt64 × DrawView :=
  let ((_, bs), v) := v.draw 8
  (Bytes.toWord64LE bs, v)

/-- What a checked draw reports if it failed. -/
def failureMessage : String := "context CSPRNG failed"

/-- The first failure, if any draw failed. -/
def finish (v : DrawView) : Except EntropyError Unit :=
  match v.failure with
  | some e => .error e
  | none => .ok ()

end DrawView

/-- A computation that draws random bytes. -/
inductive DrawProgram (α : Type) where
  | done (result : α)
  | nextU32 (next : UInt32 → DrawProgram α)
  | nextU64 (next : UInt64 → DrawProgram α)
  | fillBytes (n : Nat) (next : Bytes → DrawProgram α)
  /-- A draw that tells whether its bytes are random. -/
  | tryFillBytes (n : Nat) (next : Bool → Bytes → DrawProgram α)

/-- Run a computation on a view. -/
def DrawProgram.run {α : Type} : DrawProgram α → DrawView → α × DrawView
  | .done result, v => (result, v)
  | .nextU32 k, v => let (w, v) := v.nextU32; (k w).run v
  | .nextU64 k, v => let (w, v) := v.nextU64; (k w).run v
  | .fillBytes n k, v => let ((_, bs), v) := v.draw n; (k bs).run v
  | .tryFillBytes n k, v => let ((random, bs), v) := v.draw n; (k random bs).run v

end LatticeSuite
