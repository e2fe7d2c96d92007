import LatticeSuite.Key
import LatticeSuite.Random.Draw
import LatticeSuite.Scheme.Error

/-!
# Backends

A backend does the work of a scheme on raw key bytes. It has a state of some
type `σ` of its own, and some of its operations are given the generator; both
are passed in and handed back, also by an operation that fails. What a scheme
does not offer is left at its default, which reports so.

Schemes on lattices describe what they draw as a `DrawProgram`.
`DrawProgram.drive` runs one, and a failed draw is what it reports, whatever
the computation made of the zeros that it saw.
-/

namespace LatticeSuite

/-- The two results of an encapsulation. -/
structure Encapsulation where
  ciphertext : Bytes
  secret : Bytes
  deriving DecidableEq, Inhabited

/-- An operation of a backend that may draw random bytes. -/
abbrev DrawingOperation (σ α : Type) : Type :=
  σ → Supply → Except SchemeError α × σ × Supply

/-- An operation of a backend that draws nothing. -/
abbrev QuietOperation (σ α : Type) : Type :=
  σ → Except SchemeError α × σ

namespace DrawingOperation

variable {σ α : Type}

/-- An operation that a scheme does not offer. -/
def unsupported (operation : Operation) : DrawingOperation σ α :=
  fun s supply => (.error (.unsupported operation), s, supply)

/-- An operation that leaves the backend's state alone. -/
def ofSupply (f : Supply → Except SchemeError α × Supply) : DrawingOperation σ α :=
  fun s supply => let (r, supply) := f supply; (r, s, supply)

end DrawingOperation

namespace QuietOperation

variable {σ α : Type}

/-- An operation that a scheme does not offer. -/
def unsupported (operation : Operation) : QuietOperation σ α :=
  fun s => (.error (.unsupported operation), s)

/-- An operation that leaves the backend's state alone. -/
def ofResult (r : Except SchemeError α) : QuietOperation σ α :=
  fun s => (r, s)

end QuietOperation

/-- The operations of a scheme. -/
structure Backend (σ : Type) where
  id : SchemeId
  keygen : DrawingOperation σ KeyPair
  sign : (privateKey message : Bytes) → DrawingOperation σ Bytes :=
    fun _ _ => .unsupported .sign
  verify : (publicKey message signature : Bytes) → QuietOperation σ Bool :=
    fun _ _ _ => .unsupported .verify
  encrypt : (publicKey plaintext : Bytes) → DrawingOperation σ Bytes :=
    fun _ _ => .unsupported .encrypt
  decrypt : (privateKey ciphertext : Bytes) → QuietOperation σ Bytes :=
    fun _ _ => .unsupported .decrypt
  encapsulate : (publicKey : Bytes) → DrawingOperation σ Encapsulation :=
    fun _ => .unsupported .encapsulate
  decapsulate : (privateKey ciphertext : Bytes) → QuietOperation σ Bytes :=
    fun _ _ => .unsupported .decapsulate

/-- Draw bytes for a backend. -/
def Supply.nextBytes (supply : Supply) (n : Nat) : Except SchemeError Bytes × Supply :=
  let filled := supply.fill n
  match filled.failure with
  | none => (.ok filled.written, filled.supply)
  | some e => (.error (.rng e), filled.supply)

/-- Run a computation for a backend. The first draw that failed wins over the
result, and of a computation without a result no more is told. -/
def DrawProgram.drive {α : Type} (p : DrawProgram (Option α)) (supply : Supply) :
    Except SchemeError α × Supply :=
  let (result, view) := p.run (DrawView.new supply)
  match view.finish, result with
  | .error e, _ => (.error (.rng e), view.supply)
  | .ok (), some a => (.ok a, view.supply)
  | .ok (), none => (.error .failed, view.supply)

end LatticeSuite
