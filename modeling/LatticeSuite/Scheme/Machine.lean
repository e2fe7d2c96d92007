import LatticeSuite.Scheme.Backend

/-!
# A backend in use

A backend with its state and a generator. An operation changes the state, one
that draws also the generator and the entropy; the backend itself stays.
-/

namespace LatticeSuite

/-- A backend, its state, and a generator. -/
structure Machine (σ : Type) where
  csprng : Csprng
  backend : Backend σ
  state : σ

namespace Machine

variable {σ α : Type}

/-- Run an operation with the generator. -/
def draw (m : Machine σ) (operation : DrawingOperation σ α) (entropy : Entropy) :
    Except SchemeError α × Machine σ × Entropy :=
  let (r, state, supply) := operation m.state { csprng := m.csprng, entropy }
  (r, { m with csprng := supply.csprng, state }, supply.entropy)

/-- Run an operation without the generator. -/
def ask (m : Machine σ) (operation : QuietOperation σ α) : Except SchemeError α × Machine σ :=
  let (r, state) := operation m.state
  (r, { m with state })

end Machine

end LatticeSuite
