import LatticeSuite.Random.Generator

/-!
# What a generator is asked for

A generator gives bytes and is seeded again, in any order and any number of times.
`Generator.serveAll` is such a history, the same for all seven kinds, with what was answered
and the generator behind it.

> `Generator.serveAll_invariant`: what requests and seedings preserve holds after every
> history.

So a kind is described by one request and one seeding. The two DRBGs count their requests,
and what their counter says of a history is said here for both (`reseedCounter?_serveAll`).
-/

namespace LatticeSuite.Generator

/-- What a generator is asked for. -/
inductive Request where
  | reseed (entropy : Bytes)
  | generate (n : Nat)
  deriving DecidableEq

/-- A seeding gives no bytes. -/
def serve (g : Generator) : Request → Bytes × Generator
  | .reseed entropy => ([], g.reseed entropy)
  | .generate n => g.generate n

/-- The answers to many requests, and the generator behind them. -/
def serveAll (g : Generator) : List Request → List Bytes × Generator
  | [] => ([], g)
  | r :: rs => ((g.serve r).1 :: ((g.serve r).2.serveAll rs).1, ((g.serve r).2.serveAll rs).2)

/-- How many requests for bytes there were since the last seeding, after `count` before. -/
def requestsFrom (count : Nat) : List Request → Nat
  | [] => count
  | .reseed _ :: rs => requestsFrom 0 rs
  | .generate _ :: rs => requestsFrom (count + 1) rs

theorem serveAll_invariant {I : Generator → Prop}
    (hgenerate : ∀ g n, I g → I (g.generate n).2)
    (hreseed : ∀ g entropy, I g → I (g.reseed entropy)) {g : Generator} (h : I g)
    (history : List Request) : I (g.serveAll history).2 := by
  induction history generalizing g with
  | nil => exact h
  | cons r history ih =>
    cases r with
    | reseed entropy => exact ih (hreseed g entropy h)
    | generate n => exact ih (hgenerate g n h)

/-! ## The counter of a DRBG -/

theorem reseedCounter?_generate (g : Generator) (n : Nat) :
    (g.generate n).2.reseedCounter? = g.reseedCounter?.map (· + 1) := by
  cases g <;> rfl

theorem reseedCounter?_reseed (g : Generator) (entropy : Bytes) :
    (g.reseed entropy).reseedCounter? = g.reseedCounter?.map fun _ => 1 := by
  cases g <;> rfl

/-- **The counter is one more than the number of requests since the last seeding.** -/
theorem reseedCounter?_serveAll {g : Generator} {count : Nat}
    (h : g.reseedCounter? = some (1 + count)) (history : List Request) :
    (g.serveAll history).2.reseedCounter? = some (1 + requestsFrom count history) := by
  induction history generalizing g count with
  | nil => exact h
  | cons r history ih =>
    cases r with
    | reseed entropy =>
      refine ih (g := g.reseed entropy) ?_
      rw [reseedCounter?_reseed, h]
      rfl
    | generate n =>
      refine ih (g := (g.generate n).2) ?_
      rw [reseedCounter?_generate, h]
      rfl

theorem requestsFrom_le (count : Nat) (history : List Request) :
    requestsFrom count history ≤ count + history.length := by
  induction history generalizing count with
  | nil => exact Nat.le_refl _
  | cons r history ih =>
    rw [List.length_cons]
    cases r with
    | reseed entropy =>
      have hrest := ih 0
      rw [requestsFrom]
      omega
    | generate n =>
      have hrest := ih (count + 1)
      rw [requestsFrom]
      omega

end LatticeSuite.Generator
