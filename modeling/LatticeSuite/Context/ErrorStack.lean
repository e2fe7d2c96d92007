import LatticeSuite.Context.Error

/-!
# The record of failures

Failures are handed out in the order in which they happened. When the stack is
full, a further failure is counted and not kept, so the first ones survive. The
sequence number of a record counts every failure before it, kept or not, and
clearing the stack does not reset it.

Where a failure was noticed is of some type `ρ`, which the stack only carries. To ask for
the code and the place of the oldest record alone is to ask for the record.
-/

namespace LatticeSuite

structure ErrorRecord (ρ : Type) where
  code : ErrorCode
  place : ρ
  sequence : Nat
  deriving DecidableEq, Repr

/-- The line that shows a record, given the text of its place. -/
def ErrorRecord.text {ρ : Type} (r : ErrorRecord ρ) (place : ρ → String) : String :=
  "#" ++ toString r.sequence ++ " " ++ r.code.text ++ " (at " ++ place r.place ++ ")"

/-- The failures not yet asked for. -/
structure ErrorStack (ρ : Type) where
  /-- The records, oldest first. -/
  records : List (ErrorRecord ρ) := []
  /-- The sequence number of the next failure. -/
  nextSequence : Nat := 0
  /-- The failures that found the stack full. -/
  dropped : Nat := 0
  deriving DecidableEq, Repr

namespace ErrorStack

variable {ρ : Type}

/-- The greatest number of records. -/
def capacity : Nat := 32

def push (s : ErrorStack ρ) (code : ErrorCode) (place : ρ) : ErrorStack ρ :=
  if s.records.length < capacity then
    { s with
      records := s.records ++ [{ code, place, sequence := s.nextSequence }]
      nextSequence := s.nextSequence + 1 }
  else { s with nextSequence := s.nextSequence + 1, dropped := s.dropped + 1 }

def peek? (s : ErrorStack ρ) : Option (ErrorRecord ρ) :=
  s.records.head?

/-- Take the oldest record out. -/
def take? (s : ErrorStack ρ) : Option (ErrorRecord ρ) × ErrorStack ρ :=
  (s.records.head?, { s with records := s.records.tail })

/-- Forget every record and the count of those not kept. -/
def clear (s : ErrorStack ρ) : ErrorStack ρ :=
  { s with records := [], dropped := 0 }

def length (s : ErrorStack ρ) : Nat :=
  s.records.length

def isEmpty (s : ErrorStack ρ) : Bool :=
  s.records.isEmpty

theorem length_push_le (s : ErrorStack ρ) (code : ErrorCode) (place : ρ)
    (h : s.length ≤ capacity) : (s.push code place).length ≤ capacity := by
  simp only [length, push] at *
  split
  · simp
    omega
  · exact h

end ErrorStack

end LatticeSuite
