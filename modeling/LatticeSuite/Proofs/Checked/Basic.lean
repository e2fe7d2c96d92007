import LatticeSuite.Coding.Error
import Mathlib.Data.List.Basic
import Mathlib.Logic.Function.Basic

/-!
# Arithmetic in registers

The coders of this library compute with natural numbers and take lists apart. A
machine computes in registers of a fixed width and looks things up by their
index, and then there are three ways to go wrong that a natural number and a
pattern do not know: a result outgrows its register, a difference falls below
zero, an index or a slice reaches beyond what is there. A `Checked` computation
says at each of these steps that it may go wrong, and stops with a `Fault` if it
does. So that it has no fault is a statement about every step that it makes.
Lengths and positions are numbers of 64 bits. Shifts to the left lose bits and have
no fault.

`Refines` compares a checked computation with a decoder. It asks for a value
where the decoder has one and for the same error where it has one, and therefore
leaves no room for a fault. What is decoded in steps is compared in steps
(`Refines.bind`), the two sides being related by whatever holds in between.

The last section is about tables that are filled entry by entry. Such a table is
taken as the function that it tabulates, so that an assignment is an update of
this function.
-/

namespace LatticeSuite

namespace Decoded

variable {α β : Type}

/-- What is decoded in steps is decoded in every step. -/
theorem exists_of_bind {x : Decoded α} {f : α → Decoded β} {b : β} (h : x.bind f = .ok b) :
    ∃ a, x = .ok a ∧ f a = .ok b := by
  cases x with
  | error e => exact nomatch h
  | ok a => exact ⟨a, rfl, h⟩

theorem exists_of_map {x : Decoded α} {f : α → β} {b : β} (h : x.map f = .ok b) :
    ∃ a, x = .ok a ∧ f a = b := by
  cases x with
  | error e => exact nomatch h
  | ok a => exact ⟨a, rfl, Except.ok.inj h⟩

end Decoded

/-- What goes wrong in a register or at an index. -/
inductive Fault where
  /-- A result is too large for its register. -/
  | overflow
  /-- A difference of numbers without a sign is negative. -/
  | underflow
  /-- An index or a slice is not within what it is taken of. -/
  | outOfRange
  deriving DecidableEq, Repr

/-- Why a checked computation has no value. -/
inductive Stop where
  | fault (f : Fault)
  /-- The input is refused, which is no fault. -/
  | refused (e : DecodeError)
  deriving DecidableEq, Repr

/-- A computation that stops where a machine would go wrong. -/
abbrev Checked (α : Type) := Except Stop α

namespace Checked

variable {α β γ δ : Type}

def refuse (e : DecodeError) : Checked α :=
  .error (.refused e)

/-- A number without a sign in a register of `width` bits. -/
def fit (width n : Nat) : Checked Nat :=
  if n < 2 ^ width then .ok n else .error (.fault .overflow)

/-- A number with a sign in a register of 64 bits. -/
def fitSigned (n : Int) : Checked Int :=
  if -2 ^ 63 ≤ n ∧ n < 2 ^ 63 then .ok n else .error (.fault .overflow)

/-- The difference of two numbers without a sign. -/
def sub (a b : Nat) : Checked Nat :=
  if b ≤ a then .ok (a - b) else .error (.fault .underflow)

/-- The entry at an index. -/
def read (xs : List α) (i : Nat) : Checked α :=
  if h : i < xs.length then .ok xs[i] else .error (.fault .outOfRange)

/-- Assign to the entry at an index. -/
def write (xs : List α) (i : Nat) (a : α) : Checked (List α) :=
  if i < xs.length then .ok (xs.set i a) else .error (.fault .outOfRange)

/-- The entries from `start` up to `stop`. -/
def slice (xs : List α) (start stop : Nat) : Checked (List α) :=
  if start ≤ stop ∧ stop ≤ xs.length then .ok ((xs.take stop).drop start)
  else .error (.fault .outOfRange)

theorem fit_of_lt {width n : Nat} (h : n < 2 ^ width) : fit width n = .ok n :=
  if_pos h

theorem eq_of_fit {width n m : Nat} (h : fit width n = .ok m) : m = n := by
  rw [fit] at h
  split at h
  next => exact (Except.ok.inj h).symm
  next => exact absurd h (by simp)

theorem fitSigned_of_lt {n : Int} (hlo : -2 ^ 63 ≤ n) (hhi : n < 2 ^ 63) : fitSigned n = .ok n :=
  if_pos ⟨hlo, hhi⟩

theorem sub_of_le {a b : Nat} (h : b ≤ a) : sub a b = .ok (a - b) :=
  if_pos h

theorem read_of_getElem? {xs : List α} {i : Nat} {a : α} (h : xs[i]? = some a) :
    read xs i = .ok a := by
  obtain ⟨hi, rfl⟩ := List.getElem?_eq_some_iff.mp h
  exact dif_pos hi

theorem write_of_lt {xs : List α} {i : Nat} (h : i < xs.length) (a : α) :
    write xs i a = .ok (xs.set i a) :=
  if_pos h

theorem slice_of_le {xs : List α} {start stop : Nat} (h : start ≤ stop) (h' : stop ≤ xs.length) :
    slice xs start stop = .ok ((xs.take stop).drop start) :=
  if_pos ⟨h, h'⟩

theorem slice_zero {xs : List α} {stop : Nat} (h : stop ≤ xs.length) :
    slice xs 0 stop = .ok (xs.take stop) := by
  rw [slice_of_le (Nat.zero_le stop) h, List.drop_zero]

theorem slice_length {xs : List α} {start : Nat} (h : start ≤ xs.length) :
    slice xs start xs.length = .ok (xs.drop start) := by
  rw [slice_of_le h (Nat.le_refl _), List.take_length]

/-- A bit that is shifted in. -/
theorem two_mul_or (n : Nat) (bit : Bool) : 2 * n ||| bit.toNat = 2 * n + bit.toNat := by
  have hbit : bit.toNat < 2 ^ 1 := bit.toNat_lt
  have h := Nat.shiftLeft_add_eq_or_of_lt hbit n
  rw [Nat.shiftLeft_eq, Nat.pow_one, Nat.mul_comm] at h
  exact h.symm

@[simp] theorem ok_bind (a : α) (f : α → Checked β) : (.ok a : Checked α) >>= f = f a :=
  rfl

@[simp] theorem error_bind (e : Stop) (f : α → Checked β) :
    (.error e : Checked α) >>= f = .error e :=
  rfl

/-! ## Checked computations and decoders -/

/-- What a decoder yields, as a computation without faults. -/
def ofDecoded : Decoded α → Checked α
  | .ok a => .ok a
  | .error e => refuse e

theorem ofDecoded_ne_fault (y : Decoded α) (f : Fault) : ofDecoded y ≠ .error (.fault f) := by
  cases y <;> simp [ofDecoded, refuse]

/-- A checked computation does what a decoder does. It has no fault, refuses
what the decoder refuses, and its values stand in `R` to those of the decoder. -/
def Refines (R : α → β → Prop) (x : Checked α) : Decoded β → Prop
  | .ok b => ∃ a, x = .ok a ∧ R a b
  | .error e => x = refuse e

theorem refines_eq_iff {x : Checked α} {y : Decoded α} :
    Refines (fun a b => a = b) x y ↔ x = ofDecoded y := by
  cases y with
  | error e => exact Iff.rfl
  | ok b => exact ⟨fun ⟨_, hx, heq⟩ => heq ▸ hx, fun hx => ⟨b, hx, rfl⟩⟩

theorem refines_ofDecoded (y : Decoded α) : Refines (fun a b => a = b) (ofDecoded y) y :=
  refines_eq_iff.mpr rfl

/-- **Computations that refine decoders step by step** refine them as a whole. -/
theorem Refines.bind {R : α → β → Prop} {S : γ → δ → Prop} {x : Checked α} {y : Decoded β}
    {f : α → Checked γ} {g : β → Decoded δ} (h : Refines R x y)
    (hfg : ∀ a b, y = .ok b → R a b → Refines S (f a) (g b)) : Refines S (x >>= f) (y.bind g) := by
  cases y with
  | error e =>
    have hx : x = refuse e := h
    rw [hx]
    rfl
  | ok b =>
    obtain ⟨a, rfl, hab⟩ := h
    exact hfg a b rfl hab

/-- A check that both sides make. -/
theorem Refines.guard {R : α → β → Prop} {p : Prop} [Decidable p] {e : DecodeError}
    {x : Checked α} {y : Decoded β} (h : ¬p → Refines R x y) :
    Refines R (if p then refuse e else x) (if p then .error e else y) := by
  by_cases hp : p
  · rw [if_pos hp, if_pos hp]
    rfl
  · rw [if_neg hp, if_neg hp]
    exact h hp

/-- A last step that cannot fail. -/
theorem Refines.map {R : α → β → Prop} {S : γ → δ → Prop} {x : Checked α} {y : Decoded β}
    {f : α → γ} {g : β → δ} (h : Refines R x y) (hfg : ∀ a b, R a b → S (f a) (g b)) :
    Refines S (x >>= fun a => .ok (f a)) (y.map g) := by
  cases y with
  | error e =>
    have hx : x = refuse e := h
    rw [hx]
    rfl
  | ok b =>
    obtain ⟨a, rfl, hab⟩ := h
    exact ⟨f a, rfl, hfg a b hab⟩

/-- A last step on one side only. -/
theorem Refines.yield {R : α → β → Prop} {S : γ → β → Prop} {x : Checked α} {y : Decoded β}
    {f : α → γ} (h : Refines R x y) (hf : ∀ a b, R a b → S (f a) b) :
    Refines S (x >>= fun a => .ok (f a)) y := by
  have hmap := h.map (g := id) hf
  rwa [Except.map_id, id] at hmap

/-! ## Tables -/

/-- The table of the first `n` values of a function. -/
def tabulate (n : Nat) (f : Nat → α) : List α :=
  (List.range n).map f

@[simp] theorem length_tabulate (n : Nat) (f : Nat → α) : (tabulate n f).length = n := by
  rw [tabulate, List.length_map, List.length_range]

theorem tabulate_succ (n : Nat) (f : Nat → α) :
    tabulate (n + 1) f = f 0 :: tabulate n fun i => f (i + 1) := by
  rw [tabulate, List.range_succ_eq_map, List.map_cons, List.map_map]
  rfl

theorem getElem?_tabulate {n i : Nat} (f : Nat → α) (h : i < n) :
    (tabulate n f)[i]? = some (f i) := by
  rw [tabulate, List.getElem?_map, List.getElem?_range h]
  rfl

theorem replicate_eq_tabulate (n : Nat) (a : α) : List.replicate n a = tabulate n fun _ => a := by
  rw [tabulate, List.map_const', List.length_range]

theorem read_tabulate {n i : Nat} (f : Nat → α) (h : i < n) : read (tabulate n f) i = .ok (f i) :=
  read_of_getElem? (getElem?_tabulate f h)

theorem write_tabulate {n i : Nat} (f : Nat → α) (h : i < n) (a : α) :
    write (tabulate n f) i a = .ok (tabulate n (Function.update f i a)) := by
  rw [write_of_lt (by rwa [length_tabulate])]
  congr 1
  refine List.ext_getElem (by simp) ?_
  intro j hj _
  rw [List.getElem_set]
  simp only [tabulate, List.getElem_map, List.getElem_range, Function.update_apply]
  by_cases hij : i = j
  · rw [if_pos hij, if_pos hij.symm]
  · rw [if_neg hij, if_neg fun h => hij h.symm]

/-- Count one more of `i`, in registers of `width` bits. -/
def count (width : Nat) (counts : List Nat) (i : Nat) : Checked (List Nat) := do
  let n ← read counts i
  let n ← fit width (n + 1)
  write counts i n

theorem count_tabulate {width n i : Nat} (f : Nat → Nat) (h : i < n) (hi : f i + 1 < 2 ^ width) :
    count width (tabulate n f) i = .ok (tabulate n (Function.update f i (f i + 1))) := by
  rw [count, read_tabulate f h, ok_bind, fit_of_lt hi, ok_bind, write_tabulate f h]

/-- **Counting with a table** of registers gives the number of occurrences. -/
theorem foldlM_count {width n : Nat} (is : List Nat) (f : Nat → Nat) (h : ∀ i ∈ is, i < n)
    (hwidth : ∀ i, f i + is.length < 2 ^ width) :
    is.foldlM (count width) (tabulate n f) = .ok (tabulate n fun j => f j + is.count j) := by
  induction is generalizing f with
  | nil => rfl
  | cons i is ih =>
    have hi := hwidth i
    rw [List.length_cons] at hi
    rw [List.foldlM_cons, count_tabulate f (h i List.mem_cons_self) (by omega), ok_bind,
      ih _ fun j hj => h j (List.mem_cons_of_mem _ hj)]
    · congr 2
      funext j
      rw [Function.update_apply, List.count_cons]
      by_cases hij : j = i
      · subst hij
        simp only [beq_self_eq_true, if_true]
        omega
      · rw [if_neg hij, if_neg (by simpa using fun h => hij h.symm), Nat.add_zero]
    · intro j
      have hj := hwidth j
      rw [List.length_cons] at hj
      rw [Function.update_apply]
      split <;> omega

end Checked

end LatticeSuite
