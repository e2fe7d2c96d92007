import LatticeSuite.Lattice.Packing
import LatticeSuite.Lattice.Transform

/-!
# Polynomials keep all their coefficients

A polynomial is a list, and nothing in its type says that the list has 256
entries. Sums and products end with the shorter operand, so one entry lost
anywhere would make everything behind it shorter, and a key with it.

> Whole polynomials stay whole: under sums, differences and multiples, under the
> transform and its inverse, and in the product of a matrix with a vector.

`Poly.IsWhole` says that a polynomial has its coefficients, `IsVector` that a list
of polynomials has so many of them and all are whole. What is written of a vector
then has a length that is known without looking at a coefficient
(`IsVector.length_flatMap`).
-/

namespace LatticeSuite.Lattice

attribute [local instance (high)] Zero.ofOfNat0

variable {q : Nat}

/-! ## Polynomials -/

namespace Poly

/-- A polynomial with all its coefficients. -/
def IsWhole (f : Poly q) : Prop := f.length = degree

variable {f g : Poly q}

theorem IsWhole.zipWith (op : Fin q → Fin q → Fin q) (hf : f.IsWhole) (hg : g.IsWhole) :
    IsWhole (List.zipWith op f g) := by
  unfold IsWhole
  rw [List.length_zipWith, hf, hg, Nat.min_self]

theorem IsWhole.add (hf : f.IsWhole) (hg : g.IsWhole) : (Poly.add f g).IsWhole :=
  hf.zipWith _ hg

theorem IsWhole.sub (hf : f.IsWhole) (hg : g.IsWhole) : (Poly.sub f g).IsWhole :=
  hf.zipWith _ hg

theorem IsWhole.scale (hf : f.IsWhole) (c : Fin q) : (Poly.scale c f).IsWhole := by
  unfold IsWhole Poly.scale
  rw [List.length_map, hf]

theorem isWhole_zero [NeZero q] : (zero : Poly q).IsWhole :=
  List.length_replicate

theorem isWhole_ofList [NeZero q] (cs : List (Fin q)) : (ofList cs).IsWhole :=
  length_ofList cs

theorem isWhole_sum [NeZero q] {fs : List (Poly q)} (h : ∀ f ∈ fs, f.IsWhole) :
    (sum fs).IsWhole := by
  -- the sum so far is whole before every summand
  suffices hfold : ∀ acc : Poly q, acc.IsWhole → IsWhole (fs.foldl Poly.add acc) from
    hfold zero isWhole_zero
  induction fs with
  | nil =>
    intro acc hacc
    exact hacc
  | cons f fs ih =>
    intro acc hacc
    obtain ⟨hf, hfs⟩ := List.forall_mem_cons.mp h
    rw [List.foldl_cons]
    exact ih hfs _ (hacc.add hf)

end Poly

/-! ## The transform -/

section Transform

variable [NeZero q]

theorem length_forward (roots : Array (Fin q)) (depth i : Nat) {f : Poly q} {n : Nat}
    (h : f.length = 2 ^ depth * n) : (forward roots depth i f).length = 2 ^ depth * n := by
  induction depth generalizing i f with
  | zero => exact h
  | succ d ih =>
    rw [Nat.pow_succ', Nat.mul_assoc] at h ⊢
    have hlow : (f.take (f.length / 2)).length = 2 ^ d * n := by
      rw [List.length_take, h]
      omega
    have hhigh : (Poly.scale (roots.getD i 0) (f.drop (f.length / 2))).length = 2 ^ d * n := by
      rw [Poly.scale, List.length_map, List.length_drop, h]
      omega
    rw [forward, List.length_append, ih, ih]
    · omega
    · rw [Poly.sub, List.length_zipWith, hlow, hhigh, Nat.min_self]
    · rw [Poly.add, List.length_zipWith, hlow, hhigh, Nat.min_self]

theorem length_inverse (roots : Array (Fin q)) (depth i : Nat) {f : Poly q} {n : Nat}
    (h : f.length = 2 ^ depth * n) : (inverse roots depth i f).length = 2 ^ depth * n := by
  induction depth generalizing i f with
  | zero => exact h
  | succ d ih =>
    rw [Nat.pow_succ', Nat.mul_assoc] at h ⊢
    have hplus := ih (2 * i) (f := f.take (f.length / 2)) (by
      rw [List.length_take, h]
      omega)
    have hminus := ih (2 * i + 1) (f := f.drop (f.length / 2)) (by
      rw [List.length_drop, h]
      omega)
    rw [inverse, List.length_append, Poly.add, Poly.scale, Poly.sub, List.length_map,
      List.length_zipWith, List.length_zipWith, hplus, hminus]
    omega

end Transform

/-! ## Vectors -/

/-- `n` whole polynomials. -/
structure IsVector (n : Nat) (v : List (Poly q)) : Prop where
  length : v.length = n
  whole : ∀ f ∈ v, f.IsWhole

namespace IsVector

variable {n : Nat} {u v : List (Poly q)}

theorem of_map {α : Type} {l : List α} {f : α → Poly q} (h : ∀ a, (f a).IsWhole) :
    IsVector l.length (l.map f) := by
  refine ⟨List.length_map _, ?_⟩
  intro g hg
  obtain ⟨a, -, rfl⟩ := List.mem_map.mp hg
  exact h a

theorem map {op : Poly q → Poly q} (hv : IsVector n v)
    (hop : ∀ f, f.IsWhole → (op f).IsWhole) : IsVector n (v.map op) := by
  refine ⟨(List.length_map _).trans hv.length, ?_⟩
  intro g hg
  obtain ⟨f, hf, rfl⟩ := List.mem_map.mp hg
  exact hop f (hv.whole f hf)

theorem exists_of_mem_zipWith {op : Poly q → Poly q → Poly q} {f : Poly q}
    (h : f ∈ List.zipWith op u v) : ∃ a ∈ u, ∃ b ∈ v, op a b = f := by
  rw [← List.map_uncurry_zip_eq_zipWith] at h
  obtain ⟨⟨a, b⟩, hab, rfl⟩ := List.mem_map.mp h
  obtain ⟨ha, hb⟩ := List.of_mem_zip hab
  exact ⟨a, ha, b, hb, rfl⟩

theorem whole_of_mem_zipWith {op : Poly q → Poly q → Poly q}
    (hop : ∀ f g, f.IsWhole → g.IsWhole → (op f g).IsWhole) (hu : ∀ f ∈ u, f.IsWhole)
    (hv : ∀ g ∈ v, g.IsWhole) : ∀ f ∈ List.zipWith op u v, f.IsWhole := by
  intro f hf
  obtain ⟨a, ha, b, hb, rfl⟩ := exists_of_mem_zipWith hf
  exact hop a b (hu a ha) (hv b hb)

theorem zipWith {op : Poly q → Poly q → Poly q} (hu : IsVector n u) (hv : IsVector n v)
    (hop : ∀ f g, f.IsWhole → g.IsWhole → (op f g).IsWhole) :
    IsVector n (List.zipWith op u v) := by
  refine ⟨?_, whole_of_mem_zipWith hop hu.whole hv.whole⟩
  rw [List.length_zipWith, hu.length, hv.length, Nat.min_self]

/-- A matrix of whole polynomials takes whole vectors to whole vectors. -/
theorem mulVec [NeZero q] {mul : Poly q → Poly q → Poly q} {matrix : List (List (Poly q))}
    (hmul : ∀ f g, f.IsWhole → g.IsWhole → (mul f g).IsWhole)
    (hmatrix : ∀ row ∈ matrix, ∀ f ∈ row, f.IsWhole) (hv : ∀ g ∈ v, g.IsWhole) :
    IsVector matrix.length (Lattice.mulVec mul matrix v) := by
  refine ⟨List.length_map _, ?_⟩
  intro f hf
  obtain ⟨row, hrow, rfl⟩ := List.mem_map.mp hf
  exact Poly.isWhole_sum (whole_of_mem_zipWith hmul (hmatrix row hrow) hv)

/-- The written form of a vector is as long as its polynomials need. -/
theorem length_flatMap {encode : Poly q → Bytes} {width : Nat} (hv : IsVector n v)
    (hencode : ∀ f, f.IsWhole → (encode f).length = width) :
    (v.flatMap encode).length = width * n := by
  rw [← hv.length, List.length_flatMap, List.map_congr_left fun f hf => hencode f (hv.whole f hf),
    List.map_const', List.sum_replicate_nat, Nat.mul_comm]

end IsVector

end LatticeSuite.Lattice
