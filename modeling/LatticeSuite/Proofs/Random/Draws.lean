import LatticeSuite.Scheme.Backend

/-!
# What a computation draws

A computation behind `DrawProgram.drive` is free to ignore that a draw failed:
two of its four ways to draw do not even tell it. What protects the keys it
computes is that `drive` answers the first failure in place of any result, and
`DrawProgram.drive_follows_the_draws` is that law, for every computation and
every supply.

Since the computation decides on each draw by what the draws before it gave,
the law has to speak of the draws it met. `DrawProgram.draws` records them, and
`DrawProgram.Sees` says that a record is right: fed with the recorded answers,
the computation asks for the recorded sizes and ends with the given result.

Structure: the four ways to draw are one way to move a view. `DrawView.Leads`
says that a record moves one view to another, `DrawProgram.leads_draws` reads
it off a computation, and from there on the induction is over the record, with
one case for a draw instead of four.
-/

namespace LatticeSuite

/-- A draw, as the computation met it. -/
structure Draw where
  size : Nat
  /-- Whether the computation could learn that the bytes are random. -/
  random : Bool
  bytes : Bytes
  /-- The supply when the draw was over. -/
  supply : Supply

namespace Draw

/-- The draw gave exactly what a fill of `s` gives. -/
structure Serves (d : Draw) (s : Supply) : Prop where
  fill_failure : (s.fill d.size).failure = none
  random_eq : d.random = true
  bytes_eq : d.bytes = (s.fill d.size).written
  supply_eq : d.supply = (s.fill d.size).supply

/-- The draw gave zeros, was not random, and left the supply at `s`. -/
structure Refuses (d : Draw) (s : Supply) : Prop where
  random_eq : d.random = false
  bytes_eq : d.bytes = List.replicate d.size 0
  supply_eq : d.supply = s

end Draw

/-- Every draw of the record gave what a fill gives, of the supply that the
draw before it left. At the end the supply is `t`. -/
def Supply.ServesAll (s : Supply) : List Draw → Supply → Prop
  | [], t => t = s
  | d :: ds, t => d.Serves s ∧ d.supply.ServesAll ds t

namespace DrawView

/-- What a draw of `n` bytes looks like to a computation. -/
def record (v : DrawView) (n : Nat) : Draw where
  size := n
  random := (v.draw n).1.1
  bytes := (v.draw n).1.2
  supply := (v.draw n).2.supply

/-- The draws of a record, made one after the other, move `v` to `w`. -/
inductive Leads : DrawView → List Draw → DrawView → Prop
  | nil (v : DrawView) : Leads v [] v
  | cons {v w : DrawView} {n : Nat} {ds : List Draw} (h : Leads (v.draw n).2 ds w) :
      Leads v (v.record n :: ds) w

theorem draw_of_filled {v : DrawView} {n : Nat} (hv : v.failure = none)
    (hfill : (v.supply.fill n).failure = none) :
    v.draw n = ((true, (v.supply.fill n).written), ⟨(v.supply.fill n).supply, none⟩) := by
  simp only [draw, hv, hfill]

theorem draw_of_short {v : DrawView} {n : Nat} {e : EntropyError} (hv : v.failure = none)
    (hfill : (v.supply.fill n).failure = some e) :
    v.draw n = ((false, List.replicate n 0), ⟨(v.supply.fill n).supply, some e⟩) := by
  simp only [draw, hv, hfill]

theorem draw_of_failed {v : DrawView} {n : Nat} {e : EntropyError} (hv : v.failure = some e) :
    v.draw n = ((false, List.replicate n 0), v) := by
  simp only [draw, hv]

theorem serves_record {v : DrawView} {n : Nat} (hv : v.failure = none)
    (hfill : (v.supply.fill n).failure = none) : (v.record n).Serves v.supply where
  fill_failure := hfill
  random_eq := by simp only [record, draw_of_filled hv hfill]
  bytes_eq := by simp only [record, draw_of_filled hv hfill]
  supply_eq := by simp only [record, draw_of_filled hv hfill]

theorem refuses_record_of_short {v : DrawView} {n : Nat} {e : EntropyError}
    (hv : v.failure = none) (hfill : (v.supply.fill n).failure = some e) :
    (v.record n).Refuses (v.supply.fill n).supply where
  random_eq := by simp only [record, draw_of_short hv hfill]
  bytes_eq := by simp only [record, draw_of_short hv hfill]
  supply_eq := by simp only [record, draw_of_short hv hfill]

theorem refuses_record_of_failed {v : DrawView} {n : Nat} {e : EntropyError}
    (hv : v.failure = some e) : (v.record n).Refuses v.supply where
  random_eq := by simp only [record, draw_of_failed hv]
  bytes_eq := by simp only [record, draw_of_failed hv]
  supply_eq := by simp only [record, draw_of_failed hv]

/-- Once a draw has failed, nothing moves the view, and all that a computation
gets is zeros. -/
theorem Leads.after_failure {v w : DrawView} {ds : List Draw} {e : EntropyError}
    (h : v.Leads ds w) (hv : v.failure = some e) :
    w = v ∧ ∀ d ∈ ds, d.Refuses v.supply := by
  induction h with
  | nil v => exact ⟨rfl, by simp⟩
  | @cons v w n ds _ ih =>
    have hdraw : (v.draw n).2 = v := by rw [draw_of_failed hv]
    rw [hdraw] at ih
    obtain ⟨hw, hds⟩ := ih hv
    exact ⟨hw, List.forall_mem_cons.mpr ⟨refuses_record_of_failed hv, hds⟩⟩

/-- From a view without a failure, either every draw is served, or there is a
first one that is not, and it and all later ones are refused. -/
theorem Leads.before_failure {v w : DrawView} {ds : List Draw} (h : v.Leads ds w)
    (hv : v.failure = none) :
    (w.failure = none ∧ v.supply.ServesAll ds w.supply) ∨
      ∃ served d later t e, ds = served ++ d :: later ∧ v.supply.ServesAll served t ∧
        (t.fill d.size).failure = some e ∧ w = ⟨(t.fill d.size).supply, some e⟩ ∧
        ∀ x ∈ d :: later, x.Refuses (t.fill d.size).supply := by
  induction h with
  | nil v => exact .inl ⟨hv, rfl⟩
  | @cons v w n ds hrest ih =>
    cases hfill : (v.supply.fill n).failure with
    | none =>
      have hserved := serves_record hv hfill
      -- the rest of the record starts from the supply that this draw left
      have hdraw : (v.draw n).2 = ⟨(v.record n).supply, none⟩ := by
        rw [hserved.supply_eq, draw_of_filled hv hfill]
        rfl
      rw [hdraw] at ih
      obtain ⟨hw, hall⟩ | ⟨served, d, later, t, e, rfl, hall, hfailed, hw, hrefused⟩ := ih rfl
      · exact .inl ⟨hw, hserved, hall⟩
      · exact .inr ⟨v.record n :: served, d, later, t, e, rfl, ⟨hserved, hall⟩, hfailed, hw,
          hrefused⟩
    | some e =>
      rw [draw_of_short hv hfill] at hrest
      obtain ⟨hw, hlater⟩ := hrest.after_failure rfl
      exact .inr ⟨[], v.record n, ds, v.supply, e, rfl, rfl, hfill, hw,
        List.forall_mem_cons.mpr ⟨refuses_record_of_short hv hfill, hlater⟩⟩

end DrawView

namespace DrawProgram

variable {α : Type}

/-- The draws that a computation makes on a view, in order. -/
def draws : DrawProgram α → DrawView → List Draw
  | .done _, _ => []
  | .nextU32 k, v => v.record 4 :: (k v.nextU32.1).draws v.nextU32.2
  | .nextU64 k, v => v.record 8 :: (k v.nextU64.1).draws v.nextU64.2
  | .fillBytes n k, v => v.record n :: (k (v.draw n).1.2).draws (v.draw n).2
  | .tryFillBytes n k, v => v.record n :: (k (v.draw n).1.1 (v.draw n).1.2).draws (v.draw n).2

/-- A computation that gets these answers makes these draws, one after the
other and no other, and ends with the result. -/
inductive Sees : DrawProgram α → List Draw → α → Prop
  | done (result : α) : Sees (.done result) [] result
  | nextU32 {next : UInt32 → DrawProgram α} {d : Draw} {ds : List Draw} {result : α}
      (hsize : d.size = 4) (h : Sees (next (Bytes.toWord32LE d.bytes)) ds result) :
      Sees (.nextU32 next) (d :: ds) result
  | nextU64 {next : UInt64 → DrawProgram α} {d : Draw} {ds : List Draw} {result : α}
      (hsize : d.size = 8) (h : Sees (next (Bytes.toWord64LE d.bytes)) ds result) :
      Sees (.nextU64 next) (d :: ds) result
  | fillBytes {n : Nat} {next : Bytes → DrawProgram α} {d : Draw} {ds : List Draw} {result : α}
      (hsize : d.size = n) (h : Sees (next d.bytes) ds result) :
      Sees (.fillBytes n next) (d :: ds) result
  | tryFillBytes {n : Nat} {next : Bool → Bytes → DrawProgram α} {d : Draw} {ds : List Draw}
      {result : α} (hsize : d.size = n) (h : Sees (next d.random d.bytes) ds result) :
      Sees (.tryFillBytes n next) (d :: ds) result

theorem sees_draws (p : DrawProgram α) (v : DrawView) : p.Sees (p.draws v) (p.run v).1 := by
  induction p generalizing v with
  | done result => exact .done result
  | nextU32 next ih => exact .nextU32 rfl (ih _ _)
  | nextU64 next ih => exact .nextU64 rfl (ih _ _)
  | fillBytes n next ih => exact .fillBytes rfl (ih _ _)
  | tryFillBytes n next ih => exact .tryFillBytes rfl (ih _ _ _)

theorem leads_draws (p : DrawProgram α) (v : DrawView) : v.Leads (p.draws v) (p.run v).2 := by
  induction p generalizing v with
  | done result => exact .nil v
  | nextU32 next ih => exact .cons (ih _ _)
  | nextU64 next ih => exact .cons (ih _ _)
  | fillBytes n next ih => exact .cons (ih _ _)
  | tryFillBytes n next ih => exact .cons (ih _ _ _)

theorem drive_of_no_failure {p : DrawProgram (Option α)} {s : Supply}
    (h : (p.run (.new s)).2.failure = none) :
    p.drive s = ((p.run (.new s)).1.elim (.error .failed) .ok, (p.run (.new s)).2.supply) := by
  cases hresult : (p.run (.new s)).1 <;> simp [drive, DrawView.finish, h, hresult]

theorem drive_of_failure {p : DrawProgram (Option α)} {s : Supply} {e : EntropyError}
    (h : (p.run (.new s)).2.failure = some e) :
    p.drive s = (.error (.rng e), (p.run (.new s)).2.supply) := by
  simp [drive, DrawView.finish, h]

/-- A computation is only answered with its own result. -/
theorem run_of_drive_ok {p : DrawProgram (Option α)} {s left : Supply} {a : α}
    (h : p.drive s = (.ok a, left)) : (p.run (.new s)).1 = some a := by
  cases hfailure : (p.run (.new s)).2.failure with
  | some e =>
    rw [drive_of_failure hfailure] at h
    exact absurd (Prod.mk.inj h).1 (by simp)
  | none =>
    rw [drive_of_no_failure hfailure] at h
    cases hresult : (p.run (.new s)).1 with
    | none =>
      rw [hresult] at h
      exact absurd (Prod.mk.inj h).1 (by simp)
    | some b =>
      rw [hresult] at h
      exact congrArg some (Except.ok.inj (Prod.mk.inj h).1)

/-- Either every draw of a computation is served by a fill of its own, and its
result is the answer; or there is a first draw whose fill fails, it and all
later ones give zeros and leave the supply as that fill left it, and the answer
is that failure, even if the computation ended with a result. -/
theorem drive_follows_the_draws (p : DrawProgram (Option α)) (s : Supply) :
    ∃ result, p.Sees (p.draws (.new s)) result ∧
      ((∃ t, s.ServesAll (p.draws (.new s)) t ∧
          p.drive s = (result.elim (.error .failed) .ok, t)) ∨
        ∃ served d later t e, p.draws (.new s) = served ++ d :: later ∧ s.ServesAll served t ∧
          (t.fill d.size).failure = some e ∧
          (∀ x ∈ d :: later, x.Refuses (t.fill d.size).supply) ∧
          p.drive s = (.error (.rng e), (t.fill d.size).supply)) := by
  refine ⟨(p.run (.new s)).1, p.sees_draws (.new s), ?_⟩
  obtain ⟨hnone, hall⟩ | ⟨served, d, later, t, e, hds, hall, hfailed, hview, hrefused⟩ :=
    (p.leads_draws (.new s)).before_failure rfl
  · exact .inl ⟨_, hall, drive_of_no_failure hnone⟩
  · refine .inr ⟨served, d, later, t, e, hds, hall, hfailed, hrefused, ?_⟩
    rw [drive_of_failure (by rw [hview]), hview]

end DrawProgram

end LatticeSuite
