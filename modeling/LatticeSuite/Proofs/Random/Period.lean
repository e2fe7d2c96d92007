import LatticeSuite.Proofs.Random.Chronicle
import LatticeSuite.Proofs.Random.Draws
import Mathlib.Algebra.Ring.Nat

/-!
# The law of the seed period

A generator is seeded again before it has given more than its period allows.
The counter that sees to this is compared once for each round of a loop, and
there is an off-by-one on either side: a byte beyond the period, or a seeding
that nobody needed. So the law is about whole lives of a generator, in which it
is asked for bytes by whoever likes, in pieces of any size, is seeded in between
on demand, and cannot be seeded whenever the entropy fails.

`Supply.Reaches` is such a life, with its chronicle. What holds at every moment
is in `Keeps`, one deed at a time:

> The counter is the number of bytes given since the last seeding, and it never
> exceeds the period.

What a request adds is that it seeds only when the period is used up. `Thrifty`
says it so that it composes: with `p` bytes for every seeding, what was counted
before and what was given make up what is counted after, and behind a seeding
there is always a byte. From this the number of seedings is a division
(`Thrifty.seedings`), however the bytes were demanded.
-/

namespace LatticeSuite

/-- What a generator is asked for. -/
inductive Demand where
  | fill (n : Nat)
  | nextBytes (n : Nat)
  | reseed
  /-- Draws on one view, of these sizes. -/
  | draws (sizes : List Nat)
  deriving DecidableEq

/-- How many bytes are asked for. -/
def Demand.size : Demand → Nat
  | .fill n => n
  | .nextBytes n => n
  | .reseed => 0
  | .draws sizes => sizes.sum

namespace DrawView

/-- What a draw makes the generator do. Behind a failure it is left alone. -/
def work (v : DrawView) (n : Nat) : List Deed :=
  match v.failure with
  | some _ => []
  | none => v.supply.work n

def workAll (v : DrawView) : List Nat → List Deed
  | [] => []
  | n :: sizes => v.work n ++ (v.draw n).2.workAll sizes

/-- The view after draws of these sizes. -/
def drawAll (v : DrawView) : List Nat → DrawView
  | [] => v
  | n :: sizes => (v.draw n).2.drawAll sizes

end DrawView

namespace Supply

/-- What a demand makes the generator do. -/
def deeds (s : Supply) : Demand → List Deed
  | .fill n => s.work n
  | .nextBytes n => s.work n
  | .reseed =>
    match s.reseed.1 with
    | .ok () => [.seeded]
    | .error e => [.missed e]
  | .draws sizes => (DrawView.new s).workAll sizes

/-- What a demand leaves. -/
def after (s : Supply) : Demand → Supply
  | .fill n => (s.fill n).supply
  | .nextBytes n => (s.nextBytes n).2
  | .reseed => s.reseed.2
  | .draws sizes => ((DrawView.new s).drawAll sizes).supply

/-- `s` has been constructed for a request. -/
def IsNew (request : CsprngRequest) (s : Supply) : Prop :=
  ∃ before after, construct request before = (.ok s.csprng, after)

/-- `s` became `t` by these demands, and this is the chronicle. The entropy is
chosen anew for every demand. -/
inductive Reaches (s : Supply) : List Demand → List Deed → Supply → Prop
  | start : Reaches s [] [] s
  | demand {demands : List Demand} {ds : List Deed} {t : Supply} (h : Reaches s demands ds t)
      (demand : Demand) (entropy : Entropy) :
      Reaches s (demands ++ [demand]) (ds ++ { t with entropy }.deeds demand)
        ({ t with entropy }.after demand)

/-! ## What holds at every moment -/

/-- The counters of a supply are right about the chronicle since its construction. -/
structure Keeps (p : Nat) (ds : List Deed) (t : Supply) : Prop where
  engine : t.csprng.engine ≠ .system
  period : t.csprng.seedPeriod = p
  since : t.csprng.sinceReseed = (given (sinceSeeding ds)).length
  bounded : t.csprng.sinceReseed ≤ p
  reseeds : t.csprng.reseeds = ds.count .seeded

theorem Keeps.did {p : Nat} {ds : List Deed} {d : Deed} {t u : Supply} (h : Keeps p ds t)
    (hd : t.Did d u) : Keeps p (ds ++ [d]) u := by
  have hcounts := hd.counts h.engine
  have hroom := hcounts.room
  have hbounded := h.bounded
  rw [Csprng.room, h.period] at hroom
  refine ⟨hcounts.engine, hcounts.period.trans h.period, ?_, ?_, ?_⟩
  · rw [hcounts.since]
    split
    next hseeded =>
      subst hseeded
      rw [sinceSeeding_seeded]
      rfl
    next hother =>
      rw [sinceSeeding_concat hother, given_append, List.length_append, ← h.since]
      simp [given]
  · rw [hcounts.since]
    split
    next => exact Nat.zero_le p
    next => omega
  · rw [hcounts.reseeds, h.reseeds, List.count_append, List.count_singleton]
    simp only [beq_iff_eq]

theorem Does.keeps {p : Nat} {s t : Supply} {xs ds : List Deed} (h : s.Does ds t)
    (hs : Keeps p xs s) : Keeps p (xs ++ ds) t := by
  induction h with
  | start =>
    rw [List.append_nil]
    exact hs
  | elsewhere _ _ ih => exact ⟨ih.engine, ih.period, ih.since, ih.bounded, ih.reseeds⟩
  | deed _ hd ih =>
    rw [← List.append_assoc]
    exact ih.did hd

/-! ## What a request adds -/

/-- Seedings were only made when the period was used up, and something was given
behind each of them. -/
structure Thrifty (p : Nat) (s : Supply) (ds : List Deed) (t : Supply) : Prop where
  total : p * ds.count .seeded + t.csprng.sinceReseed = s.csprng.sinceReseed + (given ds).length
  started : ds.count .seeded = 0 ∨ 0 < t.csprng.sinceReseed

theorem Thrifty.refl (p : Nat) (s : Supply) : Thrifty p s [] s :=
  ⟨Nat.add_comm _ _, .inl rfl⟩

theorem Thrifty.trans {p : Nat} {s t u : Supply} {xs ys : List Deed} (h : Thrifty p s xs t)
    (h' : Thrifty p t ys u) : Thrifty p s (xs ++ ys) u := by
  have htotal := h.total
  have htotal' := h'.total
  refine ⟨?_, ?_⟩
  · rw [List.count_append, Nat.mul_add, given_append, List.length_append]
    omega
  · rw [List.count_append]
    rcases h'.started with hnone | hsome
    · -- without another seeding the counter did not go back
      rw [hnone, Nat.mul_zero, Nat.zero_add] at htotal'
      rcases h.started with hnone' | hsome'
      · exact .inl (by rw [hnone, hnone'])
      · exact .inr (by omega)
    · exact .inr hsome

theorem Thrifty.elsewhere {p : Nat} {s t : Supply} {ds : List Deed} (h : Thrifty p s ds t)
    (entropy : Entropy) : Thrifty p s ds { t with entropy } :=
  ⟨h.total, h.started⟩

/-- A counter that runs up to `p` and starts again has started again this often. -/
theorem Thrifty.seedings {p : Nat} {s t : Supply} {ds : List Deed} (h : Thrifty p s ds t)
    (hp : 0 < p) (ht : t.csprng.sinceReseed ≤ p) :
    ds.count .seeded = (s.csprng.sinceReseed + (given ds).length - 1) / p := by
  rw [← h.total]
  rcases h.started with hnone | hsome
  · -- nothing was seeded, so the counter is still in its first round
    rw [hnone, Nat.mul_zero, Nat.zero_add]
    exact (Nat.div_eq_of_lt (by omega)).symm
  · have hlast : p * ds.count .seeded + t.csprng.sinceReseed - 1 =
        p * ds.count .seeded + (t.csprng.sinceReseed - 1) := by omega
    rw [hlast, Nat.mul_add_div hp, Nat.div_eq_of_lt (by omega), Nat.add_zero]

theorem Did.thrifty {p : Nat} {s t : Supply} {d : Deed} (h : s.Did d t)
    (hs : s.csprng.engine ≠ .system) (hd : d ≠ .seeded) : Thrifty p s [d] t := by
  have hcount : [d].count .seeded = 0 := List.count_eq_zero.mpr (by simpa using hd.symm)
  refine ⟨?_, .inl hcount⟩
  rw [hcount, (h.counts hs).since, if_neg hd, Nat.mul_zero, Nat.zero_add]
  simp [given]

/-- A seeding that was due, and the bytes behind it. -/
theorem thrifty_renewed {p : Nat} {xs : List Deed} {s t u : Supply} (hs : Keeps p xs s)
    (hfull : s.csprng.room = 0) (hseeded : s.Did .seeded t) {out : Bytes}
    (hgave : t.Did (.gave out) u) : Thrifty p s [.seeded, .gave out] u := by
  have ht := hseeded.counts hs.engine
  have hsince : s.csprng.sinceReseed = p := by
    have hbounded := hs.bounded
    rw [Csprng.room, hs.period] at hfull
    omega
  have hcounter : u.csprng.sinceReseed = out.length := by
    rw [(hgave.counts ht.engine).since, if_neg (by simp), ht.since, if_pos rfl, Nat.zero_add]
    rfl
  have hgiven : given [.seeded, .gave out] = out := List.append_nil out
  refine ⟨?_, .inr ?_⟩
  · rw [hsince, hcounter, hgiven]
    simp
  · rw [hcounter]
    exact hgave.length_pos ht.engine

theorem Fills.thrifty {p : Nat} {s t : Supply} {n : Nat} {ds : List Deed}
    {f : Option EntropyError} (h : s.Fills n ds f t) {xs : List Deed} (hs : Keeps p xs s) :
    Thrifty p s ds t := by
  induction h generalizing xs with
  | done s => exact .refl p s
  | short _ _ hd => exact hd.thrifty hs.engine (by simp)
  | give hd _ _ ih => exact (hd.thrifty hs.engine (by simp)).trans (ih (hs.did hd))
  | renew hfull hseeded hd _ _ ih =>
    exact (thrifty_renewed hs hfull hseeded hd).trans (ih ((hs.did hseeded).did hd))

/-! ## Demands are requests -/

/-- One request after the other. -/
inductive Serves : Supply → List Deed → Supply → Prop
  | none (s : Supply) : Serves s [] s
  | next {s t u : Supply} {n : Nat} {ds ds' : List Deed} {f : Option EntropyError}
      (h : s.Fills n ds f t) (rest : Serves t ds' u) : Serves s (ds ++ ds') u

theorem serves_work {s : Supply} (hs : s.csprng.engine ≠ .system) (n : Nat) :
    s.Serves (s.work n) (s.fill n).supply := by
  have hfirst := (fills_fill hs n).1
  rw [← List.append_nil (s.work n)]
  exact .next hfirst (.none _)

theorem Serves.does {s t : Supply} {ds : List Deed} (h : s.Serves ds t) : s.Does ds t := by
  induction h with
  | none s => exact .start
  | next h _ ih => exact h.does.trans ih

theorem Serves.thrifty {p : Nat} {s t : Supply} {ds : List Deed} (h : s.Serves ds t)
    {xs : List Deed} (hs : Keeps p xs s) : Thrifty p s ds t := by
  induction h generalizing xs with
  | none s => exact .refl p s
  | next h _ ih => exact (h.thrifty hs).trans (ih (h.does.keeps hs))

theorem Serves.neverFails {s t : Supply} {ds : List Deed} (h : s.Serves ds t)
    (hs : s.csprng.engine ≠ .system) (hsource : s.entropy.NeverFails s.csprng.source) :
    ∀ e, .missed e ∉ ds := by
  induction h with
  | none s => exact fun e => List.not_mem_nil
  | next h _ ih =>
    obtain ⟨hfirst, hsource'⟩ := h.neverFails hs hsource
    intro e he
    rcases List.mem_append.mp he with hmem | hmem
    · exact hfirst e hmem
    · exact ih (h.does.engine hs) hsource' e hmem

end Supply

namespace DrawView

theorem supply_draw {v : DrawView} (hv : v.failure = none) (n : Nat) :
    (v.draw n).2.supply = (v.supply.fill n).supply := by
  cases hfill : (v.supply.fill n).failure with
  | none => rw [draw_of_filled hv hfill]
  | some e => rw [draw_of_short hv hfill]

theorem serves_workAll {v : DrawView} (hs : v.supply.csprng.engine ≠ .system)
    (sizes : List Nat) : v.supply.Serves (v.workAll sizes) (v.drawAll sizes).supply := by
  induction sizes generalizing v with
  | nil => exact .none _
  | cons n sizes ih =>
    rw [workAll, drawAll, work]
    cases hv : v.failure with
    | some e =>
      rw [draw_of_failed hv]
      exact ih hs
    | none =>
      have hfills := (Supply.fills_fill hs n).1
      rw [← supply_draw hv n] at hfills
      exact .next hfills (ih (hfills.does.engine hs))

theorem length_given_workAll {v : DrawView} (hs : v.supply.csprng.engine ≠ .system)
    (hv : v.failure = none) {sizes : List Nat} (h : ∀ e, .missed e ∉ v.workAll sizes) :
    (given (v.workAll sizes)).length = sizes.sum := by
  induction sizes generalizing v with
  | nil => rfl
  | cons n sizes ih =>
    rw [workAll, work, hv] at h ⊢
    obtain ⟨hnone, hgiven⟩ := Supply.fill_of_not_missed hs
      fun e he => h e (List.mem_append_left _ he)
    have hdraw := draw_of_filled hv hnone
    have hengine := (Supply.fills_fill hs n).1.does.engine hs
    have hrest := ih (by rw [hdraw]; exact hengine) (by rw [hdraw])
      fun e he => h e (List.mem_append_right _ he)
    rw [given_append, List.length_append, hgiven, hrest, List.sum_cons]

end DrawView

namespace Supply

theorem serves_deeds {s : Supply} (hs : s.csprng.engine ≠ .system) {demand : Demand}
    (hdemand : demand ≠ .reseed) : s.Serves (s.deeds demand) (s.after demand) := by
  cases demand with
  | fill n => exact serves_work hs n
  | nextBytes n =>
    have hafter : s.after (.nextBytes n) = (s.fill n).supply := by
      show (s.nextBytes n).2 = _
      unfold nextBytes
      dsimp only
      split <;> rfl
    rw [hafter]
    exact serves_work hs n
  | reseed => exact absurd rfl hdemand
  | draws sizes => exact DrawView.serves_workAll (v := .new s) hs sizes

theorem does_deeds {s : Supply} (hs : s.csprng.engine ≠ .system) (demand : Demand) :
    s.Does (s.deeds demand) (s.after demand) := by
  by_cases hdemand : demand = .reseed
  · subst hdemand
    rcases hseed : s.reseed with ⟨e | ⟨⟩, t⟩
    · simp only [deeds, after, hseed]
      exact (Did.missed hseed).does
    · simp only [deeds, after, hseed]
      exact (Did.seeded hseed).does
  · exact (serves_deeds hs hdemand).does

/-- Without a failure every byte demanded is given. -/
theorem length_given_deeds {s : Supply} (hs : s.csprng.engine ≠ .system) {demand : Demand}
    (h : ∀ e, .missed e ∉ s.deeds demand) : (given (s.deeds demand)).length = demand.size := by
  cases demand with
  | fill n => exact (fill_of_not_missed hs h).2
  | nextBytes n => exact (fill_of_not_missed hs h).2
  | reseed =>
    rcases hseed : s.reseed with ⟨e | ⟨⟩, t⟩
    · simp [deeds, hseed, given, Deed.bytes, Demand.size]
    · simp [deeds, hseed, given, Deed.bytes, Demand.size]
  | draws sizes => exact DrawView.length_given_workAll hs rfl h

/-! ## Whole lives -/

namespace Reaches

variable {s t : Supply} {demands : List Demand} {ds : List Deed}

theorem does (h : s.Reaches demands ds t) (hs : s.csprng.engine ≠ .system) : s.Does ds t := by
  induction h with
  | start => exact .start
  | demand _ demand entropy ih =>
    have hmiddle := ih.elsewhere entropy
    exact hmiddle.trans (does_deeds (hmiddle.engine hs) demand)

theorem thrifty {p : Nat} (h : s.Reaches demands ds t) (hs : Keeps p [] s)
    (hdemands : .reseed ∉ demands) : Thrifty p s ds t := by
  induction h with
  | start => exact .refl p s
  | demand h demand entropy ih =>
    rw [List.mem_append, List.mem_singleton, not_or] at hdemands
    have hmiddle := (h.does hs.engine).elsewhere entropy
    have hlast := serves_deeds (hmiddle.engine hs.engine) (Ne.symm hdemands.2)
    exact ((ih hdemands.1).elsewhere entropy).trans (hlast.thrifty (hmiddle.keeps hs))

theorem length_given (h : s.Reaches demands ds t) (hs : s.csprng.engine ≠ .system)
    (hmissed : ∀ e, .missed e ∉ ds) : (given ds).length = (demands.map Demand.size).sum := by
  induction h with
  | start => rfl
  | demand h demand entropy ih =>
    have hfirst := ih fun e he => hmissed e (List.mem_append_left _ he)
    have hlast := length_given_deeds (((h.does hs).elsewhere entropy).engine hs)
      fun e he => hmissed e (List.mem_append_right _ he)
    rw [given_append, List.length_append, hfirst, hlast, List.map_append, List.sum_append]
    simp

end Reaches

theorem missed_not_mem_deeds {s : Supply} (hs : s.csprng.engine ≠ .system)
    (hsource : s.entropy.NeverFails s.csprng.source) (demand : Demand) :
    ∀ e, .missed e ∉ s.deeds demand := by
  by_cases hdemand : demand = .reseed
  · subst hdemand
    rcases hseed : s.reseed with ⟨e | ⟨⟩, t⟩
    · exact absurd rfl (((Did.missed hseed).neverFails hs hsource).1 e)
    · simp [deeds, hseed]
  · exact (serves_deeds hs hdemand).neverFails hs hsource

/-- With sources that always answer, any demands are met. -/
theorem exists_reaches {s : Supply} (hs : s.csprng.engine ≠ .system) {entropy : Entropy}
    (hsource : ∀ source, entropy.NeverFails source) (demands : List Demand) :
    ∃ ds t, s.Reaches demands ds t ∧ ∀ e, .missed e ∉ ds := by
  induction demands using List.reverseRecOn with
  | nil => exact ⟨[], s, .start, fun e => List.not_mem_nil⟩
  | append_singleton demands demand ih =>
    obtain ⟨ds, t, hreach, hmissed⟩ := ih
    have hengine := (hreach.does hs).engine hs
    have hlast := missed_not_mem_deeds (s := { t with entropy }) hengine (hsource _) demand
    refine ⟨_, _, hreach.demand demand entropy, ?_⟩
    intro e he
    rcases List.mem_append.mp he with hmem | hmem
    · exact hmissed e hmem
    · exact hlast e hmem

/-- What the period promises of a generator that has met some demands. -/
structure PeriodLaw (p : Nat) (s : Supply) (demands : List Demand) (ds : List Deed) (t : Supply) :
    Prop where
  /-- The chronicle is what the generator did. -/
  did : s.Does ds t
  /-- The counter is the number of bytes given since the last seeding. -/
  since : t.csprng.sinceReseed = (given (sinceSeeding ds)).length
  /-- At no moment were these more than the period. -/
  bounded : ∀ earlier, earlier <+: ds → (given (sinceSeeding earlier)).length ≤ p
  reseeds : t.csprng.reseeds = ds.count .seeded
  /-- No seeding was made that was neither demanded nor needed. -/
  counted : .reseed ∉ demands → t.csprng.reseeds = ((given ds).length - 1) / p
  /-- Unless a seeding failed, all that was demanded was given. -/
  complete : (∀ e, .missed e ∉ ds) → (given ds).length = (demands.map Demand.size).sum
  /-- A seeding leaves the generator that the gathered bytes make of the one before. -/
  renewed : ∀ u, t.Did .seeded u → ∃ g seed, t.csprng.engine = .seeded g ∧
    (t.entropy.gather t.csprng.source seedBuffer).1 = .ok seed ∧
    u.csprng.engine = .seeded (g.reseed seed)

/-- What it promises of a request for `n` bytes. -/
structure RequestLaw (p : Nat) (t : Supply) (n : Nat) : Prop where
  did : t.Does (t.work n) (t.fill n).supply
  written : (t.fill n).written = given (t.work n)
  /-- Whatever round the loop is in, it gives a byte or ends. -/
  progress : (t.work n).length ≤ 2 * n ∧ .gave [] ∉ t.work n
  /-- Unless a seeding fails, there are just so many. -/
  filled : 0 < n → (∀ e, .missed e ∉ t.work n) →
    let seedings := (t.csprng.sinceReseed + n - 1) / p
    (t.fill n).failure = none ∧ (t.fill n).written.length = n ∧
      (t.fill n).supply.csprng.reseeds = t.csprng.reseeds + seedings ∧
      (t.fill n).supply.csprng.sinceReseed = t.csprng.sinceReseed + n - p * seedings
  /-- Only a seeding fails, and without one nothing is given any more. -/
  short : ∀ e, (t.fill n).failure = some e →
    .missed e ∈ t.work n ∧
      ∀ demands ds u, (t.fill n).supply.Reaches demands ds u → .seeded ∉ ds → given ds = []

theorem Keeps.requestLaw {p : Nat} {ds : List Deed} {t : Supply} (h : Keeps p ds t)
    (n : Nat) : RequestLaw p t n := by
  obtain ⟨hfills, hwritten⟩ := fills_fill h.engine n
  have hkeeps := hfills.does.keeps h
  have hp : 0 < p := h.period ▸ t.csprng.seedPeriod_pos
  refine ⟨hfills.does, hwritten, ⟨hfills.length_le h.engine,
    hfills.does.gave_nil_not_mem h.engine⟩, ?_, ?_⟩
  · intro hn hmissed seedings
    obtain ⟨hnone, hgiven⟩ := fill_of_not_missed h.engine hmissed
    have hthrifty := hfills.thrifty h
    have hcount : (t.work n).count .seeded = seedings := by
      rw [hthrifty.seedings hp hkeeps.bounded, hgiven]
    have htotal := hthrifty.total
    rw [hcount, hgiven] at htotal
    refine ⟨hnone, by rw [hwritten, hgiven], ?_, by omega⟩
    rw [hkeeps.reseeds, h.reseeds, List.count_append, hcount]
  · intro e hfailure
    rcases hfills.ends with ⟨hnone, -⟩ | ⟨e', hsome, hmem, hroom⟩
    · rw [hnone] at hfailure
      exact absurd hfailure (by simp)
    · rw [hsome] at hfailure
      obtain rfl := Option.some.inj hfailure
      refine ⟨hmem, ?_⟩
      intro demands ds' u hreach hseeded
      exact ((hreach.does hkeeps.engine).dry hroom hseeded).1

theorem IsNew.keeps {request : CsprngRequest} {s : Supply} (h : s.IsNew request)
    (halgorithm : request.algorithm ≠ .system) :
    Keeps (if request.seedPeriod = 0 then Csprng.unlimitedPeriod else request.seedPeriod) [] s := by
  obtain ⟨before, after, h⟩ := h
  obtain ⟨csprng, entropy⟩ := s
  unfold construct at h
  rcases hgather : before.gather request.source seedBuffer with ⟨e | seed, left⟩
  · rw [hgather] at h
    exact absurd (Prod.mk.inj h).1 (by simp [Except.map])
  · rw [hgather] at h
    obtain rfl : Csprng.ofSeed request seed = csprng := Except.ok.inj (Prod.mk.inj h).1
    refine ⟨?_, rfl, rfl, Nat.zero_le _, rfl⟩
    show Engine.ofSeed request.algorithm seed ≠ .system
    cases hrequest : request.algorithm with
    | system => exact absurd hrequest halgorithm
    | _ => simp [Engine.ofSeed, Generator.ofSeed?]

/-- **The seed period is kept, and nothing is seeded without need.** A generator
is constructed with a period, where zero stands for the greatest there is, and
meets any demands while its entropy comes and fails as it likes. Then the law
holds of all that it did, and of the next request for any number of bytes. -/
theorem seed_period_is_kept {request : CsprngRequest} (halgorithm : request.algorithm ≠ .system)
    {s t : Supply} (hnew : s.IsNew request) {demands : List Demand} {ds : List Deed}
    (h : s.Reaches demands ds t) :
    let p := if request.seedPeriod = 0 then Csprng.unlimitedPeriod else request.seedPeriod
    PeriodLaw p s demands ds t ∧ ∀ n, RequestLaw p t n := by
  intro p
  have hs : Keeps p [] s := hnew.keeps halgorithm
  have hp : 0 < p := hs.period ▸ s.csprng.seedPeriod_pos
  have hdoes : s.Does ds t := h.does hs.engine
  have ht : Keeps p ds t := hdoes.keeps hs
  refine ⟨⟨hdoes, ht.since, ?_, ht.reseeds, ?_, h.length_given hs.engine, ?_⟩, ht.requestLaw⟩
  · intro earlier hearlier
    obtain ⟨u, hu⟩ := hdoes.of_prefix hearlier
    have hkeeps : Keeps p earlier u := hu.keeps hs
    rw [← hkeeps.since]
    exact hkeeps.bounded
  · intro hdemands
    have hseedings := (h.thrifty hs hdemands).seedings hp ht.bounded
    have hzero : s.csprng.sinceReseed = 0 := hs.since
    rw [ht.reseeds, hseedings, hzero, Nat.zero_add]
  · intro u hu
    obtain ⟨g, hg⟩ := exists_generator ht.engine
    obtain ⟨seed, hseed, hengine⟩ := hu.engine_of_seeded hg
    exact ⟨g, seed, hg, hseed, hengine⟩

/-- The law on a generator with a period of four bytes that is asked for three,
then for two and nine, and whose source always answers. -/
theorem seed_period_is_kept_in_small_pieces :
    ∃ (s t : Supply) (ds : List Deed),
      s.IsNew { algorithm := .kiss, source := .os, seedPeriod := 4 } ∧
      s.Reaches [.fill 3, .draws [2, 9]] ds t ∧
      PeriodLaw 4 s [.fill 3, .draws [2, 9]] ds t ∧ (∀ n, RequestLaw 4 t n) ∧
      (given ds).length = 14 ∧ t.csprng.reseeds = 3 := by
  let entropy : Entropy :=
    { callback := some fun _ n => some (List.replicate n 7)
      host := fun _ _ n => .ok (List.replicate n 7) }
  have hanswers : ∀ source, entropy.NeverFails source := by
    intro source calls hostCalls buffer
    cases source <;> exact ⟨_, rfl⟩
  obtain ⟨csprng, hcsprng⟩ : ∃ csprng,
      (construct { algorithm := .kiss, source := .os, seedPeriod := 4 } entropy).1 = .ok csprng :=
    ⟨_, rfl⟩
  have hnew : IsNew { algorithm := .kiss, source := .os, seedPeriod := 4 } ⟨csprng, entropy⟩ :=
    ⟨entropy, _, Prod.ext hcsprng rfl⟩
  obtain ⟨ds, t, hreach, hmissed⟩ := exists_reaches (hnew.keeps (by decide)).engine hanswers
    [.fill 3, .draws [2, 9]]
  obtain ⟨hperiod, hrequest⟩ := seed_period_is_kept (by decide) hnew hreach
  have hgiven := hperiod.complete hmissed
  have hreseeds := hperiod.counted (by decide)
  rw [hgiven] at hreseeds
  exact ⟨_, t, ds, hnew, hreach, hperiod, hrequest, hgiven, hreseeds⟩

end Supply

end LatticeSuite
