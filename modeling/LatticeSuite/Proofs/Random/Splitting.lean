import LatticeSuite.Proofs.Random.Chronicle
import LatticeSuite.Proofs.Random.Units
import Mathlib.Algebra.Ring.Nat

/-!
# Requests in pieces

A stream of random bytes is used up by whoever asks for some of it, and what it
consists of should not depend on the sizes that are asked for. One generator serves
requests for whole units so (`Generator.generate_add`). A supply also cuts them at the
end of the seed period, so the period and what is used of it have to be whole units as
well (`Aligned`). Then a cut falls on the same byte however the requests are made, and
the generator is seeded there with the same entropy:

> `Aligned.fill_add`: a request for `m + n` bytes gives what the request for `m` gives
> and, unless that one fails, what the request for `n` behind it gives.

So a list of requests is served as one (`Aligned.fill_sum`).
-/

namespace LatticeSuite

/-! ## Whole units -/

namespace Supply

/-- The period and what is used of it are whole units. -/
structure Aligned (u : Nat) (s : Supply) : Prop where
  unit : s.csprng.algorithm.unit? = some u
  since : u ∣ s.csprng.sinceReseed
  period : u ∣ s.csprng.seedPeriod

namespace Aligned

variable {u : Nat} {s : Supply}

theorem room (h : s.Aligned u) : u ∣ s.csprng.room :=
  Nat.dvd_sub h.period h.since

theorem exists_generator (h : s.Aligned u) :
    ∃ g, s.csprng.engine = .seeded g ∧ g.algorithm.unit? = some u := by
  have hunit := h.unit
  unfold Csprng.algorithm at hunit
  cases hengine : s.csprng.engine with
  | system =>
    rw [hengine] at hunit
    exact nomatch hunit
  | seeded g =>
    rw [hengine] at hunit
    exact ⟨g, rfl, hunit⟩

theorem exists_emit (h : s.Aligned u) {m : Nat} (hm : u ∣ m) :
    ∃ out t, s.emit m = (.ok out, t) ∧ t.Aligned u ∧ t.csprng.room = s.csprng.room - m := by
  obtain ⟨g, hg, hunit⟩ := h.exists_generator
  refine ⟨_, _, emit_eq hg m, ⟨?_, Nat.dvd_add h.since hm, h.period⟩, ?_⟩
  · show (g.generate m).2.algorithm.unit? = some u
    rw [g.algorithm_generate, hunit]
  · show s.csprng.seedPeriod - (s.csprng.sinceReseed + m) = _
    rw [Csprng.room, Nat.sub_sub]

theorem emit_add (h : s.Aligned u) {m : Nat} (hm : u ∣ m) {n : Nat} {out out' : Bytes}
    {t v : Supply} (hemit : s.emit m = (.ok out, t)) (hemit' : t.emit n = (.ok out', v)) :
    s.emit (m + n) = (.ok (out ++ out'), v) := by
  obtain ⟨g, hg, hunit⟩ := h.exists_generator
  rw [emit_eq hg m] at hemit
  obtain ⟨hout, rfl⟩ := Prod.mk.inj hemit
  rw [emit_eq rfl n] at hemit'
  obtain ⟨hout', rfl⟩ := Prod.mk.inj hemit'
  rw [emit_eq hg, Generator.generate_add hunit hm, Except.ok.inj hout, Except.ok.inj hout',
    ← Nat.add_assoc]

theorem ready {t : Supply} {hroom : 0 < t.csprng.room} (h : s.Aligned u)
    (hready : s.ready = .ok ⟨t, hroom⟩) : t.Aligned u := by
  unfold Supply.ready at hready
  split at hready
  next =>
    obtain rfl := Subtype.mk.inj (Except.ok.inj hready)
    exact h
  next =>
    split at hready
    next => exact nomatch hready
    next hreseed =>
      obtain rfl := Subtype.mk.inj (Except.ok.inj hready)
      obtain ⟨seed, entropy, -, rfl⟩ := exists_seed hreseed
      refine ⟨?_, Nat.dvd_zero u, h.period⟩
      show (s.csprng.engine.reseed seed).algorithm.unit? = some u
      rw [Engine.algorithm_reseed]
      exact h.unit

end Aligned

/-! ## A request, round by round -/

/-- The same behind bytes that were given before. -/
def Filled.behind (f : Filled) (out : Bytes) : Filled :=
  { f with written := out ++ f.written }

theorem Filled.behind_behind (f : Filled) (out out' : Bytes) :
    (f.behind out').behind out = f.behind (out ++ out') := by
  rw [behind, behind, behind, List.append_assoc]

theorem fillFrom_of_missed {s t : Supply} {n : Nat} {e : EntropyError} (hn : n ≠ 0)
    (hready : s.ready = .error (e, t)) (acc : List UInt8) :
    s.fillFrom n acc = { written := acc.reverse, failure := some e, supply := t } := by
  rw [fillFrom, dif_neg hn]
  simp only [hready]

theorem fillFrom_of_ready {s t v : Supply} {n : Nat} {hroom : 0 < t.csprng.room} {out : Bytes}
    (hn : n ≠ 0) (hready : s.ready = .ok ⟨t, hroom⟩)
    (hemit : t.emit (min n t.csprng.room) = (.ok out, v)) (acc : List UInt8) :
    s.fillFrom n acc = v.fillFrom (n - min n t.csprng.room) (out.reverseAux acc) := by
  rw [fillFrom, dif_neg hn]
  simp only [hready, hemit]

theorem fillFrom_append (s : Supply) (n : Nat) (acc acc' : List UInt8) :
    s.fillFrom n (acc ++ acc') = (s.fillFrom n acc).behind acc'.reverse := by
  fun_induction fillFrom s n acc with
  | case1 s acc =>
    rw [fillFrom, dif_pos rfl, List.reverse_append]
    rfl
  | case2 s n acc hn e t hready =>
    rw [fillFrom_of_missed hn hready, List.reverse_append]
    rfl
  | case3 s n acc hn t hroom hready take e v hemit =>
    rw [fillFrom, dif_neg hn]
    simp only [hready, take] at hemit ⊢
    simp only [hemit, Filled.behind, List.reverse_append]
  | case4 s n acc hn t hroom hready take out v hemit ih =>
    rw [fillFrom_of_ready hn hready hemit, ← ih, List.reverseAux_eq, List.reverseAux_eq,
      List.append_assoc]

theorem fill_of_missed {s t : Supply} {n : Nat} {e : EntropyError} (hn : n ≠ 0)
    (hready : s.ready = .error (e, t)) :
    s.fill n = { written := [], failure := some e, supply := t } :=
  fillFrom_of_missed hn hready []

theorem fill_of_ready {s t v : Supply} {n : Nat} {hroom : 0 < t.csprng.room} {out : Bytes}
    (hn : n ≠ 0) (hready : s.ready = .ok ⟨t, hroom⟩)
    (hemit : t.emit (min n t.csprng.room) = (.ok out, v)) :
    s.fill n = (v.fill (n - min n t.csprng.room)).behind out := by
  rw [fill, fillFrom_of_ready hn hready hemit, List.reverseAux_eq, fill]
  have happend := fillFrom_append v (n - min n t.csprng.room) [] (out.reverse ++ [])
  rw [List.nil_append] at happend
  rw [happend, List.append_nil, List.reverse_reverse]

theorem fill_zero (s : Supply) : s.fill 0 = { written := [], failure := none, supply := s } := by
  rw [fill, fillFrom, dif_pos rfl]
  rfl

/-- A request that begins with a seeding is one of the seeded supply. -/
theorem fill_of_seeded {s t : Supply} (hfull : s.csprng.room = 0) (h : s.reseed = (.ok (), t))
    {n : Nat} (hn : n ≠ 0) : s.fill n = t.fill n := by
  have hs := ready_of_seeded (by omega) h
  have ht := ready_of_room (room_pos_of_reseed h)
  rw [fill, fill, fillFrom, fillFrom, dif_neg hn, dif_neg hn, hs, ht]

/-- The next request, unless this one failed. -/
def Filled.more (f : Filled) (n : Nat) : Filled :=
  match f.failure with
  | some _ => f
  | none => (f.supply.fill n).behind f.written

theorem Filled.more_behind (f : Filled) (out : Bytes) (n : Nat) :
    (f.behind out).more n = (f.more n).behind out := by
  obtain ⟨written, failure, t⟩ := f
  cases failure with
  | some e => rfl
  | none => exact ((t.fill n).behind_behind out written).symm

theorem Filled.more_zero (f : Filled) : f.more 0 = f := by
  obtain ⟨written, failure, t⟩ := f
  cases failure with
  | some e => rfl
  | none =>
    show (t.fill 0).behind written = _
    rw [fill_zero, behind, List.append_nil]

/-- **Behind whole units a request goes on where it stands**, over any number of periods. -/
theorem Aligned.fill_add {u : Nat} {s : Supply} (h : s.Aligned u) {m : Nat} (hm : u ∣ m) (n : Nat) :
    s.fill (m + n) = (s.fill m).more n := by
  -- a round of the first request is one of the whole, but for its last, which may be longer
  induction m using Nat.strongRecOn generalizing s with
  | ind m ih =>
    rcases Nat.eq_zero_or_pos m with rfl | hmpos
    · rw [Nat.zero_add, fill_zero]
      rfl
    rcases Nat.eq_zero_or_pos n with rfl | hnpos
    · exact (Filled.more_zero _).symm
    have hmn : m + n ≠ 0 := by omega
    rcases hready : s.ready with ⟨e, t⟩ | ⟨t, hroom⟩
    · rw [fill_of_missed hmn hready, fill_of_missed (Nat.ne_of_gt hmpos) hready]
      rfl
    have ht := h.ready hready
    rcases Nat.lt_or_ge m t.csprng.room with hless | hle
    · -- the period allows more than the first request
      obtain ⟨out, v, hemit, hv, hvroom⟩ := ht.exists_emit hm
      have hvpos : 0 < v.csprng.room := by omega
      obtain ⟨g, hg, -⟩ := hv.exists_generator
      have hrest := emit_eq hg (min n v.csprng.room)
      have hboth := ht.emit_add hm hemit hrest
      have hmin : m + min n v.csprng.room = min (m + n) t.csprng.room := by omega
      rw [hmin] at hboth
      rw [← Nat.min_eq_left (Nat.le_of_lt hless)] at hemit
      rw [fill_of_ready hmn hready hboth, fill_of_ready (Nat.ne_of_gt hmpos) hready hemit,
        Nat.min_eq_left (Nat.le_of_lt hless), Nat.sub_self, fill_zero, Filled.more_behind]
      show _ = ((v.fill n).behind []).behind out
      rw [fill_of_ready (Nat.ne_of_gt hnpos) (ready_of_room hvpos) hrest, Filled.behind_behind,
        Filled.behind_behind, List.append_nil, ← hmin, Nat.add_sub_add_left]
    · -- it ends within it
      obtain ⟨out, v, hemit, hv, -⟩ := ht.exists_emit ht.room
      have hboth := hemit
      have hleft : m + n - t.csprng.room = m - t.csprng.room + n := by omega
      rw [← Nat.min_eq_right hle] at hemit
      rw [← Nat.min_eq_right (hle.trans (Nat.le_add_right m n))] at hboth
      rw [fill_of_ready hmn hready hboth, fill_of_ready (Nat.ne_of_gt hmpos) hready hemit,
        Nat.min_eq_right hle, Nat.min_eq_right (hle.trans (Nat.le_add_right m n)), hleft,
        ih _ (by omega) hv (Nat.dvd_sub hm ht.room), Filled.more_behind]

theorem Aligned.fill {u : Nat} {s : Supply} (h : s.Aligned u) {m : Nat} (hm : u ∣ m)
    (hfull : (s.fill m).failure = none) : (s.fill m).supply.Aligned u := by
  induction m using Nat.strongRecOn generalizing s with
  | ind m ih =>
    rcases Nat.eq_zero_or_pos m with rfl | hmpos
    · rw [fill_zero]
      exact h
    rcases hready : s.ready with ⟨e, t⟩ | ⟨t, hroom⟩
    · rw [fill_of_missed (Nat.ne_of_gt hmpos) hready] at hfull
      exact nomatch hfull
    have ht := h.ready hready
    have htake : u ∣ min m t.csprng.room := by
      rcases Nat.le_total m t.csprng.room with hle | hle
      · rw [Nat.min_eq_left hle]
        exact hm
      · rw [Nat.min_eq_right hle]
        exact ht.room
    obtain ⟨out, v, hemit, hv, -⟩ := ht.exists_emit htake
    rw [fill_of_ready (Nat.ne_of_gt hmpos) hready hemit] at hfull ⊢
    exact ih _ (by omega) hv (Nat.dvd_sub hm htake) hfull

/-! ## Many requests -/

/-- A list of requests, up to the first that fails: the bytes of each, why the last
failed, and what is left. -/
def fillEach (s : Supply) : List Nat → List Bytes × Option EntropyError × Supply
  | [] => ([], none, s)
  | n :: sizes =>
    let f := s.fill n
    match f.failure with
    | some e => ([f.written], some e, f.supply)
    | none =>
      let (outs, failure, t) := f.supply.fillEach sizes
      (f.written :: outs, failure, t)

theorem fillEach_of_failed {s : Supply} {n : Nat} {e : EntropyError}
    (h : (s.fill n).failure = some e) (sizes : List Nat) :
    s.fillEach (n :: sizes) = ([(s.fill n).written], some e, (s.fill n).supply) := by
  rw [fillEach]
  simp only [h]

theorem fillEach_of_full {s : Supply} {n : Nat} (h : (s.fill n).failure = none)
    (sizes : List Nat) :
    s.fillEach (n :: sizes) =
      ((s.fill n).written :: ((s.fill n).supply.fillEach sizes).1,
        ((s.fill n).supply.fillEach sizes).2) := by
  rw [fillEach]
  simp only [h]

theorem map_length_fillEach {s : Supply} {sizes : List Nat}
    (h : (s.fillEach sizes).2.1 = none) : (s.fillEach sizes).1.map List.length = sizes := by
  induction sizes generalizing s with
  | nil => rfl
  | cons n sizes ih =>
    cases hfirst : (s.fill n).failure with
    | some e =>
      rw [fillEach_of_failed hfirst] at h
      exact nomatch h
    | none =>
      rw [fillEach_of_full hfirst] at h ⊢
      rw [List.map_cons, length_written_fill hfirst, ih h]

/-- The requests of whole units are one request for all of them. -/
theorem Aligned.fill_sum {u : Nat} {s : Supply} (h : s.Aligned u) {sizes : List Nat}
    (hsizes : ∀ n ∈ sizes, u ∣ n) :
    s.fill sizes.sum =
      { written := (s.fillEach sizes).1.flatten
        failure := (s.fillEach sizes).2.1
        supply := (s.fillEach sizes).2.2 } := by
  induction sizes generalizing s with
  | nil => exact fill_zero s
  | cons n sizes ih =>
    rw [List.forall_mem_cons] at hsizes
    rw [List.sum_cons, h.fill_add hsizes.1, Filled.more]
    cases hfirst : (s.fill n).failure with
    | some e =>
      rw [fillEach_of_failed hfirst]
      simp [← hfirst]
    | none =>
      rw [fillEach_of_full hfirst]
      dsimp only
      rw [ih (h.fill hsizes.1 hfirst) hsizes.2]
      rfl

/-- **A list of requests is served as one request for all the bytes.** -/
structure AsOne (u : Nat) (s : Supply) (sizes : List Nat) : Prop where
  /-- The same bytes, the same state behind them, and the same failure if a seeding fails. -/
  joined : s.fill sizes.sum =
    { written := (s.fillEach sizes).1.flatten
      failure := (s.fillEach sizes).2.1
      supply := (s.fillEach sizes).2.2 }
  lengths : (s.fillEach sizes).2.1 = none → (s.fillEach sizes).1.map List.length = sizes
  /-- Within a period the bytes are the units of the generator in their order. -/
  within : ∀ (g : Generator) (k : Nat), s.csprng.engine = .seeded g → sizes.sum = u * k →
    u * k ≤ s.csprng.room → (s.fillEach sizes).1.flatten = (List.range k).flatMap g.unitAt
  /-- Where it ends none is left out: behind the last that it allows come those of the
  generator as it was seeded there. -/
  across : ∀ (g : Generator) (k : Nat) (t : Supply), s.csprng.engine = .seeded g →
    s.csprng.room = u * k → u * k < sizes.sum →
    (s.fill (u * k)).supply.reseed = (.ok (), t) →
    (s.fillEach sizes).1.flatten =
      (List.range k).flatMap g.unitAt ++ (t.fill (sizes.sum - u * k)).written

/-- Units that the period allows. -/
theorem Aligned.fill_mul {u : Nat} {s : Supply} (h : s.Aligned u) {g : Generator}
    (hg : s.csprng.engine = .seeded g) {k : Nat} (hk : u * k ≤ s.csprng.room) :
    ∃ t, s.fill (u * k) =
        { written := (List.range k).flatMap g.unitAt, failure := none, supply := t } ∧
      t.csprng.room = s.csprng.room - u * k := by
  have hunit : g.algorithm.unit? = some u := by
    rw [← h.unit, Csprng.algorithm, hg]
    rfl
  have hbytes := Generator.generate_mul hunit k
  rcases Nat.eq_zero_or_pos (u * k) with hnone | hpos
  · rw [hnone] at hbytes ⊢
    refine ⟨s, ?_, rfl⟩
    rw [fill_zero, ← hbytes, List.eq_nil_of_length_eq_zero (g.length_generate 0)]
  · obtain ⟨out, t, hemit, -, hroom⟩ := h.exists_emit (Nat.dvd_mul_right u k)
    refine ⟨t, ?_, hroom⟩
    rw [fill_of_emit hpos hk hemit]
    rw [emit_eq hg] at hemit
    rw [← hbytes, Except.ok.inj (Prod.mk.inj hemit).1]

theorem Aligned.asOne {u : Nat} {s : Supply} (h : s.Aligned u) {sizes : List Nat}
    (hsizes : ∀ n ∈ sizes, u ∣ n) : s.AsOne u sizes where
  joined := h.fill_sum hsizes
  lengths := map_length_fillEach
  within g k hg hsum hk := by
    obtain ⟨t, hfill, -⟩ := h.fill_mul hg hk
    have hjoined := congrArg Filled.written (h.fill_sum hsizes)
    rw [hsum, hfill] at hjoined
    exact hjoined.symm
  across g k t hg hroom hk hreseed := by
    obtain ⟨v, hfill, hv⟩ := h.fill_mul hg (Nat.le_of_eq hroom.symm)
    have hjoined := congrArg Filled.written (h.fill_sum hsizes)
    have hsum : sizes.sum = u * k + (sizes.sum - u * k) := by omega
    have hfull : v.csprng.room = 0 := by rw [hv, hroom, Nat.sub_self]
    rw [hfill] at hreseed
    rw [hsum, h.fill_add (Nat.dvd_mul_right u k), hfill, Filled.more] at hjoined
    dsimp only at hjoined
    rw [fill_of_seeded hfull hreseed (by omega)] at hjoined
    exact hjoined.symm

/-- Within its batch ISAAC only goes on in it. -/
theorem supply_fill_of_batch {s : Supply} {g : Isaac64} (hg : s.csprng.engine = .seeded (.isaac g))
    {k : Nat} (hpos : 0 < k) (hbatch : g.index + k ≤ 256) (hroom : 8 * k ≤ s.csprng.room) :
    (s.fill (8 * k)).supply =
      { s with
        csprng :=
          { s.csprng with
            sinceReseed := s.csprng.sinceReseed + 8 * k
            engine := .seeded (.isaac { g with index := g.index + k }) } } := by
  have hused : (Generator.generate (.isaac g) (8 * k)).2 =
      .isaac { g with index := g.index + k } := congrArg Generator.isaac (Isaac64.snd_generate hbatch)
  have hemit := emit_eq hg (8 * k)
  rw [hused] at hemit
  exact congrArg Filled.supply (fill_of_emit (Nat.mul_pos (by decide) hpos) hroom hemit)

/-- **What a generator gives does not depend on the sizes that are asked for**, in any
state and over any number of seedings. For Salsa20 and AES the sizes are any at all. The
other three give whole words, and it holds of requests, periods and states of whole words.
ISAAC hands out each batch to its end and goes on with the next. -/
theorem output_does_not_depend_on_splitting (s : Supply) (sizes : List Nat) :
    (s.csprng.algorithm = .salsa20 ∨ s.csprng.algorithm = .aesCtr → s.AsOne 1 sizes) ∧
    (s.csprng.algorithm = .isaac ∨ s.csprng.algorithm = .kiss →
      8 ∣ s.csprng.sinceReseed → 8 ∣ s.csprng.seedPeriod → (∀ n ∈ sizes, 8 ∣ n) →
      s.AsOne 8 sizes) ∧
    (s.csprng.algorithm = .chaCha20 →
      4 ∣ s.csprng.sinceReseed → 4 ∣ s.csprng.seedPeriod → (∀ n ∈ sizes, 4 ∣ n) →
      s.AsOne 4 sizes) ∧
    ∀ (g : Isaac64) (i : Nat),
      (g.index + i < 256 → Words.word Isaac64.next g i = g.batch.getD (g.index + i) 0) ∧
      (g.index ≤ 256 →
        Words.word Isaac64.next g (256 - g.index + i) = Words.word Isaac64.next g.refill i) := by
  refine ⟨?_, ?_, ?_, ?_⟩
  · intro halgorithm
    have hunit : s.csprng.algorithm.unit? = some 1 := by
      rcases halgorithm with h | h <;> rw [h] <;> rfl
    exact Aligned.asOne ⟨hunit, Nat.one_dvd _, Nat.one_dvd _⟩ fun n _ => Nat.one_dvd n
  · intro halgorithm hsince hperiod hsizes
    have hunit : s.csprng.algorithm.unit? = some 8 := by
      rcases halgorithm with h | h <;> rw [h] <;> rfl
    exact Aligned.asOne ⟨hunit, hsince, hperiod⟩ hsizes
  · intro halgorithm hsince hperiod hsizes
    have hunit : s.csprng.algorithm.unit? = some 4 := by
      rw [halgorithm]
      rfl
    exact Aligned.asOne ⟨hunit, hsince, hperiod⟩ hsizes
  · intro g i
    exact ⟨Isaac64.word_of_batch, fun hindex => Isaac64.word_of_refill (by omega) i⟩

/-- A period of three bytes ends twice within the six of one list, and one of two words
within the four of two others. The last list is asked of ISAAC with two words left in its
batch: they are the first two of its four words, and the other two are of the next batch. -/
theorem output_does_not_depend_on_splitting_of_short_periods :
    let entropy : Entropy :=
      { callback := some fun call size => some (List.replicate size (UInt8.ofNat call)) }
    let salsa : Csprng := .ofSeed ⟨.salsa20, .callback, 3⟩ [7]
    let kiss : Csprng := .ofSeed ⟨.kiss, .callback, 16⟩ [7]
    let chaCha : Csprng := .ofSeed ⟨.chaCha20, .callback, 8⟩ [7]
    let isaac : Csprng := .ofSeed ⟨.isaac, .callback, 4096⟩ [7]
    Supply.AsOne 1 ⟨salsa, entropy⟩ [1, 0, 5] ∧ Supply.AsOne 8 ⟨kiss, entropy⟩ [8, 0, 24] ∧
      Supply.AsOne 4 ⟨chaCha, entropy⟩ [4, 0, 12] ∧
      ∃ (s : Supply) (g : Isaac64), (Supply.fill ⟨isaac, entropy⟩ (8 * 254)).supply = s ∧
        s.csprng.engine = .seeded (.isaac g) ∧ g.index = 254 ∧ s.AsOne 8 [8, 0, 24] ∧
        (s.fillEach [8, 0, 24]).1.flatten = (List.range 4).flatMap (Generator.isaac g).unitAt ∧
        Words.word Isaac64.next g 1 = g.batch.getD 255 0 ∧
        Words.word Isaac64.next g 2 = Words.word Isaac64.next g.refill 0 := by
  intro entropy salsa kiss chaCha isaac
  refine ⟨(output_does_not_depend_on_splitting _ [1, 0, 5]).1 (.inl rfl),
    (output_does_not_depend_on_splitting _ [8, 0, 24]).2.1 (.inr rfl) (by decide) (by decide)
      (by decide),
    (output_does_not_depend_on_splitting _ [4, 0, 12]).2.2.1 rfl (by decide) (by decide)
      (by decide), ?_⟩
  have hbatch : (Isaac64.new [7]).index + 254 ≤ 256 := by
    rw [Isaac64.index_new]
    decide
  have hfill := supply_fill_of_batch (s := ⟨isaac, entropy⟩) (g := Isaac64.new [7]) (k := 254) rfl
    (by decide) hbatch (by decide)
  rw [Isaac64.index_new] at hfill
  obtain ⟨-, hwords, -, hbatches⟩ := output_does_not_depend_on_splitting
    (Supply.fill ⟨isaac, entropy⟩ (8 * 254)).supply [8, 0, 24]
  rw [hfill] at hwords
  have hone := hwords (.inl rfl) (by decide) (by decide) (by decide)
  exact ⟨_, _, hfill, rfl, rfl, hone, hone.within _ 4 rfl rfl (by decide),
    (hbatches _ 1).1 (by decide), (hbatches _ 0).2 (by decide)⟩

end Supply

end LatticeSuite
