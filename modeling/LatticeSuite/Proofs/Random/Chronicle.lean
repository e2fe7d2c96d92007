import LatticeSuite.Proofs.Random.Output
import LatticeSuite.Random.Csprng
import Mathlib.Data.List.DropRight

/-!
# What a seeded generator does

A supply counts the bytes since its last seeding, and the counter is all that it
knows of its past. What it did is more: it gave these bytes, it was seeded, it
could not be seeded. A `Deed` is one of these three, and a chronicle is the list
of deeds in their order.

`Supply.Did` says what a deed is in the terms of the generator itself, a call of
`emit` within the period or one of `reseed`, and `Supply.Does` that a chronicle
led from one supply to another. Between two deeds the entropy may be exchanged
for another, because callbacks are installed and the host is asked by others.

`Supply.work` is the chronicle of one request, and `Supply.Fills` its shape,
case by case as the loop goes round:

> A request is done, or its period is used up and the generator cannot be
> seeded, or it gives what the period allows, after a seeding if that is nothing,
> and goes on with the rest (`Supply.fills_fill`).

The operating system's generator is left out. Its bytes are not its own, and it
has nothing to seed.
-/

namespace LatticeSuite

/-- What a generator did. -/
inductive Deed where
  | gave (bytes : Bytes)
  | seeded
  /-- A seeding that failed. -/
  | missed (cause : EntropyError)
  deriving DecidableEq

def Deed.bytes : Deed → Bytes
  | .gave bs => bs
  | _ => []

/-- All the bytes given. -/
def given (deeds : List Deed) : Bytes :=
  deeds.flatMap Deed.bytes

/-- What was done after the last seeding. -/
def sinceSeeding (deeds : List Deed) : List Deed :=
  deeds.rtakeWhile fun d => d ≠ .seeded

@[simp] theorem given_append (xs ys : List Deed) : given (xs ++ ys) = given xs ++ given ys :=
  List.flatMap_append

@[simp] theorem given_gave (bs : Bytes) (ds : List Deed) :
    given (.gave bs :: ds) = bs ++ given ds :=
  rfl

@[simp] theorem given_seeded (ds : List Deed) : given (.seeded :: ds) = given ds :=
  rfl

theorem sinceSeeding_concat {d : Deed} (h : d ≠ .seeded) (ds : List Deed) :
    sinceSeeding (ds ++ [d]) = sinceSeeding ds ++ [d] :=
  List.rtakeWhile_concat_pos _ _ _ (by simpa using h)

theorem sinceSeeding_seeded (ds : List Deed) : sinceSeeding (ds ++ [.seeded]) = [] :=
  List.rtakeWhile_concat_neg _ _ _ (by simp)

namespace Supply

/-! ## One deed -/

/-- One deed of a supply, and what it made of the supply. -/
inductive Did (s : Supply) : Deed → Supply → Prop
  /-- Bytes are given as long as the period allows them. -/
  | gave {n : Nat} {out : Bytes} {t : Supply} (hpos : 0 < n) (hroom : n ≤ s.csprng.room)
      (h : s.emit n = (.ok out, t)) : Did s (.gave out) t
  | seeded {t : Supply} (h : s.reseed = (.ok (), t)) : Did s .seeded t
  | missed {e : EntropyError} {t : Supply} (h : s.reseed = (.error e, t)) : Did s (.missed e) t

/-- What a deed counts. -/
structure Counts (s : Supply) (d : Deed) (t : Supply) : Prop where
  engine : t.csprng.engine ≠ .system
  period : t.csprng.seedPeriod = s.csprng.seedPeriod
  since : t.csprng.sinceReseed = if d = .seeded then 0 else s.csprng.sinceReseed + d.bytes.length
  reseeds : t.csprng.reseeds = s.csprng.reseeds + if d = .seeded then 1 else 0
  room : d.bytes.length ≤ s.csprng.room

theorem emit_eq {s : Supply} {g : Generator} (hg : s.csprng.engine = .seeded g) (n : Nat) :
    s.emit n = (.ok (g.generate n).1,
      { s with
        csprng :=
          { s.csprng with
            sinceReseed := s.csprng.sinceReseed + n
            engine := .seeded (g.generate n).2 } }) := by
  unfold emit
  rw [hg]

theorem exists_generator {s : Supply} (hs : s.csprng.engine ≠ .system) :
    ∃ g, s.csprng.engine = .seeded g := by
  cases h : s.csprng.engine with
  | system => exact absurd h hs
  | seeded g => exact ⟨g, rfl⟩

theorem exists_emit {s : Supply} (hs : s.csprng.engine ≠ .system) (n : Nat) :
    ∃ out t, s.emit n = (.ok out, t) := by
  obtain ⟨g, hg⟩ := exists_generator hs
  exact ⟨_, _, emit_eq hg n⟩

theorem counts_of_emit {s t : Supply} (hs : s.csprng.engine ≠ .system) {n : Nat} {out : Bytes}
    (hroom : n ≤ s.csprng.room) (h : s.emit n = (.ok out, t)) :
    out.length = n ∧ s.Counts (.gave out) t := by
  obtain ⟨g, hg⟩ := exists_generator hs
  rw [emit_eq hg] at h
  obtain ⟨hout, rfl⟩ := Prod.mk.inj h
  obtain rfl := Except.ok.inj hout
  have hlength : (g.generate n).1.length = n := g.length_generate n
  refine ⟨hlength, ?_, rfl, ?_, rfl, ?_⟩
  · simp
  · show s.csprng.sinceReseed + n = _
    rw [if_neg (by simp), Deed.bytes, hlength]
  · rw [Deed.bytes, hlength]
    exact hroom

theorem engine_reseed {e : Engine} (h : e ≠ .system) (seed : Bytes) : e.reseed seed ≠ .system := by
  cases e with
  | system => exact absurd rfl h
  | seeded g => simp [Engine.reseed]

/-- A seeding that succeeds is one with what was gathered for it. -/
theorem exists_seed {s t : Supply} (h : s.reseed = (.ok (), t)) :
    ∃ seed entropy, s.entropy.gather s.csprng.source seedBuffer = (.ok seed, entropy) ∧
      t = { csprng := s.csprng.seededWith seed, entropy } := by
  unfold reseed at h
  split at h
  next => exact absurd (Prod.mk.inj h).1 (by simp)
  next seed entropy hgather => exact ⟨seed, entropy, hgather, (Prod.mk.inj h).2.symm⟩

/-- **Behind a seeding the generator is the one that the gathered bytes make of it.** -/
theorem Did.engine_of_seeded {s t : Supply} (h : s.Did .seeded t) {g : Generator}
    (hg : s.csprng.engine = .seeded g) :
    ∃ seed, (s.entropy.gather s.csprng.source seedBuffer).1 = .ok seed ∧
      t.csprng.engine = .seeded (g.reseed seed) := by
  cases h with
  | seeded h =>
    obtain ⟨seed, entropy, hgather, rfl⟩ := exists_seed h
    refine ⟨seed, congrArg Prod.fst hgather, ?_⟩
    show s.csprng.engine.reseed seed = _
    rw [hg]
    rfl

theorem counts_of_reseed {s t : Supply} (hs : s.csprng.engine ≠ .system)
    (h : s.reseed = (.ok (), t)) : s.Counts .seeded t := by
  obtain ⟨seed, entropy, -, rfl⟩ := exists_seed h
  exact ⟨engine_reseed hs seed, rfl, rfl, rfl, Nat.zero_le _⟩

theorem counts_of_missed {s t : Supply} (hs : s.csprng.engine ≠ .system) {e : EntropyError}
    (h : s.reseed = (.error e, t)) : s.Counts (.missed e) t := by
  have hsame := csprng_of_reseed_error h
  refine ⟨?_, ?_, ?_, ?_, Nat.zero_le _⟩
  · rw [hsame]
    exact hs
  · rw [hsame]
  · rw [hsame]
    rfl
  · rw [hsame]
    rfl

theorem Did.counts {s t : Supply} {d : Deed} (h : s.Did d t) (hs : s.csprng.engine ≠ .system) :
    s.Counts d t := by
  cases h with
  | gave _ hroom h => exact (counts_of_emit hs hroom h).2
  | seeded h => exact counts_of_reseed hs h
  | missed h => exact counts_of_missed hs h

/-- Nothing is not given. -/
theorem Did.length_pos {s t : Supply} {out : Bytes} (h : s.Did (.gave out) t)
    (hs : s.csprng.engine ≠ .system) : 0 < out.length := by
  cases h with
  | gave hpos hroom h =>
    rw [(counts_of_emit hs hroom h).1]
    exact hpos

/-! ## Chronicles -/

/-- `s` became `t` by the deeds of a chronicle, whatever happened to the entropy
in between. -/
inductive Does (s : Supply) : List Deed → Supply → Prop
  | start : Does s [] s
  | elsewhere {ds : List Deed} {t : Supply} (h : Does s ds t) (entropy : Entropy) :
      Does s ds { t with entropy }
  | deed {ds : List Deed} {d : Deed} {t u : Supply} (h : Does s ds t) (hd : t.Did d u) :
      Does s (ds ++ [d]) u

theorem Does.trans {s t u : Supply} {xs ys : List Deed} (h : s.Does xs t) (h' : t.Does ys u) :
    s.Does (xs ++ ys) u := by
  induction h' with
  | start =>
    rw [List.append_nil]
    exact h
  | elsewhere _ entropy ih => exact ih.elsewhere entropy
  | deed _ hd ih =>
    rw [← List.append_assoc]
    exact ih.deed hd

theorem Did.does {s t : Supply} {d : Deed} (h : s.Did d t) : s.Does [d] t :=
  Does.start.deed h

theorem Does.engine {s t : Supply} {ds : List Deed} (h : s.Does ds t)
    (hs : s.csprng.engine ≠ .system) : t.csprng.engine ≠ .system := by
  induction h with
  | start => exact hs
  | elsewhere _ _ ih => exact ih
  | deed _ hd ih => exact (hd.counts ih).engine

theorem Does.gave_nil_not_mem {s t : Supply} {ds : List Deed} (h : s.Does ds t)
    (hs : s.csprng.engine ≠ .system) : .gave [] ∉ ds := by
  induction h with
  | start => exact List.not_mem_nil
  | elsewhere _ _ ih => exact ih
  | deed h hd ih =>
    rw [List.mem_append, List.mem_singleton, not_or]
    refine ⟨ih, ?_⟩
    rintro rfl
    exact Nat.lt_irrefl 0 (hd.length_pos (h.engine hs))

/-- Whatever had been done at some moment, there was a supply at that moment. -/
theorem Does.of_prefix {s t : Supply} {ds : List Deed} (h : s.Does ds t) {earlier : List Deed}
    (hearlier : earlier <+: ds) : ∃ u, s.Does earlier u := by
  induction h with
  | start =>
    rw [List.prefix_nil.mp hearlier]
    exact ⟨s, .start⟩
  | elsewhere _ _ ih => exact ih hearlier
  | deed h hd ih =>
    rcases List.prefix_concat_iff.mp hearlier with rfl | hbefore
    · exact ⟨_, h.deed hd⟩
    · exact ih hbefore

/-! ## The chronicle of a request -/

/-- What a request for `n` bytes does. -/
def work (s : Supply) (n : Nat) : List Deed :=
  if _hn : n = 0 then []
  else
    match s.ready with
    | .error (e, _) => [.missed e]
    | .ok ⟨t, _hroom⟩ =>
      let take := min n t.csprng.room
      (if 0 < s.csprng.room then [] else [.seeded]) ++
        match t.emit take with
        | (.error e, _) => [.missed e]
        | (.ok out, u) => .gave out :: u.work (n - take)
termination_by n
decreasing_by omega

/-- How a request for `n` bytes goes, what it does, how it ends and what it
leaves. -/
inductive Fills : Supply → Nat → List Deed → Option EntropyError → Supply → Prop
  | done (s : Supply) : Fills s 0 [] none s
  /-- The period is used up, and the generator cannot be seeded. -/
  | short {s t : Supply} {n : Nat} {e : EntropyError} (hn : 0 < n) (hfull : s.csprng.room = 0)
      (hd : s.Did (.missed e) t) : Fills s n [.missed e] (some e) t
  /-- The period allows some bytes. -/
  | give {s t u : Supply} {n : Nat} {out : Bytes} {ds : List Deed} {f : Option EntropyError}
      (hd : s.Did (.gave out) t) (hout : out.length = min n s.csprng.room)
      (rest : Fills t (n - out.length) ds f u) : Fills s n (.gave out :: ds) f u
  /-- It allows none, and the next one begins. -/
  | renew {s t u v : Supply} {n : Nat} {out : Bytes} {ds : List Deed} {f : Option EntropyError}
      (hfull : s.csprng.room = 0) (hseeded : s.Did .seeded t) (hd : t.Did (.gave out) u)
      (hout : out.length = min n t.csprng.room) (rest : Fills u (n - out.length) ds f v) :
      Fills s n (.seeded :: .gave out :: ds) f v

theorem ready_of_room {s : Supply} (h : 0 < s.csprng.room) : s.ready = .ok ⟨s, h⟩ :=
  dif_pos h

/-- A request that the period allows is one call of the engine, whatever the engine. -/
theorem fill_of_emit {s t : Supply} {n : Nat} {out : Bytes} (hn : 0 < n)
    (hroom : n ≤ s.csprng.room) (h : s.emit n = (.ok out, t)) :
    s.fill n = { written := out, failure := none, supply := t } := by
  rw [fill, fillFrom, dif_neg (Nat.ne_of_gt hn), ready_of_room (hn.trans_le hroom)]
  simp only [Nat.min_eq_left hroom, h, Nat.sub_self]
  rw [fillFrom, dif_pos rfl, List.reverseAux_eq, List.append_nil, List.reverse_reverse]

theorem ready_of_missed {s t : Supply} {e : EntropyError} (hfull : ¬0 < s.csprng.room)
    (h : s.reseed = (.error e, t)) : s.ready = .error (e, t) := by
  unfold ready
  rw [dif_neg hfull]
  split
  next h' =>
    rw [h'] at h
    obtain ⟨he, rfl⟩ := Prod.mk.inj h
    rw [Except.error.inj he]
  next h' =>
    rw [h'] at h
    exact absurd (Prod.mk.inj h).1 (by simp)

theorem ready_of_seeded {s t : Supply} (hfull : ¬0 < s.csprng.room)
    (h : s.reseed = (.ok (), t)) : s.ready = .ok ⟨t, room_pos_of_reseed h⟩ := by
  unfold ready
  rw [dif_neg hfull]
  split
  next h' =>
    rw [h'] at h
    exact absurd (Prod.mk.inj h).1 (by simp)
  next h' =>
    rw [h'] at h
    obtain ⟨-, rfl⟩ := Prod.mk.inj h
    rfl

theorem exists_gave {s : Supply} (hs : s.csprng.engine ≠ .system) {n : Nat} (hn : 0 < n)
    (hroom : 0 < s.csprng.room) :
    ∃ out t, s.emit (min n s.csprng.room) = (.ok out, t) ∧ s.Did (.gave out) t ∧
      out.length = min n s.csprng.room := by
  obtain ⟨out, t, hemit⟩ := exists_emit hs (min n s.csprng.room)
  have hle : min n s.csprng.room ≤ s.csprng.room := Nat.min_le_right _ _
  exact ⟨out, t, hemit, .gave (Nat.lt_min.mpr ⟨hn, hroom⟩) hle hemit,
    (counts_of_emit hs hle hemit).1⟩

/-- **A request goes as its chronicle says**, and its bytes are those given. -/
theorem fills_fillFrom {s : Supply} (hs : s.csprng.engine ≠ .system) (n : Nat)
    (acc : List UInt8) :
    s.Fills n (s.work n) (s.fillFrom n acc).failure (s.fillFrom n acc).supply ∧
      (s.fillFrom n acc).written = acc.reverse ++ given (s.work n) := by
  induction n using Nat.strongRecOn generalizing s acc with
  | ind n ih =>
    rw [work, fillFrom]
    split
    next hn =>
      subst hn
      exact ⟨.done s, (List.append_nil _).symm⟩
    next hn =>
      have hpos : 0 < n := Nat.pos_of_ne_zero hn
      by_cases hroom : 0 < s.csprng.room
      · -- the period has room, and the round gives what fits
        obtain ⟨out, t, hemit, hgave, hout⟩ := exists_gave hs hpos hroom
        obtain ⟨hfills, hwritten⟩ := ih (n - min n s.csprng.room) (by omega)
          (hgave.counts hs).engine (out.reverseAux acc)
        simp only [ready_of_room hroom, hemit, if_pos hroom, List.nil_append]
        rw [← hout] at hfills hwritten ⊢
        refine ⟨.give hgave hout hfills, ?_⟩
        rw [hwritten, given_gave, List.reverseAux_eq, List.reverse_append, List.reverse_reverse,
          List.append_assoc]
      · have hfull : s.csprng.room = 0 := Nat.eq_zero_of_not_pos hroom
        rcases hseed : s.reseed with ⟨e | ⟨⟩, t⟩
        · simp only [ready_of_missed hroom hseed]
          exact ⟨.short hpos hfull (.missed hseed), (List.append_nil _).symm⟩
        · -- behind a seeding the period has room again, so the round still gives something
          have ht := (counts_of_reseed hs hseed).engine
          have htroom : 0 < t.csprng.room := room_pos_of_reseed hseed
          obtain ⟨out, u, hemit, hgave, hout⟩ := exists_gave ht hpos htroom
          obtain ⟨hfills, hwritten⟩ := ih (n - min n t.csprng.room) (by omega)
            (hgave.counts ht).engine (out.reverseAux acc)
          simp only [ready_of_seeded hroom hseed, hemit, if_neg hroom, List.cons_append,
            List.nil_append]
          rw [← hout] at hfills hwritten ⊢
          refine ⟨.renew hfull (.seeded hseed) hgave hout hfills, ?_⟩
          rw [hwritten, given_seeded, given_gave, List.reverseAux_eq, List.reverse_append,
            List.reverse_reverse, List.append_assoc]

theorem fills_fill {s : Supply} (hs : s.csprng.engine ≠ .system) (n : Nat) :
    s.Fills n (s.work n) (s.fill n).failure (s.fill n).supply ∧
      (s.fill n).written = given (s.work n) :=
  fills_fillFrom hs n []

theorem Fills.does {s t : Supply} {n : Nat} {ds : List Deed} {f : Option EntropyError}
    (h : s.Fills n ds f t) : s.Does ds t := by
  induction h with
  | done s => exact .start
  | short _ _ hd => exact hd.does
  | give hd _ _ ih => exact hd.does.trans ih
  | renew _ hseeded hd _ _ ih => exact (hseeded.does.deed hd).trans ih

/-- A request gives all that it was for, or a seeding failed where one was due. -/
theorem Fills.ends {s t : Supply} {n : Nat} {ds : List Deed} {f : Option EntropyError}
    (h : s.Fills n ds f t) :
    (f = none ∧ (given ds).length = n) ∨
      ∃ e, f = some e ∧ .missed e ∈ ds ∧ t.csprng.room = 0 := by
  induction h with
  | done s => exact .inl ⟨rfl, rfl⟩
  | @short s t n e hn hfull hd =>
    cases hd with
    | missed h =>
      have hsame := csprng_of_reseed_error h
      exact .inr ⟨e, rfl, List.mem_singleton_self _, by rw [hsame, hfull]⟩
  | @give s t u n out ds f hd hout rest ih =>
    rcases ih with ⟨hf, hgiven⟩ | ⟨e, hf, hmissed, hroom⟩
    · refine .inl ⟨hf, ?_⟩
      rw [given_gave, List.length_append, hgiven]
      omega
    · exact .inr ⟨e, hf, List.mem_cons_of_mem _ hmissed, hroom⟩
  | @renew s t u v n out ds f hfull hseeded hd hout rest ih =>
    rcases ih with ⟨hf, hgiven⟩ | ⟨e, hf, hmissed, hroom⟩
    · refine .inl ⟨hf, ?_⟩
      rw [given_seeded, given_gave, List.length_append, hgiven]
      omega
    · exact .inr ⟨e, hf, List.mem_cons_of_mem _ (List.mem_cons_of_mem _ hmissed), hroom⟩

/-- So with no failure in its chronicle it is answered in full. -/
theorem fill_of_not_missed {s : Supply} (hs : s.csprng.engine ≠ .system) {n : Nat}
    (h : ∀ e, .missed e ∉ s.work n) :
    (s.fill n).failure = none ∧ (given (s.work n)).length = n := by
  rcases (fills_fill hs n).1.ends with hfull | ⟨e, -, hmissed, -⟩
  · exact hfull
  · exact absurd hmissed (h e)

/-- Every round gives a byte, so there are not more rounds than bytes. -/
theorem Fills.length_le {s t : Supply} {n : Nat} {ds : List Deed} {f : Option EntropyError}
    (h : s.Fills n ds f t) (hs : s.csprng.engine ≠ .system) : ds.length ≤ 2 * n := by
  induction h with
  | done s => exact Nat.le_refl 0
  | short hn _ _ =>
    rw [List.length_singleton]
    omega
  | give hd hout _ ih =>
    have hpos := hd.length_pos hs
    have hrest := ih (hd.counts hs).engine
    rw [List.length_cons]
    omega
  | renew _ hseeded hd hout _ ih =>
    have ht := (hseeded.counts hs).engine
    have hpos := hd.length_pos ht
    have hrest := ih (hd.counts ht).engine
    rw [List.length_cons, List.length_cons]
    omega

/-- A generator whose period is used up gives nothing until it is seeded. -/
theorem Does.dry {s t : Supply} {ds : List Deed} (h : s.Does ds t) (hfull : s.csprng.room = 0)
    (hseeded : .seeded ∉ ds) : given ds = [] ∧ t.csprng.room = 0 := by
  induction h with
  | start => exact ⟨rfl, hfull⟩
  | elsewhere _ _ ih => exact ih hseeded
  | deed _ hd ih =>
    rw [List.mem_append, List.mem_singleton, not_or] at hseeded
    obtain ⟨hgiven, hroom⟩ := ih hseeded.1
    cases hd with
    | gave hpos hle _ => omega -- no room, no byte
    | seeded _ => exact absurd rfl hseeded.2
    | missed h =>
      rw [given_append, hgiven, csprng_of_reseed_error h]
      exact ⟨rfl, hroom⟩

end Supply

/-! ## A source that never fails -/

/-- However often it has been asked, the source answers. -/
def Entropy.NeverFails (e : Entropy) (source : EntropySource) : Prop :=
  ∀ calls hostCalls buffer, ∃ seed,
    ({ e with calls, hostCalls }.gather source buffer).1 = .ok seed

/-- Asking changes nothing but how often was asked. -/
theorem Entropy.gather_cases (e : Entropy) (source : EntropySource) (buffer : Bytes) :
    ∃ calls hostCalls, (e.gather source buffer).2 = { e with calls, hostCalls } := by
  unfold gather
  split
  next =>
    split
    next => exact ⟨_, _, rfl⟩
    next f hf =>
      dsimp only
      split
      next => exact ⟨_, _, rfl⟩
      next => exact ⟨_, _, rfl⟩
  next => exact ⟨_, _, rfl⟩

namespace Supply

theorem Did.neverFails {s t : Supply} {d : Deed} (h : s.Did d t)
    (hs : s.csprng.engine ≠ .system) (hsource : s.entropy.NeverFails s.csprng.source) :
    (∀ e, d ≠ .missed e) ∧ t.entropy.NeverFails t.csprng.source := by
  have hseed : ∃ seed, (s.entropy.gather s.csprng.source seedBuffer).1 = .ok seed :=
    hsource s.entropy.calls s.entropy.hostCalls seedBuffer
  obtain ⟨seed, hseed⟩ := hseed
  obtain ⟨calls, hostCalls, hleft⟩ := s.entropy.gather_cases s.csprng.source seedBuffer
  have hreseed : s.reseed =
      (.ok (), ⟨s.csprng.seededWith seed, { s.entropy with calls, hostCalls }⟩) := by
    have hgather : s.entropy.gather s.csprng.source seedBuffer =
        (.ok seed, { s.entropy with calls, hostCalls }) := Prod.ext hseed hleft
    unfold reseed
    rw [hgather]
  cases h with
  | gave _ _ h =>
    obtain ⟨g, hg⟩ := exists_generator hs
    rw [emit_eq hg] at h
    obtain ⟨-, rfl⟩ := Prod.mk.inj h
    exact ⟨fun e => by simp, hsource⟩
  | seeded h =>
    rw [hreseed] at h
    obtain ⟨-, rfl⟩ := Prod.mk.inj h
    exact ⟨fun e => by simp, fun calls hostCalls buffer => hsource calls hostCalls buffer⟩
  | missed h =>
    rw [hreseed] at h
    exact absurd (Prod.mk.inj h).1 (by simp)

theorem Fills.neverFails {s t : Supply} {n : Nat} {ds : List Deed} {f : Option EntropyError}
    (h : s.Fills n ds f t) (hs : s.csprng.engine ≠ .system)
    (hsource : s.entropy.NeverFails s.csprng.source) :
    (∀ e, .missed e ∉ ds) ∧ t.entropy.NeverFails t.csprng.source := by
  induction h with
  | done s => exact ⟨fun e => List.not_mem_nil, hsource⟩
  | short _ _ hd => exact absurd rfl ((hd.neverFails hs hsource).1 _)
  | give hd _ _ ih =>
    obtain ⟨-, hsource'⟩ := hd.neverFails hs hsource
    obtain ⟨hrest, hlast⟩ := ih (hd.counts hs).engine hsource'
    exact ⟨fun e => by simpa using hrest e, hlast⟩
  | renew _ hseeded hd _ _ ih =>
    have ht := (hseeded.counts hs).engine
    obtain ⟨-, hsource'⟩ := hseeded.neverFails hs hsource
    obtain ⟨-, hsource''⟩ := hd.neverFails ht hsource'
    obtain ⟨hrest, hlast⟩ := ih (hd.counts ht).engine hsource''
    exact ⟨fun e => by simpa using hrest e, hlast⟩

end Supply

end LatticeSuite
