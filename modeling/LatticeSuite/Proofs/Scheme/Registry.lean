import LatticeSuite.Scheme.Registry
import Mathlib.Data.List.Perm.Basic
import Mathlib.Data.List.Sort

/-!
# What a history of registrations leaves behind

A registration writes one entry, that of the scheme it is for, and tells what stood
there. So of a whole history the registry keeps, under each scheme, the factory that came
last (`latest?`), and everything it is asked is answered from that:

> Whatever is registered, in whatever order, the registry lists by number exactly the
> schemes that something was installed for, and finds under each of them the last factory
> and the parameter sets of that one alone (`last_registration_wins`).

One registration is `factory?_register`, a history of them `factory?_registerAll`. The
factories that come with the library are no exception: they are the first three of every
history (`factory?_builtIn`).
-/

namespace LatticeSuite

theorem SchemeId.pairwise_all : SchemeId.all.Pairwise fun a b => a.number < b.number := by
  decide

namespace Registry

variable {σ : Type} {r : Registry σ} {installed : List (SchemeFactory σ)}

/-! ## Histories -/

/-- Register factories one after the other; what each of them replaces, and the registry
that is left. -/
def registerAll (r : Registry σ) :
    List (SchemeFactory σ) → List (Option (SchemeFactory σ)) × Registry σ
  | [] => ([], r)
  | f :: fs =>
    let next := r.register f
    let rest := next.2.registerAll fs
    (next.1 :: rest.1, rest.2)

/-- The last factory for a scheme. -/
def latest? (fs : List (SchemeFactory σ)) (id : SchemeId) : Option (SchemeFactory σ) :=
  fs.reverse.find? fun f => f.descriptor.id = id

theorem latest?_append (fs gs : List (SchemeFactory σ)) (id : SchemeId) :
    latest? (fs ++ gs) id = (latest? gs id).or (latest? fs id) := by
  rw [latest?, List.reverse_append, List.find?_append, latest?, latest?]

theorem latest?_cons (f : SchemeFactory σ) (fs : List (SchemeFactory σ)) (id : SchemeId) :
    latest? (f :: fs) id =
      (latest? fs id).or (if id = f.descriptor.id then some f else none) := by
  have hone : latest? [f] id = if id = f.descriptor.id then some f else none := by
    rw [latest?, List.reverse_singleton, List.find?_singleton]
    simp only [decide_eq_true_eq, @eq_comm _ id]
  rw [← List.singleton_append, latest?_append, hone]

theorem id_of_latest? {fs : List (SchemeFactory σ)} {id : SchemeId} {f : SchemeFactory σ}
    (h : latest? fs id = some f) : f.descriptor.id = id := by
  simpa using List.find?_some h

theorem mem_of_latest? {fs : List (SchemeFactory σ)} {id : SchemeId} {f : SchemeFactory σ}
    (h : latest? fs id = some f) : f ∈ fs :=
  List.mem_reverse.mp (List.mem_of_find?_eq_some h)

theorem isSome_latest?_iff {fs : List (SchemeFactory σ)} {id : SchemeId} :
    (latest? fs id).isSome ↔ ∃ f ∈ fs, f.descriptor.id = id := by
  simp [latest?]

/-- **One registration** writes the entry of its scheme and no other. -/
theorem factory?_register (r : Registry σ) (f : SchemeFactory σ) (id : SchemeId) :
    (r.register f).2.factory? id =
      (if id = f.descriptor.id then some f else none).or (r.factory? id) := by
  rw [register, factory?_insert]
  split <;> rfl

/-- **A history of registrations** leaves the last factory of each scheme, and what was
there under the others. -/
theorem factory?_registerAll (r : Registry σ) (fs : List (SchemeFactory σ)) (id : SchemeId) :
    (r.registerAll fs).2.factory? id = (latest? fs id).or (r.factory? id) := by
  induction fs generalizing r with
  | nil => rfl
  | cons f fs ih => rw [registerAll, ih, factory?_register, latest?_cons, Option.or_assoc]

/-- Each registration tells what the ones before it have left under its scheme. -/
theorem replaced_registerAll (r : Registry σ) (fs : List (SchemeFactory σ)) (i : Nat) :
    (r.registerAll fs).1[i]? = fs[i]?.map fun f =>
      (latest? (fs.take i) f.descriptor.id).or (r.factory? f.descriptor.id) := by
  induction fs generalizing r i with
  | nil => rfl
  | cons f fs ih =>
    cases i with
    | zero => rfl
    | succ i =>
      simp only [registerAll, List.getElem?_cons_succ, ih, List.take_succ_cons,
        factory?_register, latest?_cons, Option.or_assoc]

/-- The factories that come with the library. -/
def stock [Inhabited σ] : List (SchemeFactory σ) :=
  [dilithium, kyber, kyberHybrid]

theorem factory?_builtIn [Inhabited σ] (id : SchemeId) :
    (builtIn : Registry σ).factory? id = latest? stock id := by
  have hrun : (builtIn : Registry σ) = (empty.registerAll stock).2 := rfl
  rw [hrun, factory?_registerAll]
  exact Option.or_none

/-! ## What is answered from the last factories -/

/-- The answers of a registry are those of the last factories for each scheme. -/
structure Reflects (r : Registry σ) (installed : List (SchemeFactory σ)) : Prop where
  sorted : r.list.Pairwise fun a b => a.number < b.number
  mem_list (id : SchemeId) : id ∈ r.list ↔ ∃ f ∈ installed, f.descriptor.id = id
  isAvailable (id : SchemeId) : r.isAvailable id ↔ id ∈ r.list
  /-- The listing is what sorting makes of the schemes in any order. -/
  sort_eq (ids : List SchemeId) (hnodup : ids.Nodup)
    (hids : ∀ id, id ∈ ids ↔ r.isAvailable id) :
    ids.mergeSort (fun a b => a.number ≤ b.number) = r.list
  descriptor? (id : SchemeId) : r.descriptor? id = (latest? installed id).map (·.descriptor)
  descriptor?_isSome (id : SchemeId) : (r.descriptor? id).isSome ↔ id ∈ r.list
  descriptor?_id (id : SchemeId) : ∀ d ∈ r.descriptor? id, d.id = id
  family_sublist (family : SchemeFamily) : (r.listFamily family).Sublist r.list
  mem_family (family : SchemeFamily) (id : SchemeId) :
    id ∈ r.listFamily family ↔ id ∈ r.list ∧ id.family = family
  family_disjoint (a b : SchemeFamily) (hne : a ≠ b) : (r.listFamily a).Disjoint (r.listFamily b)
  lookup_eq_ok (id : SchemeId) (i : UInt32) (e : SchemeEntry σ) : r.lookup id i = .ok e ↔
    latest? installed id = some e.factory ∧
      e.descriptor.parameterSets[i.toNat]? = some e.parameterSet
  lookup_isOk (id : SchemeId) (i : UInt32) : (∃ e, r.lookup id i = .ok e) ↔
    ∃ f, latest? installed id = some f ∧ i.toNat < f.descriptor.parameterSets.length
  lookup_unavailable (id : SchemeId) (i : UInt32) :
    r.lookup id i = .error (.schemeUnavailable id) ↔ id ∉ r.list
  lookup_unknown (id : SchemeId) (i : UInt32) :
    r.lookup id i = .error (.unknownParameterSet id i) ↔
      ∃ f, latest? installed id = some f ∧ f.descriptor.parameterSets.length ≤ i.toNat

theorem pairwise_list (r : Registry σ) : r.list.Pairwise fun a b => a.number < b.number :=
  SchemeId.pairwise_all.filter _

/-- **The listing does not depend on an order of the entries**: sorting their schemes,
however they are enumerated, gives the same list. -/
theorem mergeSort_eq_list (r : Registry σ) {ids : List SchemeId} (hnodup : ids.Nodup)
    (hids : ∀ id, id ∈ ids ↔ r.isAvailable id) :
    ids.mergeSort (fun a b => a.number ≤ b.number) = r.list := by
  have hlist : r.list.Nodup := r.pairwise_list.imp fun h heq => by simp [heq] at h
  have hperm : ids.Perm r.list := by
    rw [List.perm_ext_iff_of_nodup hnodup hlist]
    exact fun id => (hids id).trans (r.mem_list id).symm
  have hsorted : (ids.mergeSort fun a b => a.number ≤ b.number).Pairwise
      fun a b => a.number ≤ b.number := by
    have htrans : ∀ a b c : SchemeId, decide (a.number ≤ b.number) = true →
        decide (b.number ≤ c.number) = true → decide (a.number ≤ c.number) = true := by
      simpa using fun _ _ _ => UInt8.le_trans
    have htotal : ∀ a b : SchemeId,
        (decide (a.number ≤ b.number) || decide (b.number ≤ a.number)) = true := by
      simpa using fun _ _ => UInt8.le_total _ _
    simpa using List.pairwise_mergeSort htrans htotal ids
  have hle : r.list.Pairwise fun a b => a.number ≤ b.number :=
    r.pairwise_list.imp UInt8.le_of_lt
  -- numbers tell schemes apart, so there is one order that a sorted permutation can have
  exact ((List.mergeSort_perm ids _).trans hperm).eq_of_pairwise
    (fun a b _ _ hab hba => SchemeId.number_inj (UInt8.le_antisymm hab hba)) hsorted hle

theorem mem_listFamily (r : Registry σ) (family : SchemeFamily) (id : SchemeId) :
    id ∈ r.listFamily family ↔ id ∈ r.list ∧ id.family = family := by
  simp [listFamily]

theorem lookup_of_none {id : SchemeId} (h : r.factory? id = none) (i : UInt32) :
    r.lookup id i = .error (.schemeUnavailable id) := by
  rw [lookup, h]

theorem lookup_of_some {id : SchemeId} {f : SchemeFactory σ} (h : r.factory? id = some f)
    (i : UInt32) :
    r.lookup id i = f.descriptor.parameterSets[i.toNat]?.elim
      (.error (.unknownParameterSet id i))
      fun set => .ok { factory := f, parameterSet := set } := by
  rw [lookup, h]
  dsimp only [SchemeDescriptor.parameterSet?]
  cases f.descriptor.parameterSets[i.toNat]? <;> rfl

theorem lookup_eq_ok_iff {id : SchemeId} {i : UInt32} {e : SchemeEntry σ} :
    r.lookup id i = .ok e ↔ r.factory? id = some e.factory ∧
      e.descriptor.parameterSets[i.toNat]? = some e.parameterSet := by
  obtain ⟨factory, set⟩ := e
  cases hf : r.factory? id with
  | none => simp [lookup_of_none hf]
  | some f =>
    rw [lookup_of_some hf]
    constructor
    · intro h
      cases hset : f.descriptor.parameterSets[i.toNat]? with
      | none => simp [hset] at h
      | some set' =>
        obtain ⟨rfl, rfl⟩ : f = factory ∧ set' = set := by simpa [hset] using h
        exact ⟨rfl, hset⟩
    · rintro ⟨hfactory, hset⟩
      obtain rfl : f = factory := by simpa using hfactory
      rw [SchemeEntry.descriptor] at hset
      rw [hset]
      rfl

theorem lookup_isOk_iff {id : SchemeId} {i : UInt32} : (∃ e, r.lookup id i = .ok e) ↔
    ∃ f, r.factory? id = some f ∧ i.toNat < f.descriptor.parameterSets.length := by
  constructor
  · rintro ⟨e, he⟩
    obtain ⟨hfactory, hset⟩ := lookup_eq_ok_iff.mp he
    exact ⟨e.factory, hfactory, (List.getElem?_eq_some_iff.mp hset).1⟩
  · rintro ⟨f, hfactory, hi⟩
    exact ⟨⟨f, f.descriptor.parameterSets[i.toNat]⟩,
      lookup_eq_ok_iff.mpr ⟨hfactory, List.getElem?_eq_getElem hi⟩⟩

theorem lookup_unavailable_iff {id : SchemeId} {i : UInt32} :
    r.lookup id i = .error (.schemeUnavailable id) ↔ r.factory? id = none := by
  refine ⟨fun h => ?_, fun h => lookup_of_none h i⟩
  cases hf : r.factory? id with
  | none => rfl
  | some f =>
    rw [lookup_of_some hf] at h
    cases hset : f.descriptor.parameterSets[i.toNat]? <;> simp [hset] at h

theorem lookup_unknown_iff {id : SchemeId} {i : UInt32} :
    r.lookup id i = .error (.unknownParameterSet id i) ↔
      ∃ f, r.factory? id = some f ∧ f.descriptor.parameterSets.length ≤ i.toNat := by
  cases hf : r.factory? id with
  | none => simp [lookup_of_none hf]
  | some f =>
    rw [lookup_of_some hf]
    cases hset : f.descriptor.parameterSets[i.toNat]? with
    | none => simpa using hset
    | some set => simpa using (List.getElem?_eq_some_iff.mp hset).1

theorem mem_list_iff_isSome (r : Registry σ) (id : SchemeId) :
    id ∈ r.list ↔ (r.factory? id).isSome :=
  r.mem_list id

/-- A registry that holds the last factories answers as they have it. -/
theorem reflects_of_factory? (h : ∀ id, r.factory? id = latest? installed id) :
    r.Reflects installed where
  sorted := r.pairwise_list
  mem_list id := by rw [mem_list_iff_isSome, h, isSome_latest?_iff]
  isAvailable id := (r.mem_list id).symm
  sort_eq _ := r.mergeSort_eq_list
  descriptor? id := by rw [descriptor?, h]
  descriptor?_isSome id := by rw [descriptor?, Option.isSome_map, mem_list_iff_isSome]
  descriptor?_id id d hd := by
    rw [descriptor?, h] at hd
    obtain ⟨f, hf, rfl⟩ := Option.map_eq_some_iff.mp hd
    exact id_of_latest? hf
  family_sublist _ := List.filter_sublist
  mem_family := r.mem_listFamily
  family_disjoint a b hne id ha hb :=
    hne (((r.mem_listFamily a id).mp ha).2.symm.trans ((r.mem_listFamily b id).mp hb).2)
  lookup_eq_ok id i e := by rw [← h, lookup_eq_ok_iff]
  lookup_isOk id i := by simp only [← h, lookup_isOk_iff]
  lookup_unavailable id i := by
    rw [lookup_unavailable_iff, mem_list_iff_isSome, Option.not_isSome_iff_eq_none]
  lookup_unknown id i := by simp only [← h, lookup_unknown_iff]

/-- **The last registration wins.** Whatever is registered after the factories that come
with the library, each registration tells the last factory before it that was for the same
scheme, if there was one, and what is left answers as the last factories have it. -/
theorem last_registration_wins [Inhabited σ] (registrations : List (SchemeFactory σ)) :
    (∀ i, (builtIn.registerAll registrations).1[i]? = registrations[i]?.map fun f =>
      latest? (stock ++ registrations.take i) f.descriptor.id) ∧
    (builtIn.registerAll registrations).2.Reflects (stock ++ registrations) := by
  constructor
  · intro i
    simp only [replaced_registerAll, factory?_builtIn, latest?_append]
  · refine reflects_of_factory? fun id => ?_
    rw [factory?_registerAll, factory?_builtIn, latest?_append]

/-- What is listed before anything else is registered. -/
example : (builtIn : Registry Unit).list = [.sigDilithium, .kemKyber, .encKyberHybrid] := by
  decide

end Registry

end LatticeSuite
