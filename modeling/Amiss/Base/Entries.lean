import Mathlib

/-!
# Ordered Maps Built by Entries

An ordered map filled by updating one entry per element of a list, which is
how groups are collected. What such a map holds under a key is settled by the
elements that carry the key and by nothing else: `getElem?_foldl_upsert` turns
a lookup in the finished map into a fold over those elements, so a caller
never sees the intermediate maps.

The second half is about the groups themselves. The classes of a labelling,
listed label by label, hold every element once, and two labellings that tell
the same elements apart have the same classes. The second statement is what
lets a computed label stand for an abstract quotient.

## Main definitions

* `BTreeMap`, `BTreeSet`: The ordered map and set. Iteration is in key order.
* `orderBy`: The order of a type by an injective key.
* `upsert`: Setting one entry from what stands there.
* `collect`: The elements of a list under their keys.
* `insertNew`: An insertion that must not replace anything.
* `orInsertAll`, `insertAll`: A map or a set with what another one holds.

## Theorems

* `getElem?_inserted`, `getElem?_erased`: An entry after one change.
* `getD_collect_concat`: An entry of a table of lists.
* `getElem?_orInsertAll`, `mem_insertAll`: What such a map or set holds.
* `orInsertAll_eq_of_size`, `insertAll_eq_of_size`: One that does not grow is
  unchanged.
* `flatMap_filter_perm`: The classes of a labelling hold every element once.
* `classes_eq_of_same_kernel`: Labellings with one kernel have one partition.
-/

namespace Amiss

open Std.ExtTreeSet

open List

/-- The ordered map: iteration is in key order, and two maps are equal when
    they hold the same entries. -/
abbrev BTreeMap (K V : Type) [LinearOrder K] := Std.ExtTreeMap K V

/-- The ordered set. -/
abbrev BTreeSet (K : Type) [LinearOrder K] := Std.ExtTreeSet K

/-- The comparison of a linear order is transitive. -/
instance (priority := high) transCmp {K : Type} [LinearOrder K] :
    Std.TransCmp (compare : K → K → Ordering) := inferInstance

/-- The order of a type by an injective key, with the equality test the type
    already has. -/
@[reducible] def orderBy {α β : Type} [DecidableEq α] [LinearOrder β] (key : α → β)
    (hinj : Function.Injective key) : LinearOrder α :=
  { LinearOrder.lift' key hinj with
    toDecidableEq := inferInstance
    compare_eq_compareOfLessAndEq := fun a b => by
      -- Two decision procedures for one equality agree.
      rw [@LinearOrder.compare_eq_compareOfLessAndEq α (LinearOrder.lift' key hinj) a b]
      congr }

theorem ext_entries {K V : Type} [LinearOrder K] {map other : BTreeMap K V}
    (h : ∀ k : K, map[k]? = other[k]?) : map = other :=
  Std.ExtTreeMap.ext_getElem? (fun k => h k)

section Entry

/-! One entry set or removed, by the equality of keys. -/

variable {K V : Type} [LinearOrder K] (map : BTreeMap K V) (key k : K)

theorem getElem?_inserted (value : V) :
    (map.insert key value)[k]? = if key = k then some value else map[k]? := by
  rw [Std.ExtTreeMap.getElem?_insert]
  simp

theorem getElem?_erased : (map.erase key)[k]? = if key = k then none else map[k]? := by
  rw [Std.ExtTreeMap.getElem?_erase]
  simp

theorem contains_eq_isSome : map.contains key = map[key]?.isSome :=
  Std.ExtTreeMap.contains_eq_isSome_getElem?

theorem mem_inserted (set : BTreeSet K) : k ∈ set.insert key ↔ key = k ∨ k ∈ set := by
  rw [mem_insert, Std.LawfulEqCmp.compare_eq_iff_eq]

theorem erase_of_absent (habsent : map[key]? = none) : map.erase key = map := by
  refine Std.ExtTreeMap.ext_getElem? (fun k => ?_)
  rw [getElem?_erased]
  split
  next h => rw [← h, habsent]
  next => rfl

theorem size_insert_of_absent (value : V) (habsent : map[key]? = none) :
    (map.insert key value).size = map.size + 1 := by
  rw [Std.ExtTreeMap.size_insert, contains_eq_isSome, habsent]
  rfl

theorem size_insert_of_present (value : V) {old : V} (hpresent : map[key]? = some old) :
    (map.insert key value).size = map.size := by
  rw [Std.ExtTreeMap.size_insert, contains_eq_isSome, hpresent]
  rfl

theorem size_pos_of_present {old : V} (hpresent : map[key]? = some old) : 0 < map.size := by
  rw [← Std.ExtTreeMap.length_toList]
  exact length_pos_of_mem (Std.ExtTreeMap.mem_toList_iff_getElem?_eq_some.mpr hpresent)

end Entry

section Upsert

variable {K V X : Type} [LinearOrder K]

variable (map : BTreeMap K V)

/-- Set one entry from what stands there. -/
def upsert (key : K) (f : Option V → V) : BTreeMap K V :=
  map.alter key (fun entry => some (f entry))

theorem getElem?_upsert (key k : K) (f : Option V → V) :
    (upsert map key f)[k]? = if key = k then some (f map[key]?) else map[k]? := by
  unfold upsert
  rw [Std.ExtTreeMap.getElem?_alter]
  simp

variable (key : X → K)

/-- What a filled map holds under a key is the fold of the elements that carry
    the key. -/
theorem getElem?_foldl_upsert (f : X → Option V → V) (k : K) :
    ∀ (xs : List X) (map : BTreeMap K V),
      (xs.foldl (fun map x => upsert map (key x) (f x)) map)[k]? =
        (xs.filter (fun x => key x = k)).foldl (fun entry x => some (f x entry)) map[k]? := by
  intro xs
  induction xs with
  | nil => intro map; rfl
  | cons x xs ih =>
    intro map
    rw [foldl_cons, ih, getElem?_upsert, filter_cons]
    by_cases hk : key x = k
    · simp [hk]
    · simp [hk]

/-- Collect the elements under their keys, each entry grown from `empty` by
    the elements that carry its key, in list order. -/
def collect (empty : V) (add : V → X → V) (xs : List X) : BTreeMap K V :=
  xs.foldl (fun map x => upsert map (key x) (fun entry => add (entry.getD empty) x)) ∅

theorem foldl_getD (empty : V) (add : V → X → V) (xs : List X) (value : V) :
    xs.foldl (fun entry x => some (add (entry.getD empty) x)) (some value) =
      some (xs.foldl add value) := by
  induction xs generalizing value with
  | nil => rfl
  | cons x xs ih => rw [foldl_cons, foldl_cons, ← ih]; rfl

/-- A collected entry is the fold of its own elements, and an entry exists
    only where there are some. -/
theorem getElem?_collect (empty : V) (add : V → X → V) (xs : List X) (k : K) :
    (collect key empty add xs)[k]? = if xs.filter (fun x => key x = k) = [] then none
      else some ((xs.filter (fun x => key x = k)).foldl add empty) := by
  unfold collect
  rw [getElem?_foldl_upsert, Std.ExtTreeMap.getElem?_empty]
  cases xs.filter (fun x => key x = k) with
  | nil => rfl
  | cons x ys =>
    rw [if_neg (cons_ne_nil x ys), foldl_cons, foldl_cons, ← foldl_getD]
    rfl

theorem getElem?_collect_eq_some (empty : V) (add : V → X → V) (xs : List X) (k : K) (value : V) :
    (collect key empty add xs)[k]? = some value ↔
      (∃ x ∈ xs, key x = k) ∧ (xs.filter (fun x => key x = k)).foldl add empty = value := by
  have hne : xs.filter (fun x => key x = k) ≠ [] ↔ ∃ x ∈ xs, key x = k := by
    simp [not_forall]
  rw [getElem?_collect, ← hne]
  by_cases hnil : xs.filter (fun x => key x = k) = []
  · rw [if_pos hnil]
    exact ⟨fun h => absurd h (by simp), fun h => absurd hnil h.1⟩
  · rw [if_neg hnil, Option.some.injEq]
    exact ⟨fun h => ⟨hnil, h⟩, fun h => h.2⟩

/-- A table of lists holds under a key the elements that carry it. -/
theorem getD_collect_concat {Y : Type} (key : X → K) (value : X → Y) (xs : List X) (k : K) :
    ((collect key [] (fun held x => held ++ [value x]) xs)[k]?).getD [] =
      (xs.filter (fun x => key x = k)).map value := by
  have hfold : ∀ (ys : List X) (held : List Y),
      ys.foldl (fun held x => held ++ [value x]) held = held ++ ys.map value := by
    intro ys
    induction ys with
    | nil => intro held; rw [foldl_nil, map_nil, append_nil]
    | cons y ys ih =>
      intro held
      rw [foldl_cons, ih, append_assoc, singleton_append, map_cons]
  rw [getElem?_collect]
  by_cases hnone : xs.filter (fun x => key x = k) = []
  · rw [if_pos hnone, hnone]
    rfl
  · rw [if_neg hnone, Option.getD_some, hfold, nil_append]

theorem mem_collect (empty : V) (add : V → X → V) (xs : List X) (k : K) :
    k ∈ collect key empty add xs ↔ k ∈ xs.map key := by
  rw [Std.ExtTreeMap.mem_iff_isSome_getElem?, Option.isSome_iff_exists, mem_map]
  simp [getElem?_collect_eq_some]

theorem mem_toList (k : K) (v : V) :
    (k, v) ∈ map.toList ↔ map[k]? = some v :=
  Std.ExtTreeMap.mem_toList_iff_getElem?_eq_some

/-- A map whose entries are a function of their keys, listed in key order. -/
theorem toList_eq_map_keys (f : K → V) (h : ∀ k v, map[k]? = some v → v = f k) :
    map.toList = map.keys.map (fun k => (k, f k)) := by
  rw [← Std.ExtTreeMap.map_fst_toList_eq_keys, map_map]
  conv_lhs => rw [← map_id map.toList]
  refine map_congr_left (fun entry hentry => ?_)
  have hget := (mem_toList map entry.1 entry.2).mp hentry
  simp [id, ← h _ _ hget]

theorem mem_keys (k : K) : k ∈ map.keys ↔ k ∈ map :=
  Std.ExtTreeMap.mem_keys

variable {k : K} {v : V}

theorem mem_of_getElem? {map : BTreeMap K V} (h : map[k]? = some v) : k ∈ map :=
  Std.ExtTreeMap.mem_iff_isSome_getElem?.mpr (Option.isSome_iff_exists.mpr ⟨v, h⟩)

theorem keys_pairwise_lt : map.keys.Pairwise (· < ·) := by
  refine Std.ExtTreeMap.ordered_keys.imp (fun h => ?_)
  exact compare_lt_iff_lt.mp h

theorem nodup_toList : map.toList.Nodup := by
  refine List.Nodup.of_map Prod.fst ?_
  rw [Std.ExtTreeMap.map_fst_toList_eq_keys]
  exact Std.ExtTreeMap.nodup_keys

variable (value : X → V)

/-- A filled map holds the value of the last element with the key, or else what
    was there before. -/
theorem getElem?_foldl_insert (k : K) (xs : List X) (map : BTreeMap K V) :
    (xs.foldl (fun map x => map.insert (key x) (value x)) map)[k]? =
      ((xs.filter (fun x => key x = k)).getLast?.map value).or map[k]? := by
  induction xs generalizing map with
  | nil => rfl
  | cons x xs ih =>
    rw [foldl_cons, ih, getElem?_inserted, filter_cons]
    by_cases hk : key x = k
    · cases hlast : (xs.filter (fun x => key x = k)).getLast? with
      | none => simp [hk, getLast?_cons, hlast]
      | some y => simp [hk, getLast?_cons, hlast]
    · simp [hk]

/-- What a filled map holds was inserted. -/
theorem of_getElem?_foldl_insert {xs : List X}
    (h : (xs.foldl (fun map x => map.insert (key x) (value x)) (∅ : BTreeMap K V))[k]? = some v) :
    ∃ x ∈ xs, key x = k ∧ value x = v := by
  rw [getElem?_foldl_insert, Std.ExtTreeMap.getElem?_empty, Option.or_none,
    Option.map_eq_some_iff] at h
  rcases h with ⟨x, hlast, hvalue⟩
  have hx := mem_filter.mp (mem_of_getLast? hlast)
  exact ⟨x, hx.1, of_decide_eq_true hx.2, hvalue⟩

theorem isSome_getElem?_foldl_insert {xs : List X} (h : ∃ x ∈ xs, key x = k) :
    (xs.foldl (fun map x => map.insert (key x) (value x)) (∅ : BTreeMap K V))[k]?.isSome := by
  rw [getElem?_foldl_insert, Option.isSome_or, Option.isSome_map, Bool.or_eq_true, getLast?_isSome]
  refine .inl ?_
  simpa using h

/-- A map filled with pairs whose values are a function of their keys holds
    exactly those pairs. -/
theorem getElem?_foldl_insert_pairs {pairs : List (K × V)}
    (hfun : ∀ pair ∈ pairs, ∀ pair' ∈ pairs, pair.1 = pair'.1 → pair.2 = pair'.2) :
    (pairs.foldl (fun map pair => map.insert pair.1 pair.2) (∅ : BTreeMap K V))[k]? = some v ↔
      (k, v) ∈ pairs := by
  constructor
  · intro h
    rcases of_getElem?_foldl_insert Prod.fst Prod.snd h with ⟨pair, hpair, rfl, rfl⟩
    exact hpair
  · intro h
    have hthere := isSome_getElem?_foldl_insert Prod.fst Prod.snd ⟨(k, v), h, rfl⟩
    rcases Option.isSome_iff_exists.mp hthere with ⟨found, hfound⟩
    rcases of_getElem?_foldl_insert Prod.fst Prod.snd hfound with ⟨pair, hpair, hkey, rfl⟩
    rw [hfound, hfun pair hpair (k, v) h hkey]

/-- A map filled step by step, where elements with one key give one value. -/
theorem getElem?_foldl_of_insert (value : X → Option V) {step : BTreeMap K V → X → BTreeMap K V}
    {xs : List X} (hstep : ∀ map x, step map x = (value x).elim map (map.insert (key x)))
    (hfun : ∀ x ∈ xs, ∀ x' ∈ xs, key x = key x' → value x = value x') :
    (xs.foldl step ∅)[k]? = some v ↔ ∃ x ∈ xs, key x = k ∧ value x = some v := by
  have hpairs : xs.foldl step ∅ =
      (xs.filterMap (fun x => (value x).map (fun v => (key x, v)))).foldl
        (fun map pair => map.insert pair.1 pair.2) ∅ := by
    rw [foldl_filterMap]
    refine foldl_ext _ _ _ (fun map x _ => ?_)
    rw [hstep]
    cases value x <;> rfl
  rw [hpairs, getElem?_foldl_insert_pairs]
  · simp [and_comm]
  · intro pair hpair pair' hpair' hsame
    simp only [mem_filterMap, Option.map_eq_some_iff] at hpair hpair'
    rcases hpair with ⟨x, hx, _, hvalue, rfl⟩
    rcases hpair' with ⟨x', hx', _, hvalue', rfl⟩
    rw [hfun x hx x' hx' hsame, hvalue'] at hvalue
    exact (Option.some.inj hvalue).symm

theorem getElem?_foldl_erase (k : K) (keys : List K) (map : BTreeMap K V) :
    (keys.foldl (fun map key => map.erase key) map)[k]? = if k ∈ keys then none else map[k]? := by
  induction keys generalizing map with
  | nil => rfl
  | cons key keys ih =>
    rw [foldl_cons, ih, getElem?_erased]
    grind

/-- Where only new keys are inserted, what was there stays, and else the first
    element with the key is held. -/
theorem getElem?_foldl_insertIfNew (k : K) (xs : List X) (map : BTreeMap K V) :
    (xs.foldl (fun map x => map.insertIfNew (key x) (value x)) map)[k]? =
      map[k]?.or ((xs.find? (fun x => key x = k)).map value) := by
  induction xs generalizing map with
  | nil => simp
  | cons x xs ih =>
    rw [foldl_cons, ih, Std.ExtTreeMap.getElem?_insertIfNew, find?_cons]
    by_cases hk : key x = k
    · cases hheld : map[k]? with
      | none => simp [hk, Std.ExtTreeMap.mem_iff_isSome_getElem?, hheld]
      | some v => simp [hk, Std.ExtTreeMap.mem_iff_isSome_getElem?, hheld]
    · simp [hk]

theorem of_getElem?_foldl_insertIfNew {xs : List X}
    (h : (xs.foldl (fun map x => map.insertIfNew (key x) (value x)) (∅ : BTreeMap K V))[k]? =
      some v) : ∃ x ∈ xs, key x = k ∧ value x = v := by
  rw [getElem?_foldl_insertIfNew, Std.ExtTreeMap.getElem?_empty, Option.none_or,
    Option.map_eq_some_iff] at h
  rcases h with ⟨x, hfirst, hvalue⟩
  have hkey := find?_some hfirst
  exact ⟨x, mem_of_find?_eq_some hfirst, of_decide_eq_true hkey, hvalue⟩

/-- Every key offered is there, whether it was new or not. -/
theorem isSome_getElem?_foldl_insertIfNew {xs : List X} (h : ∃ x ∈ xs, key x = k) :
    (xs.foldl (fun map x => map.insertIfNew (key x) (value x))
      (∅ : BTreeMap K V))[k]?.isSome := by
  rw [getElem?_foldl_insertIfNew, Option.isSome_or, Option.isSome_map, Bool.or_eq_true,
    find?_isSome]
  refine .inr ?_
  simpa using h

/-- Insert under a key that must be new. -/
def insertNew (map : BTreeMap K V) (key : K) (value : V) : Option (BTreeMap K V) :=
  if key ∈ map then none else some (map.insert key value)

/-- Filling a map with new keys succeeds exactly when no key repeats, and then
    it holds the listed entries. -/
theorem foldlM_insertNew (xs : List X) (map : BTreeMap K V) (hfresh : ∀ x ∈ xs, key x ∉ map) :
    (∃ filled, xs.foldlM (fun map x => insertNew map (key x) (value x)) map = some filled ∧
      (xs.map key).Nodup ∧
      ∀ k v, filled[k]? = some v ↔ map[k]? = some v ∨ ∃ x ∈ xs, key x = k ∧ value x = v) ∨
    (xs.foldlM (fun map x => insertNew map (key x) (value x)) map = none ∧
      ¬ (xs.map key).Nodup) := by
  induction xs generalizing map with
  | nil =>
    refine Or.inl ⟨map, rfl, nodup_nil, fun k v => ?_⟩
    simp
  | cons x xs ih =>
    have hx : key x ∉ map := hfresh x mem_cons_self
    have hstep : insertNew map (key x) (value x) = some (map.insert (key x) (value x)) := by
      rw [insertNew, if_neg hx]
    simp only [foldlM_cons, hstep, Option.bind_eq_bind, Option.bind_some]
    by_cases hrep : key x ∈ xs.map key
    · -- The repeated key is met later: nothing in between removes it.
      refine Or.inr ⟨?_, fun hnd => (nodup_cons.mp hnd).1 hrep⟩
      have hstuck : ∀ (ys : List X) (m : BTreeMap K V), key x ∈ m → key x ∈ ys.map key →
          ys.foldlM (fun map x => insertNew map (key x) (value x)) m = none := by
        intro ys
        induction ys with
        | nil => intro m _ h; cases h
        | cons y ys ihy =>
          intro m hm hmem
          rw [foldlM_cons]
          by_cases hy : key y ∈ m
          · rw [insertNew, if_pos hy]
            rfl
          rw [insertNew, if_neg hy]
          refine ihy _ (Std.ExtTreeMap.mem_insert.mpr (Or.inr hm)) ?_
          rcases mem_cons.mp hmem with h | h
          · exact absurd (h ▸ hm) hy
          · exact h
      exact hstuck xs _ Std.ExtTreeMap.mem_insert_self hrep
    · have hfresh' : ∀ y ∈ xs, key y ∉ map.insert (key x) (value x) := by
        intro y hy hmem
        rcases Std.ExtTreeMap.mem_insert.mp hmem with h | h
        · exact hrep (Std.LawfulEqCmp.compare_eq_iff_eq.mp h ▸ mem_map_of_mem hy)
        · exact hfresh y (mem_cons_of_mem _ hy) h
      rcases ih (map.insert (key x) (value x)) hfresh' with ⟨filled, hrun, hnd, hget⟩ | ⟨hrun, hnd⟩
      · refine Or.inl ⟨filled, hrun, nodup_cons.mpr ⟨hrep, hnd⟩, fun k v => ?_⟩
        rw [hget, Std.ExtTreeMap.getElem?_insert]
        simp only [Std.LawfulEqCmp.compare_eq_iff_eq, mem_cons, exists_eq_or_imp]
        by_cases hk : key x = k
        · subst hk
          have hnone : map[key x]? = none := Std.ExtTreeMap.getElem?_eq_none hx
          simp [hnone]
        · simp [hk]
      · exact Or.inr ⟨hrun, fun h => hnd (nodup_cons.mp h).2⟩

end Upsert

section Classes

variable {X K Q : Type} [DecidableEq K] [DecidableEq Q]

/-- The classes of a labelling, label by label, hold every element once. -/
theorem flatMap_filter_perm (label : X → K) (ks : List K) (hnodup : ks.Nodup) (xs : List X)
    (hcover : ∀ x ∈ xs, label x ∈ ks) :
    (ks.flatMap (fun k => xs.filter (fun x => label x = k))).Perm xs := by
  induction ks generalizing xs with
  | nil =>
    cases xs with
    | nil => exact List.Perm.nil
    | cons x xs => cases (hcover x mem_cons_self)
  | cons k ks ih =>
    rw [nodup_cons] at hnodup
    rw [flatMap_cons]
    -- The other labels see only what the first label leaves over.
    have hrest : ks.flatMap (fun k' => xs.filter (fun x => label x = k')) =
        ks.flatMap (fun k' => (xs.filter (fun x => ¬ label x = k)).filter
          (fun x => label x = k')) := by
      refine flatMap_congr (fun k' hk' => ?_)
      rw [filter_filter]
      refine filter_congr (fun x _ => ?_)
      by_cases hx : label x = k'
      · have hne : k' ≠ k := fun h => hnodup.1 (h ▸ hk')
        simp [hx, hne]
      · simp [hx]
    rw [hrest]
    refine (List.Perm.append_left _ (ih hnodup.2 _ (fun x hx => ?_))).trans ?_
    · rw [mem_filter, decide_eq_true_eq] at hx
      exact (mem_cons.mp (hcover x hx.1)).resolve_left hx.2
    · simpa only [decide_not] using filter_append_perm (fun x => decide (label x = k)) xs

/-- Two labellings that tell the same elements apart have the same classes. -/
theorem classes_eq_of_same_kernel (xs : List X) (label : X → K) (quotient : X → Q)
    (hker : ∀ x ∈ xs, ∀ y ∈ xs, label x = label y ↔ quotient x = quotient y)
    (ks : List K) (hks : ks.Nodup) (hmem : ∀ k, k ∈ ks ↔ k ∈ xs.map label) :
    ((ks.map (fun k => xs.filter (fun x => label x = k)) : List (List X)) : Multiset (List X)) =
      ((xs.map quotient).toFinset.val.map (fun c => xs.filter (fun x => quotient x = c))) := by
  have hclass : ∀ x ∈ xs, xs.filter (fun y => label y = label x) =
      xs.filter (fun y => quotient y = quotient x) := by
    intro x hx
    refine filter_congr (fun y hy => ?_)
    simp only [hker y hy x hx]
  have hinj : ∀ {L : Type} [DecidableEq L] (g : X → L) (x : X), x ∈ xs → ∀ l,
      xs.filter (fun y => g y = g x) = xs.filter (fun y => g y = l) → g x = l := by
    intro L _ g x hx l heq
    have hself : x ∈ xs.filter (fun y => g y = g x) :=
      mem_filter.mpr ⟨hx, decide_eq_true rfl⟩
    rw [heq] at hself
    exact of_decide_eq_true (mem_filter.mp hself).2
  refine (Multiset.Nodup.ext ?_ ?_).mpr (fun l => ?_)
  · rw [Multiset.coe_nodup]
    refine List.Nodup.map_on (fun k hk k' _ heq => ?_) hks
    rcases mem_map.mp ((hmem k).mp hk) with ⟨x, hx, rfl⟩
    exact hinj label x hx k' heq
  · refine Multiset.Nodup.map_on (fun c hc c' _ heq => ?_) (Finset.nodup _)
    rcases mem_map.mp (mem_toFinset.mp hc) with ⟨x, hx, rfl⟩
    exact hinj quotient x hx c' heq
  · simp only [Multiset.mem_coe, mem_map, Multiset.mem_map, Finset.mem_val, mem_toFinset]
    constructor
    · rintro ⟨k, hk, rfl⟩
      rcases mem_map.mp ((hmem k).mp hk) with ⟨x, hx, rfl⟩
      exact ⟨quotient x, ⟨x, hx, rfl⟩, (hclass x hx).symm⟩
    · rintro ⟨c, ⟨x, hx, rfl⟩, rfl⟩
      exact ⟨label x, (hmem _).mpr (mem_map_of_mem hx), hclass x hx⟩

end Classes

section Overlay

variable {K V : Type} [LinearOrder K]

/-- The map with the other's entries under the keys it lacks. -/
def orInsertAll (map other : BTreeMap K V) : BTreeMap K V :=
  other.toList.foldl (fun held entry => held.insertIfNew entry.1 entry.2) map

/-- A fold whose every step keeps its value or makes it larger ends with what it
    started from, or with something larger. -/
theorem foldl_kept_or_grows {X Y : Type} {step : Y → X → Y} (size : Y → Nat)
    (hstep : ∀ y x, step y x = y ∨ size y < size (step y x)) (xs : List X) (y : Y) :
    xs.foldl step y = y ∨ size y < size (xs.foldl step y) := by
  induction xs generalizing y with
  | nil => exact .inl rfl
  | cons x xs ih =>
    rw [foldl_cons]
    rcases hstep y x with hkept | hgrows
    · rw [hkept]
      exact ih y
    right
    rcases ih (step y x) with hrest | hrest
    · rw [hrest]
      exact hgrows
    · exact hgrows.trans hrest

/-- A map that is no larger with what another one holds is unchanged. -/
theorem orInsertAll_eq_of_size {map other : BTreeMap K V}
    (h : map.size = (orInsertAll map other).size) : orInsertAll map other = map := by
  refine (foldl_kept_or_grows Std.ExtTreeMap.size (fun held entry => ?_)
    other.toList map).resolve_right h.not_lt
  by_cases hkey : entry.1 ∈ held
  · left
    refine ext_entries (fun k => ?_)
    rw [Std.ExtTreeMap.getElem?_insertIfNew, if_neg (fun hnew => hnew.2 hkey)]
  · right
    rw [Std.ExtTreeMap.size_insertIfNew, if_neg hkey]
    exact Nat.lt_succ_self _

/-- The set with every element of the other. -/
def insertAll (set other : BTreeSet K) : BTreeSet K :=
  other.toList.foldl (fun held k => held.insert k) set

theorem insertAll_eq_of_size {set other : BTreeSet K}
    (h : set.size = (insertAll set other).size) : insertAll set other = set := by
  refine (foldl_kept_or_grows size (fun held k => ?_)
    other.toList set).resolve_right h.not_lt
  by_cases hkey : k ∈ held
  · left
    refine ext_mem (fun other => ?_)
    rw [mem_inserted]
    exact ⟨fun hmem => hmem.elim (· ▸ hkey) id, .inr⟩
  · right
    simp [size_insert, hkey]

end Overlay

end Amiss
