import Mathlib

/-!
# Sorted Lists

Searching a strictly increasing list by halving, the facts about sorting by a
key that the callers share, and the first answer of a search in order.

`binarySearch` keeps a window that must hold the position if there is one.
The window loses at least one position in each round, so as many rounds as
the list is long are enough, and `binarySearch_eq_some_iff` is the contract
the callers rely on: on a strictly increasing list the search finds exactly
the position of its element.

Two lists sorted by one key are equal as soon as they hold the same members,
provided the key tells members apart. `sortedBy_eq_of_perm` states that, and
it is how an order computed in one place is recognised in another.

## Main definitions

* `binarySearch`: The position of an element in a sorted list.
* `sortBy`: The stable sort by a key.
* `mapWhile`: The values on the beginning of a list.

## Theorems

* `forall_getLast?_lt_iff`: The last element decides for all.
* `binarySearch_eq_some_iff`: What a successful search returns.
* `binarySearch_eq_none_iff`: When a search fails.
* `sortedBy_eq_of_perm`: A sorted order is unique.
* `mapWhile_eq_filterMap`, `filterMap_dropWhile`: A scan over a range.
* `findSome?_of_kept`, `findSome?_first`: The first answer of a search.
-/

namespace Amiss

open List

section Search

variable {α : Type} [LinearOrder α]

/-- Halve the window of `size` positions from `base` until one is left. -/
def narrow (xs : List α) (x : α) : Nat → Nat → Nat → Nat
  | 0, base, _ => base
  | fuel + 1, base, size =>
    if size ≤ 1 then base
    else
      let half := size / 2
      match xs[base + half]? with
      | some y => narrow xs x fuel (if x < y then base else base + half) (size - half)
      | none => narrow xs x fuel base (size - half)

/-- The position of `x` in a sorted list. -/
def binarySearch (xs : List α) (x : α) : Option Nat :=
  let position := narrow xs x xs.length 0 xs.length
  if xs[position]? = some x then some position else none

variable {xs : List α}

theorem getElem?_lt_of_lt (hs : xs.Pairwise (· < ·)) {i j : Nat} {x y : α} (hi : xs[i]? = some x)
    (hj : xs[j]? = some y) (hij : i < j) : x < y := by
  rw [getElem?_eq_some_iff] at hi hj
  rcases hi with ⟨hi, rfl⟩
  rcases hj with ⟨hj, rfl⟩
  exact pairwise_iff_getElem.mp hs i j hi hj hij

/-- The window never loses the position of the element. -/
theorem narrow_spec (hs : xs.Pairwise (· < ·)) {x : α} {i : Nat} (hi : xs[i]? = some x) :
    ∀ fuel base size, size ≤ fuel → base ≤ i → i < base + size →
      narrow xs x fuel base size = i := by
  intro fuel
  induction fuel with
  | zero => intro base size hf hb hlt; omega
  | succ fuel ih =>
    intro base size hf hb hlt
    rw [narrow]
    by_cases hsize : size ≤ 1
    · rw [if_pos hsize]
      omega
    rw [if_neg hsize]
    cases hmid : xs[base + size / 2]? with
    | none =>
      -- Past the end there is nothing, and the element lies before it.
      simp only [hmid]
      have hlen := getElem?_eq_none_iff.mp hmid
      have hin := (List.getElem?_eq_some_iff.mp hi).1
      exact ih base (size - size / 2) (by omega) hb (by omega)
    | some y =>
      by_cases hxy : x < y
      · simp only [hmid, if_pos hxy]
        have hbelow : i < base + size / 2 := by
          by_contra hc
          rcases Nat.lt_or_eq_of_le (Nat.le_of_not_lt hc) with h | h
          · exact absurd (getElem?_lt_of_lt hs hmid hi h) (not_lt_of_gt hxy)
          · rw [h, hi, Option.some.injEq] at hmid
            exact absurd hxy (by rw [hmid]; exact lt_irrefl y)
        exact ih base (size - size / 2) (by omega) hb (by omega)
      · simp only [hmid, if_neg hxy]
        have habove : base + size / 2 ≤ i := by
          by_contra hc
          exact hxy (getElem?_lt_of_lt hs hi hmid (Nat.lt_of_not_le hc))
        exact ih (base + size / 2) (size - size / 2) (by omega) habove (by omega)

/-- Against a strictly increasing list, the last element decides for all. -/
theorem forall_getLast?_lt_iff {β : Type} {key : β → α} {xs : List β}
    (hs : (xs.map key).Pairwise (· < ·)) (x : α) :
    (∀ y ∈ xs.getLast?, key y < x) ↔ ∀ y ∈ xs, key y < x := by
  rcases eq_nil_or_concat' xs with rfl | ⟨init, last, rfl⟩
  · simp
  simp only [getLast?_concat, Option.mem_def, Option.some.injEq, forall_eq']
  rw [map_append, pairwise_append] at hs
  constructor
  · intro hlast y hy
    rcases mem_append.mp hy with hy | hy
    · have hbefore : key y < key last :=
        hs.2.2 _ (mem_map_of_mem hy) _ (mem_singleton.mpr rfl)
      exact hbefore.trans hlast
    · rw [mem_singleton.mp hy]
      exact hlast
  · intro hall
    exact hall last (mem_append_right _ (mem_singleton.mpr rfl))

/-- What a search finds is there, whether the list is sorted or not. -/
theorem getElem?_of_binarySearch {x : α} {i : Nat} (h : binarySearch xs x = some i) :
    xs[i]? = some x := by
  unfold binarySearch at h
  simp only [] at h
  split at h
  next hget =>
    rw [Option.some.injEq] at h
    rw [← h, hget]
  next => cases h

/-- On a strictly increasing list the search finds exactly the position. -/
theorem binarySearch_eq_some_iff (hs : xs.Pairwise (· < ·)) (x : α) (i : Nat) :
    binarySearch xs x = some i ↔ xs[i]? = some x := by
  constructor
  · exact getElem?_of_binarySearch
  intro h
  unfold binarySearch
  simp only []
  have hin := (List.getElem?_eq_some_iff.mp h).1
  rw [narrow_spec hs h xs.length 0 xs.length (le_refl _) (Nat.zero_le i) (by omega), if_pos h]

theorem binarySearch_eq_none_iff (hs : xs.Pairwise (· < ·)) (x : α) :
    binarySearch xs x = none ↔ x ∉ xs := by
  rw [Option.eq_none_iff_forall_ne_some]
  simp [binarySearch_eq_some_iff hs, mem_iff_getElem?]

end Search

section Sorting

variable {α β : Type} [LinearOrder β]

variable (key : α → β)

variable (xs : List α)

/-- The stable sort by a key. -/
def sortBy : List α :=
  xs.insertionSort (fun a b => key a ≤ key b)

theorem sortBy_perm : (sortBy key xs).Perm xs :=
  perm_insertionSort _ xs

theorem sortBy_pairwise :
    (sortBy key xs).Pairwise (fun a b => key a ≤ key b) :=
  haveI : IsTrans α (fun a b => key a ≤ key b) := ⟨fun _ _ _ h1 h2 => h1.trans h2⟩
  haveI : Std.Total (fun a b => key a ≤ key b) := ⟨fun a b => le_total (key a) (key b)⟩
  pairwise_insertionSort _ xs

theorem mem_sortBy (x : α) : x ∈ sortBy key xs ↔ x ∈ xs :=
  (sortBy_perm key xs).mem_iff

/-- Where the key repeats nowhere, a sorted list is strictly increasing. -/
theorem strict_of_sorted {xs : List α}
    (hsorted : xs.Pairwise (fun a b => key a ≤ key b)) (hnodup : (xs.map key).Nodup) :
    (xs.map key).Pairwise (· < ·) := by
  have hle : (xs.map key).Pairwise (· ≤ ·) := pairwise_map.mpr hsorted
  exact (hle.and hnodup).imp (fun h => lt_of_le_of_ne h.1 h.2)

theorem sortBy_strict (hnodup : (xs.map key).Nodup) :
    ((sortBy key xs).map key).Pairwise (· < ·) :=
  strict_of_sorted key (sortBy_pairwise key xs)
    (((sortBy_perm key xs).map key).nodup_iff.mpr hnodup)

/-- A strictly increasing order is determined by its members. -/
theorem sortedBy_eq_of_perm {xs ys : List α} (hperm : xs.Perm ys)
    (hx : (xs.map key).Pairwise (· < ·)) (hy : (ys.map key).Pairwise (· < ·)) : xs = ys := by
  refine List.Perm.eq_of_pairwise (fun a b _ _ h1 h2 => ?_)
    (pairwise_map.mp hx) (pairwise_map.mp hy) hperm
  exact absurd h1 (not_lt_of_gt h2)

end Sorting

/-- A predicate that holds of one member only filters that member. -/
theorem filter_eq_singleton_iff {α : Type} {xs : List α} (hnodup : xs.Nodup)
    {p : α → Bool} {x : α} :
    xs.filter p = [x] ↔ (x ∈ xs ∧ p x = true) ∧ ∀ y ∈ xs, p y = true → y = x := by
  constructor
  · intro h
    have hmem : ∀ y, y ∈ xs ∧ p y = true ↔ y = x := by
      intro y
      rw [← mem_filter, h, mem_singleton]
    exact ⟨(hmem x).mpr rfl, fun y hy hp => (hmem y).mp ⟨hy, hp⟩⟩
  · rintro ⟨hx, hsole⟩
    refine perm_singleton.mp ((perm_ext_iff_of_nodup (hnodup.filter p)
      (nodup_singleton x)).mpr (fun y => ?_))
    rw [mem_filter, mem_singleton]
    exact ⟨fun hy => hsole y hy.1 hy.2, fun hy => hy ▸ hx⟩

section Ranges

variable {α β : Type}

/-- The values of a function on the beginning of a list where it has some. -/
def mapWhile (f : α → Option β) : List α → List β
  | [] => []
  | x :: xs =>
    match f x with
    | none => []
    | some y => y :: mapWhile f xs

/-- Where a function has no value behind an element without one, the beginning
    is everything. -/
theorem mapWhile_eq_filterMap {f : α → Option β} {xs : List α}
    (hends : xs.Pairwise (fun x y => f x = none → f y = none)) :
    mapWhile f xs = xs.filterMap f := by
  induction xs with
  | nil => rfl
  | cons x xs ih =>
    rw [pairwise_cons] at hends
    unfold mapWhile
    cases hx : f x with
    | none =>
      rw [filterMap_cons_none hx]
      exact (filterMap_eq_nil_iff.mpr (fun y hy => hends.1 y hy hx)).symm
    | some y => rw [filterMap_cons_some hx, ih hends.2]

/-- A scan may start behind elements without a value. -/
theorem filterMap_dropWhile {f : α → Option β} {p : α → Bool} (hskip : ∀ x, p x = true → f x = none)
    (xs : List α) : (xs.dropWhile p).filterMap f = xs.filterMap f := by
  induction xs with
  | nil => rfl
  | cons x xs ih =>
    by_cases hx : p x = true
    · rw [dropWhile_cons_of_pos hx, ih, filterMap_cons_none (hskip x hx)]
    · rw [dropWhile_cons_of_neg hx]

/-- Dropping the small elements off a sorted list leaves none. -/
theorem le_of_mem_dropWhile {γ : Type} [LinearOrder γ] {key : α → γ} {low : γ} {p : α → Bool}
    (hsmall : ∀ x, p x = true ↔ key x < low) {xs : List α}
    (hsorted : xs.Pairwise (fun x y => key x < key y)) : ∀ x ∈ xs.dropWhile p, low ≤ key x := by
  induction xs with
  | nil => exact fun x hx => absurd hx not_mem_nil
  | cons first xs ih =>
    rw [pairwise_cons] at hsorted
    by_cases hfirst : p first = true
    · rw [dropWhile_cons_of_pos hfirst]
      exact ih hsorted.2
    rw [dropWhile_cons_of_neg hfirst]
    have hlow : low ≤ key first := not_lt.mp (fun h => hfirst ((hsmall first).mpr h))
    intro x hx
    rcases mem_cons.mp hx with rfl | hlater
    · exact hlow
    · exact hlow.trans (hsorted.1 x hlater).le

end Ranges

section First

variable {α β : Type}

theorem findSome?_flatMap {γ : Type} (f : β → Option γ) (g : α → List β) (xs : List α) :
    (xs.flatMap g).findSome? f = xs.findSome? (fun x => (g x).findSome? f) := by
  induction xs with
  | nil => rfl
  | cons x xs ih =>
    rw [flatMap_cons, findSome?_append, findSome?_cons, ih]
    cases (g x).findSome? f <;> rfl

/-- A search that keeps every answer of another one answers the same, or stops
    earlier where the other one had no answer. -/
theorem findSome?_of_kept {f g : α → Option β} {xs : List α} {b : β}
    (hkept : ∀ x ∈ xs, ∀ b, f x = some b → g x = some b) (h : xs.findSome? f = some b) :
    xs.findSome? g = some b ∨
      ∃ x ∈ xs, ∃ c, f x = none ∧ g x = some c ∧ xs.findSome? g = some c := by
  induction xs with
  | nil => cases h
  | cons x xs ih =>
    rw [forall_mem_cons] at hkept
    rw [findSome?_cons] at h ⊢
    cases hf : f x with
    | some found =>
      rw [hf] at h
      rw [hkept.1 found hf]
      exact .inl h
    | none =>
      rw [hf] at h
      cases hg : g x with
      | some found => exact .inr ⟨x, mem_cons_self, found, hf, hg, rfl⟩
      | none =>
        rcases ih hkept.2 h with hsame | ⟨y, hy, c, hfy, hgy, hfirst⟩
        · exact .inl hsame
        · exact .inr ⟨y, mem_cons_of_mem x hy, c, hfy, hgy, hfirst⟩

/-- The first answer of a sorted search is before every other one. -/
theorem findSome?_first {R : α → α → Prop} {f : α → Option β} {xs : List α} {b : β}
    (hsorted : xs.Pairwise R) (h : xs.findSome? f = some b) :
    ∃ x ∈ xs, f x = some b ∧ ∀ y ∈ xs, (f y).isSome = true → y = x ∨ R x y := by
  rcases findSome?_eq_some_iff.mp h with ⟨before, x, after, rfl, hx, hnone⟩
  refine ⟨x, mem_append_right _ mem_cons_self, hx, fun y hy hanswers => ?_⟩
  rcases mem_append.mp hy with hbefore | hafter
  · rw [hnone y hbefore] at hanswers
    cases hanswers
  · rcases mem_cons.mp hafter with rfl | hafter
    · exact .inl rfl
    · have hrest := (pairwise_append.mp hsorted).2.1
      exact .inr ((pairwise_cons.mp hrest).1 y hafter)

end First

end Amiss
