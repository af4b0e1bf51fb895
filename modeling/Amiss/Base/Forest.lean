import Mathlib

/-!
# Parent Forests

A disjoint-set forest kept as one list of parent positions, where a parent is
never above its child. That single fact makes every chain of parents descend,
so it stands in for the rank of the usual structure: it bounds the search, and
it makes the root of a class the least position in it.

`findRoot` walks to the root and halves the path on the way, pointing each
second position at its grandparent. `unite` joins two classes by hanging the
larger root under the smaller. Both are partial because a position may lie
outside the list, and `findRoot` takes the number of steps it may spend;
`findRoot_spec` says that more steps than the position is always enough.

What the lists mean is `root`, the end of the parent chain. Two ways of
changing one parent matter, halving and linking, and both are settled by
`root_eq_of_invariant`: a function that is constant along parents and fixes
the roots is `root`. Nothing outside this module unfolds a parent list.

`uniteAll_spec` is the interface. Starting from singletons, a list of unions
leaves two positions under one root exactly when the unions connect them.

## Main definitions

* `Descending`: No parent lies above its child.
* `root`: The end of the parent chain.
* `findRoot`: Walking to the root with path halving.
* `link`: Hanging one root under another.
* `unite`: Joining the classes of two positions.
* `Connected`: The connectivity a list of edges generates.

## Theorems

* `root_eq_of_invariant`: What determines the root of every position.
* `findRoot_spec`: The walk finds the root and moves no class.
* `link_spec`: Linking two roots merges exactly their classes.
* `unite_spec`: A union merges exactly two classes.
* `uniteAll_spec`: Unions from singletons generate the connectivity.
-/

namespace Amiss

open List

namespace Forest

variable (parents : List Nat)

/-- No parent lies above its child. -/
def Descending : Prop :=
  ∀ i p : Nat, parents[i]? = some p → p ≤ i

/-- The parent of a position, itself outside the list. -/
def parentOf (i : Nat) : Nat := parents[i]?.getD i

/-- The end of the parent chain. -/
def root (parents : List Nat) (i : Nat) : Nat :=
  if parentOf parents i < i then root parents (parentOf parents i) else i
termination_by i

/-- Walk to the root, halving the path. `none` when a position lies outside
    the list or the steps run out. -/
def findRoot : Nat → List Nat → Nat → Option (Nat × List Nat)
  | 0, _, _ => none
  | fuel + 1, parents, position =>
    match parents[position]? with
    | none => none
    | some parent =>
      match parents[parent]? with
      | none => none
      | some grandparent =>
        if parent = grandparent then some (parent, parents)
        else findRoot fuel (parents.set position grandparent) parent

/-- Hang the larger of two roots under the smaller. -/
def link (leftRoot rightRoot : Nat) : Option (List Nat) :=
  if leftRoot = rightRoot then some parents
  else if max leftRoot rightRoot < parents.length then
    some (parents.set (max leftRoot rightRoot) (min leftRoot rightRoot))
  else none

/-- Join the classes of two positions. -/
def unite (left right : Nat) : Option (List Nat) := do
  let (leftRoot, parents) ← findRoot (parents.length + 1) parents left
  let (rightRoot, parents) ← findRoot (parents.length + 1) parents right
  link parents leftRoot rightRoot

/-- A sequence of unions. -/
def uniteAll (edges : List (Nat × Nat)) (parents : List Nat) : Option (List Nat) :=
  edges.foldlM (fun parents edge => unite parents edge.1 edge.2) parents

section Root

variable {parents : List Nat}

theorem parentOf_le (hd : Descending parents) (i : Nat) : parentOf parents i ≤ i := by
  unfold parentOf
  cases h : parents[i]? with
  | none => exact le_refl i
  | some p => exact hd i p h

theorem parentOf_set (parents : List Nat) (i v j : Nat) (hi : i < parents.length) :
    parentOf (parents.set i v) j = if j = i then v else parentOf parents j := by
  unfold parentOf
  rw [getElem?_set]
  by_cases hji : j = i
  · subst hji
    simp [hi]
  · rw [if_neg (fun hc => hji hc.symm), if_neg hji]

theorem descending_set (hd : Descending parents) (i v : Nat) (hv : v ≤ i) :
    Descending (parents.set i v) := by
  intro j p hj
  rw [getElem?_set] at hj
  by_cases hij : i = j
  · rw [if_pos hij] at hj
    split at hj
    · simp only [Option.some.injEq] at hj
      omega
    · cases hj
  · rw [if_neg hij] at hj
    exact hd j p hj

theorem root_of_fixed {i : Nat} (h : parentOf parents i = i) : root parents i = i := by
  rw [root, if_neg (by omega)]

/-- A function constant along parents that fixes the roots is the root. -/
theorem root_eq_of_invariant (hd : Descending parents) (f : Nat → Nat)
    (hstep : ∀ i, f (parentOf parents i) = f i)
    (hfix : ∀ r, parentOf parents r = r → f r = r) : ∀ i, root parents i = f i := by
  intro i
  induction i using Nat.strong_induction_on with
  | _ i ih =>
    rw [root]
    by_cases hlt : parentOf parents i < i
    · rw [if_pos hlt, ih _ hlt, hstep]
    · rw [if_neg hlt]
      have hle := parentOf_le hd i
      exact (hfix i (by omega)).symm

theorem root_le (parents : List Nat) : ∀ i, root parents i ≤ i := by
  intro i
  induction i using Nat.strong_induction_on with
  | _ i ih =>
    rw [root]
    by_cases hlt : parentOf parents i < i
    · rw [if_pos hlt]
      exact (ih _ hlt).trans hlt.le
    · rw [if_neg hlt]

theorem root_parentOf (hd : Descending parents) (i : Nat) :
    root parents (parentOf parents i) = root parents i := by
  conv_rhs => rw [root]
  by_cases hlt : parentOf parents i < i
  · rw [if_pos hlt]
  · have hle := parentOf_le hd i
    have hfix : parentOf parents i = i := by omega
    rw [if_neg hlt, root_of_fixed (by rw [hfix, hfix]), hfix]

theorem parentOf_root (hd : Descending parents) (i : Nat) :
    parentOf parents (root parents i) = root parents i := by
  induction i using Nat.strong_induction_on with
  | _ i ih =>
    rw [root]
    by_cases hlt : parentOf parents i < i
    · rw [if_pos hlt]
      exact ih _ hlt
    · rw [if_neg hlt]
      have hle := parentOf_le hd i
      omega

/-- Halving: pointing a position at its grandparent moves no root. -/
theorem root_set_grandparent (hd : Descending parents) (i : Nat) (hi : i < parents.length) :
    ∀ j, root (parents.set i (parentOf parents (parentOf parents i))) j = root parents j := by
  have hle := parentOf_le hd i
  have hle2 := parentOf_le hd (parentOf parents i)
  refine root_eq_of_invariant (descending_set hd i _ (by omega)) _ (fun j => ?_) (fun r hr => ?_)
  · rw [parentOf_set _ _ _ _ hi]
    by_cases hji : j = i
    · rw [if_pos hji, hji, root_parentOf hd, root_parentOf hd]
    · rw [if_neg hji, root_parentOf hd]
  · rw [parentOf_set _ _ _ _ hi] at hr
    by_cases hri : r = i
    · rw [if_pos hri] at hr
      exact root_of_fixed (by rw [hri]; omega)
    · rw [if_neg hri] at hr
      exact root_of_fixed hr

/-- Linking: hanging one root under a smaller one moves exactly its class. -/
theorem root_set_root (hd : Descending parents) (child r : Nat)
    (hchild : parentOf parents child = child) (hr : parentOf parents r = r) (hlt : r < child)
    (hin : child < parents.length) :
    ∀ j, root (parents.set child r) j = if root parents j = child then r else root parents j := by
  refine root_eq_of_invariant (descending_set hd child r hlt.le) _ (fun j => ?_) (fun x hx => ?_)
  · rw [parentOf_set _ _ _ _ hin]
    by_cases hj : j = child
    · rw [if_pos hj, hj, root_of_fixed hchild, root_of_fixed hr, if_neg (by omega), if_pos rfl]
    · rw [if_neg hj, root_parentOf hd]
  · rw [parentOf_set _ _ _ _ hin] at hx
    by_cases hxc : x = child
    · rw [if_pos hxc] at hx
      omega
    · rw [if_neg hxc] at hx
      rw [root_of_fixed hx, if_neg hxc]

end Root

/-- A forest that means what another means: same size, same roots. -/
structure Refines (parents' parents : List Nat) : Prop where
  descending : Descending parents'
  length_eq : parents'.length = parents.length
  root_eq : ∀ j, root parents' j = root parents j

/-- The walk ends at the root with more steps than the position, and the
    halving on the way leaves the roots alone. Each step that does not return
    strictly descends, because a position equal to its parent is its own
    grandparent. -/
theorem findRoot_spec : ∀ (fuel : Nat) (parents : List Nat) (position : Nat),
    Descending parents → position < parents.length → position < fuel →
    ∃ parents', findRoot fuel parents position = some (root parents position, parents') ∧
      Refines parents' parents := by
  intro fuel
  induction fuel with
  | zero => intro parents position _ _ hf; omega
  | succ fuel ih =>
    intro parents position hd hin hf
    have hget : parents[position]? = some (parentOf parents position) := by
      simp [parentOf, getElem?_eq_getElem hin]
    have hle := parentOf_le hd position
    have hin2 : parentOf parents position < parents.length := by omega
    have hget2 : parents[parentOf parents position]? =
        some (parentOf parents (parentOf parents position)) := by
      conv_rhs => rw [parentOf, getElem?_eq_getElem hin2, Option.getD_some]
      exact getElem?_eq_getElem hin2
    have hle2 := parentOf_le hd (parentOf parents position)
    simp only [findRoot, hget, hget2]
    by_cases heq : parentOf parents position = parentOf parents (parentOf parents position)
    · rw [if_pos heq]
      refine ⟨parents, ?_, hd, rfl, fun _ => rfl⟩
      rw [← root_parentOf hd, root_of_fixed heq.symm]
    · rw [if_neg heq]
      have hlt : parentOf parents position < position := by
        by_contra hc
        have hfix : parentOf parents position = position := by omega
        exact heq (by rw [hfix, hfix])
      rcases ih (parents.set position (parentOf parents (parentOf parents position)))
        (parentOf parents position) (descending_set hd _ _ (by omega))
        (by rw [length_set]; omega) (by omega) with ⟨parents', hfind, href⟩
      have hroot := root_set_grandparent hd position hin
      refine ⟨parents', ?_, href.descending, ?_, fun j => ?_⟩
      · rw [hfind, hroot, root_parentOf hd]
      · rw [href.length_eq, length_set]
      · rw [href.root_eq, hroot]

/-- Two positions share a class. -/
def Same (parents : List Nat) (i j : Nat) : Prop := root parents i = root parents j

/-- Linking two roots merges their classes and no others. -/
theorem link_spec (parents : List Nat) (left right : Nat) (hd : Descending parents)
    (hleft : left < parents.length) (hright : right < parents.length)
    (hfixL : parentOf parents left = left) (hfixR : parentOf parents right = right) :
    ∃ parents', link parents left right = some parents' ∧ Descending parents' ∧
      parents'.length = parents.length ∧
      ∀ i j, Same parents' i j ↔ Same parents i j ∨
        (root parents i = left ∧ root parents j = right) ∨
        (root parents i = right ∧ root parents j = left) := by
  unfold link
  by_cases heq : left = right
  · rw [if_pos heq]
    refine ⟨parents, rfl, hd, rfl, fun i j => ?_⟩
    subst heq
    constructor
    · exact Or.inl
    · rintro (h | ⟨h1, h2⟩ | ⟨h1, h2⟩)
      · exact h
      · exact h1.trans h2.symm
      · exact h1.trans h2.symm
  · rw [if_neg heq, if_pos (by omega)]
    refine ⟨_, rfl, descending_set hd _ _ (by omega), length_set, fun i j => ?_⟩
    -- Which of the two roots is the child does not matter to the classes.
    rcases Nat.lt_or_ge left right with hlt | hge
    · rw [max_eq_right hlt.le, min_eq_left hlt.le]
      have hset := root_set_root hd _ _ hfixR hfixL hlt hright
      simp only [Same, hset]
      split <;> split <;> grind
    · rw [max_eq_left hge, min_eq_right hge]
      have hset := root_set_root hd _ _ hfixL hfixR (by omega) hleft
      simp only [Same, hset]
      split <;> split <;> grind

/-- A union merges the classes of its two positions and no others. -/
theorem unite_spec (parents : List Nat) (left right : Nat) (hd : Descending parents)
    (hleft : left < parents.length) (hright : right < parents.length) :
    ∃ parents', unite parents left right = some parents' ∧ Descending parents' ∧
      parents'.length = parents.length ∧
      ∀ i j, Same parents' i j ↔ Same parents i j ∨ (Same parents i left ∧ Same parents j right) ∨
        (Same parents i right ∧ Same parents j left) := by
  rcases findRoot_spec (parents.length + 1) parents left hd hleft (by omega) with
    ⟨p1, hf1, hr1⟩
  rcases findRoot_spec (p1.length + 1) p1 right hr1.descending (by rw [hr1.length_eq]; exact hright)
    (by rw [hr1.length_eq]; omega) with ⟨p2, hf2, hr2⟩
  have hroot : ∀ j, root p2 j = root parents j := fun j => by rw [hr2.root_eq, hr1.root_eq]
  have hlen : p2.length = parents.length := by rw [hr2.length_eq, hr1.length_eq]
  have hfix : ∀ i, parentOf p2 (root parents i) = root parents i := fun i => by
    rw [← hroot]; exact parentOf_root hr2.descending i
  have hin : ∀ i, i < parents.length → root parents i < p2.length := fun i hi => by
    rw [hlen]; exact (root_le parents i).trans_lt hi
  rcases link_spec p2 _ _ hr2.descending (hin left hleft) (hin right hright) (hfix left)
    (hfix right) with ⟨parents', hlink, hd', hlen', hsame⟩
  refine ⟨parents', ?_, hd', hlen'.trans hlen, fun i j => ?_⟩
  · simp [unite, hf1, hf2, hr1.root_eq, hlink]
  · simp only [Same, hroot] at hsame ⊢
    exact hsame i j

/-- The singletons: every position its own root. -/
theorem descending_range (n : Nat) : Descending (List.range n) := by
  intro i p h
  rw [getElem?_eq_some_iff] at h
  rcases h with ⟨hi, h⟩
  rw [getElem_range] at h
  omega

theorem root_range (n i : Nat) : root (List.range n) i = i := by
  refine root_of_fixed ?_
  unfold parentOf
  by_cases hi : i < n
  · rw [getElem?_range hi, Option.getD_some]
  · rw [getElem?_eq_none (by rw [length_range]; omega), Option.getD_none]

/-- The connectivity that a list of edges generates. -/
def Connected {α : Type} (edges : List (α × α)) : α → α → Prop :=
  Relation.EqvGen (fun i j => (i, j) ∈ edges)

theorem connected_equivalence {α : Type} (edges : List (α × α)) :
    Equivalence (Connected edges) :=
  Relation.EqvGen.is_equivalence _

/-- Connectivity is the least equivalence that relates the ends of every edge,
    also along a map. -/
theorem Connected.lift {α β : Type} {edges : List (α × α)} {R : β → β → Prop}
    (hequiv : Equivalence R) (f : α → β) (hf : ∀ e ∈ edges, R (f e.1) (f e.2)) {i j : α}
    (h : Connected edges i j) : R (f i) (f j) := by
  induction h with
  | rel x y hxy => exact hf (x, y) hxy
  | refl x => exact hequiv.refl _
  | symm x y _ ih => exact hequiv.symm ih
  | trans x y z _ _ ih1 ih2 => exact hequiv.trans ih1 ih2

/-- One more edge connects two positions that were connected, or that the
    edge joins in either direction. -/
theorem connected_concat (edges : List (Nat × Nat)) (left right i j : Nat) :
    Connected (edges ++ [(left, right)]) i j ↔ Connected edges i j ∨
      (Connected edges i left ∧ Connected edges j right) ∨
      (Connected edges i right ∧ Connected edges j left) := by
  have hequiv := connected_equivalence edges
  constructor
  · intro h
    induction h with
    | rel x y hxy =>
      rw [mem_append, mem_singleton, Prod.mk.injEq] at hxy
      rcases hxy with hmem | ⟨rfl, rfl⟩
      · exact Or.inl (Relation.EqvGen.rel x y hmem)
      · exact Or.inr (Or.inl ⟨hequiv.refl _, hequiv.refl _⟩)
    | refl x => exact Or.inl (hequiv.refl x)
    | symm x y _ ih =>
      rcases ih with h | ⟨h1, h2⟩ | ⟨h1, h2⟩
      · exact Or.inl (hequiv.symm h)
      · exact Or.inr (Or.inr ⟨h2, h1⟩)
      · exact Or.inr (Or.inl ⟨h2, h1⟩)
    | trans x y z _ _ ih1 ih2 =>
      -- Passing the new edge twice ends on the side it started from.
      rcases ih1 with h | ⟨h1, h2⟩ | ⟨h1, h2⟩ <;> rcases ih2 with k | ⟨k1, k2⟩ | ⟨k1, k2⟩
      · exact Or.inl (hequiv.trans h k)
      · exact Or.inr (Or.inl ⟨hequiv.trans h k1, k2⟩)
      · exact Or.inr (Or.inr ⟨hequiv.trans h k1, k2⟩)
      · exact Or.inr (Or.inl ⟨h1, hequiv.trans (hequiv.symm k) h2⟩)
      · exact Or.inl (hequiv.trans h1 (hequiv.trans (hequiv.symm k1)
          (hequiv.trans h2 (hequiv.symm k2))))
      · exact Or.inl (hequiv.trans h1 (hequiv.symm k2))
      · exact Or.inr (Or.inr ⟨h1, hequiv.trans (hequiv.symm k) h2⟩)
      · exact Or.inl (hequiv.trans h1 (hequiv.symm k2))
      · exact Or.inl (hequiv.trans h1 (hequiv.trans (hequiv.symm k1)
          (hequiv.trans h2 (hequiv.symm k2))))
  · have hmono : ∀ x y, Connected edges x y → Connected (edges ++ [(left, right)]) x y :=
      fun x y h => h.mono (fun a b hab => mem_append_left _ hab)
    have hequiv' := connected_equivalence (edges ++ [(left, right)])
    have hedge : Connected (edges ++ [(left, right)]) left right :=
      Relation.EqvGen.rel _ _ (mem_append_right _ (mem_singleton.mpr rfl))
    rintro (h | ⟨h1, h2⟩ | ⟨h1, h2⟩)
    · exact hmono _ _ h
    · exact hequiv'.trans (hmono _ _ h1) (hequiv'.trans hedge (hequiv'.symm (hmono _ _ h2)))
    · exact hequiv'.trans (hmono _ _ h1)
        (hequiv'.trans (hequiv'.symm hedge) (hequiv'.symm (hmono _ _ h2)))

/-- Unions from singletons: two positions share a root exactly when the edges
    connect them. The induction runs from the last edge backwards, which is
    the order the unions are applied in. -/
theorem uniteAll_spec (n : Nat) (edges : List (Nat × Nat)) (hin : ∀ e ∈ edges, e.1 < n ∧ e.2 < n) :
    ∃ parents, uniteAll edges (List.range n) = some parents ∧ Descending parents ∧
      parents.length = n ∧ ∀ i j, Same parents i j ↔ Connected edges i j := by
  induction edges using reverseRecOn with
  | nil =>
    refine ⟨List.range n, rfl, descending_range n, length_range, fun i j => ?_⟩
    simp only [Same, root_range, Connected, not_mem_nil]
    constructor
    · rintro rfl
      exact Relation.EqvGen.refl _
    intro h
    induction h with
    | rel _ _ h => exact absurd h id
    | refl _ => rfl
    | symm _ _ _ ih => exact ih.symm
    | trans _ _ _ _ _ ih1 ih2 => exact ih1.trans ih2
  | append_singleton edges e ih =>
    rcases ih (fun e he => hin e (mem_append_left _ he)) with
      ⟨parents, hrun, hd, hlen, hsame⟩
    have he := hin e (mem_append_right _ (mem_singleton.mpr rfl))
    rcases unite_spec parents e.1 e.2 hd (by omega) (by omega) with
      ⟨parents', hunite, hd', hlen', hsame'⟩
    refine ⟨parents', ?_, hd', by omega, fun i j => ?_⟩
    · unfold uniteAll at hrun ⊢
      rw [foldlM_append, hrun]
      simp [hunite]
    · rw [hsame', connected_concat, hsame, hsame, hsame, hsame, hsame]

end Forest

end Amiss
