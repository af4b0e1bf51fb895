import Mathlib

/-!
# Lists Split at a Separator

Splitting a list at a separator and joining the segments again are inverse to
each other. The facts here are about one segment at a time: the first segment
and the list behind it, which is how a text is read, and the last segment and
the list before it, which is how a path is walked up.

## Theorems

* `splitOn_induction`: Segment by segment from the front.
* `notMem_of_mem_splitOn`: A segment holds no separator.
* `intercalate_concat`: One more segment at the end.
-/

namespace Amiss

open List

variable {α : Type} {separator : α}

/-- One more segment at the end. -/
theorem intercalate_concat {segments : List (List α)} (h : segments ≠ []) (last : List α) :
    [separator].intercalate (segments ++ [last]) =
      [separator].intercalate segments ++ separator :: last := by
  induction segments with
  | nil => exact absurd rfl h
  | cons first segments ih =>
    cases segments with
    | nil =>
      rw [cons_append, nil_append, intercalate_cons_cons,
        intercalate_singleton, intercalate_singleton, append_assoc,
        singleton_append]
    | cons second segments =>
      have htail := ih (cons_ne_nil _ _)
      rw [cons_append, cons_append, intercalate_cons_cons,
        intercalate_cons_cons, ← cons_append, htail]
      simp

section Split

variable [DecidableEq α]

variable {xs : List α}

/-- A list is one segment, or a first segment with a list behind it. -/
theorem splitOn_induction (separator : α) {motive : List α → Prop}
    (single : ∀ xs, separator ∉ xs → motive xs)
    (more : ∀ first rest, separator ∉ first → motive rest → motive (first ++ separator :: rest))
    (xs : List α) : motive xs := by
  induction hlength : xs.length using Nat.strong_induction_on generalizing xs with
  | _ n ih =>
    by_cases hmem : separator ∈ xs
    · rcases eq_append_cons_of_mem hmem with ⟨first, rest, rfl, hfirst⟩
      refine more first rest hfirst (ih rest.length ?_ rest rfl)
      rw [← hlength, length_append, length_cons]
      omega
    · exact single xs hmem

theorem notMem_of_mem_splitOn : ∀ segment ∈ xs.splitOn separator, separator ∉ segment := by
  induction xs using splitOn_induction separator with
  | single xs h =>
    rw [splitOn_eq_singleton h]
    exact forall_mem_singleton.mpr h
  | more first rest hfirst ih =>
    rw [splitOn_append_cons_self_of_not_mem hfirst]
    exact forall_mem_cons.mpr ⟨hfirst, ih⟩

theorem mem_of_mem_splitOn {x : α} : ∀ segment ∈ xs.splitOn separator, x ∈ segment → x ∈ xs := by
  induction xs using splitOn_induction separator with
  | single xs h =>
    rw [splitOn_eq_singleton h]
    exact forall_mem_singleton.mpr id
  | more first rest hfirst ih =>
    rw [splitOn_append_cons_self_of_not_mem hfirst]
    refine forall_mem_cons.mpr ⟨mem_append_left _, ?_⟩
    intro segment hsegment hx
    exact mem_append_right _ (mem_cons_of_mem _ (ih segment hsegment hx))

/-- What the list holds besides separators, some segment holds. -/
theorem exists_mem_splitOn {x : α} (hx : x ∈ xs) (hne : x ≠ separator) :
    ∃ segment ∈ xs.splitOn separator, x ∈ segment := by
  induction xs using splitOn_induction separator with
  | single xs h =>
    rw [splitOn_eq_singleton h]
    exact ⟨xs, mem_singleton.mpr rfl, hx⟩
  | more first rest hfirst ih =>
    rw [splitOn_append_cons_self_of_not_mem hfirst]
    rcases mem_append.mp hx with hx | hx
    · exact ⟨first, mem_cons_self, hx⟩
    · rcases ih ((mem_cons.mp hx).resolve_left hne) with ⟨segment, hsegment, hx⟩
      exact ⟨segment, mem_cons_of_mem _ hsegment, hx⟩

end Split

end Amiss
