import Amiss.Base.Fallible

/-!
# Reading Lists from the Front

A reader takes a piece off the front of its input and keeps the rest. `cutAt`
takes what precedes a mark, `slice` is the checked range of a byte string, and
`consume` repeats a reader until nothing is left, with as many rounds as the
input is long; a reader that takes something each time never needs more.

The pieces that are names compare lexicographically. A list that is smaller
than another without beginning it stays smaller whatever is written behind
the two, which is what makes the order of names the order of the paths that
start with them.

## Main definitions

* `cutAt`: The input around the first mark.
* `slice`: A range of a list, where the list has it.
* `consume`: A reader repeated until its input is used up.

## Theorems

* `lt_append_of_not_isPrefix`: What follows a smaller list does not matter.
* `cutAt_eq_some_iff`: What lies around the first mark.
* `consume_flatMap`: Reading a run of pieces is a step for each.
* `consume_eq_ok_iff`: A reader of pieces reads exactly the runs of pieces.
-/

namespace Amiss

open List

section Order

variable {α : Type} [LinearOrder α]

/-- Where a list is smaller than another without beginning it, anything may
    follow the two. -/
theorem lt_append_of_not_isPrefix {xs ys : List α} (hlt : xs < ys) (hbegins : ¬ xs <+: ys)
    (us vs : List α) : xs ++ us < ys ++ vs := by
  induction xs generalizing ys with
  | nil => exact absurd nil_prefix hbegins
  | cons x xs ih =>
    cases ys with
    | nil => exact absurd hlt (not_lt_nil _)
    | cons y ys =>
      rw [cons_append, cons_append, cons_lt_cons_iff]
      rcases cons_lt_cons_iff.mp hlt with hxy | ⟨rfl, hrest⟩
      · exact Or.inl hxy
      · refine Or.inr ⟨rfl, ih hrest ?_⟩
        intro hbegin
        exact hbegins (cons_prefix_cons.mpr ⟨rfl, hbegin⟩)

theorem lt_append_of_ne_nil (xs : List α) {us : List α} (hne : us ≠ []) : xs < xs ++ us := by
  have hnil : ([] : List α) < us := by
    cases us with
    | nil => exact absurd rfl hne
    | cons u us => exact nil_lt_cons u us
  simpa only [append_nil] using append_left_lt hnil

/-- Behind one beginning the rest decides. -/
theorem lt_of_append_lt {xs us vs : List α} (h : xs ++ us < xs ++ vs) : us < vs := by
  rcases lt_trichotomy us vs with hlt | rfl | hgt
  · exact hlt
  · exact absurd h (lt_irrefl _)
  · exact absurd h (not_lt_of_gt (append_left_lt hgt))

end Order

/-- A beginning that passes the test stays within what passes it. -/
theorem isPrefix_takeWhile {α : Type} {p : α → Bool} {xs ys : List α} (hall : ∀ x ∈ xs, p x = true)
    (hpre : xs <+: ys) : xs <+: ys.takeWhile p := by
  induction xs generalizing ys with
  | nil => exact nil_prefix
  | cons x xs ih =>
    rcases hpre with ⟨rest, rfl⟩
    rw [forall_mem_cons] at hall
    rw [cons_append, takeWhile_cons, if_pos hall.1, cons_prefix_cons]
    exact ⟨rfl, ih hall.2 (prefix_append xs rest)⟩

section Cut

variable {α : Type} [DecidableEq α]

/-- What precedes the first mark and what follows it, none without a mark. -/
def cutAt (mark : α) (xs : List α) : Option (List α × List α) :=
  match xs.dropWhile (· ≠ mark) with
  | [] => none
  | _ :: rest => some (xs.takeWhile (· ≠ mark), rest)

variable {mark : α} {xs before : List α}

theorem cutAt_eq_some {after : List α} (h : cutAt mark xs = some (before, after)) :
    xs = before ++ mark :: after ∧ mark ∉ before := by
  unfold cutAt at h
  split at h
  · cases h
  · next byte rest hdrop =>
      cases h
      have hmark : byte = mark := by
        have hhead := head?_dropWhile_not (fun x => decide (x ≠ mark)) xs
        rw [hdrop] at hhead
        simpa using hhead
      constructor
      · rw [← hmark, ← hdrop, hmark]
        exact (takeWhile_append_dropWhile).symm
      · intro hmem
        have := mem_takeWhile_imp hmem
        simp only [ne_eq, not_true_eq_false, decide_false, Bool.false_eq_true] at this

theorem cutAt_append (hmark : mark ∉ before) (after : List α) :
    cutAt mark (before ++ mark :: after) = some (before, after) := by
  have hbefore : ∀ x ∈ before, decide (x ≠ mark) = true := by
    intro x hx
    refine decide_eq_true ?_
    rintro rfl
    exact hmark hx
  unfold cutAt
  rw [dropWhile_append_of_pos hbefore, takeWhile_append_of_pos hbefore]
  simp

theorem cutAt_eq_none_iff : cutAt mark xs = none ↔ mark ∉ xs := by
  constructor
  · intro h hmem
    rcases eq_append_cons_of_mem hmem with ⟨before, after, rfl, hbefore⟩
    rw [cutAt_append hbefore] at h
    cases h
  · intro hmark
    cases hcut : cutAt mark xs with
    | none => rfl
    | some parts =>
      refine absurd ?_ hmark
      rw [(cutAt_eq_some hcut).1]
      exact mem_append_right _ mem_cons_self

/-- The cut is at the first mark. -/
theorem cutAt_eq_some_iff {after : List α} :
    cutAt mark xs = some (before, after) ↔ xs = before ++ mark :: after ∧ mark ∉ before := by
  constructor
  · exact cutAt_eq_some
  · rintro ⟨rfl, hmark⟩
    exact cutAt_append hmark after

end Cut

/-- The elements from one position up to another, where the list has them. -/
def slice {α : Type} (xs : List α) (start stop : Nat) : Option (List α) :=
  if start ≤ stop ∧ stop ≤ xs.length then some ((xs.drop start).take (stop - start)) else none

/-- The elements behind a beginning of known length. -/
theorem slice_append {α : Type} (before : List α) {xs : List α} (after : List α) {start stop : Nat}
    (hstart : before.length = start) (hstop : start + xs.length = stop) :
    slice (before ++ (xs ++ after)) start stop = some xs := by
  subst hstart hstop
  have hwithin : before.length ≤ before.length + xs.length ∧
      before.length + xs.length ≤ (before ++ (xs ++ after)).length := by
    simp only [length_append]
    omega
  rw [slice, if_pos hwithin, drop_left, Nat.add_sub_cancel_left, take_left]

theorem slice_zero_eq_some_iff {α : Type} {xs ys : List α} {stop : Nat} :
    slice xs 0 stop = some ys ↔ ys.length = stop ∧ xs = ys ++ xs.drop stop := by
  constructor
  · intro h
    unfold slice at h
    split at h
    · next hwithin =>
        simp only [drop_zero, Nat.sub_zero, Option.some.injEq] at h
        subst h
        exact ⟨by rw [length_take, Nat.min_eq_left hwithin.2], (take_append_drop stop xs).symm⟩
    · cases h
  · rintro ⟨hlength, hxs⟩
    rw [hxs]
    exact slice_append [] (xs.drop stop) rfl (by omega)

section Consume

variable {σ α ε : Type}

/-- Repeat a reader until the input is used up, at most as many rounds as
    given. -/
def consume (read : σ → List α → Except ε (σ × List α)) : Nat → σ → List α → Except ε σ
  | _, s, [] => .ok s
  | 0, s, _ :: _ => .ok s
  | rounds + 1, s, x :: xs =>
    match read s (x :: xs) with
    | .error e => .error e
    | .ok (t, rest) => consume read rounds t rest

variable {β : Type}

/-- A reader that takes each written piece off the front steps through a run
    of them, and fails where a step fails. -/
theorem consume_flatMap {read : σ → List α → Except ε (σ × List α)} {write : β → List α}
    {step : σ → β → Except ε σ}
    (hread : ∀ s piece rest, read s (write piece ++ rest) = (step s piece).map (fun t => (t, rest)))
    (hwrite : ∀ piece, write piece ≠ []) :
    ∀ (pieces : List β) (rounds : Nat) (s : σ), (pieces.flatMap write).length ≤ rounds →
      consume read rounds s (pieces.flatMap write) = pieces.foldlM step s := by
  intro pieces
  induction pieces with
  | nil =>
    intro rounds s _
    cases rounds <;> rfl
  | cons piece pieces ih =>
    intro rounds s hlength
    have hpos : 0 < (write piece).length := length_pos_iff.mpr (hwrite piece)
    rw [flatMap_cons, length_append] at hlength
    cases rounds with
    | zero => omega
    | succ rounds =>
      rcases exists_cons_of_ne_nil (hwrite piece) with ⟨x, xs, hxs⟩
      have hone := hread s piece (pieces.flatMap write)
      rw [hxs, cons_append] at hone
      rw [flatMap_cons, foldlM_cons, hxs, cons_append, consume, hone]
      cases step s piece with
      | error e => rfl
      | ok t => exact ih rounds t (by omega)

/-- A reader that reads one piece a round, and only a piece that is well
    formed, reads exactly the runs of such pieces. Each piece is written with
    at least one element, so there are rounds enough for all of them. -/
theorem consume_eq_ok_iff {read : σ → List α → Except ε (σ × List α)} {write : β → List α}
    {wellFormed : β → Prop} {step : σ → β → Except ε σ}
    (hread : ∀ s xs t rest, read s xs = .ok (t, rest) ↔
      ∃ piece, wellFormed piece ∧ xs = write piece ++ rest ∧ step s piece = .ok t)
    (hwrite : ∀ piece, write piece ≠ []) :
    ∀ rounds s xs t, xs.length ≤ rounds → (consume read rounds s xs = .ok t ↔
      ∃ pieces : List β, (∀ piece ∈ pieces, wellFormed piece) ∧ xs = pieces.flatMap write ∧
        pieces.foldlM step s = .ok t) := by
  -- An input without elements is the run of no piece.
  have hnil : ∀ (s t : σ), (Except.ok s : Except ε σ) = .ok t ↔
      ∃ pieces : List β, (∀ piece ∈ pieces, wellFormed piece) ∧ [] = pieces.flatMap write ∧
        pieces.foldlM step s = .ok t := by
    intro s t
    constructor
    · intro h
      exact ⟨[], by simp, rfl, h⟩
    rintro ⟨pieces, -, hxs, hrun⟩
    cases pieces with
    | nil => exact hrun
    | cons piece pieces =>
      have hempty := (append_eq_nil_iff.mp (flatMap_cons ▸ hxs.symm)).1
      exact absurd hempty (hwrite piece)
  intro rounds
  induction rounds with
  | zero =>
    intro s xs t hlength
    rw [eq_nil_of_length_eq_zero (Nat.le_zero.mp hlength)]
    exact hnil s t
  | succ rounds ih =>
    intro s xs t hlength
    cases xs with
    | nil => exact hnil s t
    | cons x xs =>
      -- What a round leaves is shorter by at least one element.
      have hshorter : ∀ {piece rest}, x :: xs = write piece ++ rest → rest.length ≤ rounds := by
        intro piece rest hxs
        have hpos : 0 < (write piece).length := length_pos_iff.mpr (hwrite piece)
        have hsum := congrArg List.length hxs
        rw [length_append] at hsum
        omega
      rw [consume]
      constructor
      · intro h
        split at h
        · cases h
        · next u rest hone =>
            rcases (hread _ _ _ _).mp hone with ⟨piece, hok, hxs, hstep⟩
            rcases (ih u rest t (hshorter hxs)).mp h with ⟨pieces, hall, hrest, hrun⟩
            refine ⟨piece :: pieces, ?_, ?_, ?_⟩
            · exact forall_mem_cons.mpr ⟨hok, hall⟩
            · rw [flatMap_cons, ← hrest, hxs]
            · rw [foldlM_cons, hstep]
              exact hrun
      · rintro ⟨pieces, hall, hxs, hrun⟩
        cases pieces with
        | nil => cases hxs
        | cons piece pieces =>
          rw [flatMap_cons] at hxs
          rw [foldlM_cons] at hrun
          rcases forall_mem_cons.mp hall with ⟨hok, hall⟩
          cases hstep : step s piece with
          | error e =>
            rw [hstep] at hrun
            cases hrun
          | ok u =>
            rw [hstep, Fallible.ok_bind] at hrun
            rw [(hread s (x :: xs) u (pieces.flatMap write)).mpr ⟨piece, hok, hxs, hstep⟩]
            exact (ih u _ t (hshorter hxs)).mpr ⟨pieces, hall, rfl, hrun⟩

end Consume

end Amiss
