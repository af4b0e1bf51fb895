import Amiss.Base.Entries

/-!
# Worklists

Walking a graph from a frontier. Each round takes one element off the frontier,
and every admitted successor that carries no mark yet is marked and put on it.
The graph may be cyclic: an element joins the frontier at most once after the
start, since it is marked when it does.

The marks may live inside a larger state, so a walk is over a `Marks`: how the
state is asked for a mark and how it gets one. A walk whose marks go into a
table that earlier walks filled is one over the table.

When the frontier is empty the marks are what the seeds reach in one step or
more, and nothing in that description depends on an order. `has_drain_iff`
states it for as many rounds as the frontier and the markable elements are.

## Main definitions

* `Marks`: A state that marks elements.
* `Marks.reach`, `Marks.drain`: One successor, and the walk.
* `Reached`: What some seeds reach.
* `Marks.Walked`: What holds between two rounds.

## Theorems

* `has_foldl_reach`, `mem_foldl_reach`: What one round does.
* `Walked.drain`: Rounds keep the invariant.
* `drain_empties`: Enough rounds empty the frontier.
* `has_drain_iff`: What is marked in the end.
-/

namespace Amiss

open Std.ExtTreeSet

/-- A state that marks elements. -/
structure Marks (α σ : Type) where
  has : σ → α → Bool
  mark : σ → α → σ
  has_mark : ∀ (state : σ) (a b : α), has (mark state a) b = true ↔ b = a ∨ has state b = true

/-- A set as its own marks. -/
def setMarks (α : Type) [LinearOrder α] : Marks α (BTreeSet α) where
  has set a := set.contains a
  mark set a := set.insert a
  has_mark set a b := by
    rw [contains_iff_mem, contains_iff_mem, mem_inserted, eq_comm]

theorem setMarks_empty {α : Type} [LinearOrder α] (a : α) : (setMarks α).has ∅ a = false := by
  change (∅ : BTreeSet α).contains a = false
  exact contains_empty

section Walk

variable {α σ : Type} (marks : Marks α σ) (admits : α → Bool) (edges : α → List α)

/-- One successor: it joins the frontier where it is admitted and unmarked. -/
def Marks.reach (state : List α × σ) (target : α) : List α × σ :=
  if admits target && !marks.has state.2 target then
    (target :: state.1, marks.mark state.2 target)
  else state

/-- The walk, the last element of the frontier first. -/
def Marks.drain : Nat → List α × σ → List α × σ
  | 0, state => state
  | _ + 1, ([], found) => ([], found)
  | rounds + 1, (element :: frontier, found) =>
    drain rounds ((edges element).foldl (marks.reach admits) (frontier, found))

/-- An edge the walk follows. -/
def LeadsTo (element target : α) : Prop := target ∈ edges element ∧ admits target = true

/-- Some seed reaches the element in one step or more. -/
def Reached (seeds : List α) (target : α) : Prop :=
  ∃ seed ∈ seeds, Relation.TransGen (LeadsTo admits edges) seed target

variable {marks admits edges}

/-! ### One round -/

theorem has_foldl_reach (targets : List α) (state : List α × σ) (b : α) :
    marks.has (targets.foldl (marks.reach admits) state).2 b = true ↔
      marks.has state.2 b = true ∨ b ∈ targets ∧ admits b = true := by
  induction targets generalizing state with
  | nil => simp
  | cons target targets ih =>
    rw [List.foldl_cons, ih, List.mem_cons]
    unfold Marks.reach
    split
    next h =>
      rw [Bool.and_eq_true] at h
      rw [marks.has_mark]
      constructor
      · rintro ((rfl | hold) | hlater)
        · exact .inr ⟨.inl rfl, h.1⟩
        · exact .inl hold
        · exact .inr ⟨.inr hlater.1, hlater.2⟩
      · rintro (hold | ⟨rfl | hlater, hadmitted⟩)
        · exact .inl (.inr hold)
        · exact .inl (.inl rfl)
        · exact .inr ⟨hlater, hadmitted⟩
    next h =>
      constructor
      · rintro (hold | hlater)
        · exact .inl hold
        · exact .inr ⟨.inr hlater.1, hlater.2⟩
      · rintro (hold | ⟨rfl | hlater, hadmitted⟩)
        · exact .inl hold
        -- An admitted target that did not join was marked before.
        · rw [hadmitted, Bool.true_and, Bool.not_eq_true', Bool.not_eq_false] at h
          exact .inl h
        · exact .inr ⟨hlater, hadmitted⟩

theorem mem_foldl_reach (targets : List α) (state : List α × σ) (b : α) :
    b ∈ (targets.foldl (marks.reach admits) state).1 ↔
      b ∈ state.1 ∨ b ∈ targets ∧ admits b = true ∧ marks.has state.2 b = false := by
  induction targets generalizing state with
  | nil => simp
  | cons target targets ih =>
    rw [List.foldl_cons, ih, List.mem_cons]
    unfold Marks.reach
    split
    next h =>
      rw [Bool.and_eq_true, Bool.not_eq_true'] at h
      have hmark : marks.has (marks.mark state.2 target) b = false ↔
          b ≠ target ∧ marks.has state.2 b = false := by
        rw [← Bool.not_eq_true, marks.has_mark, not_or, Bool.not_eq_true]
      rw [List.mem_cons, hmark]
      constructor
      · rintro ((rfl | hold) | ⟨hlater, hadmitted, -, hunmarked⟩)
        · exact .inr ⟨.inl rfl, h⟩
        · exact .inl hold
        · exact .inr ⟨.inr hlater, hadmitted, hunmarked⟩
      · rintro (hold | ⟨rfl | hlater, hadmitted, hunmarked⟩)
        · exact .inl (.inr hold)
        · exact .inl (.inl rfl)
        · by_cases hsame : b = target
          · exact .inl (.inl hsame)
          · exact .inr ⟨hlater, hadmitted, hsame, hunmarked⟩
    next h =>
      constructor
      · rintro (hold | ⟨hlater, hrest⟩)
        · exact .inl hold
        · exact .inr ⟨.inr hlater, hrest⟩
      · rintro (hold | ⟨rfl | hlater, hadmitted, hunmarked⟩)
        · exact .inl hold
        · rw [hadmitted, hunmarked] at h
          exact absurd rfl h
        · exact .inr ⟨hlater, hadmitted, hunmarked⟩

/-! ### The invariant -/

/-- Between two rounds: what is marked is reached, and what is marked or a seed
    is still ahead or has all its successors marked. -/
structure Marks.Walked (marks : Marks α σ) (admits : α → Bool) (edges : α → List α)
    (seeds : List α) (state : List α × σ) : Prop where
  pending : ∀ a ∈ state.1, a ∈ seeds ∨ marks.has state.2 a = true
  sound : ∀ b, marks.has state.2 b = true → Reached admits edges seeds b
  closed : ∀ a, a ∈ seeds ∨ marks.has state.2 a = true →
    a ∈ state.1 ∨ ∀ b, LeadsTo admits edges a b → marks.has state.2 b = true

variable {seeds : List α}

theorem Reached.step {a b : α} (ha : a ∈ seeds ∨ Reached admits edges seeds a)
    (hstep : LeadsTo admits edges a b) : Reached admits edges seeds b := by
  rcases ha with hseed | ⟨seed, hseed, hpath⟩
  · exact ⟨a, hseed, .single hstep⟩
  · exact ⟨seed, hseed, hpath.tail hstep⟩

variable {found : σ}

theorem Marks.Walked.round {frontier : List α} {element : α}
    (h : marks.Walked admits edges seeds (element :: frontier, found)) :
    marks.Walked admits edges seeds
      ((edges element).foldl (marks.reach admits) (frontier, found)) where
  pending a ha := by
    rw [has_foldl_reach]
    rcases (mem_foldl_reach _ _ a).mp ha with hahead | ⟨htarget, hadmitted, -⟩
    · exact (h.pending a (List.mem_cons_of_mem _ hahead)).imp_right .inl
    · exact .inr (.inr ⟨htarget, hadmitted⟩)
  sound b hb := by
    rcases (has_foldl_reach _ _ b).mp hb with hold | hnew
    · exact h.sound b hold
    · exact Reached.step ((h.pending element List.mem_cons_self).imp_right (h.sound element)) hnew
  closed a ha := by
    rw [mem_foldl_reach]
    simp only [has_foldl_reach]
    simp only [has_foldl_reach] at ha
    by_cases hbefore : a ∈ seeds ∨ marks.has found a = true
    · rcases h.closed a hbefore with hahead | hclosed
      · rcases List.mem_cons.mp hahead with rfl | hahead
        · exact .inr (fun b hb => .inr hb)
        · exact .inl (.inl hahead)
      · exact .inr (fun b hb => .inl (hclosed b hb))
    · -- A new mark is ahead.
      rw [not_or, Bool.not_eq_true] at hbefore
      rcases ha with hseed | hold | ⟨htarget, hadmitted⟩
      · exact absurd hseed hbefore.1
      · rw [hbefore.2] at hold
        cases hold
      · exact .inl (.inr ⟨htarget, hadmitted, hbefore.2⟩)

variable {state : List α × σ}

theorem Marks.Walked.drain (rounds : Nat) (h : marks.Walked admits edges seeds state) :
    marks.Walked admits edges seeds (marks.drain admits edges rounds state) := by
  induction rounds generalizing state with
  | zero => exact h
  | succ rounds ih =>
    rcases state with ⟨_ | ⟨element, frontier⟩, found⟩
    · exact h
    · exact ih h.round

/-- With nothing ahead the marks are what the seeds reach. -/
theorem Marks.Walked.has_iff (h : marks.Walked admits edges seeds state) (hdone : state.1 = [])
    (b : α) : marks.has state.2 b = true ↔ Reached admits edges seeds b := by
  have hclosed : ∀ a, a ∈ seeds ∨ marks.has state.2 a = true →
      ∀ b, LeadsTo admits edges a b → marks.has state.2 b = true := by
    intro a ha
    refine (h.closed a ha).resolve_left ?_
    rw [hdone]
    exact List.not_mem_nil
  refine ⟨h.sound b, ?_⟩
  rintro ⟨seed, hseed, hpath⟩
  induction hpath with
  | single hstep => exact hclosed seed (.inl hseed) _ hstep
  | tail _ hstep ih => exact hclosed _ (.inr ih) _ hstep

/-! ### Rounds -/

/-- The elements still without a mark. -/
def Marks.unmarked (marks : Marks α σ) (whole : List α) (found : σ) : List α :=
  whole.filter (fun a => !marks.has found a)

variable {whole : List α}

theorem unmarked_mark_lt {a : α} (hmem : a ∈ whole) (hunmarked : marks.has found a = false) :
    (marks.unmarked whole (marks.mark found a)).length < (marks.unmarked whole found).length := by
  have hfiltered : marks.unmarked whole (marks.mark found a) =
      (marks.unmarked whole found).filter (fun b => !marks.has (marks.mark found a) b) := by
    unfold Marks.unmarked
    rw [List.filter_filter]
    refine List.filter_congr (fun b _ => ?_)
    cases hmark : marks.has (marks.mark found a) b with
    | true => rfl
    | false =>
      have hbefore : marks.has found b = false := by
        by_contra hmarked
        have hkept := (marks.has_mark found a b).mpr (.inr (Bool.not_eq_false _ ▸ hmarked))
        rw [hmark] at hkept
        cases hkept
      rw [hbefore]
      rfl
  rw [hfiltered, List.length_filter_lt_length_iff_exists]
  refine ⟨a, List.mem_filter.mpr ⟨hmem, by rw [hunmarked]; rfl⟩, ?_⟩
  rw [(marks.has_mark found a a).mpr (.inl rfl)]
  simp

/-- A round adds to the frontier only what it takes from the unmarked. -/
theorem foldl_reach_length {whole targets : List α}
    (hwhole : ∀ b ∈ targets, admits b = true → b ∈ whole) (state : List α × σ) :
    (targets.foldl (marks.reach admits) state).1.length +
        (marks.unmarked whole (targets.foldl (marks.reach admits) state).2).length ≤
      state.1.length + (marks.unmarked whole state.2).length := by
  induction targets generalizing state with
  | nil => exact le_refl _
  | cons target targets ih =>
    rw [List.forall_mem_cons] at hwhole
    rw [List.foldl_cons]
    refine (ih hwhole.2 _).trans ?_
    unfold Marks.reach
    split
    next h =>
      rw [Bool.and_eq_true, Bool.not_eq_true'] at h
      have hless := unmarked_mark_lt (hwhole.1 h.1) h.2
      rw [List.length_cons]
      dsimp only
      omega
    next => exact le_refl _

/-- As many rounds as the frontier and the unmarked elements are empty the
    frontier. -/
theorem drain_empties (hwhole : ∀ a b, LeadsTo admits edges a b → b ∈ whole) (rounds : Nat)
    (state : List α × σ)
    (hrounds : state.1.length + (marks.unmarked whole state.2).length ≤ rounds) :
    (marks.drain admits edges rounds state).1 = [] := by
  induction rounds generalizing state with
  | zero => exact List.length_eq_zero_iff.mp (show state.1.length = 0 by omega)
  | succ rounds ih =>
    rcases state with ⟨_ | ⟨element, frontier⟩, found⟩
    · rfl
    refine ih _ ?_
    have hround := @foldl_reach_length α σ marks admits whole (edges element)
      (fun b hb hadmitted => hwhole element b ⟨hb, hadmitted⟩) (frontier, found)
    rw [List.length_cons] at hrounds
    dsimp only at hround hrounds
    omega

/-- A walk from seeds, over marks that its own earlier walks left, marks what
    the seeds reach. -/
theorem has_drain_iff {rounds : Nat} (hwhole : ∀ a b, LeadsTo admits edges a b → b ∈ whole)
    (hfound : marks.Walked admits edges seeds (seeds, found))
    (hrounds : seeds.length + whole.length ≤ rounds) :
    (marks.drain admits edges rounds (seeds, found)).1 = [] ∧
      ∀ b, marks.has (marks.drain admits edges rounds (seeds, found)).2 b = true ↔
        Reached admits edges seeds b := by
  have hdone : (marks.drain admits edges rounds (seeds, found)).1 = [] := by
    refine drain_empties hwhole rounds _ ?_
    have hfewer : (marks.unmarked whole found).length ≤ whole.length :=
      List.length_filter_le _ _
    dsimp only
    omega
  exact ⟨hdone, (hfound.drain rounds).has_iff hdone⟩

/-- Without a mark every seed is still ahead. -/
theorem walked_start (hempty : ∀ a, marks.has found a = false) :
    marks.Walked admits edges seeds (seeds, found) where
  pending a ha := .inl ha
  sound b hb := by
    rw [hempty] at hb
    cases hb
  closed a ha := by
    rw [hempty] at ha
    exact .inl (ha.resolve_right (by simp))

/-- What marking an admitted element keeps, a walk keeps. -/
theorem drain_frame (Kept : σ → Prop)
    (hmark : ∀ found a, admits a = true → Kept found → Kept (marks.mark found a)) (rounds : Nat)
    (h : Kept state.2) : Kept (marks.drain admits edges rounds state).2 := by
  have hround : ∀ (targets : List α) (state : List α × σ), Kept state.2 →
      Kept (targets.foldl (marks.reach admits) state).2 := by
    intro targets
    induction targets with
    | nil => exact fun _ h => h
    | cons target targets ih =>
      intro state h
      refine ih _ ?_
      unfold Marks.reach
      split
      next hjoins => exact hmark _ _ (Bool.and_eq_true _ _ ▸ hjoins).1 h
      next => exact h
  induction rounds generalizing state with
  | zero => exact h
  | succ rounds ih =>
    rcases state with ⟨_ | ⟨element, frontier⟩, found⟩
    · exact h
    · exact ih (hround _ _ h)

end Walk

end Amiss
