import Amiss.Theory.Relations.Bindings
import Amiss.Theory.Relations.Runs

/-!
# The Store Against the Scheduling Law

`scheduleRelation` decides on one transition from one pending value. The store
decides from everything its journal holds, and this module says which pending
value makes the two agree: the one that was admitted for the coordination, if
there is one, and else the latest of the relation.

The list the argument is about is the work that was admitted for a relation, in
the order in which it was committed. `State.Recounts` reads that list off the
state, entry by entry; `schedule_by_law` then compares one call with the law.

The work behind a digest is known only up to collisions, so the hash and the
three writers it is applied to are taken to be injective where they write.

## Main definitions

* `BindingCodec.CollisionFree`: No two values share a binding.
* `scheduledOf`, `Admitted`: The schedule entries of a relation, and the work
  they were written for.
* `State.Recounts`: What the state keeps of them.
* `previousFor`: The pending value the law is applied to.

## Theorems

* `Replays.recounts`: Every journal is recounted by its state.
* `store_schedules_by_law`: The store answers as the law does.
-/

namespace Amiss

open Option

open List

open Fallible

namespace Relations

open Durable (Follows)

/-! ### Bindings that name their work -/

/-- Two values that are both written differently, or are the same. -/
def WritesApart {α : Type} (writer : α → Option Bytes) : Prop :=
  ∀ left right bytes, writer left = some bytes → writer right = some bytes → left = right

/-- No two values share a binding. -/
structure BindingCodec.CollisionFree (codec : BindingCodec) : Prop where
  sha256 : Function.Injective codec.sha256
  canonicalSource : WritesApart codec.canonicalSource
  boundPlan : WritesApart codec.boundPlan
  boundWork : WritesApart codec.boundWork

section Naming

variable {codec : BindingCodec}

theorem boundPlanSubject_injective (hfree : codec.CollisionFree) {left right : RegisteredSubject}
    {bound : BoundPlanSubject} (hleft : boundPlanSubject codec left = .ok bound)
    (hright : boundPlanSubject codec right = .ok bound) : left = right := by
  unfold boundPlanSubject at hleft hright
  simp only [bind_eq_ok, orCorrupt_eq_ok, Except.ok.injEq] at hleft hright
  rcases hleft with ⟨bytes, hbytes, rfl⟩
  rcases hright with ⟨bytes', hbytes', heq⟩
  simp only [BoundPlanSubject.mk.injEq] at heq
  rcases heq with ⟨hrole, hprovider, hintegration, hhost, howner, hname, htarget, hformat,
    hcredential, hsource, hlimits⟩
  have hsame : bytes' = bytes := domainDigest_injective hfree.sha256 _ hsource
  rw [hsame] at hbytes'
  have hsources : left.source = right.source := hfree.canonicalSource _ _ _ hbytes hbytes'
  rcases left with ⟨role, ⟨provider, integration, ⟨host, owner, name, _⟩⟩, target, format,
    credential, source, limits⟩
  rcases right with ⟨role', ⟨provider', integration', ⟨host', owner', name', _⟩⟩, target', format',
    credential', source', limits'⟩
  dsimp only at *
  subst hrole hprovider hintegration hhost howner hname htarget hformat hcredential hsources hlimits
  rfl

theorem planBinding_injective (hfree : codec.CollisionFree) {left right : RegisteredRelation}
    {bound : Digest} (hleft : planBinding codec left = .ok bound)
    (hright : planBinding codec right = .ok bound) : left = right := by
  unfold planBinding at hleft hright
  simp only [bind_eq_ok, orCorrupt_eq_ok, Except.ok.injEq] at hleft hright
  rcases hleft with ⟨first, hfirst, second, hsecond, bytes, hbytes, rfl⟩
  rcases hright with ⟨first', hfirst', second', hsecond', bytes', hbytes', heq⟩
  have hsame : bytes' = bytes := domainDigest_injective hfree.sha256 _ heq
  rw [hsame] at hbytes'
  have hplans := hfree.boundPlan _ _ _ hbytes hbytes'
  simp only [BoundPlan.mk.injEq, Prod.mk.injEq] at hplans
  rcases hplans with ⟨hidentity, hcontext, hprojection, ⟨rfl, rfl⟩, hlimits, hdestinations⟩
  have hone := boundPlanSubject_injective hfree hfirst hfirst'
  have htwo := boundPlanSubject_injective hfree hsecond hsecond'
  rcases left with ⟨identity, context, projection, ⟨one, two⟩, limits, destinations⟩
  rcases right with ⟨identity', context', projection', ⟨one', two'⟩, limits', destinations'⟩
  dsimp only at *
  subst hidentity hcontext hprojection hone htwo hlimits hdestinations
  rfl

/-- Two object ids of one format are told apart by their text. -/
theorem Oid.eq_of_raw {left right : Oid} (hformat : left.objectFormat = right.objectFormat)
    (hraw : left.raw = right.raw) : left = right := by
  rcases left with ⟨format, raw, _⟩
  rcases right with ⟨format', raw', _⟩
  dsimp only at hformat hraw
  subst hformat hraw
  rfl

/-- The object ids of a subject that fits a plan are of one format. -/
theorem RelationSubjectTransition.fits_formats {plan : RegisteredRelation}
    {subject : RelationSubjectTransition} (h : subject.fits plan = true) :
    subject.commits.candidate.objectFormat = subject.commits.base.objectFormat ∧
      subject.trees.base.objectFormat = subject.commits.base.objectFormat ∧
      subject.trees.candidate.objectFormat = subject.commits.base.objectFormat := by
  unfold RelationSubjectTransition.fits at h
  rw [Option.any_eq_true] at h
  rcases h with ⟨registered, _, hall⟩
  simp only [all_cons, all_nil, Bool.and_true, Bool.and_eq_true, beq_iff_eq] at hall
  rcases hall with ⟨hbase, hcandidate, htree, htree'⟩
  exact ⟨hcandidate.trans hbase.symm, htree.trans hbase.symm, htree'.trans hbase.symm⟩

theorem boundWorkSubject_injective {plan : RegisteredRelation}
    {left right : RelationSubjectTransition} (hleft : left.fits plan = true)
    (hright : right.fits plan = true) (h : boundWorkSubject left = boundWorkSubject right) :
    left = right := by
  simp only [boundWorkSubject, BoundWorkSubject.mk.injEq] at h
  rcases h with ⟨hrole, hformat, hbase, hcandidate, htree, htree'⟩
  rcases RelationSubjectTransition.fits_formats hleft with ⟨hc, hb, ht⟩
  rcases RelationSubjectTransition.fits_formats hright with ⟨hc', hb', ht'⟩
  have h₁ := Oid.eq_of_raw hformat hbase
  have h₂ := Oid.eq_of_raw (hc.trans (hformat.trans hc'.symm)) hcandidate
  have h₃ := Oid.eq_of_raw (hb.trans (hformat.trans hb'.symm)) htree
  have h₄ := Oid.eq_of_raw (ht.trans (hformat.trans ht'.symm)) htree'
  rcases left with ⟨role, ⟨base, candidate⟩, ⟨tree, tree'⟩⟩
  rcases right with ⟨role', ⟨base', candidate'⟩, ⟨tree'', tree'''⟩⟩
  dsimp only at *
  subst hrole h₁ h₂ h₃ h₄
  rfl

variable {checked : CheckedWork}

/-- Checked work has subjects that fit its plan. -/
theorem checkedWork_fits {transition : RelationTransition}
    (h : checkedWork codec transition = .ok checked) :
    ∀ subject ∈ both checked.transition.subjects,
      subject.fits checked.transition.relation.plan = true := by
  have hchecked := (checkedWork_eq_ok h).1
  rw [RelationTransition.checked, relationTransition_eq_some] at hchecked
  rcases hchecked with ⟨_, _, hfits, hshape⟩
  rw [hshape]
  exact hfits

variable {relation : ArtifactId} {planBinding' : Digest} {binding : StoredBinding}
  {pending : PendingRelation}

/-- Checked work of the plan under the digest of an entry freezes the subjects
    that the entry was written for. -/
theorem Grants.subjects (hfree : codec.CollisionFree) {transition : RelationTransition}
    (h : Grants codec relation planBinding' binding pending)
    (hright : checkedWork codec transition = .ok checked)
    (hplan : pending.transition.relation.plan = checked.transition.relation.plan)
    (hwork : binding.workBinding = checked.binding.workBinding) :
    pending.transition.subjects = checked.transition.subjects := by
  rcases h with ⟨work, hleft, hsame, _, _, rfl⟩
  rw [← hsame] at hplan ⊢
  have hfits := checkedWork_fits hleft
  have hfits' := checkedWork_fits hright
  rcases checkedWork_eq_ok hleft with ⟨_, _, _, _, bytes, hbytes, hbinding⟩
  rcases checkedWork_eq_ok hright with ⟨_, _, _, _, bytes', hbytes', hbinding'⟩
  rw [hbinding, hbinding'] at hwork
  have hsame : bytes = bytes' := domainDigest_injective hfree.sha256 _ hwork
  rw [← hsame] at hbytes'
  have hworks := hfree.boundWork _ _ _ hbytes hbytes'
  simp only [BoundWork.mk.injEq, Prod.mk.injEq] at hworks
  rcases hworks with ⟨_, _, _, hone, htwo⟩
  simp only [both, forall_mem_cons, hplan] at hfits hfits'
  refine Prod.ext ?_ ?_
  · exact boundWorkSubject_injective hfits.1 hfits'.1 hone
  · exact boundWorkSubject_injective hfits.2.1 hfits'.2.1 htwo

/-- Work that freezes the same subjects of the same plan under the same
    coordination is written too, under the same digest. -/
theorem Grants.again {transition normal : RelationTransition}
    (h : Grants codec relation planBinding' binding pending)
    (hright : transition.checked = some normal)
    (hplan : pending.transition.relation.plan = normal.relation.plan)
    (hcoordination : pending.transition.coordination = normal.coordination)
    (hsubjects : pending.transition.subjects = normal.subjects) :
    ∃ again, checkedWork codec transition = .ok again ∧
      again.binding.workBinding = binding.workBinding := by
  rcases h with ⟨work, hleft, hsame, _, _, rfl⟩
  rcases checkedWork_eq_ok hleft with ⟨_, _, hrelation, hbound, bytes, hbytes, hbinding⟩
  rw [hrelation, hsame, hplan, hcoordination, hsubjects] at hbytes
  rw [hsame, hplan] at hbound
  unfold checkedWork
  rw [hright]
  dsimp only
  rw [hbound, ok_bind, hbytes, hbinding]
  exact ⟨_, rfl, rfl⟩

end Naming

/-! ### The schedule of a relation -/

variable (relation : ArtifactId)

/-- What a schedule entry of the relation binds. -/
def JournalAction.scheduledOf : JournalAction → Option (Digest × StoredBinding)
  | .schedule other planBinding binding =>
    if other = relation then some (planBinding, binding) else none
  | .stage .. | .acknowledge .. | .complete .. => none

/-- The schedule entries of a relation, in order. -/
def scheduledOf (entries : List JournalEntry) :
    List (Digest × StoredBinding) :=
  entries.filterMap (fun entry => entry.action.scheduledOf relation)

/-- The work a relation's schedule entries were written for, in order. -/
def Admitted (codec : BindingCodec) (relation : ArtifactId) (entries : List JournalEntry)
    (granted : List PendingRelation) : Prop :=
  List.Forall₂ (fun scheduled pending =>
    Grants codec relation scheduled.1 scheduled.2 pending) (scheduledOf relation entries) granted

theorem scheduledOf_append (entries more : List JournalEntry) :
    scheduledOf relation (entries ++ more) =
      scheduledOf relation entries ++ scheduledOf relation more :=
  filterMap_append

theorem scheduledOf_cons (entry : JournalEntry)
    (entries : List JournalEntry) : scheduledOf relation (entry :: entries) =
      (entry.action.scheduledOf relation).toList ++ scheduledOf relation entries := by
  unfold scheduledOf
  rw [filterMap_cons]
  cases entry.action.scheduledOf relation with
  | none => rfl
  | some scheduled => rfl

/-- Entries that were all granted were written for some work. -/
theorem admitted_of_granted {codec : BindingCodec} (relation : ArtifactId)
    {entries : List JournalEntry} (h : ∀ entry ∈ entries, entry.action.Granted codec) :
    ∃ granted, Admitted codec relation entries granted := by
  induction entries with
  | nil => exact ⟨[], .nil⟩
  | cons entry entries ih =>
    rw [forall_mem_cons] at h
    rcases ih h.2 with ⟨granted, hgranted⟩
    unfold Admitted at hgranted ⊢
    rw [scheduledOf_cons]
    cases hentry : entry.action.scheduledOf relation with
    | none => exact ⟨granted, hgranted⟩
    | some scheduled =>
      have hpending : ∃ pending, Grants codec relation scheduled.1 scheduled.2 pending := by
        rcases entry with ⟨_, action⟩
        cases action with
        | schedule other planBinding binding =>
          simp only [JournalAction.scheduledOf, ite_none_right_eq_some, some.injEq] at hentry
          rcases hentry with ⟨rfl, rfl⟩
          exact h.1
        | stage | acknowledge | complete =>
          cases hentry
      rcases hpending with ⟨pending, hpending⟩
      exact ⟨pending :: granted, .cons hpending hgranted⟩

/-- What the state keeps of a relation's schedule. -/
structure State.Recounts (state : State) (relation : ArtifactId)
    (scheduled : List (Digest × StoredBinding)) : Prop where
  bindings : ∀ coordination binding, state.bindingOf relation coordination = some binding ↔
    ∃ planBinding, (planBinding, binding) ∈ scheduled ∧ binding.coordination = coordination
  current : state.currentOf relation = scheduled.getLast?.map Prod.snd
  unplanned : state.planOf relation = none → scheduled = []
  planned : scheduled = [] → state.planOf relation = none
  plans : ∀ entry ∈ scheduled, state.planOf relation = some entry.1
  fences : scheduled.map (fun entry => entry.2.fence) = List.range' 1 scheduled.length

section Recounting

variable {state next last : State} {maxBindings : Nat} {action : JournalAction}
  {relation : ArtifactId} {scheduled : List (Digest × StoredBinding)}

theorem State.recounts_empty (relation : ArtifactId) : State.empty.Recounts relation [] where
  bindings := by
    intro coordination binding
    simp [State.bindingOf_empty]
  current := State.currentOf_empty relation
  unplanned := fun _ => rfl
  planned := fun _ => by
    rw [State.planOf, State.empty, Std.ExtTreeMap.getElem?_empty, map_none]
  plans := fun entry hentry => absurd hentry not_mem_nil
  fences := rfl

/-- The fence after a recounted schedule is its length and one. -/
theorem State.Recounts.nextFence (h : state.Recounts relation scheduled) :
    nextFence (state.currentOf relation) = scheduled.length + 1 := by
  rw [h.current]
  rcases eq_nil_or_concat' scheduled with rfl | ⟨front, entry, rfl⟩
  · rfl
  have hfences := h.fences
  rw [length_append, length_singleton, List.range'_1_concat, map_append, map_singleton] at hfences
  have hlast := (append_inj' hfences rfl).2
  rw [singleton_inj] at hlast
  rw [getLast?_concat, map_some, Relations.nextFence, hlast, length_append, length_singleton]
  omega

theorem State.Recounts.takes (h : state.Recounts relation scheduled)
    (htakes : state.Takes maxBindings action next) :
    next.Recounts relation (scheduled ++ (action.scheduledOf relation).toList) := by
  by_cases hincrement : bindingIncrement action = 0
  · -- The entry is about a batch, and the relations stay as they are.
    have hrelations := htakes.relations_eq hincrement
    have hnone : action.scheduledOf relation = none := by
      cases action with
      | schedule => exact absurd hincrement Nat.one_ne_zero
      | stage | acknowledge | complete => rfl
    rw [hnone, toList_none, append_nil]
    exact ⟨State.bindingOf_congr hrelations ▸ h.bindings,
      State.currentOf_congr hrelations ▸ h.current, State.planOf_congr hrelations ▸ h.unplanned,
      State.planOf_congr hrelations ▸ h.planned, State.planOf_congr hrelations ▸ h.plans, h.fences⟩
  cases action with
  | stage | acknowledge | complete => exact absurd rfl hincrement
  | schedule other planBinding binding =>
    have hadmits := htakes.admits
    by_cases hother : other = relation
    · subst hother
      rw [JournalAction.scheduledOf, if_pos rfl, toList_some]
      have hplans : ∀ entry ∈ scheduled, entry.1 = planBinding :=
        fun entry hentry => hadmits.plan entry.1 (h.plans entry hentry)
      refine ⟨fun coordination bound => ?_, ?_, fun hnone => ?_, fun hnil => ?_, ?_, ?_⟩
      · constructor
        · intro hbound
          rcases hadmits.cases hbound with ⟨_, hcoordination, rfl⟩ | hbefore
          · exact ⟨planBinding, mem_append_right _ mem_cons_self, hcoordination⟩
          · rcases (h.bindings coordination bound).mp hbefore with ⟨plan, hmem, hnamed⟩
            exact ⟨plan, mem_append_left _ hmem, hnamed⟩
        · rintro ⟨plan, hmem, hnamed⟩
          rcases mem_append.mp hmem with hbefore | hnew
          · exact hadmits.keeps ((h.bindings coordination bound).mpr ⟨plan, hbefore, hnamed⟩)
          · rw [mem_singleton, Prod.mk.injEq] at hnew
            rw [hadmits.bindings, if_pos ⟨rfl, hnew.2 ▸ hnamed⟩, hnew.2]
      · rw [hadmits.current, if_pos rfl, getLast?_concat, map_some]
      · rw [hadmits.plans, if_pos rfl] at hnone
        cases hnone
      · exact absurd hnil (append_ne_nil_of_right_ne_nil _ (cons_ne_nil _ _))
      · intro entry hentry
        rw [hadmits.plans, if_pos rfl, some.injEq]
        rcases mem_append.mp hentry with hbefore | hnew
        · exact (hplans entry hbefore).symm
        · rw [mem_singleton.mp hnew]
      · have hfence := hadmits.fence
        rw [h.nextFence] at hfence
        rw [map_append, h.fences, length_append, length_singleton,
          List.range'_1_concat, map_singleton, hfence, Nat.add_comm 1]
    · rw [JournalAction.scheduledOf, if_neg hother, toList_none, append_nil]
      have hbindings : ∀ coordination,
          next.bindingOf relation coordination = state.bindingOf relation coordination := by
        intro coordination
        rw [hadmits.bindings, if_neg (fun hboth => hother hboth.1)]
      have hplan : next.planOf relation = state.planOf relation := by
        rw [hadmits.plans, if_neg hother]
      refine ⟨fun coordination bound => ?_, ?_, hplan ▸ h.unplanned, hplan ▸ h.planned,
        hplan ▸ h.plans, h.fences⟩
      · rw [hbindings]
        exact h.bindings coordination bound
      · rw [hadmits.current, if_neg hother]
        exact h.current

theorem Replays.recounts {codec : JournalCodec} {bytes : Bytes} {entries : List JournalEntry}
    (hreplay : Replays codec maxBindings state bytes entries last)
    (h : state.Recounts relation scheduled) :
    last.Recounts relation (scheduled ++ scheduledOf relation entries) := by
  induction hreplay generalizing scheduled with
  | nil =>
    rw [scheduledOf, filterMap_nil, append_nil]
    exact h
  | @cons _ _ _ entry _ _ entries _ hnext _ ih =>
    rcases applyEntry_eq_ok hnext with ⟨_, _, _, _, _, htakes⟩
    have hrest := ih (h.takes htakes)
    rw [append_assoc] at hrest
    rw [scheduledOf_cons]
    exact hrest

end Recounting

/-! ### Paired lists -/

section Paired

variable {α β : Type} {R : α → β → Prop} {xs : List α} {ys : List β}

section

variable (h : List.Forall₂ R xs ys)

include h

theorem exists_right_of_paired {x : α} (hx : x ∈ xs) : ∃ y ∈ ys, R x y := by
  induction h with
  | nil => cases hx
  | @cons first second _ _ hpair _ ih =>
    rcases mem_cons.mp hx with rfl | hx
    · exact ⟨second, mem_cons_self, hpair⟩
    · rcases ih hx with ⟨y, hy, hxy⟩
      exact ⟨y, mem_cons_of_mem second hy, hxy⟩

theorem exists_left_of_paired {y : β} (hy : y ∈ ys) : ∃ x ∈ xs, R x y :=
  exists_right_of_paired h.flip hy

/-- The last elements of paired lists are a pair, if there are any. -/
theorem getLast?_paired :
    (xs.getLast? = none ∧ ys.getLast? = none) ∨
      ∃ x y, xs.getLast? = some x ∧ ys.getLast? = some y ∧ R x y := by
  induction h with
  | nil => exact .inl ⟨rfl, rfl⟩
  | cons hpair _ ih =>
    right
    rw [getLast?_cons, getLast?_cons]
    rcases ih with ⟨hx, hy⟩ | ⟨x, y, hx, hy, hlast⟩
    · exact ⟨_, _, rfl, rfl, by rw [hx, hy]; exact hpair⟩
    · exact ⟨_, _, rfl, rfl, by rw [hx, hy]; exact hlast⟩

theorem map_eq_of_paired {γ : Type} {f : α → γ} {g : β → γ} (hfg : ∀ x y, R x y → f x = g y) :
    xs.map f = ys.map g := by
  induction h with
  | nil => rfl
  | cons hpair _ ih => rw [map_cons, map_cons, hfg _ _ hpair, ih]

end

end Paired

/-! ### One answer against the law -/

/-- What a schedule entry keeps of its work. -/
theorem Grants.named {codec : BindingCodec} {relation : ArtifactId} {planBinding' : Digest}
    {binding : StoredBinding} {pending : PendingRelation}
    (h : Grants codec relation planBinding' binding pending) :
    pending.transition.checked = some pending.transition ∧
      planBinding codec pending.transition.relation.plan = .ok planBinding' ∧
      binding.coordination = pending.transition.coordination ∧
      binding.triggerRole = pending.transition.relation.triggerRole ∧
      binding.fence = pending.fence.raw := by
  rcases h with ⟨checked, hchecked, hsame, _, rfl, rfl⟩
  rcases checkedWork_eq_ok hchecked with ⟨hnormal, _, _, hplan, _, _, hbinding⟩
  rw [hsame] at hnormal hplan hbinding
  rw [hbinding]
  exact ⟨hnormal, hplan, rfl, rfl, rfl⟩

/-- A schedule entry was written for one piece of work. -/
theorem Grants.unique {codec : BindingCodec} (hfree : codec.CollisionFree) {relation : ArtifactId}
    {planBinding' : Digest} {binding : StoredBinding} {left right : PendingRelation}
    (hleft : Grants codec relation planBinding' binding left)
    (hright : Grants codec relation planBinding' binding right) : left = right := by
  rcases hleft.named with ⟨_, hplan, hcoordination, hrole, hfence⟩
  rcases hright.named with ⟨_, hplan', hcoordination', hrole', hfence'⟩
  have hplans := planBinding_injective hfree hplan hplan'
  have hcoordinations := hcoordination.symm.trans hcoordination'
  have hroles := hrole.symm.trans hrole'
  have hfences := hfence.symm.trans hfence'
  have hsubjects : left.transition.subjects = right.transition.subjects := by
    rcases hright with ⟨work, hwork, hsame, _, _, rfl⟩
    rw [← hsame] at hplans ⊢
    exact hleft.subjects hfree hwork hplans rfl
  rcases left with ⟨⟨⟨plan, role⟩, coordination, subjects⟩, ⟨fence, _⟩⟩
  rcases right with ⟨⟨⟨plan', role'⟩, coordination', subjects'⟩, ⟨fence', _⟩⟩
  dsimp only at *
  subst hplans hsubjects hcoordinations hroles hfences
  rfl

theorem LeaseFence.new_raw (fence : LeaseFence) : LeaseFence.new fence.raw = some fence := by
  rw [LeaseFence.new, dif_pos fence.nonzero]

section Law

/-- Each schedule entry with the work it was written for. -/
abbrev Paired (codec : BindingCodec) (relation : ArtifactId)
    (scheduled : List (Digest × StoredBinding)) (granted : List PendingRelation) : Prop :=
  List.Forall₂ (fun entry pending => Grants codec relation entry.1 entry.2 pending)
    scheduled granted

variable {codec : BindingCodec} {relation : ArtifactId} {scheduled : List (Digest × StoredBinding)}
  {granted : List PendingRelation} {state : State} {maxBindings : Nat}
  {transition normal : RelationTransition} {checked : CheckedWork}

/-- The pending value the law is applied to: what was admitted for the
    coordination, or else what was admitted last. -/
def previousFor (granted : List PendingRelation) (transition : RelationTransition) :
    Option PendingRelation :=
  (granted.find? (fun pending =>
    pending.transition.coordination == transition.coordination)).or granted.getLast?

/-- No work was admitted for the coordination. -/
def Unseen (granted : List PendingRelation) (coordination : ArtifactId) : Prop :=
  ∀ pending ∈ granted, pending.transition.coordination ≠ coordination

theorem mem_of_previousFor {pending : PendingRelation}
    (h : previousFor granted transition = some pending) : pending ∈ granted := by
  rw [previousFor, or_eq_some_iff] at h
  rcases h with hfind | ⟨_, hlast⟩
  · exact mem_of_find?_eq_some hfind
  · exact mem_of_getLast? hlast

/-- The law looks at a transition as checked. -/
theorem scheduleRelation_of_checked (previous : Option PendingRelation)
    (h : transition.checked = some normal) :
    scheduleRelation previous transition = scheduleRelation previous normal := by
  unfold scheduleRelation
  rw [h, RelationTransition.checked_idem h]

theorem scheduleRelation_none (h : normal.checked = some normal) :
    scheduleRelation none normal = .ok (.scheduled ⟨normal, ⟨1, Nat.one_ne_zero⟩⟩) := by
  unfold scheduleRelation
  rw [h]
  rfl

/-- The law on a pending value that is in order. -/
theorem scheduleRelation_some (h : normal.checked = some normal) {previous : PendingRelation}
    (hprevious : previous.transition.checked = some previous.transition) :
    scheduleRelation (some previous) normal =
      if previous.transition.relation.plan ≠ normal.relation.plan then .error .bindingConflict
      else if previous.transition.coordination = normal.coordination then
        if previous.transition.subjects = normal.subjects then .ok (.duplicate previous)
        else .error .coordinationConflict
      else ((checkedSucc previous.fence.raw).bind LeaseFence.new).elim
        (.error .generationExhausted) (fun fence => .ok (.scheduled ⟨normal, fence⟩)) := by
  simp only [scheduleRelation, h, hprevious]
  cases (checkedSucc previous.fence.raw).bind LeaseFence.new with
  | none => rfl
  | some fence => rfl

/-- The law on new work of the plan. -/
theorem scheduleRelation_next (h : normal.checked = some normal) {previous : PendingRelation}
    (hprevious : previous.transition.checked = some previous.transition)
    (hplan : previous.transition.relation.plan = normal.relation.plan)
    (hapart : previous.transition.coordination ≠ normal.coordination) :
    scheduleRelation (some previous) normal =
      ((checkedSucc previous.fence.raw).bind LeaseFence.new).elim
        (.error .generationExhausted) (fun fence => .ok (.scheduled ⟨normal, fence⟩)) := by
  rw [scheduleRelation_some h hprevious, if_neg (not_not_intro hplan), if_neg hapart]

variable {binding : StoredBinding}

/-- Checked work stays checked with other subjects of its plan. -/
theorem relationTransition_other {other : RelationTransition}
    (hother : other.checked = some other) (hnormal : normal.checked = some normal)
    (hplan : other.relation.plan = normal.relation.plan) :
    relationTransition other.relation other.coordination normal.subjects =
      some ⟨other.relation, other.coordination, normal.subjects⟩ := by
  rw [RelationTransition.checked, relationTransition_eq_some] at hother hnormal
  rcases hnormal with ⟨_, hroles, hfits, hshape⟩
  have hsorted : sortPair (·.role) normal.subjects = normal.subjects :=
    (congrArg RelationTransition.subjects hshape).symm
  rw [relationTransition_eq_some, hplan]
  exact ⟨hother.1, hroles, hfits, by rw [hsorted]⟩

/-- What a stored binding stands for, beside other subjects of its plan. -/
theorem pendingFromBinding_granted {planBinding' : Digest} {pending : PendingRelation}
    (hgrants : Grants codec relation planBinding' binding pending)
    (hnormal : normal.checked = some normal)
    (hplan : pending.transition.relation.plan = normal.relation.plan) :
    pendingFromBinding normal binding =
      .ok ⟨⟨pending.transition.relation, pending.transition.coordination, normal.subjects⟩,
        pending.fence⟩ := by
  rcases hgrants.named with ⟨hchecked, _, hcoordination, hrole, hfence⟩
  have htransition := relationTransition_other hchecked hnormal hplan
  unfold pendingFromBinding
  rw [← hplan, hrole, hcoordination, htransition, hfence, LeaseFence.new_raw]
  rfl

/-- A checked transition keeps its coordination and its plan. -/
theorem RelationTransition.checked_keeps (h : transition.checked = some normal) :
    normal.coordination = transition.coordination ∧ normal.relation = transition.relation := by
  rw [RelationTransition.checked, relationTransition_eq_some] at h
  rw [h.2.2.2]
  exact ⟨rfl, rfl⟩

theorem checkedWork_coordination (h : checkedWork codec transition = .ok checked) :
    checked.binding.coordination = transition.coordination := by
  rcases checkedWork_eq_ok h with ⟨hnormal, _, _, _, _, _, hbinding⟩
  rw [hbinding]
  exact (RelationTransition.checked_keeps hnormal).1

/-- A schedule call up to its checks on the plan. -/
theorem admission_samePlan (hrelation : checked.relation = relation)
    (hplan : ∀ bound, state.planOf relation = some bound → bound = checked.planBinding) :
    admission state maxBindings checked =
      (match state.bindingOf relation checked.binding.coordination with
      | some previous =>
        if previous.workBinding ≠ checked.binding.workBinding then
          .error (.schedule .coordinationConflict)
        else do
          let pending ← pendingFromBinding checked.transition previous
          .ok (.duplicate pending, none)
      | none =>
        if maxBindings ≤ state.bindingCount then .error .full
        else do
          let previous ← currentPending state.relations[relation]? checked.transition
          match scheduleRelation previous checked.transition with
          | .error error => .error (.schedule error)
          | .ok (.duplicate _) => .error .corrupt
          | .ok (.scheduled pending) =>
            .ok (.scheduled pending, some (.schedule relation checked.planBinding
              { checked.binding with fence := pending.fence.raw }))) := by
  have hany : state.relations[relation]?.any
      (fun stored => stored.planBinding != checked.planBinding) = false := by
    cases hstored : state.relations[relation]? with
    | none => rfl
    | some stored =>
      have hbound : state.planOf relation = some stored.planBinding := by
        rw [State.planOf, hstored, map_some]
      rw [any_some, hplan _ hbound, bne_self_eq_false]
  unfold admission State.bindingOf
  dsimp only
  rw [hrelation, hany]
  rfl

variable (hrecounts : state.Recounts relation scheduled)
  (hadmitted : Paired codec relation scheduled granted)

include hrecounts hadmitted

/-- The work a bound coordination was admitted for is what the law is applied
    to. -/
theorem previousFor_bound
    (hbound : state.bindingOf relation transition.coordination = some binding) :
    ∃ planBinding pending, (planBinding, binding) ∈ scheduled ∧
      Grants codec relation planBinding binding pending ∧
      pending.transition.coordination = transition.coordination ∧
      previousFor granted transition = some pending := by
  have hseen : ∃ pending ∈ granted,
      (pending.transition.coordination == transition.coordination) = true := by
    rcases (hrecounts.bindings _ _).mp hbound with ⟨planBinding, hmem, hnamed⟩
    rcases exists_right_of_paired hadmitted hmem with ⟨pending, hpending, hgrants⟩
    refine ⟨pending, hpending, ?_⟩
    rw [beq_iff_eq, ← hgrants.named.2.2.1]
    exact hnamed
  cases hfind : granted.find? (fun pending =>
      pending.transition.coordination == transition.coordination) with
  | none =>
    rcases hseen with ⟨pending, hpending, hsame⟩
    exact absurd hsame (find?_eq_none.mp hfind pending hpending)
  | some pending =>
    -- Whatever is found was written with the one binding of the coordination.
    have hsame := find?_some hfind
    rw [beq_iff_eq] at hsame
    rcases exists_left_of_paired hadmitted (mem_of_find?_eq_some hfind) with
      ⟨⟨planBinding, other⟩, hmem, hgrants⟩
    have hother := (hrecounts.bindings transition.coordination other).mpr
      ⟨planBinding, hmem, hgrants.named.2.2.1.trans hsame⟩
    cases hbound.symm.trans hother
    refine ⟨planBinding, pending, hmem, hgrants, hsame, ?_⟩
    rw [previousFor, hfind, some_or]

/-- An unbound coordination was not seen before, and the law is applied to the
    current work. -/
theorem previousFor_unbound
    (hunbound : state.bindingOf relation transition.coordination = none) :
    Unseen granted transition.coordination ∧ previousFor granted transition = granted.getLast? := by
  have hunseen : Unseen granted transition.coordination := by
    intro pending hpending hsame
    rcases exists_left_of_paired hadmitted hpending with ⟨⟨planBinding, binding⟩, hmem, hgrants⟩
    have hbound := (hrecounts.bindings transition.coordination binding).mpr
      ⟨planBinding, hmem, hgrants.named.2.2.1.trans hsame⟩
    rw [hunbound] at hbound
    cases hbound
  refine ⟨hunseen, ?_⟩
  have hfind : granted.find? (fun pending =>
      pending.transition.coordination == transition.coordination) = none := by
    rw [find?_eq_none]
    intro pending hpending
    rw [beq_iff_eq]
    exact hunseen pending hpending
  rw [previousFor, hfind, none_or]

section

variable (maxBindings : Nat) (hchecked : checkedWork codec transition = .ok checked)
  (hrelation : checked.relation = relation)

include hchecked hrelation

/-- A relation that is bound to another plan refuses, and so does the law. -/
theorem admission_otherPlan
    {bound : Digest} (hbound : state.planOf relation = some bound)
    (hother : bound ≠ checked.planBinding) :
    scheduleRelation (previousFor granted transition) transition = .error .bindingConflict ∧
      admission state maxBindings checked = .error (.schedule .bindingConflict) := by
  rcases checkedWork_eq_ok hchecked with ⟨hnormal, _, _, hplan, _⟩
  constructor
  · -- Everything that was admitted is of the bound plan.
    have hsome : ∃ pending ∈ granted, previousFor granted transition = some pending := by
      cases hbinding : state.bindingOf relation transition.coordination with
      | some binding =>
        rcases previousFor_bound hrecounts hadmitted hbinding with
          ⟨_, pending, _, _, _, hprevious⟩
        exact ⟨pending, mem_of_previousFor hprevious, hprevious⟩
      | none =>
        rcases previousFor_unbound hrecounts hadmitted hbinding with ⟨_, hprevious⟩
        rw [hprevious]
        rcases getLast?_paired hadmitted with ⟨hlast, _⟩ | ⟨_, pending, _, hgranted, _⟩
        · rw [hrecounts.planned (getLast?_eq_none_iff.mp hlast)] at hbound
          cases hbound
        · exact ⟨pending, mem_of_getLast? hgranted, hgranted⟩
    rcases hsome with ⟨pending, hpending, hprevious⟩
    rcases exists_left_of_paired hadmitted hpending with ⟨entry, hmem, hgrants⟩
    rcases hgrants.named with ⟨hgranted, hplan', _⟩
    have hentry := hrecounts.plans entry hmem
    rw [hbound, some.injEq] at hentry
    have hplans : pending.transition.relation.plan ≠ checked.transition.relation.plan := by
      intro hsame
      rw [hsame, hplan, Except.ok.injEq] at hplan'
      exact hother (hentry.trans hplan'.symm)
    rw [scheduleRelation_of_checked _ hnormal, hprevious,
      scheduleRelation_some (RelationTransition.checked_idem hnormal) hgranted, if_pos hplans]
  · rw [State.planOf, map_eq_some_iff] at hbound
    rcases hbound with ⟨stored, hstored, rfl⟩
    unfold admission
    dsimp only
    rw [hrelation, hstored, any_some, if_pos (bne_iff_ne.mpr hother)]

variable (hfree : codec.CollisionFree)
  (hplan : ∀ bound, state.planOf relation = some bound → bound = checked.planBinding)

include hfree hplan

/-- A coordination that is bound answers as the law does on what it was bound
    to. -/
theorem admission_bound
    (hbound : state.bindingOf relation transition.coordination = some binding) :
    (scheduleRelation (previousFor granted transition) transition = .error .coordinationConflict ∧
      admission state maxBindings checked = .error (.schedule .coordinationConflict)) ∨
    ∃ pending,
      scheduleRelation (previousFor granted transition) transition = .ok (.duplicate pending) ∧
        admission state maxBindings checked = .ok (.duplicate pending, none) := by
  rcases checkedWork_eq_ok hchecked with ⟨hnormal, _, _, hplanBinding, bytes, hbytes, hbinding⟩
  have hidem := RelationTransition.checked_idem hnormal
  have hcoordination := checkedWork_coordination hchecked
  rcases previousFor_bound hrecounts hadmitted hbound with
    ⟨planBinding', pending, hmem, hgrants, hsame, hprevious⟩
  have hdigest : planBinding' = checked.planBinding := hplan _ (hrecounts.plans _ hmem)
  subst hdigest
  rcases hgrants.named with ⟨hgranted, hplan', _⟩
  have hplans : pending.transition.relation.plan = checked.transition.relation.plan :=
    planBinding_injective hfree hplan' hplanBinding
  have hcoordinations : pending.transition.coordination = checked.transition.coordination :=
    hsame.trans (RelationTransition.checked_keeps hnormal).1.symm
  rw [admission_samePlan hrelation hplan, hcoordination, hbound,
    scheduleRelation_of_checked _ hnormal, hprevious, scheduleRelation_some hidem hgranted,
    if_neg (not_not_intro hplans), if_pos hcoordinations]
  dsimp only
  -- The digests of the work agree exactly when the subjects do.
  by_cases hsubjects : pending.transition.subjects = checked.transition.subjects
  · right
    rcases hgrants.again hnormal hplans hcoordinations hsubjects with ⟨again, hagain, hdigests⟩
    cases hchecked.symm.trans hagain
    refine ⟨pending, if_pos hsubjects, ?_⟩
    rw [if_neg (not_not_intro hdigests.symm), pendingFromBinding_granted hgrants hidem hplans,
      ← hsubjects]
    rfl
  · left
    refine ⟨if_neg hsubjects, if_pos ?_⟩
    intro hdigests
    exact hsubjects (hgrants.subjects hfree hchecked hplans hdigests)

/-- A coordination that is not bound answers as the law does on the current
    work, unless the store is full. -/
theorem admission_unbound
    (hunbound : state.bindingOf relation transition.coordination = none)
    (hroom : ¬ maxBindings ≤ state.bindingCount) :
    (∃ error, scheduleRelation (previousFor granted transition) transition = .error error ∧
      admission state maxBindings checked = .error (.schedule error)) ∨
    ∃ pending,
      scheduleRelation (previousFor granted transition) transition = .ok (.scheduled pending) ∧
        admission state maxBindings checked = .ok (.scheduled pending,
          some (.schedule relation checked.planBinding
            { checked.binding with fence := pending.fence.raw })) := by
  rcases checkedWork_eq_ok hchecked with ⟨hnormal, _, _, hplanBinding, bytes, hbytes, hbinding⟩
  have hidem := RelationTransition.checked_idem hnormal
  have hcoordination := checkedWork_coordination hchecked
  rcases previousFor_unbound hrecounts hadmitted hunbound with ⟨hunseen, hprevious⟩
  rw [admission_samePlan hrelation hplan, hcoordination, hunbound,
    scheduleRelation_of_checked _ hnormal, hprevious]
  dsimp only
  rw [if_neg hroom]
  rcases getLast?_paired hadmitted with ⟨hlast, hgranted⟩ |
    ⟨entry, pending, hlast, hgranted, hgrants⟩
  · -- The relation is new to the store.
    have hnone := hrecounts.planned (getLast?_eq_none_iff.mp hlast)
    rw [State.planOf, map_eq_none_iff] at hnone
    right
    rw [hnone, hgranted, scheduleRelation_none hidem]
    exact ⟨_, rfl, by simp only [currentPending, ok_bind, scheduleRelation_none hidem]⟩
  · rw [hgranted]
    rcases hgrants.named with ⟨hgrantedChecked, hplan', hnamed, _, _⟩
    have hmem : entry ∈ scheduled := mem_of_getLast? hlast
    have hdigest : entry.1 = checked.planBinding := hplan _ (hrecounts.plans _ hmem)
    rw [hdigest] at hplan'
    have hplans : pending.transition.relation.plan = checked.transition.relation.plan :=
      planBinding_injective hfree hplan' hplanBinding
    have hapart : pending.transition.coordination ≠ checked.transition.coordination := by
      rw [(RelationTransition.checked_keeps hnormal).1]
      exact hunseen pending (mem_of_getLast? hgranted)
    -- The store puts the current work together with the new subjects.
    have hcurrent : currentPending state.relations[relation]? checked.transition =
        .ok (some ⟨⟨pending.transition.relation, pending.transition.coordination,
          checked.transition.subjects⟩, pending.fence⟩) := by
      have hcurrentOf := hrecounts.current
      rw [hlast, map_some, State.currentOf, bind_eq_some_iff] at hcurrentOf
      rcases hcurrentOf with ⟨stored, hstored, hentry⟩
      rw [hstored, currentPending, hentry]
      simp [orCorrupt, ok_bind, pendingFromBinding_granted hgrants hidem hplans]
    have hstand : (⟨pending.transition.relation, pending.transition.coordination,
        checked.transition.subjects⟩ : RelationTransition).checked =
          some ⟨pending.transition.relation, pending.transition.coordination,
            checked.transition.subjects⟩ := by
      have hother := relationTransition_other hgrantedChecked hidem hplans
      exact hother
    rw [hcurrent, ok_bind,
      @scheduleRelation_next _ hidem ⟨⟨_, _, _⟩, pending.fence⟩ hstand hplans hapart,
      scheduleRelation_next hidem hgrantedChecked hplans hapart]
    dsimp only
    cases (checkedSucc pending.fence.raw).bind LeaseFence.new with
    | none => exact Or.inl ⟨_, rfl, rfl⟩
    | some fence => exact Or.inr ⟨_, rfl, rfl⟩

end

/-- The answer to a currency check is whether the work was admitted last. -/
theorem isCurrentWork_iff (hfree : codec.CollisionFree) {pending : PendingRelation}
    (hchecked : checkedWork codec pending.transition = .ok checked)
    (hrelation : checked.relation = relation) :
    isCurrentWork state checked pending = true ↔
      granted.getLast? = some ⟨checked.transition, pending.fence⟩ := by
  rcases checkedWork_eq_ok hchecked with ⟨hnormal, hagain, _, hplanBinding, _, _, hbinding⟩
  have hcurrent := hrecounts.current
  subst hrelation
  unfold State.currentOf at hcurrent
  unfold isCurrentWork
  rcases getLast?_paired hadmitted with ⟨hlast, hgranted⟩ |
    ⟨entry, latest, hlast, hgranted, hgrants⟩
  · have hnone := hrecounts.planned (getLast?_eq_none_iff.mp hlast)
    rw [State.planOf, map_eq_none_iff] at hnone
    simp [hnone, hgranted]
  · have hplan := hrecounts.plans entry (mem_of_getLast? hlast)
    rw [State.planOf, map_eq_some_iff] at hplan
    rcases hplan with ⟨stored, hstored, hdigest⟩
    rw [hlast, hstored, bind_some, map_some] at hcurrent
    rcases hgrants.named with ⟨_, hplan', hcoordination, hrole, hfence⟩
    rcases id hgrants with ⟨work, hwork, hworkSame, _, hworkPlan, hentry⟩
    rw [hstored, hgranted, some.injEq]
    constructor
    · intro h
      simp only [Option.any_eq_true, Option.bind_eq_some_iff, Option.filter_eq_some_iff,
        some.injEq, beq_iff_eq, Bool.and_eq_true] at h
      rcases h with ⟨current, ⟨_, ⟨rfl, hsame⟩, hbound⟩, ⟨⟨hcoordination', hwork'⟩, hrole'⟩,
        hfence'⟩
      cases hcurrent.symm.trans hbound
      refine hgrants.unique hfree ⟨checked, hagain, rfl, rfl, hsame.symm.trans hdigest, ?_⟩
      rcases entry with ⟨_, _, _, _, _⟩
      dsimp only at hcoordination' hwork' hrole' hfence'
      rw [hcoordination', hwork', hrole', hfence']
    · intro h
      subst h
      cases hagain.symm.trans hwork
      have hsame : (stored.planBinding == checked.planBinding) = true := by
        rw [hdigest, hworkPlan, beq_self_eq_true]
      rw [filter_some, if_pos hsame, bind_some, hcurrent, any_some, hentry]
      simp

end Law

/-! ### Whole histories -/

/-- Why the store may refuse what the law admits: a writer has no JSON for the
    work, the store is full, or the entry cannot be appended. New work apart,
    only the first is possible. -/
inductive Refused (codec : BindingCodec) (maxBindings : Nat) (state : State)
    (granted : List PendingRelation) (transition : RelationTransition) : StoreError → Prop
  | unwritten {error : StoreError} (hvalid : transition.checked ≠ none)
      (h : checkedWork codec transition = .error error) :
      Refused codec maxBindings state granted transition error
  | full (hunseen : Unseen granted transition.coordination)
      (h : maxBindings ≤ state.bindingCount) :
      Refused codec maxBindings state granted transition .full
  | unappended {error : StoreError} {checked : CheckedWork} {pending : PendingRelation}
      (hunseen : Unseen granted transition.coordination)
      (hchecked : checkedWork codec transition = .ok checked)
      (hlaw : scheduleRelation (previousFor granted transition) transition =
        .ok (.scheduled pending))
      (h : appendPlan codec maxBindings state
        (.schedule checked.relation checked.planBinding
          { checked.binding with fence := pending.fence.raw }) = .error error) :
      Refused codec maxBindings state granted transition error

/-- What a schedule call does, against the law on what was admitted so far:
    duplicates are returned, conflicts are refused, new work is admitted with
    one entry, and whatever is not admitted commits nothing. -/
def AnswersByLaw (codec : BindingCodec) (maxBindings : Nat) (entries : List JournalEntry)
    (state : State) (granted : List PendingRelation) (transition : RelationTransition)
    (outcome : Durable.Outcome Root StoreError RelationAdmission) : Prop :=
  match scheduleRelation (previousFor granted transition) transition with
  | .ok (.duplicate pending) => outcome.answer = .ok (.duplicate pending) ∧
    outcome.store.disk.Commits codec maxBindings entries state
  | .ok (.scheduled pending) =>
    (outcome.answer = .ok (.scheduled pending) ∧ ∃ entry state',
      outcome.store.disk.Commits codec maxBindings (entries ++ [entry]) state' ∧
      Admitted codec transition.relation.plan.identity (entries ++ [entry])
        (granted ++ [pending])) ∨
    ∃ error, outcome.answer = .error error ∧
      Refused codec maxBindings state granted transition error ∧
      outcome.store.disk.Commits codec maxBindings entries state
  | .error error =>
    (outcome.answer = .error (.schedule error) ∨ ∃ error, outcome.answer = .error error ∧
      Refused codec maxBindings state granted transition error) ∧
    outcome.store.disk.Commits codec maxBindings entries state

section Histories

variable {codec : OutboxCodec} {registry : RelationRegistry} {maxBindings : Nat} {world : World}
  {entries : List JournalEntry} {state : State} {granted : List PendingRelation}
  {transition : RelationTransition} {root : Root}

/-- The state of a root that holds entries recounts each schedule. -/
theorem Root.Holds.recounts {codec : JournalCodec} (h : root.Holds codec maxBindings entries state)
    (relation : ArtifactId) : state.Recounts relation (scheduledOf relation entries) := by
  rcases h.commits.journal with ⟨bytes, _, _, hreplay⟩
  exact hreplay.recounts (State.recounts_empty relation)

/-- Work that the store cannot write is not a duplicate. -/
theorem not_duplicate_of_unwritten {codec : BindingCodec} {relation : ArtifactId}
    {error : StoreError} {pending : PendingRelation} {normal : RelationTransition}
    (hadmitted : Admitted codec relation entries granted)
    (herror : checkedWork codec transition = .error error)
    (hnormal : transition.checked = some normal) :
    scheduleRelation (previousFor granted transition) transition ≠ .ok (.duplicate pending) := by
  intro hlaw
  rw [scheduleRelation_of_checked _ hnormal] at hlaw
  cases hprevious : previousFor granted transition with
  | none =>
    rw [hprevious, scheduleRelation_none (RelationTransition.checked_idem hnormal)] at hlaw
    cases hlaw
  | some previous =>
    rcases exists_left_of_paired hadmitted (mem_of_previousFor hprevious) with ⟨_, _, hgrants⟩
    rw [hprevious, scheduleRelation_some (RelationTransition.checked_idem hnormal)
      hgrants.named.1] at hlaw
    split at hlaw
    next => cases hlaw
    next hplans =>
    split at hlaw
    next hcoordination =>
      split at hlaw
      next hsubjects =>
        -- The same work was written before.
        rcases hgrants.again hnormal (not_not.mp hplans) hcoordination hsubjects with
          ⟨_, hagain, _⟩
        rw [herror] at hagain
        cases hagain
      next => cases hlaw
    next =>
      generalize (checkedSucc previous.fence.raw).bind LeaseFence.new = fence at hlaw
      cases fence with
      | none => cases hlaw
      | some fence =>
        cases hlaw

/-- A schedule call on work that can be written does what its decision says. -/
theorem schedule_decided (hcodec : codec.Lawful)
    (h : root.Holds codec maxBindings entries state) {checked : CheckedWork}
    (hchecked : checkedWork codec transition = .ok checked)
    {outcome : Durable.Outcome Root StoreError RelationAdmission}
    (houtcome : schedule codec maxBindings transition root = outcome) :
    match admission state maxBindings checked with
    | .error error => outcome.answer = .error error ∧
      outcome.store.disk.Commits codec maxBindings entries state
    | .ok (answer, none) => outcome.answer = .ok answer ∧
      outcome.store.disk.Commits codec maxBindings entries state
    | .ok (answer, some action) =>
      (outcome.answer = .ok answer ∧ ∃ state', outcome.store.disk.Commits codec
        maxBindings (entries ++ [⟨state.tailDigest, action⟩]) state') ∨
      ∃ error, outcome.answer = .error error ∧
        appendPlan codec maxBindings state action = .error error ∧
        outcome.store.disk.Commits codec maxBindings entries state := by
  have hfollows := @follows_schedule codec maxBindings root entries state hcodec transition h
  subst houtcome
  cases hanswer : (schedule codec maxBindings transition root).answer with
  | ok answer =>
    rcases hfollows.answered hanswer with ⟨checked', action, hchecked', hadmission, htook⟩
    rw [hchecked, Except.ok.injEq] at hchecked'
    rw [hchecked', hadmission]
    cases action with
    | none => exact ⟨rfl, htook.commits⟩
    | some action =>
      rcases htook with ⟨applied, _, _, hcurrent⟩
      exact Or.inl ⟨rfl, applied, hcurrent.commits⟩
  | error error =>
    rcases hfollows.failed hanswer with ⟨hcause, hholds⟩
    rcases hcause with hunwritten | ⟨checked', hchecked', hcause⟩
    · rw [hchecked] at hunwritten
      cases hunwritten
    rw [hchecked, Except.ok.injEq] at hchecked'
    rw [hchecked']
    rcases hcause with hrefused | ⟨answer, action, hadmission, hplan⟩
    · rw [hrefused]
      exact ⟨rfl, hholds.commits⟩
    · rw [hadmission]
      exact Or.inr ⟨error, rfl, hplan, hholds.commits⟩

theorem Admitted.snoc {codec : BindingCodec} {relation : ArtifactId} {planBinding : Digest}
    {binding : StoredBinding} {pending : PendingRelation} {previousTail : Option Digest}
    (h : Admitted codec relation entries granted)
    (hgrants : Grants codec relation planBinding binding pending) :
    Admitted codec relation (entries ++ [⟨previousTail, .schedule relation planBinding binding⟩])
      (granted ++ [pending]) := by
  have hscheduled : scheduledOf relation [⟨previousTail, .schedule relation planBinding binding⟩] =
      [(planBinding, binding)] := by
    rw [scheduledOf_cons, JournalAction.scheduledOf, if_pos rfl]
    rfl
  unfold Admitted
  rw [scheduledOf_append, hscheduled]
  exact rel_append h (.cons hgrants .nil)

/-- A schedule call on work that cannot be written answers by the law. -/
theorem schedule_unwritten (hcodec : codec.Lawful) (h : root.Holds codec maxBindings entries state)
    (hadmitted : Admitted codec transition.relation.plan.identity entries granted)
    {error : StoreError} (herror : checkedWork codec transition = .error error) :
    AnswersByLaw codec maxBindings entries state granted transition
      (schedule codec maxBindings transition root) := by
  have hfollows := @follows_schedule codec maxBindings root entries state hcodec transition h
  have hfailed : (schedule codec maxBindings transition root).answer =
      .error error ∧ (schedule codec maxBindings transition root).store.disk.Commits
        codec maxBindings entries state := by
    cases hanswer : (schedule codec maxBindings transition root).answer with
    | ok answer =>
      rcases hfollows.answered hanswer with ⟨_, _, hchecked, _⟩
      rw [herror] at hchecked
      cases hchecked
    | error other =>
      rcases hfollows.failed hanswer with ⟨hcause, hholds⟩
      rcases hcause with hunwritten | ⟨_, hchecked, _⟩
      · rw [herror, Except.error.injEq] at hunwritten
        exact ⟨by rw [hunwritten], hholds.commits⟩
      · rw [herror] at hchecked
        cases hchecked
  rcases hfailed with ⟨hanswer, hcommits⟩
  unfold AnswersByLaw
  cases hnormal : transition.checked with
  | none =>
    have hinvalid : scheduleRelation (previousFor granted transition) transition =
        .error .invalidTransition := by
      unfold scheduleRelation
      rw [hnormal]
    rw [checkedWork, hnormal, Except.error.injEq] at herror
    rw [hinvalid]
    exact ⟨Or.inl (herror ▸ hanswer), hcommits⟩
  | some normal =>
    have hrefused : Refused codec maxBindings state granted transition error :=
      .unwritten (by rw [hnormal]; exact some_ne_none normal) herror
    split
    next pending hlaw =>
      exact absurd hlaw (not_duplicate_of_unwritten hadmitted herror hnormal)
    next => exact Or.inr ⟨error, hanswer, hrefused, hcommits⟩
    next => exact ⟨Or.inr ⟨error, hanswer, hrefused⟩, hcommits⟩

/-- A schedule call from a root that holds entries answers by the law. -/
theorem schedule_by_law (hcodec : codec.Lawful) (hfree : codec.toBindingCodec.CollisionFree)
    (h : root.Holds codec maxBindings entries state)
    (hadmitted : Admitted codec transition.relation.plan.identity entries granted) :
    AnswersByLaw codec maxBindings entries state granted transition
      (schedule codec maxBindings transition root) := by
  cases hchecked : checkedWork codec transition with
  | error error => exact schedule_unwritten hcodec h hadmitted hchecked
  | ok checked =>
    have hrecounts := h.recounts transition.relation.plan.identity
    have hdecided := schedule_decided hcodec h hchecked rfl
    rcases checkedWork_eq_ok hchecked with ⟨hnormal, _, hidentity, _⟩
    have hrelation : checked.relation = transition.relation.plan.identity := by
      rw [hidentity, (RelationTransition.checked_keeps hnormal).2]
    have hcoordination : checked.binding.coordination = transition.coordination :=
      checkedWork_coordination hchecked
    unfold AnswersByLaw
    by_cases hplan : ∀ bound, state.planOf transition.relation.plan.identity = some bound →
        bound = checked.planBinding
    · cases hbound : state.bindingOf transition.relation.plan.identity
          transition.coordination with
      | some binding =>
        rcases admission_bound hrecounts hadmitted maxBindings hchecked
          hrelation hfree hplan hbound with ⟨hlaw, hadmission⟩ | ⟨pending, hlaw, hadmission⟩
        · rw [hadmission] at hdecided
          rw [hlaw]
          exact ⟨Or.inl hdecided.1, hdecided.2⟩
        · rw [hadmission] at hdecided
          rw [hlaw]
          exact hdecided
      | none =>
        have hunseen := (previousFor_unbound hrecounts hadmitted hbound).1
        by_cases hroom : maxBindings ≤ state.bindingCount
        · -- The store is full; a larger one would answer by the law.
          have hfull : admission state maxBindings checked = .error .full := by
            rw [admission_samePlan hrelation hplan, hcoordination, hbound]
            exact if_pos hroom
          have hrefused : Refused codec maxBindings state granted transition
            .full := .full hunseen hroom
          rw [hfull] at hdecided
          rcases admission_unbound hrecounts hadmitted (state.bindingCount + 1) hchecked
            hrelation hfree hplan hbound (by omega) with ⟨error, hlaw, _⟩ | ⟨pending, hlaw, _⟩
          · rw [hlaw]
            exact ⟨Or.inr ⟨_, hdecided.1, hrefused⟩, hdecided.2⟩
          · rw [hlaw]
            exact Or.inr ⟨_, hdecided.1, hrefused, hdecided.2⟩
        · rcases admission_unbound hrecounts hadmitted maxBindings hchecked hrelation
            hfree hplan hbound hroom with ⟨error, hlaw, hadmission⟩ | ⟨pending, hlaw, hadmission⟩
          · rw [hadmission] at hdecided
            rw [hlaw]
            exact ⟨Or.inl hdecided.1, hdecided.2⟩
          · rcases admission_granted hchecked hadmission with ⟨granting, hsame, _, hgrants⟩
            rw [RelationAdmission.scheduled.injEq] at hsame
            rw [← hsame, hrelation] at hgrants
            rw [hadmission] at hdecided
            rw [hlaw]
            rcases hdecided with ⟨hanswer, state', hcommits⟩ | ⟨error, hanswer, happend, hcommits⟩
            · exact Or.inl ⟨hanswer, _, state', hcommits, hadmitted.snoc hgrants⟩
            · rw [← hrelation] at happend
              exact Or.inr ⟨error, hanswer, .unappended hunseen hchecked hlaw happend, hcommits⟩
    · rw [not_forall] at hplan
      rcases hplan with ⟨bound, hbound⟩
      rw [Classical.not_imp] at hbound
      rcases admission_otherPlan hrecounts hadmitted maxBindings hchecked
        hrelation hbound.1 hbound.2 with ⟨hlaw, hadmission⟩
      rw [hadmission] at hdecided
      rw [hlaw]
      exact ⟨Or.inl hdecided.1, hdecided.2⟩

theorem State.Recounts.nodup {relation : ArtifactId} {scheduled : List (Digest × StoredBinding)}
    (h : state.Recounts relation scheduled) :
    (scheduled.map (fun entry => entry.2.coordination)).Nodup := by
  have hfences : (scheduled.map (fun entry => entry.2.fence)).Nodup := by
    rw [h.fences]
    exact nodup_range'
  rw [List.Nodup, pairwise_map] at hfences ⊢
  refine hfences.imp_of_mem (fun {left right} hleft hright hapart hsame => hapart ?_)
  -- The coordination is bound once, so its fence is one.
  have hbound := (h.bindings right.2.coordination left.2).mpr ⟨left.1, hleft, hsame⟩
  have hbound' := (h.bindings right.2.coordination right.2).mpr ⟨right.1, hright, rfl⟩
  rw [hbound, some.injEq] at hbound'
  rw [hbound']

/-- A currency check answers true for exactly the work admitted last. -/
theorem isCurrent_iff (hcodec : codec.Lawful) (hfree : codec.toBindingCodec.CollisionFree)
    (h : root.Holds codec maxBindings entries state) {pending : PendingRelation}
    (hadmitted : Admitted codec pending.transition.relation.plan.identity entries
      granted) :
    (isCurrent codec maxBindings pending root).answer = .ok true ↔
      ∃ transition, pending.transition.checked = some transition ∧
        granted.getLast? = some ⟨transition, pending.fence⟩ := by
  have hfollows := @follows_isCurrent codec maxBindings root entries state hcodec pending h
  have hrecounts := h.recounts pending.transition.relation.plan.identity
  cases hchecked : checkedWork codec pending.transition with
  | error error =>
    constructor
    · intro hanswer
      rcases hfollows.answered hanswer with ⟨_, hok, _⟩
      rw [hchecked] at hok
      cases hok
    · -- What was admitted could be written.
      rintro ⟨transition, hnormal, hlast⟩
      rcases exists_left_of_paired hadmitted (mem_of_getLast? hlast) with ⟨_, _, hgrants⟩
      rcases hgrants.again hnormal rfl rfl rfl with ⟨_, hagain, _⟩
      rw [hchecked] at hagain
      cases hagain
  | ok checked =>
    rcases checkedWork_eq_ok hchecked with ⟨hnormal, _, hidentity, _⟩
    have hrelation : checked.relation = pending.transition.relation.plan.identity := by
      rw [hidentity, (RelationTransition.checked_keeps hnormal).2]
    have hiff := isCurrentWork_iff hrecounts hadmitted hfree hchecked hrelation
    have hanswer : (isCurrent codec maxBindings pending root).answer =
        .ok (isCurrentWork state checked pending) := by
      cases hrun : (isCurrent codec maxBindings pending root).answer with
      | ok answer =>
        rcases hfollows.answered hrun with ⟨checked', hchecked', rfl⟩
        rw [hchecked, Except.ok.injEq] at hchecked'
        rw [hchecked']
      | error error =>
        have hfailed := hfollows.failed hrun
        rw [hchecked] at hfailed
        cases hfailed
    rw [hanswer, Except.ok.injEq, hiff, hnormal]
    simp

/-- The store schedules by the law. In every world a run reaches, the work
    admitted for a relation, in the order in which it was committed, has the
    fences one, two, three and so on, and

    * no later world changes or reorders it;
    * every schedule call answers by the law, applied to what was admitted for
      its coordination or else to what was admitted last;
    * a currency check answers true for exactly the work admitted last, under
      its fence. -/
theorem store_schedules_by_law (hcodec : codec.Lawful)
    (hfree : codec.toBindingCodec.CollisionFree) {events : List Event}
    (hrun : World.Run codec registry .initial events world)
    (hcommits : world.disk.Commits codec maxBindings entries state) (relation : ArtifactId) :
    ∃ granted, (∀ other, Admitted codec relation entries other ↔ other = granted) ∧
      granted.map (fun pending => pending.fence.raw) = List.range' 1 granted.length ∧
      (granted.map (fun pending => pending.transition.coordination)).Nodup ∧
      (∀ later events' entries' state', World.Run codec registry world events' later →
        later.disk.Commits codec maxBindings entries' state' →
        ∃ more, Admitted codec relation entries' (granted ++ more)) ∧
      ∀ handle opened, world.handles handle = some opened →
        (∀ transition, transition.relation.plan.identity = relation →
          AnswersByLaw codec maxBindings entries state granted transition
            (schedule codec opened.maxBindings transition
              ⟨world.disk, opened.state⟩)) ∧
        ∀ pending, pending.transition.relation.plan.identity = relation →
          ((isCurrent codec opened.maxBindings pending
            ⟨world.disk, opened.state⟩).answer = .ok true ↔
            ∃ transition, pending.transition.checked = some transition ∧
              granted.getLast? = some ⟨transition, pending.fence⟩) := by
  rcases hrun.committed hcodec hcommits with ⟨hworld, hgranted⟩
  rcases admitted_of_granted relation hgranted with ⟨granted, hadmitted⟩
  have hrecounts := hcommits.holds.recounts relation
  refine ⟨granted, fun other => ⟨fun hother => ?_, fun hsame => hsame ▸ hadmitted⟩, ?_, ?_, ?_, ?_⟩
  · refine right_unique_forall₂' ?_ hother hadmitted
    exact fun _ _ _ => Grants.unique hfree
  · rw [← hadmitted.length_eq, ← hrecounts.fences]
    exact (map_eq_of_paired hadmitted (fun _ _ hgrants => hgrants.named.2.2.2.2)).symm
  · rw [← map_eq_of_paired hadmitted (fun _ _ hgrants => hgrants.named.2.2.1)]
    exact hrecounts.nodup
  · intro later events' entries' state' hlater hcommits'
    rcases hlater.grows hcodec hworld with ⟨more, _, last, hlast, _, hgranted'⟩
    rcases hlast.disk.unique hcodec hcommits' with ⟨rfl, _⟩
    rcases admitted_of_granted relation hgranted' with ⟨granted', hadmitted'⟩
    refine ⟨granted', ?_⟩
    unfold Admitted
    rw [scheduledOf_append]
    exact rel_append hadmitted hadmitted'
  · intro handle opened hhandle
    rcases hworld.holds hhandle with ⟨rfl, hholds⟩
    refine ⟨?_, ?_⟩
    · rintro transition rfl
      exact schedule_by_law hcodec hfree hholds hadmitted
    · rintro pending rfl
      exact isCurrent_iff hcodec hfree hholds hadmitted

end Histories

/-- The law along a history, each admitted value handed on to the next call. -/
def scheduleHistory (previous : Option PendingRelation) :
    List RelationTransition → List (Except RelationScheduleError RelationAdmission)
  | [] => []
  | transition :: rest =>
    match scheduleRelation previous transition with
    | .error error => .error error :: scheduleHistory previous rest
    | .ok (.scheduled pending) => .ok (.scheduled pending) :: scheduleHistory (some pending) rest
    | .ok (.duplicate pending) => .ok (.duplicate pending) :: scheduleHistory (some pending) rest

namespace Sample

theorem sha256_injective : Function.Injective sha256 := Digest.spelled_injective

theorem writesApart_listed {α : Type} [DecidableEq α] (values : List α) :
    WritesApart (listed values).toVec := by
  intro left right bytes hleft hright
  have hread := listed_roundTrips values left bytes hleft
  rw [listed_roundTrips values right bytes hright, some.injEq] at hread
  exact hread.symm

theorem codec_collisionFree : codec.toBindingCodec.CollisionFree :=
  ⟨sha256_injective, writesApart_listed _, writesApart_listed _, writesApart_listed _⟩

end Sample

open Relations.Sample

/-- A delayed retry. The law, handed the latest work, admits the retry as new
    work under the third fence; the store returns the work of the first. -/
theorem store_differs_from_history :
    World.Run codec registry .initial
      [.quiet,
        .scheduled (transition "a")
          (.ok (.scheduled ⟨transition "a", ⟨1, by decide⟩⟩)),
        .scheduled (transition "b")
          (.ok (.scheduled ⟨transition "b", ⟨2, by decide⟩⟩)),
        .scheduled (transition "a")
          (.ok (.duplicate ⟨transition "a", ⟨1, by decide⟩⟩))]
      (world (admitting (transition "a") second)) ∧
    scheduleHistory none
      [transition "a", transition "b", transition "a"] =
      [.ok (.scheduled ⟨transition "a", ⟨1, by decide⟩⟩),
        .ok (.scheduled ⟨transition "b", ⟨2, by decide⟩⟩),
        .ok (.scheduled ⟨transition "a", ⟨3, by decide⟩⟩)] := by
  have hanswers :
      answering (transition "a") opened = .ok (.scheduled ⟨transition "a", ⟨1, by decide⟩⟩) ∧
      answering (transition "b") first = .ok (.scheduled ⟨transition "b", ⟨2, by decide⟩⟩) ∧
      answering (transition "a") second = .ok (.duplicate ⟨transition "a", ⟨1, by decide⟩⟩) := by
    decide +kernel
  have hrun := run_scheduled (transition "a") run_second
  rw [hanswers.1, hanswers.2.1, hanswers.2.2] at hrun
  exact ⟨hrun, by decide +kernel⟩

/-- Two works were admitted, and the retry of the first is a duplicate. -/
theorem store_schedules_by_law_sample :
    ∃ entries state granted, second.disk.Commits codec 4 entries state ∧
      (∀ other, Admitted codec plan.identity entries other ↔ other = granted) ∧
      AnswersByLaw codec 4 entries state granted (transition "a")
        (schedule codec 4 (transition "a")
          ⟨second.disk, second.state⟩) := by
  rcases second_commits with ⟨entries, state, hworld⟩
  have hcommits := hworld.disk
  rcases store_schedules_by_law codec_lawful codec_collisionFree run_second
    hcommits plan.identity with ⟨granted, hunique, _, _, _, hhandles⟩
  have hanswers := (hhandles 0 _ (world_handles second)).1 (transition "a") rfl
  rw [world_disk] at hcommits hanswers
  dsimp only at hanswers
  exact ⟨entries, state, granted, hcommits, hunique, hanswers⟩

end Relations

end Amiss
