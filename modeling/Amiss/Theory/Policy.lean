import Amiss.Core.Policy
import Amiss.Theory.Path

/-!
# Policies That Give Nothing Up

The comparison of two policies looks at rows: whether each include of the base
is still there, with its suffix and its binding. What a policy means is a set of
paths. The two are linked by reading every include as a selector and the
admitted paths as those some selector selects, so that a candidate which keeps
the rows keeps the paths.

Bindings are different. They are a walk that stops at the first include that
answers, so a candidate that keeps every binding of the base can still answer
for a path earlier, through an include the base did not bind.

## Main definitions

* `Selector`, `Selector.Selects`: What an include means.
* `BindingSlot`: Where a binding is looked up.
* `AtLeastAsStrong`: What a candidate without weakenings keeps.

## Theorems

* `selects_iff`: A path is admitted when some selector selects it.
* `binding_eq_findSome?`: The walk of a binding.
* `includes_union_by_rows`: The includes of two sides answer as their rows do.
* `not_weakened_atLeastAsStrong`: What no weakening implies.
-/

namespace Amiss

open List

/-! ### Covered paths -/

theorem covered_iff {roots : BTreeSet RepoPath} {path : Bytes} :
    covered roots path = true ↔ ∃ root ∈ roots, Under root.bytes path := by
  unfold covered
  simp only [any_eq_true, Option.any_eq_true, mem_ancestors, fromBytes_eq_some,
    Std.ExtTreeSet.contains_iff_mem]
  constructor
  · rintro ⟨ancestor, hunder, root, rfl, hroot⟩
    exact ⟨root, hroot, hunder⟩
  · rintro ⟨root, hroot, hunder⟩
    exact ⟨root.bytes, hunder, root, rfl, hroot⟩

/-! ### Suffixes -/

/-- A valid suffix lies within the last segment, so a path ends in it when the
    last segment does. -/
theorem mem_dottedTails {suffix : String} (hvalid : exactSuffixValid suffix = true)
    {path : Bytes} : utf8 suffix ∈ dottedTails path ↔ utf8 suffix <:+ path := by
  unfold exactSuffixValid at hvalid
  split at hvalid
  next tail hspelled =>
    simp only [Bool.and_eq_true, decide_eq_true_eq, Bool.not_eq_true', any_eq_false] at hvalid
    have hplain : ∀ byte ∈ utf8 suffix, byte ≠ 47 := by
      rw [hspelled, forall_mem_cons]
      refine ⟨by decide, fun byte hbyte hslash => hvalid.2 byte hbyte ?_⟩
      rw [hslash]
      rfl
    have hbase : utf8 suffix <:+ basename path ↔ utf8 suffix <:+ path := by
      rw [← reverse_prefix, ← reverse_prefix, basename, reverse_reverse]
      refine ⟨fun h => h.trans ?_, fun h => isPrefix_takeWhile ?_ h⟩
      · exact takeWhile_prefix _
      · intro byte hbyte
        exact decide_eq_true (hplain byte (mem_reverse.mp hbyte))
    unfold dottedTails
    rw [mem_filter, mem_tails, hbase, decide_eq_true_eq, hspelled]
    refine and_iff_left ⟨rfl, ?_⟩
    rw [← hspelled]
    exact hvalid.1.2
  next => cases hvalid

/-! ### Selectors -/

/-- What an include admits. -/
inductive Selector where
  | document (path : RepoPath)
  | tree (root : RepoPath)
  | suffixed (root : RepoPath) (suffix : String)

/-- A selector selects a path. -/
def Selector.Selects : Selector → RepoPath → Prop
  | .document exact, path => exact = path
  | .tree root, path => Under root.bytes path.bytes
  | .suffixed root suffix, path => Under root.bytes path.bytes ∧ utf8 suffix <:+ path.bytes

def DocumentInclude.selector (row : DocumentInclude) : Selector :=
  match row.suffix, row.kind with
  | some suffix, _ => .suffixed row.path.path suffix
  | none, .document => .document row.path.path
  | none, .tree => .tree row.path.path

variable (includes : Includes)

/-- The selectors that some includes hold. -/
def Includes.Has : Selector → Prop
  | .document path => path ∈ includes.documents
  | .tree root => root ∈ includes.trees
  | .suffixed root suffix => ∃ roots, includes.suffixRoots[suffix]? = some roots ∧ root ∈ roots

variable {path : RepoPath}

theorem selects_iff {includes : Includes}
    (hvalid : ∀ root suffix, includes.Has (.suffixed root suffix) → exactSuffixValid suffix = true) :
    includes.selects path = true ↔ ∃ selector, includes.Has selector ∧ selector.Selects path := by
  unfold Includes.selects
  simp only [Bool.or_eq_true, Std.ExtTreeSet.contains_iff_mem, covered_iff, any_eq_true,
    Option.any_eq_true, textOf_eq_some]
  constructor
  · rintro ((hdocument | ⟨root, hroot, hunder⟩) |
      ⟨_, htail, suffix, rfl, roots, hroots, root, hroot, hunder⟩)
    · exact ⟨.document path, hdocument, rfl⟩
    · exact ⟨.tree root, hroot, hunder⟩
    · have hsuffix := hvalid root suffix ⟨roots, hroots, hroot⟩
      exact ⟨.suffixed root suffix, ⟨roots, hroots, hroot⟩, hunder,
        (mem_dottedTails hsuffix).mp htail⟩
  · rintro ⟨selector, hhas, hselects⟩
    cases selector with
    | document exact =>
      have hsame : exact = path := hselects
      exact .inl (.inl (hsame ▸ hhas))
    | tree root => exact .inl (.inr ⟨root, hhas, hselects⟩)
    | suffixed root suffix =>
      have hsuffix := hvalid root suffix hhas
      rcases hhas with ⟨roots, hroots, hroot⟩
      exact .inr ⟨_, (mem_dottedTails hsuffix).mpr hselects.2, suffix, rfl, roots, hroots, root,
        hroot, hselects.1⟩

variable {merged : Includes} {row : DocumentInclude}

/-- One more include adds its selector and nothing else. -/
theorem has_merge {selector : Selector} :
    (merged.merge row).Has selector ↔ row.selector = selector ∨ merged.Has selector := by
  unfold Includes.merge DocumentInclude.selector
  rcases row with ⟨path, kind, suffix, adapter⟩
  cases suffix with
  | none =>
    cases kind with
    | document =>
      cases selector with
      | document exact => simp [Includes.Has]
      | tree | suffixed => simp [Includes.Has]
    | tree =>
      cases selector with
      | tree root => simp [Includes.Has]
      | document | suffixed => simp [Includes.Has]
  | some given =>
    cases selector with
    | document | tree => simp [Includes.Has]
    | suffixed root suffix =>
      simp only [Includes.Has, Selector.suffixed.injEq, getElem?_upsert]
      by_cases hsuffix : given = suffix
      · subst hsuffix
        simp only [if_true, Option.some.injEq, exists_eq_left', mem_inserted, and_true]
        refine or_congr_right ?_
        cases merged.suffixRoots[given]? with
        | none =>
          simp
        | some roots => simp
      · simp [hsuffix]

variable {rows : List DocumentInclude}

theorem has_foldl_merge {selector : Selector} :
    (rows.foldl Includes.merge merged).Has selector ↔
      (∃ row ∈ rows, row.selector = selector) ∨ merged.Has selector := by
  induction rows generalizing merged with
  | nil => simp
  | cons row rows ih =>
    rw [foldl_cons, ih, has_merge]
    simp only [mem_cons, exists_eq_or_imp]
    rw [or_left_comm, or_assoc]

theorem has_bind {selector : Selector} : (merged.bind row).Has selector ↔ merged.Has selector := by
  unfold Includes.bind
  split <;> cases selector <;> rfl

theorem has_foldl_bind {rows : List DocumentInclude} {merged : Includes} {selector : Selector} :
    (rows.foldl Includes.bind merged).Has selector ↔ merged.Has selector := by
  induction rows generalizing merged with
  | nil => rfl
  | cons row rows ih => rw [foldl_cons, ih, has_bind]

variable {base candidate : PolicySide}

theorem has_union {selector : Selector} :
    (Includes.union base candidate).Has selector ↔
      ∃ row ∈ base.rows ++ candidate.rows, row.selector = selector := by
  have hnone : ¬ Includes.default.Has selector := by
    cases selector with
    | document | tree => exact Std.ExtTreeSet.not_mem_empty
    | suffixed root suffix =>
      rintro ⟨roots, hroots, _⟩
      cases hroots
  have hsame : (Includes.union base candidate).Has selector ↔
      ((base.rows ++ candidate.rows).foldl Includes.merge .default).Has selector := by
    refine Iff.trans ?_ (@has_foldl_bind ((candidate.policy.or base.policy).elim []
      ScannerPolicy.documentIncludes) _ _)
    cases selector <;> rfl
  rw [hsame, has_foldl_merge]
  exact or_iff_left hnone

theorem PolicySide.rows_valid {side : PolicySide} (h : row ∈ side.rows) : row.valid = true := by
  unfold PolicySide.rows at h
  cases hpolicy : side.policy with
  | none =>
    rw [hpolicy] at h
    cases h
  | some policy =>
    rw [hpolicy] at h
    exact policy.includes_valid row h

theorem DocumentInclude.tree_of_suffix {suffix : String} (hvalid : row.valid = true)
    (hsuffix : row.suffix = some suffix) : row.kind = .tree ∧ exactSuffixValid suffix = true := by
  rw [DocumentInclude.valid, hsuffix, Bool.and_eq_true, decide_eq_true_eq] at hvalid
  exact hvalid

theorem DocumentInclude.suffix_valid {root : RepoPath} {suffix : String}
    (hvalid : row.valid = true) (hselector : row.selector = .suffixed root suffix) :
    exactSuffixValid suffix = true := by
  rcases row with ⟨path, kind, given, adapter⟩
  cases given with
  | none =>
    cases kind with
    | document | tree => exact Selector.noConfusion hselector
  | some given =>
    rw [DocumentInclude.selector, Selector.suffixed.injEq] at hselector
    exact hselector.2 ▸ (DocumentInclude.tree_of_suffix hvalid rfl).2

theorem union_selects :
    (Includes.union base candidate).selects path = true ↔
      ∃ row ∈ base.rows ++ candidate.rows, row.selector.Selects path := by
  rw [selects_iff]
  · simp only [has_union]
    constructor
    · rintro ⟨_, ⟨row, hrow, rfl⟩, hselects⟩
      exact ⟨row, hrow, hselects⟩
    · rintro ⟨row, hrow, hselects⟩
      exact ⟨row.selector, ⟨row, hrow, rfl⟩, hselects⟩
  · intro root suffix hhas
    rcases has_union.mp hhas with ⟨row, hrow, hselector⟩
    have hvalid : row.valid = true := by
      rcases mem_append.mp hrow with hrow | hrow
      · exact PolicySide.rows_valid hrow
      · exact PolicySide.rows_valid hrow
    exact DocumentInclude.suffix_valid hvalid hselector

/-! ### Bindings -/

/-- Where a binding is looked up. -/
inductive BindingSlot where
  | document (path : RepoPath)
  | suffixed (root : RepoPath)
  | tree (root : RepoPath)
  deriving DecidableEq

def DocumentInclude.slot (row : DocumentInclude) : BindingSlot :=
  match row.suffix, row.kind with
  | some _, _ => .suffixed row.path.path
  | none, .document => .document row.path.path
  | none, .tree => .tree row.path.path

/-- What is bound at a slot, with the suffix it asks for. -/
def Includes.bound : BindingSlot → Option (Option String × Adapter)
  | .document path => (includes.documentBindings[path]?).map (none, ·)
  | .suffixed root => (includes.suffixBindings[root]?).map (fun entry => (some entry.1, entry.2))
  | .tree root => (includes.treeBindings[root]?).map (none, ·)

theorem bound_bind {slot : BindingSlot} :
    (merged.bind row).bound slot =
      if row.slot = slot then (row.adapter.map (row.suffix, ·)).or (merged.bound slot)
      else merged.bound slot := by
  rcases row with ⟨path, kind, suffix, adapter⟩
  unfold Includes.bind DocumentInclude.slot
  cases adapter with
  | none => simp
  | some adapter =>
    cases suffix <;> cases kind <;> cases slot
    all_goals simp [Includes.bound, getElem?_inserted]
    all_goals split <;> rfl

/-- The include binds its slot to the value. -/
def DocumentInclude.Binds (row : DocumentInclude) (slot : BindingSlot)
    (value : Option String × Adapter) : Prop :=
  row.slot = slot ∧ row.suffix = value.1 ∧ row.adapter = some value.2

variable {value : Option String × Adapter}

/-- What is bound after includes was bound before or is bound by one of them. -/
theorem bound_foldl {slot : BindingSlot}
    (h : (rows.foldl Includes.bind merged).bound slot = some value) :
    (∃ row ∈ rows, row.Binds slot value) ∨ merged.bound slot = some value := by
  induction rows generalizing merged with
  | nil => exact .inr h
  | cons row rows ih =>
    rcases ih h with ⟨later, hlater, hbinds⟩ | hhead
    · exact .inl ⟨later, mem_cons_of_mem row hlater, hbinds⟩
    rw [bound_bind] at hhead
    split at hhead
    next hslot =>
      cases hadapter : row.adapter with
      | none =>
        rw [hadapter, Option.map_none, Option.none_or] at hhead
        exact .inr hhead
      | some adapter =>
        rw [hadapter, Option.map_some, Option.some_or, Option.some.injEq] at hhead
        refine .inl ⟨row, mem_cons_self, hslot, ?_, ?_⟩
        · rw [← hhead]
        · rw [← hhead, hadapter]
    next => exact .inr hhead

/-- Where the slots of includes differ, each binding stands. -/
theorem bound_foldl_of_mem {slot : BindingSlot}
    (happart : rows.Pairwise (fun left right => left.slot ≠ right.slot)) (hrow : row ∈ rows)
    (hbinds : row.Binds slot value) :
    (rows.foldl Includes.bind merged).bound slot = some value := by
  have hkept : ∀ (rows : List DocumentInclude) (merged : Includes),
      (∀ row ∈ rows, row.slot ≠ slot) → merged.bound slot = some value →
      (rows.foldl Includes.bind merged).bound slot = some value := by
    intro rows
    induction rows with
    | nil => exact fun _ _ h => h
    | cons row rows ih =>
      intro merged hother h
      rw [forall_mem_cons] at hother
      exact ih _ hother.2 (by rw [bound_bind, if_neg hother.1, h])
  rcases hbinds with ⟨hslot, hsuffix, hadapter⟩
  induction rows generalizing merged with
  | nil => cases hrow
  | cons first rows ih =>
    rw [pairwise_cons] at happart
    rcases mem_cons.mp hrow with rfl | hlater
    · refine hkept rows _ (fun other hother => ?_) ?_
      · rw [← hslot]
        exact (happart.1 other hother).symm
      · rw [bound_bind, if_pos hslot, hadapter, hsuffix, Option.map_some, Option.some_or]
    · exact ih happart.2 hlater

theorem RepoPathText.path_injective : Function.Injective RepoPathText.path := by
  rintro ⟨left, _⟩ ⟨right, _⟩ h
  rw [RepoPathText.path, RepoPathText.path, RepoPath.mk.injEq] at h
  rw [RepoPathText.mk.injEq]
  exact utf8_injective h

variable {left right : DocumentInclude}

/-- The kind and the path of the includes of a slot. -/
def BindingSlot.place : BindingSlot → IncludeKind × RepoPath
  | .document path => (.document, path)
  | .suffixed root | .tree root => (.tree, root)

theorem DocumentInclude.place_slot (h : row.valid = true) :
    row.slot.place = (row.kind, row.path.path) := by
  unfold DocumentInclude.slot
  split
  next hsuffix => rw [(DocumentInclude.tree_of_suffix h hsuffix).1, BindingSlot.place]
  next hkind => rw [hkind, BindingSlot.place]
  next hkind => rw [hkind, BindingSlot.place]

/-- Valid includes of one slot have one identity. -/
theorem DocumentInclude.key_eq_of_slot (hleft : left.valid = true) (hright : right.valid = true)
    (h : left.slot = right.slot) : left.key = right.key := by
  have hplace := congrArg BindingSlot.place h
  rw [DocumentInclude.place_slot hleft, DocumentInclude.place_slot hright, Prod.mk.injEq] at hplace
  rw [DocumentInclude.key, DocumentInclude.key, hplace.1, RepoPathText.path_injective hplace.2]

variable (side : PolicySide)

theorem PolicySide.keys_sorted : (side.rows.map DocumentInclude.key).Pairwise (· < ·) := by
  unfold PolicySide.rows
  cases side.policy with
  | none => exact List.Pairwise.nil
  | some policy => exact policy.includes_sorted

theorem PolicySide.eq_of_key {side : PolicySide} (hleft : left ∈ side.rows)
    (hright : right ∈ side.rows) (h : left.key = right.key) : left = right :=
  inj_on_of_nodup_map (side.keys_sorted.imp ne_of_lt) hleft hright h

theorem PolicySide.slots_apart : side.rows.Pairwise (fun left right => left.slot ≠ right.slot) := by
  refine (pairwise_map.mp side.keys_sorted).imp_of_mem ?_
  intro left right hleft hright hkeys hslot
  exact ne_of_lt hkeys
    (DocumentInclude.key_eq_of_slot (side.rows_valid hleft) (side.rows_valid hright) hslot)

/-- The side whose bindings a run uses. -/
def boundSide (base candidate : PolicySide) : PolicySide :=
  ⟨none, candidate.policy.or base.policy⟩

theorem rows_boundSide_default :
    (boundSide side .default).rows = side.rows ∧ (boundSide .default side).rows = side.rows := by
  unfold boundSide PolicySide.rows PolicySide.default
  refine ⟨rfl, ?_⟩
  rw [Option.or_none]

theorem mem_rows_of_boundSide (h : row ∈ (boundSide base candidate).rows) :
    row ∈ base.rows ++ candidate.rows := by
  unfold boundSide at h
  cases hpolicy : candidate.policy with
  | none =>
    rw [hpolicy, Option.none_or] at h
    exact mem_append_left _ h
  | some policy =>
    rw [hpolicy, Option.some_or, ← hpolicy] at h
    exact mem_append_right _ h

theorem bound_foldl_merge {slot : BindingSlot} :
    (rows.foldl Includes.merge merged).bound slot = merged.bound slot := by
  induction rows generalizing merged with
  | nil => rfl
  | cons row rows ih =>
    rw [foldl_cons, ih]
    unfold Includes.merge
    split <;> cases slot <;> rfl

/-- The bindings of two sides are the includes of one of them. -/
theorem bound_union {slot : BindingSlot} :
    (Includes.union base candidate).bound slot = some value ↔
      ∃ row ∈ (boundSide base candidate).rows, row.Binds slot value := by
  have hunbound : ((base.rows ++ candidate.rows).foldl Includes.merge .default).bound slot =
      none := by
    rw [bound_foldl_merge]
    cases slot <;> rfl
  have hsame : (Includes.union base candidate).bound slot =
      ((boundSide base candidate).rows.foldl Includes.bind
        ((base.rows ++ candidate.rows).foldl Includes.merge .default)).bound slot := by
    cases slot <;> rfl
  rw [hsame]
  constructor
  · intro hbound
    refine (bound_foldl hbound).resolve_right (fun hold => ?_)
    rw [hunbound] at hold
    cases hold
  · rintro ⟨row, hrow, hbinds⟩
    exact bound_foldl_of_mem (PolicySide.slots_apart _) hrow hbinds

/-- The slots a path's binding is looked up at, in order. -/
def bindingSlots (path : RepoPath) : List BindingSlot :=
  .document path :: (ancestors path.bytes).flatMap (fun ancestor =>
    (RepoPath.fromBytes ancestor).elim [] (fun root => [.suffixed root, .tree root]))

/-- What a slot answers for a path: its adapter, where the suffix fits. -/
def Includes.answer (path : RepoPath) (slot : BindingSlot) :
    Option Adapter :=
  ((includes.bound slot).filter (fun value =>
    value.1.all (fun suffix => (utf8 suffix).isSuffixOf path.bytes))).map Prod.snd

theorem answer_of_bound {slot : BindingSlot} {bound : Option Adapter} (path : RepoPath)
    (h : includes.bound slot = bound.map (none, ·)) : includes.answer path slot = bound := by
  rw [Includes.answer, h]
  cases bound <;> rfl

theorem answer_suffixed (path root : RepoPath) :
    includes.answer path (.suffixed root) = (includes.suffixBindings[root]?).bind (fun entry =>
      if (utf8 entry.1).isSuffixOf path.bytes then some entry.2 else none) := by
  unfold Includes.answer
  rw [Includes.bound]
  cases includes.suffixBindings[root]? with
  | none => rfl
  | some entry =>
    rw [Option.map_some, Option.filter_some, Option.all_some, Option.bind_some]
    split <;> rfl

/-- A binding is the first answer on the way up. -/
theorem binding_eq_findSome? (path : RepoPath) :
    includes.binding path = (bindingSlots path).findSome? (includes.answer path) := by
  unfold Includes.binding bindingSlots
  rw [findSome?_cons, answer_of_bound includes path rfl]
  cases includes.documentBindings[path]? with
  | some adapter => rfl
  | none =>
    dsimp only
    rw [findSome?_flatMap]
    refine congrArg (fun step => (ancestors path.bytes).findSome? step) ?_
    funext ancestor
    unfold atBytes
    cases RepoPath.fromBytes ancestor with
    | none => rfl
    | some root =>
      rw [Option.elim_some, findSome?_cons, findSome?_cons, findSome?_nil,
        answer_suffixed, answer_of_bound includes path rfl, Option.bind_some, Option.bind_some]
      cases includes.suffixBindings[root]? with
      | none => cases includes.treeBindings[root]? <;> rfl
      | some entry =>
        rw [Option.bind_some]
        dsimp only
        by_cases hfits : (utf8 entry.1).isSuffixOf path.bytes = true
        · rw [if_pos hfits, if_pos hfits]
        · rw [if_neg hfits, if_neg hfits]
          cases includes.treeBindings[root]? <;> rfl

variable {adapter : Adapter}

/-- What answers for a path is an include that selects it. -/
theorem answer_eq_some {slot : BindingSlot} :
    (Includes.union base candidate).answer path slot = some adapter ↔
      ∃ row ∈ (boundSide base candidate).rows, row.slot = slot ∧ row.adapter = some adapter ∧
        ∀ suffix ∈ row.suffix, utf8 suffix <:+ path.bytes := by
  unfold Includes.answer
  simp only [Option.map_eq_some_iff, Option.filter_eq_some_iff, bound_union,
    Option.all_eq_true, isSuffixOf_iff_suffix]
  constructor
  · rintro ⟨⟨suffix, _⟩, ⟨⟨row, hrow, hslot, hsuffix, hadapter⟩, hfits⟩, rfl⟩
    exact ⟨row, hrow, hslot, hadapter, hsuffix ▸ hfits⟩
  · rintro ⟨row, hrow, hslot, hadapter, hfits⟩
    exact ⟨(row.suffix, adapter), ⟨⟨row, hrow, hslot, rfl, hadapter⟩, hfits⟩, rfl⟩

theorem mem_bindingSlots (hslot : row.slot ∈ bindingSlots path)
    (hfits : ∀ suffix ∈ row.suffix, utf8 suffix <:+ path.bytes) : row.selector.Selects path := by
  unfold bindingSlots at hslot
  rw [mem_cons, mem_flatMap] at hslot
  rcases row with ⟨text, kind, suffix, adapter⟩
  rcases hslot with hdocument | ⟨ancestor, hancestor, hroot⟩
  · cases suffix with
    | some suffix => exact BindingSlot.noConfusion hdocument
    | none =>
      cases kind with
      | document => exact BindingSlot.document.inj hdocument
      | tree => exact BindingSlot.noConfusion hdocument
  · rw [mem_ancestors] at hancestor
    cases hfound : RepoPath.fromBytes ancestor with
    | none =>
      rw [hfound] at hroot
      cases hroot
    | some root =>
      rw [hfound, Option.elim_some, mem_cons, mem_singleton] at hroot
      rw [← fromBytes_eq_some.mp hfound] at hancestor
      cases suffix with
      | some suffix =>
        rcases hroot with hroot | hroot
        · rw [← BindingSlot.suffixed.inj hroot] at hancestor
          exact ⟨hancestor, hfits suffix rfl⟩
        · exact BindingSlot.noConfusion hroot
      | none =>
        cases kind with
        | document =>
          rcases hroot with hroot | hroot
          · exact BindingSlot.noConfusion hroot
          · exact BindingSlot.noConfusion hroot
        | tree =>
          rcases hroot with hroot | hroot
          · exact BindingSlot.noConfusion hroot
          · rw [← BindingSlot.tree.inj hroot] at hancestor
            exact hancestor

/-- An include that selects a path is looked up for it. -/
theorem slot_mem_bindingSlots (h : row.selector.Selects path) :
    row.slot ∈ bindingSlots path ∧ ∀ suffix ∈ row.suffix, utf8 suffix <:+ path.bytes := by
  rcases row with ⟨text, kind, suffix, adapter⟩
  have hroot : Under text.path.bytes path.bytes → ∀ slot ∈ [BindingSlot.suffixed text.path,
      .tree text.path], slot ∈ bindingSlots path := by
    intro hunder slot hslot
    refine mem_cons_of_mem _ (mem_flatMap.mpr
      ⟨text.path.bytes, mem_ancestors.mpr hunder, ?_⟩)
    rw [fromBytes_eq_some.mpr rfl]
    exact hslot
  cases suffix with
  | some suffix =>
    refine ⟨hroot h.1 _ mem_cons_self, ?_⟩
    rintro _ ⟨⟩
    exact h.2
  | none =>
    refine ⟨?_, fun suffix hsuffix => absurd hsuffix (Option.not_mem_none suffix)⟩
    cases kind with
    | document =>
      have hexact : text.path = path := h
      rw [DocumentInclude.slot, hexact]
      exact mem_cons_self
    | tree => exact hroot h _ (mem_cons_of_mem _ mem_cons_self)

/-- The include is at least as near to what both select as the other one: it
    names the path itself, or the other's root is its own or stands above it. -/
def DocumentInclude.AsNear (row other : DocumentInclude) : Prop :=
  row.kind = .document ∨ other.kind = .tree ∧ Under other.path.path.bytes row.path.path.bytes

/-- The same of the slots. -/
def BindingSlot.AsNear : BindingSlot → BindingSlot → Prop
  | .document _, _ => True
  | .suffixed _, .document _ => False
  | .tree _, .document _ => False
  | .suffixed root, .suffixed other => Under other.bytes root.bytes
  | .suffixed root, .tree other => Under other.bytes root.bytes
  | .tree root, .suffixed other => Under other.bytes root.bytes
  | .tree root, .tree other => Under other.bytes root.bytes

theorem BindingSlot.asNear_refl (slot : BindingSlot) : slot.AsNear slot := by
  cases slot with
  | document => exact trivial
  | suffixed | tree => exact .inl rfl

theorem DocumentInclude.asNear_of_slot {other : DocumentInclude} (hrow : row.valid = true)
    (hother : other.valid = true) (h : row.slot.AsNear other.slot) : row.AsNear other := by
  have hplaces : ∀ {near far : BindingSlot}, near.AsNear far → near.place.1 = .document ∨
      far.place.1 = .tree ∧ Under far.place.2.bytes near.place.2.bytes := by
    intro near far hnear
    cases near <;> cases far
    all_goals first | exact .inl rfl | exact hnear.elim | exact .inr ⟨rfl, hnear⟩
  have hnear := hplaces h
  rw [DocumentInclude.place_slot hrow, DocumentInclude.place_slot hother] at hnear
  exact hnear

/-- A binding is looked up at the nearest slots first. -/
theorem bindingSlots_pairwise (path : RepoPath) :
    (bindingSlots path).Pairwise BindingSlot.AsNear := by
  have hroot : ∀ {near far : Bytes}, Under far near →
      ∀ x ∈ (RepoPath.fromBytes near).elim [] (fun root => [BindingSlot.suffixed root, .tree root]),
      ∀ y ∈ (RepoPath.fromBytes far).elim [] (fun root => [BindingSlot.suffixed root, .tree root]),
      x.AsNear y := by
    intro near far hunder x hx y hy
    cases hnear : RepoPath.fromBytes near with
    | none =>
      rw [hnear] at hx
      cases hx
    | some root =>
      cases hfar : RepoPath.fromBytes far with
      | none =>
        rw [hfar] at hy
        cases hy
      | some other =>
        rw [← fromBytes_eq_some.mp hnear, ← fromBytes_eq_some.mp hfar] at hunder
        rw [hnear, Option.elim_some, mem_cons, mem_singleton] at hx
        rw [hfar, Option.elim_some, mem_cons, mem_singleton] at hy
        rcases hx with rfl | rfl <;> rcases hy with rfl | rfl <;> exact hunder
  refine pairwise_cons.mpr ⟨fun _ _ => trivial, pairwise_flatMap.mpr ⟨?_, ?_⟩⟩
  · intro ancestor _
    cases hfound : RepoPath.fromBytes ancestor with
    | none => exact List.Pairwise.nil
    | some root => exact pairwise_pair.mpr (.inl rfl)
  · exact (ancestors_pairwise path.bytes).imp (fun hunder => hroot hunder)

/-- A binding is that of the nearest bound include that selects the path. -/
theorem binding_nearest (h : (Includes.union base candidate).binding path = some adapter) :
    ∃ row ∈ (boundSide base candidate).rows, row.adapter = some adapter ∧
      row.selector.Selects path ∧ ∀ other ∈ (boundSide base candidate).rows,
        other.adapter.isSome = true → other.selector.Selects path → row.AsNear other := by
  rw [binding_eq_findSome?] at h
  rcases findSome?_first (bindingSlots_pairwise path) h with ⟨slot, hslot, hanswer, hfirst⟩
  rcases answer_eq_some.mp hanswer with ⟨row, hrow, rfl, hadapter, hfits⟩
  refine ⟨row, hrow, hadapter, mem_bindingSlots hslot hfits, fun other hother hbound hselects => ?_⟩
  have hvalid := PolicySide.rows_valid hother
  rcases slot_mem_bindingSlots hselects with ⟨hmem, hsuffix⟩
  rcases Option.isSome_iff_exists.mp hbound with ⟨found, hfound⟩
  have hanswers : (Includes.union base candidate).answer path other.slot = some found :=
    answer_eq_some.mpr ⟨other, hother, rfl, hfound, hsuffix⟩
  have hnear : row.slot.AsNear other.slot := by
    rcases hfirst other.slot hmem (by rw [hanswers]; rfl) with hsame | hnear
    · rw [hsame]
      exact BindingSlot.asNear_refl row.slot
    · exact hnear
  exact DocumentInclude.asNear_of_slot (PolicySide.rows_valid hrow) hvalid hnear

/-- Of the bound includes that select a path one is the nearest. -/
theorem DocumentInclude.key_eq_of_asNear (hleft : left.valid = true) (hright : right.valid = true)
    (hselects : left.selector.Selects path) (hselects' : right.selector.Selects path)
    (hnear : left.AsNear right) (hnear' : right.AsNear left) : left.key = right.key := by
  have hexact : ∀ {row : DocumentInclude}, row.valid = true → row.selector.Selects path →
      row.kind = .document → row.path.path = path := by
    rintro ⟨text, kind, suffix, adapter⟩ hvalid hselects rfl
    cases suffix with
    | none => exact hselects
    | some suffix => cases (DocumentInclude.tree_of_suffix hvalid rfl).1
  have hsame : left.path = right.path ∧ left.kind = right.kind := by
    rcases hnear with hdocument | ⟨htree, hunder⟩
    · rcases hnear' with hdocument' | ⟨htree, -⟩
      · refine ⟨RepoPathText.path_injective ?_, hdocument.trans hdocument'.symm⟩
        exact (hexact hleft hselects hdocument).trans (hexact hright hselects' hdocument').symm
      · rw [hdocument] at htree
        cases htree
    · rcases hnear' with hdocument' | ⟨htree', hunder'⟩
      · rw [hdocument'] at htree
        cases htree
      · refine ⟨RepoPathText.path_injective ?_, htree'.trans htree.symm⟩
        have hbytes := hunder'.antisymm hunder
        exact Option.some.inj ((fromBytes_eq_some.mpr hbytes).symm.trans
          (fromBytes_eq_some.mpr rfl))
  rw [DocumentInclude.key, DocumentInclude.key, hsame.1, hsame.2]

/-- The includes of two sides answer for a path as their rows do: it is admitted
    when a row of either side selects it, it is bound only where it is admitted,
    and the binding is that of the nearest bound row that selects it. -/
theorem includes_union_by_rows (base candidate : PolicySide) (path : RepoPath) :
    ((Includes.union base candidate).selects path = true ↔
      ∃ row ∈ base.rows ++ candidate.rows, row.selector.Selects path) ∧
    (∀ adapter, (Includes.union base candidate).binding path = some adapter →
      (Includes.union base candidate).selects path = true) ∧
    ∀ adapter, (Includes.union base candidate).binding path = some adapter ↔
      ∃ row ∈ (boundSide base candidate).rows, row.adapter = some adapter ∧
        row.selector.Selects path ∧ ∀ other ∈ (boundSide base candidate).rows,
          other.adapter.isSome = true → other.selector.Selects path → row.AsNear other := by
  refine ⟨union_selects, fun adapter hbinding => ?_, fun adapter => ⟨binding_nearest, ?_⟩⟩
  · rcases binding_nearest hbinding with ⟨row, hrow, -, hselects, -⟩
    exact union_selects.mpr ⟨row, mem_rows_of_boundSide hrow, hselects⟩
  rintro ⟨row, hrow, hadapter, hselects, hnear⟩
  have hvalid := PolicySide.rows_valid hrow
  rcases slot_mem_bindingSlots hselects with ⟨hmem, hsuffix⟩
  -- The row answers, so something is bound; the nearest row is this one.
  have hanswer : (Includes.union base candidate).answer path row.slot = some adapter :=
    answer_eq_some.mpr ⟨row, hrow, rfl, hadapter, hsuffix⟩
  cases hbinding : (Includes.union base candidate).binding path with
  | none =>
    rw [binding_eq_findSome?, findSome?_eq_none_iff] at hbinding
    rw [hbinding row.slot hmem] at hanswer
    cases hanswer
  | some found =>
    rcases binding_nearest hbinding with ⟨nearest, hnearest, hfound, hselects', hall⟩
    have hkey := DocumentInclude.key_eq_of_asNear hvalid (PolicySide.rows_valid hnearest)
      hselects hselects' (hnear nearest hnearest (by rw [hfound]; rfl) hselects')
      (hall row hrow (by rw [hadapter]; rfl) hselects)
    rw [← hadapter, PolicySide.eq_of_key hrow hnearest hkey, hfound]

/-! ### The comparison -/

/-- What the candidate keeps of a base include. -/
structure DocumentInclude.KeptBy (row kept : DocumentInclude) : Prop where
  key : kept.key = row.key
  suffix : kept.suffix = row.suffix
  adapter : ∀ adapter, row.adapter = some adapter → kept.adapter = some adapter

theorem DocumentInclude.path_of_key (h : left.key = right.key) :
    left.path = right.path ∧ left.kind = right.kind := by
  rw [DocumentInclude.key, DocumentInclude.key, EmbeddingLike.apply_eq_iff_eq, Prod.mk.injEq] at h
  rcases left with ⟨⟨_, _⟩, _, _, _⟩
  rcases right with ⟨⟨_, _⟩, _, _, _⟩
  rw [RepoPathText.mk.injEq]
  exact h

theorem DocumentInclude.KeptBy.same {kept : DocumentInclude} (h : row.KeptBy kept) :
    kept.selector = row.selector ∧ kept.slot = row.slot := by
  rcases DocumentInclude.path_of_key h.key with ⟨hpath, hkind⟩
  unfold DocumentInclude.selector DocumentInclude.slot
  rw [hpath, hkind, h.suffix]
  exact ⟨rfl, rfl⟩

theorem includeWeakening_eq_none {candidate : Option DocumentInclude}
    (h : includeWeakening row candidate = none) :
    ∃ kept, candidate = some kept ∧ kept.suffix = row.suffix ∧
      ∀ adapter, row.adapter = some adapter → kept.adapter = some adapter := by
  unfold includeWeakening at h
  split at h
  next => cases h
  next kept =>
  split at h
  next => cases h
  next hsuffix =>
    refine ⟨kept, rfl, (not_ne_iff.mp hsuffix).symm, fun adapter hadapter => ?_⟩
    by_contra hlost
    rw [hadapter, Option.filter_some, if_pos (decide_eq_true hlost)] at h
    cases h

/-- Without a weakened include, every include of the base is kept. -/
theorem kept_of_not_weakened {base candidate : List DocumentInclude}
    (h : weakenedIncludes base candidate = []) (hrow : row ∈ base) :
    ∃ kept ∈ candidate, row.KeptBy kept := by
  have hnone := filterMap_eq_nil_iff.mp h row hrow
  rw [Option.map_eq_none_iff] at hnone
  rcases includeWeakening_eq_none hnone with ⟨kept, hkept, hsuffix, hadapter⟩
  rcases of_getElem?_foldl_insert DocumentInclude.key id hkept with ⟨found, hfound, hkey, rfl⟩
  exact ⟨found, hfound, hkey, hsuffix, hadapter⟩

/-- The protected paths of a side. -/
def PolicySide.inventory : List RepoPathText :=
  side.policy.elim [] ScannerPolicy.protectedInventory

/-- The projection assertions of a side. -/
def PolicySide.assertions : List ProjectionAssertion :=
  (side.policy.bind ScannerPolicy.projectionAssertions).getD []

/-- What a candidate policy keeps of a base policy. -/
structure AtLeastAsStrong (base candidate : PolicySide)
    (baseDeclared candidateDeclared : RouterDeclarations) : Prop where
  included : ∀ path, (Includes.union base .default).selects path = true →
    (Includes.union .default candidate).selects path = true
  bound : ∀ path adapter, (Includes.union base .default).binding path = some adapter →
    (Includes.union .default candidate).binding path = some adapter ∨
      ∃ row ∈ candidate.rows, row.selector.Selects path ∧ row.adapter.isSome = true ∧
        (Includes.union .default candidate).binding path = row.adapter ∧
        ∀ old ∈ base.rows, old.key = row.key → old.adapter = none
  inventory : ∀ member ∈ base.inventory, member ∈ candidate.inventory
  asserted : ∀ row ∈ base.assertions,
    ∃ kept ∈ candidate.assertions, kept.document = row.document ∧ kept.name = row.name
  routed : ∀ (path : RepoPath) router, baseDeclared[path]? = some router →
    candidateDeclared[path]? = some router
  raised : ∀ kind disposition, (raisedBy base.policy).minimum kind = some disposition →
    ∃ kept, (raisedBy candidate.policy).minimum kind = some kept ∧ disposition ≤ kept

theorem selects_of_kept (hkept : ∀ row ∈ base.rows, ∃ kept ∈ candidate.rows, row.KeptBy kept)
    (h : (Includes.union base .default).selects path = true) :
    (Includes.union .default candidate).selects path = true := by
  rw [union_selects] at h ⊢
  rcases h with ⟨row, hrow, hselects⟩
  rw [show PolicySide.default.rows = [] from rfl, append_nil] at hrow
  rcases hkept row hrow with ⟨kept, hmem, hkept⟩
  exact ⟨kept, mem_append_right _ hmem, hkept.same.1 ▸ hselects⟩

/-- A candidate that keeps the base's includes binds a path as the base does,
    or through an include the base does not bind. -/
theorem binding_of_kept (hkept : ∀ row ∈ base.rows, ∃ kept ∈ candidate.rows, row.KeptBy kept)
    (h : (Includes.union base .default).binding path = some adapter) :
    (Includes.union .default candidate).binding path = some adapter ∨
      ∃ row ∈ candidate.rows, row.selector.Selects path ∧ row.adapter.isSome = true ∧
        (Includes.union .default candidate).binding path = row.adapter ∧
        ∀ old ∈ base.rows, old.key = row.key → old.adapter = none := by
  rw [binding_eq_findSome?] at h ⊢
  have hslots : ∀ slot ∈ bindingSlots path, ∀ adapter,
      (Includes.union base .default).answer path slot = some adapter →
      (Includes.union .default candidate).answer path slot = some adapter := by
    intro slot _ adapter hanswer
    rw [answer_eq_some, (rows_boundSide_default _).1] at hanswer
    rcases hanswer with ⟨row, hrow, hslot, hadapter, hfits⟩
    rcases hkept row hrow with ⟨kept, hmem, hkept⟩
    rw [answer_eq_some, (rows_boundSide_default _).2]
    refine ⟨kept, hmem, hkept.same.2.trans hslot, hkept.adapter adapter hadapter, ?_⟩
    rw [hkept.suffix]
    exact hfits
  rcases findSome?_of_kept hslots h with hsame | ⟨slot, hslot, found, hbase, hanswer, hfirst⟩
  · exact .inl hsame
  rw [answer_eq_some, (rows_boundSide_default _).2] at hanswer
  rcases hanswer with ⟨row, hrow, rfl, hadapter, hfits⟩
  refine .inr ⟨row, hrow, mem_bindingSlots hslot hfits, by rw [hadapter]; rfl,
    by rw [hfirst, hadapter], ?_⟩
  intro old hold hkey
  -- A bound include of this identity would have answered for the base.
  cases hbound : old.adapter with
  | none => rfl
  | some bound =>
    rcases hkept old hold with ⟨kept, hmem, hkept⟩
    have hsame : kept = row := candidate.eq_of_key hmem hrow (hkept.key.trans hkey)
    subst hsame
    have hanswered : (Includes.union base .default).answer path kept.slot = some bound := by
      rw [answer_eq_some, (rows_boundSide_default _).1]
      exact ⟨old, hold, hkept.same.2.symm, hbound, hkept.suffix ▸ hfits⟩
    rw [hbase] at hanswered
    cases hanswered

theorem eq_nil_of_not_weakened {seeds : List ControlSeed}
    (hkind : ∀ seed ∈ seeds, seed.kind = .policyWeakened)
    (h : ∀ seed ∈ seeds, seed.kind ≠ .policyWeakened) : seeds = [] :=
  eq_nil_iff_forall_not_mem.mpr (fun seed hseed => h seed hseed (hkind seed hseed))

theorem weakenedIncludes_kind {base candidate : List DocumentInclude} :
    ∀ seed ∈ weakenedIncludes base candidate, seed.kind = .policyWeakened := by
  intro seed hseed
  rcases mem_filterMap.mp hseed with ⟨row, _, hrow⟩
  rcases Option.map_eq_some_iff.mp hrow with ⟨rule, _, rfl⟩
  rfl

/-- A list of weakenings, one for each row that fails a test, is empty when
    every row passes. -/
theorem forall_of_not_weakened {α : Type} {rows : List α} {fails : α → Bool}
    {rule : α → String} {path : α → Option RepoPath}
    (h : ∀ seed ∈ (rows.filter fails).map (fun row => weakened (rule row) (path row)),
      seed.kind ≠ .policyWeakened) : ∀ row ∈ rows, fails row = false := by
  intro row hrow
  by_contra hfails
  rw [Bool.not_eq_false] at hfails
  exact h _ (mem_map_of_mem (mem_filter.mpr ⟨hrow, hfails⟩)) rfl

/-- A candidate whose comparison with the base shows no weakening is at least as
    strong: it admits every path the base admits, keeps protected paths,
    assertions, router declarations and raised dispositions, and binds every
    path the base binds, to the same adapter unless it binds the path through
    an include the base does not bind. -/
theorem not_weakened_atLeastAsStrong (base candidate : PolicySide)
    (candidateDocuments : String → InventoryState)
    (baseDeclared candidateDeclared : RouterDeclarations)
    (h : ∀ seed ∈ pairControls base candidate candidateDocuments baseDeclared candidateDeclared,
      seed.kind ≠ .policyWeakened) :
    AtLeastAsStrong base candidate baseDeclared candidateDeclared := by
  unfold pairControls effects at h
  simp only [forall_mem_append] at h
  rcases h with ⟨⟨⟨⟨⟨⟨hincludes, hinventory⟩, hassertions⟩, _⟩, hdispositions⟩, _⟩, hrouters⟩
  have hkept : ∀ row ∈ base.rows, ∃ kept ∈ candidate.rows, row.KeptBy kept := fun _ =>
    kept_of_not_weakened (eq_nil_of_not_weakened weakenedIncludes_kind hincludes)
  refine ⟨fun _ => selects_of_kept hkept, fun _ _ => binding_of_kept hkept, ?_, ?_, ?_, ?_⟩
  · intro member hmember
    have hstays := forall_of_not_weakened hinventory member hmember
    rw [Bool.not_eq_false', contains_iff_mem] at hstays
    rcases mem_map.mp hstays with ⟨kept, hkept, htext⟩
    have hsame : kept = member := RepoPathText.path_injective (by
      rw [RepoPathText.path, RepoPathText.path, RepoPath.mk.injEq, htext])
    exact hsame ▸ hkept
  · intro row hrow
    have hstays := forall_of_not_weakened hassertions row hrow
    rw [Bool.not_eq_false', contains_iff_mem] at hstays
    rcases mem_map.mp hstays with ⟨kept, hkept, hnamed⟩
    rw [Prod.mk.injEq] at hnamed
    refine ⟨kept, hkept, RepoPathText.path_injective ?_, hnamed.2⟩
    rw [RepoPathText.path, RepoPathText.path, RepoPath.mk.injEq, hnamed.1]
  · intro path router hrouter
    have hstays := forall_of_not_weakened hrouters (path, router)
      (Std.ExtTreeMap.mem_toList_iff_getElem?_eq_some.mpr hrouter)
    exact not_ne_iff.mp (of_decide_eq_false hstays)
  · intro kind disposition hraised
    have hstays := forall_of_not_weakened hdispositions (kind, disposition)
      ((RaiseTable.minimum_eq_some_iff _ _ _).mp hraised)
    cases hnow : (raisedBy candidate.policy).minimum kind with
    | none =>
      rw [hnow] at hstays
      cases hstays
    | some kept =>
      rw [hnow, Option.all_some, decide_eq_false_iff_not, not_lt] at hstays
      exact ⟨kept, rfl, hstays⟩

namespace Sample

/-- The tree `docs`, read as Markdown. -/
def docsTree : DocumentInclude := ⟨⟨"docs", by decide⟩, .tree, none, some .markdown⟩

/-- One page of it, read as plain text. -/
def plainPage : DocumentInclude :=
  ⟨⟨"docs/page", by decide⟩, .document, none, some .plainAdvisory⟩

def plainPagePath : RepoPath := plainPage.path.path

def policyOf (rows : List DocumentInclude) (hvalid : ∀ row ∈ rows, row.valid = true)
    (hsorted : (rows.map DocumentInclude.key).Pairwise (· < ·)) : PolicySide :=
  ⟨none, some ⟨rows, none, [], ⟨[], List.Pairwise.nil⟩, none, none, hvalid, hsorted⟩⟩

def docsPolicy : PolicySide :=
  policyOf [docsTree] (by decide) (pairwise_singleton _ _)

/-- The same tree, and the page on its own. -/
def narrowedPolicy : PolicySide :=
  policyOf [docsTree, plainPage] (by decide +kernel) (by decide +kernel)

end Sample

open Sample

/-- A candidate that adds a binding for one page shows no weakening, and reads
    the page under another adapter than the base. -/
theorem rebinding_is_not_weakened :
    (∀ seed ∈ pairControls docsPolicy narrowedPolicy (fun _ => .scanned) ∅ ∅,
      seed.kind ≠ .policyWeakened) ∧
    (Includes.union docsPolicy .default).selects plainPagePath = true ∧
    (Includes.union docsPolicy .default).binding plainPagePath = some .markdown ∧
    (Includes.union .default narrowedPolicy).binding plainPagePath = some .plainAdvisory := by
  decide +kernel

/-- The sample candidate keeps what the base admits. -/
theorem not_weakened_atLeastAsStrong_docs :
    (∀ seed ∈ pairControls docsPolicy narrowedPolicy (fun _ => .scanned) ∅ ∅,
      seed.kind ≠ .policyWeakened) ∧
    (Includes.union .default narrowedPolicy).selects plainPagePath = true := by
  have hnone : ∀ seed ∈ pairControls docsPolicy narrowedPolicy
      (fun _ => .scanned) ∅ ∅, seed.kind ≠ .policyWeakened := by decide +kernel
  refine ⟨hnone, ?_⟩
  exact (not_weakened_atLeastAsStrong _ _ _ _ _ hnone).included _ (by decide +kernel)

end Amiss
