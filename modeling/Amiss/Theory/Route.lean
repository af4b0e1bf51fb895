import Amiss.Base.Fallible
import Amiss.Core.Route
import Amiss.Theory.Path

/-!
# Relative Destinations as Walks over a Stack

The reader of destinations keeps the path reached so far as one byte string
and cuts it at its last slash for every `..`. Here the same walk is made over
a stack of segments, one pushed for a name and one popped for `..`. The two
agree because a segment that was decoded holds no slash, so that what follows
the last slash is the last segment.

A base may be any byte string. Its segments are what lies between its slashes,
except that a slash in front of it separates nothing: the cut that removes the
first name removes that slash with it.

## Main definitions

* `baseSegments`: The stack a walk starts from.
* `stackSegment`: One segment on the stack.
* `stackPath`: The reading of a destination over a stack.

## Theorems

* `walkSegment_joined`: One segment of the walk.
* `normalizedPathUnder_eq_stackPath`: The two readings agree.
* `stackPath_traverses_iff`: When a walk leaves the repository.
* `normalizedPathUnder_walks`: What the reader of destinations does.
-/

namespace Amiss

open Except

open List

open Fallible

/-- The segments as one path. -/
def joined (stack : List Bytes) : Bytes := [47].intercalate stack

/-- The segments of a base, where a slash in front stays with the first. -/
def baseSegments : Bytes → List Bytes
  | [] => []
  | first :: rest => (rest.splitOn 47).modifyHead (fun head => first :: head)

/-- One segment on the stack: a name is pushed, `..` pops. -/
def stackSegment (stack : List Bytes) (segment : Bytes) : Except InvalidReference (List Bytes) :=
  match decodeComponent segment invalidPathByte with
  | .error reason => .error reason
  | .ok decoded =>
    if decoded = [46] then .ok stack
    else if decoded = [46, 46] then
      if stack = [] then .error .pathTraversal else .ok stack.dropLast
    else .ok (stack ++ [decoded])

/-- The text without its last slash, split at slashes. -/
def textSegments (text : Bytes) : List Bytes :=
  (if text.getLast? = some 47 then text.dropLast else text).splitOn 47

/-- The text promises a directory. -/
def promisesTree (text : Bytes) : Bool := text.length > 1 && text.getLast? == some 47

/-- What a destination must be before its segments are walked. -/
structure Walkable (isImage : Bool) (text : Bytes) : Prop where
  backslashFree : 92 ∉ text
  filled : [] ∉ textSegments text
  image : ¬ (promisesTree text = true ∧ isImage = true)

/-- The reading of a destination over a stack. -/
def stackPath (base : Bytes) (isImage : Bool) (text : Bytes) :
    Except (Resolution RepoPath) (RepoPath × TargetKind) :=
  if 92 ∈ text then .error (.invalid .backslashSeparator)
  else if [] ∈ textSegments text ∨ (promisesTree text ∧ isImage) then
    .error (.invalid .invalidSyntax)
  else
    match (textSegments text).foldlM stackSegment (baseSegments base) with
    | .error reason => .error (.invalid reason)
    | .ok stack =>
      if stack = [] ∧ ¬ isImage then .error (.unsupportedSemantics .repositoryRoot)
      else
        match RepoPath.fromBytes (joined stack) with
        | none => .error (.invalid .invalidSyntax)
        | some path =>
          .ok (path, if promisesTree text then .tree else if isImage then .blob else .either)

/-! ### Stacks and the paths they spell -/

/-- The segments of a walk: the first may begin with a slash, and no other
    byte of any of them is one. -/
structure Stacked (stack : List Bytes) : Prop where
  first : ∀ segment ∈ stack.head?, segment ≠ [] ∧ 47 ∉ segment.tail
  others : ∀ segment ∈ stack.tail, 47 ∉ segment

theorem Stacked.nil : Stacked [] :=
  ⟨by simp,
    by simp⟩

variable {stack : List Bytes}

theorem joined_concat (h : stack ≠ []) (last : Bytes) :
    joined (stack ++ [last]) = joined stack ++ 47 :: last := intercalate_concat h last

theorem joined_singleton (segment : Bytes) : joined [segment] = segment :=
  intercalate_singleton

/-- Only the empty stack spells the empty path. -/
theorem Stacked.joined_eq_nil_iff (h : Stacked stack) : joined stack = [] ↔ stack = [] := by
  constructor
  · intro hjoined
    cases stack with
    | nil => rfl
    | cons segment rest =>
      have hsegment := (h.first segment rfl).1
      cases rest with
      | nil =>
        rw [joined_singleton] at hjoined
        exact absurd hjoined hsegment
      | cons second rest =>
        rw [joined, intercalate_cons_cons, append_assoc] at hjoined
        exact absurd (append_eq_nil_iff.mp hjoined).1 hsegment
  · rintro rfl
    rfl

/-- What precedes the last slash, where the slash is known. -/
theorem beforeLastSlash_append {before last : Bytes} (h : 47 ∉ last) :
    beforeLastSlash (before ++ 47 :: last) = before := by
  have hlast : ∀ byte ∈ last.reverse, decide (byte ≠ 47) = true := by
    intro byte hbyte
    refine decide_eq_true ?_
    rintro rfl
    exact h (mem_reverse.mp hbyte)
  have hreverse : (before ++ 47 :: last).reverse = last.reverse ++ 47 :: before.reverse := by
    rw [reverse_append, reverse_cons, append_assoc, singleton_append]
  unfold beforeLastSlash
  rw [hreverse, dropWhile_append_of_pos hlast]
  simp

variable {segment : Bytes}

theorem beforeLastSlash_first (h : 47 ∉ segment.tail) : beforeLastSlash segment = [] := by
  cases segment with
  | nil => rfl
  | cons first rest =>
    by_cases hslash : first = 47
    · rw [hslash]
      have hcut : beforeLastSlash ([] ++ 47 :: rest) = [] := beforeLastSlash_append h
      exact hcut
    · have hall : ∀ byte ∈ (first :: rest).reverse, decide (byte ≠ 47) = true := by
        intro byte hbyte
        refine decide_eq_true ?_
        rcases mem_cons.mp (mem_reverse.mp hbyte) with rfl | hrest
        · exact hslash
        · rintro rfl
          exact h hrest
      unfold beforeLastSlash
      rw [dropWhile_eq_nil_iff.mpr hall]
      rfl

theorem Stacked.concat (h : Stacked stack) (hnamed : segment ≠ []) (hslash : 47 ∉ segment) :
    Stacked (stack ++ [segment]) := by
  cases stack with
  | nil =>
    refine ⟨?_, ?_⟩
    · intro first hfirst
      rw [nil_append, head?_cons, Option.mem_def, Option.some.injEq] at hfirst
      subst hfirst
      exact ⟨hnamed, fun hmem => hslash (mem_of_mem_tail hmem)⟩
    · simp
  | cons first rest =>
    refine ⟨h.first, ?_⟩
    intro other hother
    rcases mem_append.mp hother with hother | hother
    · exact h.others other hother
    · exact mem_singleton.mp hother ▸ hslash

theorem Stacked.dropLast (h : Stacked stack) : Stacked stack.dropLast := by
  rcases eq_nil_or_concat' stack with rfl | ⟨init, last, rfl⟩
  · exact h
  rw [dropLast_concat]
  cases init with
  | nil => exact Stacked.nil
  | cons first rest =>
    refine ⟨h.first, ?_⟩
    intro other hother
    exact h.others other (mem_append_left _ hother)

/-- Cutting at the last slash pops the last segment. -/
theorem Stacked.beforeLastSlash_joined (h : Stacked stack) :
    beforeLastSlash (joined stack) = joined stack.dropLast := by
  rcases eq_nil_or_concat' stack with rfl | ⟨init, last, rfl⟩
  · rfl
  rw [dropLast_concat]
  cases init with
  | nil =>
    rw [nil_append, joined_singleton]
    exact beforeLastSlash_first (h.first last rfl).2
  | cons first rest =>
    have hlast : 47 ∉ last :=
      h.others last (mem_append_right _ (mem_singleton.mpr rfl))
    rw [joined_concat (cons_ne_nil _ _), beforeLastSlash_append hlast]

theorem baseSegments_cons (first : UInt8) (rest : Bytes) :
    ∃ head tail, rest.splitOn 47 = head :: tail ∧
      baseSegments (first :: rest) = (first :: head) :: tail := by
  cases hsplit : rest.splitOn 47 with
  | nil => exact absurd hsplit (splitOn_ne_nil _ _)
  | cons head tail =>
    refine ⟨head, tail, rfl, ?_⟩
    rw [baseSegments, hsplit]
    rfl

theorem baseSegments_stacked (base : Bytes) : Stacked (baseSegments base) := by
  cases base with
  | nil => exact Stacked.nil
  | cons first rest =>
    rcases baseSegments_cons first rest with ⟨head, tail, hsplit, hbase⟩
    have hslash : ∀ segment ∈ rest.splitOn 47, 47 ∉ segment := notMem_of_mem_splitOn
    rw [hsplit] at hslash
    rcases forall_mem_cons.mp hslash with ⟨hhead, htail⟩
    rw [hbase]
    refine ⟨?_, htail⟩
    intro segment hsegment
    rw [head?_cons, Option.mem_def, Option.some.injEq] at hsegment
    subst hsegment
    exact ⟨cons_ne_nil _ _, hhead⟩

theorem joined_baseSegments (base : Bytes) : joined (baseSegments base) = base := by
  cases base with
  | nil => rfl
  | cons first rest =>
    rcases baseSegments_cons first rest with ⟨head, tail, hsplit, hbase⟩
    have hrest : joined (head :: tail) = rest := by
      rw [← hsplit]
      exact intercalate_splitOn 47
    rw [hbase, ← hrest]
    cases tail with
    | nil => rw [joined_singleton, joined_singleton]
    | cons second tail =>
      rw [joined, joined, intercalate_cons_cons, intercalate_cons_cons, cons_append, cons_append]

/-- The segments of a repository path are what lies between its slashes. -/
theorem RepoPath.baseSegments_eq (path : RepoPath) :
    baseSegments path.bytes = path.bytes.splitOn 47 := by
  have hnamed := path.named
  cases hbytes : path.bytes with
  | nil =>
    rw [hbytes] at hnamed
    exact absurd rfl (hnamed [] (mem_singleton.mpr rfl)).nonempty
  | cons first rest =>
    rcases baseSegments_cons first rest with ⟨head, tail, hsplit, hbase⟩
    have hfirst : first ≠ 47 := by
      rintro rfl
      rw [hbytes] at hnamed
      have hempty : ([] : Bytes) ∈ (47 :: rest : Bytes).splitOn 47 := by
        rw [← nil_append (47 :: rest), splitOn_append_cons_self_of_not_mem
          not_mem_nil]
        exact mem_cons_self
      exact (hnamed [] hempty).nonempty rfl
    have hsegments : ∀ segment ∈ (first :: head) :: tail, 47 ∉ segment := by
      have hslash : ∀ segment ∈ rest.splitOn 47, 47 ∉ segment := notMem_of_mem_splitOn
      rw [hsplit] at hslash
      rcases forall_mem_cons.mp hslash with ⟨hhead, htail⟩
      refine forall_mem_cons.mpr ⟨?_, htail⟩
      intro hmem
      rcases mem_cons.mp hmem with h | h
      · exact hfirst h.symm
      · exact hhead h
    have hjoined := joined_baseSegments (first :: rest)
    rw [hbase] at hjoined ⊢
    rw [← hjoined]
    exact (splitOn_intercalate 47 hsegments (cons_ne_nil _ _)).symm

/-! ### Decoding -/

theorem percentDecode_ne_nil {text : Bytes} (h : text ≠ []) : percentDecode text ≠ [] := by
  cases text with
  | nil => exact absurd rfl h
  | cons byte rest =>
    rw [percentDecode.eq_def]
    split
    · split
      · exact cons_ne_nil _ _
      · exact cons_ne_nil _ _
    · exact cons_ne_nil _ _
    · next heq => exact absurd heq (cons_ne_nil _ _)

/-- A decoded segment is not empty and holds no separator. -/
theorem decodeComponent_eq_ok {decoded : Bytes} (hsegment : segment ≠ [])
    (h : decodeComponent segment invalidPathByte = .ok decoded) : decoded ≠ [] ∧ 47 ∉ decoded := by
  simp only [decodeComponent, guard_eq_ok] at h
  replace h := h.2
  split at h
  · cases h
  next hclean =>
  cases h
  refine ⟨percentDecode_ne_nil hsegment, ?_⟩
  intro hmem
  have hnone := findSome?_eq_none_iff.mp hclean 47 hmem
  exact absurd hnone (by decide)

theorem decodeComponent_error {reason : InvalidReference}
    (h : decodeComponent segment invalidPathByte = .error reason) : reason ≠ .pathTraversal := by
  unfold decodeComponent at h
  split at h
  · rw [← error.inj h]
    decide
  simp only at h
  split at h
  · next found hfound =>
    rcases exists_of_findSome?_eq_some hfound with ⟨byte, -, hbyte⟩
    rw [← error.inj h]
    rintro rfl
    unfold invalidPathByte at hbyte
    repeat' split at hbyte
    all_goals cases hbyte
  · cases h

/-! ### The walk -/

/-- One segment of the walk is one segment on the stack. -/
theorem walkSegment_joined (hstack : Stacked stack) (hsegment : segment ≠ []) :
    walkSegment (joined stack) segment = (stackSegment stack segment).map joined ∧
      ∀ next, stackSegment stack segment = .ok next → Stacked next := by
  unfold walkSegment stackSegment
  cases hdecoded : decodeComponent segment invalidPathByte with
  | error reason =>
    exact ⟨rfl, fun next h => absurd h (by simp)⟩
  | ok decoded =>
    rcases decodeComponent_eq_ok hsegment hdecoded with ⟨hnamed, hslash⟩
    simp only [hstack.joined_eq_nil_iff]
    by_cases hdot : decoded = [46]
    · rw [if_pos hdot, if_pos hdot]
      refine ⟨rfl, ?_⟩
      intro next h
      exact ok.inj h ▸ hstack
    rw [if_neg hdot, if_neg hdot]
    by_cases hdots : decoded = [46, 46]
    · rw [if_pos hdots, if_pos hdots]
      by_cases hempty : stack = []
      · rw [if_pos hempty, if_pos hempty]
        exact ⟨rfl, fun next h => absurd h (by simp)⟩
      · rw [if_neg hempty, if_neg hempty, hstack.beforeLastSlash_joined]
        refine ⟨rfl, ?_⟩
        intro next h
        exact ok.inj h ▸ hstack.dropLast
    · rw [if_neg hdots, if_neg hdots]
      constructor
      · by_cases hempty : stack = []
        · rw [if_pos hempty, hempty, Except.map, nil_append, joined_singleton]
        · rw [if_neg hempty, Except.map, joined_concat hempty]
      · intro next h
        exact ok.inj h ▸ hstack.concat hnamed hslash

/-- The whole walk is the walk over the stack. -/
theorem foldlM_walkSegment_joined {segments : List Bytes} :
    ∀ {stack : List Bytes}, Stacked stack → [] ∉ segments →
      segments.foldlM walkSegment (joined stack) = (segments.foldlM stackSegment stack).map joined ∧
      ∀ last, segments.foldlM stackSegment stack = .ok last → Stacked last := by
  induction segments with
  | nil =>
    intro stack hstack _
    refine ⟨rfl, ?_⟩
    intro last h
    exact ok.inj h ▸ hstack
  | cons segment segments ih =>
    intro stack hstack hfilled
    rw [mem_cons, not_or] at hfilled
    rcases walkSegment_joined hstack (Ne.symm hfilled.1) with ⟨hstep, hnext⟩
    rw [foldlM_cons, foldlM_cons, hstep]
    cases hsegment : stackSegment stack segment with
    | error reason =>
      exact ⟨rfl, fun last h => absurd h (by
        simp [error_bind])⟩
    | ok next =>
      simp only [Except.map, ok_bind]
      exact ih (hnext next hsegment) hfilled.2

/-- The reading of a destination is its reading over a stack. -/
theorem normalizedPathUnder_eq_stackPath (base : Bytes) (isImage : Bool) (text : Bytes) :
    normalizedPathUnder base isImage text = stackPath base isImage text := by
  have hwalk : [] ∉ textSegments text → (textSegments text).foldlM walkSegment base =
      ((textSegments text).foldlM stackSegment (baseSegments base)).map joined ∧
      ∀ stack, (textSegments text).foldlM stackSegment (baseSegments base) = .ok stack →
        Stacked stack := by
    intro hfilled
    have h := foldlM_walkSegment_joined (baseSegments_stacked base) hfilled
    rwa [joined_baseSegments] at h
  unfold normalizedPathUnder stackPath
  unfold textSegments promisesTree at *
  by_cases hback : 92 ∈ text
  · rw [if_pos hback, if_pos hback]
  rw [if_neg hback, if_neg hback]
  simp only
  generalize (if text.getLast? = some 47 then text.dropLast else text).splitOn 47 = segments at *
  generalize (decide (text.length > 1) && text.getLast? == some 47) = trailing at *
  by_cases hrefused : [] ∈ segments ∨ (trailing = true ∧ isImage = true)
  · rw [if_pos hrefused, if_pos hrefused]
  rw [if_neg hrefused, if_neg hrefused]
  rcases hwalk (not_or.mp hrefused).1 with ⟨hrun, hstacked⟩
  rw [hrun]
  cases hstack : segments.foldlM stackSegment (baseSegments base) with
  | error reason => rfl
  | ok stack =>
    have hsame := (hstacked stack hstack).joined_eq_nil_iff
    by_cases hroot : stack = [] ∧ ¬ isImage = true
    · have hempty : joined stack = [] ∧ ¬ isImage = true := ⟨hsame.mpr hroot.1, hroot.2⟩
      simp only [Except.map, if_pos hroot, if_pos hempty]
    have hfilled : ¬ (joined stack = [] ∧ ¬ isImage = true) :=
      fun h => hroot ⟨hsame.mp h.1, h.2⟩
    cases hpath : RepoPath.fromBytes (joined stack) with
    | none => simp only [Except.map, if_neg hroot, if_neg hfilled, hpath]
    | some path => simp only [Except.map, if_neg hroot, if_neg hfilled, hpath]

/-! ### Leaving the repository -/

theorem stackSegment_traverses_iff :
    stackSegment stack segment = .error .pathTraversal ↔
      stack = [] ∧ decodeComponent segment invalidPathByte = .ok [46, 46] := by
  unfold stackSegment
  cases hdecoded : decodeComponent segment invalidPathByte with
  | error reason =>
    simp only [error.injEq, reduceCtorEq, and_false, iff_false]
    exact decodeComponent_error hdecoded
  | ok decoded =>
    simp only [ok.injEq]
    by_cases hdot : decoded = [46]
    · rw [if_pos hdot]
      simp [hdot]
    rw [if_neg hdot]
    by_cases hdots : decoded = [46, 46]
    · rw [if_pos hdots]
      by_cases hempty : stack = []
      · simp [hempty, hdots]
      · simp [hempty]
    · rw [if_neg hdots]
      simp [hdots]

/-- A walk leaves the repository exactly where `..` meets the empty stack. -/
theorem foldlM_stackSegment_traverses_iff {segments : List Bytes} :
    ∀ {stack : List Bytes}, segments.foldlM stackSegment stack = .error .pathTraversal ↔
      ∃ before segment after, segments = before ++ segment :: after ∧
        before.foldlM stackSegment stack = .ok [] ∧
        decodeComponent segment invalidPathByte = .ok [46, 46] := by
  induction segments with
  | nil =>
    intro stack
    constructor
    · intro h
      cases h
    · rintro ⟨before, segment, after, h, -, -⟩
      exact absurd h.symm (append_ne_nil_of_right_ne_nil _ (cons_ne_nil _ _))
  | cons segment segments ih =>
    intro stack
    rw [foldlM_cons]
    constructor
    · intro h
      cases hsegment : stackSegment stack segment with
      | error reason =>
        rw [hsegment, error_bind, error.injEq] at h
        rw [h] at hsegment
        rcases stackSegment_traverses_iff.mp hsegment with ⟨rfl, hdecoded⟩
        exact ⟨[], segment, segments, rfl, rfl, hdecoded⟩
      | ok next =>
        rw [hsegment, ok_bind] at h
        rcases ih.mp h with ⟨before, last, after, rfl, hbefore, hdecoded⟩
        refine ⟨segment :: before, last, after, rfl, ?_, hdecoded⟩
        rw [foldlM_cons, hsegment, ok_bind, hbefore]
    · rintro ⟨before, last, after, hsplit, hbefore, hdecoded⟩
      cases before with
      | nil =>
        rw [nil_append, cons.injEq] at hsplit
        rcases hsplit with ⟨rfl, rfl⟩
        have hempty : stack = [] := ok.inj hbefore
        rw [stackSegment_traverses_iff.mpr ⟨hempty, hdecoded⟩, error_bind]
      | cons first before =>
        rw [cons_append, cons.injEq] at hsplit
        rcases hsplit with ⟨rfl, rfl⟩
        rw [foldlM_cons] at hbefore
        rcases bind_eq_ok.mp hbefore with ⟨next, hsegment, hrest⟩
        rw [hsegment, ok_bind]
        exact ih.mpr ⟨before, last, after, rfl, hrest, hdecoded⟩

/-- A destination leaves the repository exactly where, of a text whose
    segments are walked at all, some `..` meets the empty stack. -/
theorem stackPath_traverses_iff {base : Bytes} {isImage : Bool} {text : Bytes} :
    stackPath base isImage text = .error (.invalid .pathTraversal) ↔ Walkable isImage text ∧
      ∃ before segment after, textSegments text = before ++ segment :: after ∧
        before.foldlM stackSegment (baseSegments base) = .ok [] ∧
        decodeComponent segment invalidPathByte = .ok [46, 46] := by
  rw [← foldlM_stackSegment_traverses_iff]
  unfold stackPath
  by_cases hback : 92 ∈ text
  · rw [if_pos hback]
    simp only [error.injEq, Resolution.invalid.injEq, reduceCtorEq, false_iff, not_and]
    intro hwalkable
    exact absurd hback hwalkable.backslashFree
  rw [if_neg hback]
  by_cases hrefused : [] ∈ textSegments text ∨ (promisesTree text = true ∧ isImage = true)
  · rw [if_pos hrefused]
    simp only [error.injEq, Resolution.invalid.injEq, reduceCtorEq, false_iff, not_and]
    intro hwalkable
    exact absurd hrefused (not_or.mpr ⟨hwalkable.filled, hwalkable.image⟩)
  rw [if_neg hrefused]
  have hwalkable : Walkable isImage text :=
    ⟨hback, (not_or.mp hrefused).1, (not_or.mp hrefused).2⟩
  cases (textSegments text).foldlM stackSegment (baseSegments base) with
  | error reason => simp [Resolution.invalid.injEq, hwalkable]
  | ok stack =>
    simp only [reduceCtorEq, and_false, iff_false]
    split
    · simp
    · split
      · simp [Resolution.invalid.injEq]
      · simp

/-- A destination is read by splitting it at slashes, decoding each segment
    once and walking the segments over a stack that starts as the segments of
    the base. It leaves the repository exactly where `..` meets the empty
    stack, and what it names is a path whose segments are names. -/
theorem normalizedPathUnder_walks (base : Bytes) (isImage : Bool) (text : Bytes) :
    normalizedPathUnder base isImage text = stackPath base isImage text ∧
    (normalizedPathUnder base isImage text = .error (.invalid .pathTraversal) ↔
      Walkable isImage text ∧
      ∃ before segment after, textSegments text = before ++ segment :: after ∧
        before.foldlM stackSegment (baseSegments base) = .ok [] ∧
        decodeComponent segment invalidPathByte = .ok [46, 46]) ∧
    (∀ path kind, normalizedPathUnder base isImage text = .ok (path, kind) →
      pathBytesValid path.bytes = true ∧
      ∀ segment ∈ path.bytes.splitOn 47, segment ≠ [] ∧ segment ≠ [46] ∧ segment ≠ [46, 46]) ∧
    joined (baseSegments base) = base ∧
    ∀ path : RepoPath, path.bytes = base → baseSegments base = base.splitOn 47 := by
  refine ⟨normalizedPathUnder_eq_stackPath base isImage text, ?_, ?_, joined_baseSegments base, ?_⟩
  · rw [normalizedPathUnder_eq_stackPath]
    exact stackPath_traverses_iff
  · intro path kind _
    refine ⟨path.valid, ?_⟩
    intro segment hsegment
    have hnamed := path.named segment hsegment
    exact ⟨hnamed.nonempty, hnamed.noDot, hnamed.noDotDot⟩
  · rintro path rfl
    exact path.baseSegments_eq

end Amiss
