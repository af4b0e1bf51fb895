import Amiss.Base.Segments
import Amiss.Core.Wire

/-!
# Repository Paths and Their Segments

The grammar of repository paths is a machine that reads one byte at a time and
knows only whether the segment so far is empty, one dot, two dots or a name.
Here it is compared with the grammar it stands for: segments between slashes,
none empty, none a dot or two, and no byte that a path may not hold. The
machine's state after some bytes is `Segment.of` the last segment, which is
the invariant the comparison is an induction over.

## Main definitions

* `Under`: A root and the paths below it.
* `SegmentNamed`: What one segment of a path may be.

## Theorems

* `mem_tail_ancestors`: The directories above a path.
* `pathBytesValid_iff`: The machine accepts exactly the paths of the grammar.
* `path_bytes_are_segments`: A path is segments with slashes between them.
-/

namespace Amiss

open List

/-! ### Paths and their ancestors -/

/-- The root is the path or a directory above it. -/
def Under (root path : Bytes) : Prop := root = path ∨ root ++ [47] <+: path

variable {path : Bytes}

/-- The directories above a path are what precedes its slashes. -/
theorem mem_tail_ancestors {above : Bytes} :
    above ∈ (ancestors path).tail ↔ above ++ [47] <+: path := by
  unfold ancestors
  simp only [tail_cons, mem_map, mem_filter, mem_reverse, mem_range, decide_eq_true_eq]
  constructor
  · rintro ⟨i, ⟨hi, hslash⟩, rfl⟩
    refine ⟨path.drop (i + 1), ?_⟩
    rw [getElem?_eq_getElem hi, Option.some.injEq] at hslash
    rw [← hslash, take_append_getElem hi, take_append_drop]
  · rintro ⟨rest, hpath⟩
    have hi : above.length < path.length := by
      rw [← hpath]
      simp only [length_append, length_singleton]
      omega
    refine ⟨above.length, ⟨hi, ?_⟩, ?_⟩
    · rw [← hpath, append_assoc, getElem?_append_right (le_refl _), Nat.sub_self]
      rfl
    · rw [← hpath, append_assoc, take_left]

theorem mem_ancestors {ancestor : Bytes} : ancestor ∈ ancestors path ↔ Under ancestor path := by
  have hcons : ancestors path = path :: (ancestors path).tail := rfl
  rw [hcons, mem_cons, mem_tail_ancestors, Under]

/-- A prefix that ends before a slash is a directory above what goes past it. -/
theorem under_take {i j : Nat} (hj : path[j]? = some 47) (h : j < i) :
    Under (path.take j) (path.take i) := by
  have hlength : j < path.length := (List.getElem?_eq_some_iff.mp hj).1
  rw [getElem?_eq_getElem hlength, Option.some.injEq] at hj
  right
  rw [← hj, take_append_getElem hlength]
  exact take_isPrefix_take.mpr (.inl h)

/-- Of two ancestors the one listed later stands at the other or above it. -/
theorem ancestors_pairwise (path : Bytes) :
    (ancestors path).Pairwise (fun near far => Under far near) := by
  refine pairwise_cons.mpr ⟨fun far hfar => ?_, ?_⟩
  · exact mem_ancestors.mp (mem_cons_of_mem path hfar)
  refine pairwise_map.mpr ?_
  have hdown : (List.range path.length).reverse.Pairwise (fun i j => j < i) :=
    pairwise_reverse.mpr pairwise_lt_range
  refine ((hdown.filter _).imp_of_mem ?_)
  intro i j _ hj hlt
  exact under_take (of_decide_eq_true (mem_filter.mp hj).2) hlt

theorem Under.antisymm {left right : Bytes} (h : Under left right) (h' : Under right left) :
    left = right := by
  rcases h with rfl | habove
  · rfl
  rcases h' with rfl | habove'
  · rfl
  · have hlength := habove.length_le
    have hlength' := habove'.length_le
    rw [length_append, length_singleton] at hlength hlength'
    omega

theorem spellingOf_append (left right : Bytes) :
    spellingOf (left ++ right) = spellingOf left ++ spellingOf right := List.map_append

variable {bytes : Bytes}

theorem fromBytes_eq_some {path : RepoPath} :
    RepoPath.fromBytes bytes = some path ↔ path.bytes = bytes := by
  unfold RepoPath.fromBytes
  constructor
  · intro h
    split at h
    next => rw [← Option.some.inj h]
    next => cases h
  · rintro rfl
    exact dif_pos path.valid

/-! ### The grammar of paths -/

/-- What one segment of a path may be: something other than one or two dots,
    without NUL and without a backslash. -/
structure SegmentNamed (segment : Bytes) : Prop where
  nonempty : segment ≠ []
  noDot : segment ≠ [46]
  noDotDot : segment ≠ [46, 46]
  nulFree : 0 ∉ segment
  backslashFree : 92 ∉ segment

/-- What the machine knows of a segment. -/
def Segment.of (bytes : Bytes) : Segment :=
  if bytes = [] then .empty else if bytes = [46] then .dot
  else if bytes = [46, 46] then .dotDot else .named

theorem Segment.of_eq_named_iff :
    Segment.of bytes = .named ↔ bytes ≠ [] ∧ bytes ≠ [46] ∧ bytes ≠ [46, 46] := by
  unfold Segment.of
  split
  · next h => simp [h]
  · next hempty =>
    split
    · next h => simp [h]
    · next hdot =>
      split
      · next h => simp [h]
      · next hdots => simp [hempty, hdot, hdots]

/-- A byte that is no separator extends the segment. -/
theorem Segment.next_of {byte : UInt8} (hslash : byte ≠ 47) (hnul : byte ≠ 0) (hback : byte ≠ 92) :
    (Segment.of bytes).next byte = some (Segment.of (bytes ++ [byte])) := by
  unfold Segment.next
  rw [if_neg (fun h => hslash h.1), if_neg (by simp [hslash, hnul, hback])]
  by_cases hdot : byte = 46
  · subst hdot
    rcases bytes with _ | ⟨a, _ | ⟨b, _ | ⟨c, rest⟩⟩⟩
    · rfl
    · by_cases ha : a = 46
      · subst ha
        rfl
      · simp [Segment.of, ha]
    · by_cases ha : a = 46 ∧ b = 46
      · rcases ha with ⟨rfl, rfl⟩
        rfl
      · simp [Segment.of, ha]
    · simp [Segment.of]
  · rw [if_neg hdot]
    have hnamed : Segment.of (bytes ++ [byte]) = .named := by
      rw [Segment.of_eq_named_iff]
      have hlast : ∀ {other : Bytes}, bytes ++ [byte] = other → byte ∈ other := by
        rintro other rfl
        exact mem_append_right _ (mem_singleton.mpr rfl)
      refine ⟨?_, ?_, ?_⟩
      · exact append_ne_nil_of_right_ne_nil _ (cons_ne_nil _ _)
      · intro h
        exact hdot (mem_singleton.mp (hlast h))
      · intro h
        have := hlast h
        simp only [mem_cons, not_mem_nil, or_false, or_self] at this
        exact hdot this
    rw [hnamed]

/-- The machine, started behind a piece of a segment, accepts exactly when the
    piece and the bytes to come are segments of a path. -/
theorem Segment.scan_of (bytes : Bytes) : ∀ done : Bytes, 47 ∉ done → 0 ∉ done → 92 ∉ done →
    ((Segment.of done).scan bytes = some .named ↔
      ∀ segment ∈ (done ++ bytes).splitOn 47, SegmentNamed segment) := by
  induction bytes with
  | nil =>
    intro done hslash hnul hback
    rw [Segment.scan, Option.some.injEq, Segment.of_eq_named_iff, append_nil,
      splitOn_eq_singleton hslash, forall_mem_singleton]
    constructor
    · rintro ⟨hempty, hdot, hdots⟩
      exact ⟨hempty, hdot, hdots, hnul, hback⟩
    · rintro ⟨hempty, hdot, hdots, -, -⟩
      exact ⟨hempty, hdot, hdots⟩
  | cons byte bytes ih =>
    intro done hslash hnul hback
    by_cases hsep : byte = 47
    · -- A slash ends the segment, which has to be a name by then.
      subst hsep
      rw [Segment.scan, splitOn_append_cons_self_of_not_mem hslash, forall_mem_cons]
      by_cases hnamed : Segment.of done = .named
      · have hnext : (Segment.of done).next 47 = some .empty := by
          rw [hnamed]
          rfl
        have hrest := ih [] not_mem_nil not_mem_nil not_mem_nil
        rcases Segment.of_eq_named_iff.mp hnamed with ⟨hempty, hdot, hdots⟩
        rw [hnext]
        simp only
        rw [nil_append] at hrest
        rw [show Segment.empty = Segment.of [] from rfl, hrest]
        exact ⟨fun h => ⟨⟨hempty, hdot, hdots, hnul, hback⟩, h⟩, fun h => h.2⟩
      · have hnext : (Segment.of done).next 47 = none := by
          unfold Segment.next
          rw [if_neg (fun h => hnamed h.2)]
          rfl
        rw [hnext]
        simp only [reduceCtorEq, false_iff]
        rintro ⟨⟨hempty, hdot, hdots, -, -⟩, -⟩
        exact hnamed (Segment.of_eq_named_iff.mpr ⟨hempty, hdot, hdots⟩)
    · by_cases hrefused : byte = 0 ∨ byte = 92
      · -- A refused byte lies in some segment.
        have hnext : (Segment.of done).next byte = none := by
          unfold Segment.next
          rw [if_neg (fun h => hsep h.1), if_pos]
          rcases hrefused with h | h
          · exact Or.inl h
          · exact Or.inr (Or.inl h)
        rw [Segment.scan, hnext]
        simp only [reduceCtorEq, false_iff]
        intro hall
        have hmem : byte ∈ done ++ byte :: bytes :=
          mem_append_right _ mem_cons_self
        rcases exists_mem_splitOn hmem hsep with ⟨segment, hsegment, hbyte⟩
        rcases hrefused with rfl | rfl
        · exact (hall segment hsegment).nulFree hbyte
        · exact (hall segment hsegment).backslashFree hbyte
      · rw [not_or] at hrefused
        have hextended : ∀ {mark : UInt8}, mark ∉ done → byte ≠ mark → mark ∉ done ++ [byte] := by
          intro mark hdone hne hmem
          rcases mem_append.mp hmem with h | h
          · exact hdone h
          · exact hne (mem_singleton.mp h).symm
        rw [Segment.scan, Segment.next_of hsep hrefused.1 hrefused.2]
        simp only
        rw [ih _ (hextended hslash hsep) (hextended hnul hrefused.1) (hextended hback hrefused.2),
          append_assoc, singleton_append]

/-- The machine accepts exactly the bytes of the grammar. -/
theorem pathBytesValid_iff {raw : Bytes} : pathBytesValid raw = true ↔
    raw.length ≤ 4096 ∧ ∀ segment ∈ raw.splitOn 47, SegmentNamed segment := by
  unfold pathBytesValid
  have hscan := Segment.scan_of raw [] List.not_mem_nil List.not_mem_nil List.not_mem_nil
  rw [List.nil_append] at hscan
  rw [← hscan]
  split
  · next hrefused =>
    simp only [Bool.or_eq_true, List.isEmpty_iff, decide_eq_true_eq] at hrefused
    simp only [Bool.false_eq_true, false_iff]
    rintro ⟨hlength, haccepted⟩
    rcases hrefused with rfl | hlong
    · exact absurd haccepted (by decide)
    · omega
  · next hrefused =>
    simp only [Bool.or_eq_true, List.isEmpty_iff, decide_eq_true_eq, not_or, not_lt] at hrefused
    rw [beq_iff_eq]
    exact (and_iff_right hrefused.2).symm

/-- The accepted bytes are one to 4096, the segments of the grammar with
    slashes between them. -/
theorem path_bytes_are_segments (raw : Bytes) : pathBytesValid raw = true ↔
    (1 ≤ raw.length ∧ raw.length ≤ 4096) ∧ ∃ segments : List Bytes,
      raw = [47].intercalate segments ∧ ∀ segment ∈ segments, 47 ∉ segment ∧ segment ≠ [] ∧
        0 ∉ segment ∧ 92 ∉ segment ∧ segment ≠ [46] ∧ segment ≠ [46, 46] := by
  rw [pathBytesValid_iff]
  constructor
  · rintro ⟨hlength, hnamed⟩
    refine ⟨⟨length_pos_iff.mpr ?_, hlength⟩, raw.splitOn 47, (intercalate_splitOn 47).symm, ?_⟩
    · rintro rfl
      exact (hnamed [] mem_cons_self).nonempty rfl
    · intro segment hsegment
      rcases hnamed segment hsegment with ⟨hempty, hdot, hdots, hnul, hback⟩
      exact ⟨notMem_of_mem_splitOn segment hsegment, hempty, hnul, hback, hdot, hdots⟩
  · rintro ⟨⟨hone, hlength⟩, segments, rfl, hall⟩
    have hne : segments ≠ [] := by
      rintro rfl
      exact absurd hone (by decide)
    rw [splitOn_intercalate 47 (fun segment hsegment => (hall segment hsegment).1) hne]
    refine ⟨hlength, fun segment hsegment => ?_⟩
    rcases hall segment hsegment with ⟨_, hempty, hnul, hback, hdot, hdots⟩
    exact ⟨hempty, hdot, hdots, hnul, hback⟩

theorem RepoPath.named (path : RepoPath) :
    ∀ segment ∈ path.bytes.splitOn 47, SegmentNamed segment :=
  (pathBytesValid_iff.mp path.valid).2

theorem pathBytesValid_above {above rest : Bytes}
    (h : pathBytesValid (above ++ 47 :: rest) = true) : pathBytesValid above = true := by
  rw [pathBytesValid_iff] at h ⊢
  refine ⟨?_, fun segment hsegment => h.2 segment ?_⟩
  · have hlength := h.1
    rw [length_append] at hlength
    omega
  · rw [splitOn_append_cons_self]
    exact mem_append_left _ hsegment

/-- The two paths that samples name. -/
theorem pathBytesValid_a : pathBytesValid [97] = true := by decide

theorem pathBytesValid_b : pathBytesValid [98] = true := by decide

end Amiss
