import Amiss.Core.Scan
import Amiss.Core.Repair

/-!
# Repairs Are Simultaneous Substitutions

`splice` replaces from the back, on a document that changes as it goes.
`substituted` copies the staged document from the front and puts every
replacement where its span was. The two agree on spans that follow one another.

## Main definitions

* `Fix.Apart`: Two repairs are the same, or their spans do not overlap.
* `substituted`: The document with all spans replaced at once.

## Theorems

* `splice_substitutes`: Splicing is simultaneous substitution.
* `line_endings_normalized`: The two ways to normalize line endings.
* `repair_document_keeps_bytes`: What a repair writes, and when.
-/

namespace Amiss

open List

/-- Two repairs are the same, or their spans do not overlap. -/
def Fix.Apart (left right : Fix) : Prop :=
  left = right ∨ left.stop ≤ right.start ∨ right.stop ≤ left.start

instance (left right : Fix) : Decidable (left.Apart right) :=
  inferInstanceAs (Decidable (_ ∨ _ ∨ _))

/-- The span is not empty and ends before the other starts. -/
def Fix.Before (first second : Fix) : Prop :=
  first.start < first.stop ∧ first.stop ≤ second.start

instance : IsTrans Fix Fix.Before :=
  ⟨fun _ _ _ h h' => ⟨h.1, h.2.trans (h'.1.le.trans h'.2)⟩⟩

instance : Std.Irrefl Fix.Before := ⟨fun _ h => (h.1.trans_le h.2).false⟩

instance : Std.Antisymm Fix.Before :=
  ⟨fun _ _ h h' => absurd (h.2.trans (h'.1.le.trans h'.2)) h.1.not_ge⟩

instance : Std.Symm Fix.Apart := ⟨fun _ _ h => h.imp Eq.symm Or.symm⟩

/-- The document from a position on, with the spans replaced and everything
    between them kept. -/
def substituted (source : Bytes) : Nat → List Fix → Bytes
  | position, [] => source.drop position
  | position, fix :: rows =>
    (source.take fix.start).drop position ++ utf8 fix.replacement ++
      substituted source fix.stop rows

section Splicing

variable {source repaired : Bytes} {rows rows' : List Fix} {fix : Fix}

/-- Spans that follow one another are replaced where they all lie inside. -/
theorem foldrM_apply (hspans : ∀ fix ∈ rows, fix.start < fix.stop)
    (hpairs : rows.Pairwise Fix.Before) (position : Nat)
    (hposition : ∀ fix ∈ rows, position ≤ fix.start) :
    rows.foldrM Fix.apply source = some repaired ↔ (∀ fix ∈ rows, fix.stop ≤ source.length) ∧
      repaired = source.take position ++ substituted source position rows := by
  induction rows generalizing repaired position with
  | nil => simp [substituted, eq_comm]
  | cons fix rows ih =>
    rw [forall_mem_cons] at hspans hposition
    rw [pairwise_cons] at hpairs
    have hlater := fun later => @ih later hspans.2 hpairs.2 fix.stop
      (fun other hother => (hpairs.1 other hother).2)
    have happly (hinside : fix.stop ≤ source.length) :
        fix.apply (source.take fix.stop ++ substituted source fix.stop rows) =
          some (source.take position ++ substituted source position (fix :: rows)) := by
      have hlength : (source.take fix.stop).length = fix.stop := length_take_of_le hinside
      have hkept : (source.take fix.stop).take fix.start = source.take fix.start := by
        rw [take_take, Nat.min_eq_left hspans.1.le]
      have hgap : source.take position ++ (source.take fix.start).drop position =
          source.take fix.start := by
        rw [← Nat.min_eq_left hposition.1, ← take_take, Nat.min_eq_left hposition.1,
          take_append_drop]
      rw [Fix.apply, if_neg (by rw [length_append]; omega), drop_left' hlength,
        take_append_of_le_length (by omega), hkept, substituted, ← append_assoc, ← append_assoc,
        hgap]
    rw [foldrM_cons, Option.bind_eq_bind, Option.bind_eq_some_iff]
    simp only [hlater]
    constructor
    · rintro ⟨_, ⟨hinside, rfl⟩, hsome⟩
      have hstop : fix.stop ≤ source.length := by
        cases rows with
        | nil =>
          rw [substituted, take_append_drop, Fix.apply, Option.ite_none_left_eq_some] at hsome
          omega
        | cons next rows =>
          -- The span ends before another that lies inside.
          exact (hpairs.1 next mem_cons_self).2.trans
            ((hspans.2 next mem_cons_self).le.trans (hinside next mem_cons_self))
      rw [happly hstop, Option.some.injEq] at hsome
      exact ⟨forall_mem_cons.mpr ⟨hstop, hinside⟩, hsome.symm⟩
    · rintro ⟨hinside, rfl⟩
      rw [forall_mem_cons] at hinside
      exact ⟨_, ⟨hinside.2, rfl⟩, happly hinside.1⟩

theorem mem_destutter {α : Type} [DecidableEq α] (xs : List α) (x : α) :
    x ∈ xs.destutter (· ≠ ·) ↔ x ∈ xs := by
  cases xs with
  | nil => rfl
  | cons first xs =>
    rw [destutter_cons']
    induction xs generalizing first with
    | nil => rfl
    | cons next xs ih =>
      rw [destutter'_cons]
      by_cases hsame : first = next
      · subst hsame
        rw [if_neg (not_not_intro rfl), ih]
        simp
      · rw [if_pos hsame, mem_cons, ih, mem_cons (a := x) (b := first)]

theorem mem_ordered : fix ∈ ordered rows ↔ fix ∈ rows :=
  (mem_destutter _ _).trans (mem_sortBy _ _ _)

theorem ordered_starts (rows : List Fix) :
    (ordered rows).Pairwise (fun first second => first.start ≤ second.start) := by
  refine ((sortBy_pairwise _ rows).sublist (destutter_sublist _ _)).imp (fun h => ?_)
  rcases Prod.Lex.toLex_le_toLex.mp h with hlt | ⟨heq, _⟩
  · exact hlt.le
  · exact heq.le

section

variable (hspans : ∀ fix ∈ rows, fix.start < fix.stop)

include hspans

theorem ordered_spans : ∀ fix ∈ ordered rows, fix.start < fix.stop :=
  fun fix hfix => hspans fix (mem_ordered.mp hfix)

/-- Neighbours are in order exactly when all are. -/
theorem isChain_ordered_iff :
    (ordered rows).IsChain (fun first second => first.stop ≤ second.start) ↔
      (ordered rows).Pairwise Fix.Before := by
  rw [← isChain_iff_pairwise]
  exact IsChain.iff_of_mem_imp (fun first _ hfirst _ =>
    ⟨fun h => ⟨ordered_spans hspans first hfirst, h⟩, And.right⟩)

/-- The order is strict exactly when all repairs are apart. -/
theorem ordered_before_iff :
    (ordered rows).Pairwise Fix.Before ↔ ∀ left ∈ rows, ∀ right ∈ rows, left.Apart right := by
  constructor
  · intro hpairs left hleft right hright
    have hapart : (ordered rows).Pairwise Fix.Apart := hpairs.imp (fun h => .inr (.inl h.2))
    exact hapart.forall_of_forall (fun _ _ => .inl rfl) (mem_ordered.mpr hleft)
      (mem_ordered.mpr hright)
  · intro hapart
    rw [← isChain_ordered_iff hspans, isChain_iff_getElem]
    intro i hi
    have hne := isChain_iff_getElem.mp (isChain_destutter _ _) i hi
    have hle := pairwise_iff_getElem.mp (ordered_starts rows) i (i + 1) (by omega) hi
      (Nat.lt_succ_self i)
    have hin := mem_ordered.mp (getElem_mem hi)
    rcases hapart _ (mem_ordered.mp (getElem_mem _)) _ hin with hsame | hbefore | hafter
    · exact absurd hsame hne
    · exact hbefore
    · -- The second would end before the first starts, and start behind it.
      have := hspans _ hin
      omega

theorem splice_eq_some_iff : splice source rows = some repaired ↔
    ((∀ fix ∈ rows, fix.stop ≤ source.length) ∧ (ordered rows).Pairwise Fix.Before) ∧
      repaired = substituted source 0 (ordered rows) := by
  rw [splice, Option.ite_none_right_eq_some, isChain_ordered_iff hspans, and_right_comm, and_comm]
  refine and_congr_left (fun hpairs => ?_)
  rw [foldrM_apply (ordered_spans hspans) hpairs 0 (fun _ _ => Nat.zero_le _)]
  simp only [mem_ordered, take_zero, nil_append]

end

end Splicing

/-- Splicing succeeds exactly on repairs that lie inside the document and are
    apart; it replaces them all at once, each of them once; and it sees only
    which repairs there are. -/
theorem splice_substitutes (source : Bytes) (rows : List Fix)
    (hspans : ∀ fix ∈ rows, fix.start < fix.stop) :
    ((∃ repaired, splice source rows = some repaired) ↔
      (∀ fix ∈ rows, fix.stop ≤ source.length) ∧
        ∀ left ∈ rows, ∀ right ∈ rows, left.Apart right) ∧
    (∀ repaired, splice source rows = some repaired → ∃ spans : List Fix,
      (∀ fix, fix ∈ spans ↔ fix ∈ rows) ∧ spans.Pairwise Fix.Before ∧
        repaired = substituted source 0 spans) ∧
    ∀ rows', (∀ fix, fix ∈ rows' ↔ fix ∈ rows) → splice source rows' = splice source rows := by
  have hspans' {rows' : List Fix} (hmem : ∀ fix, fix ∈ rows' ↔ fix ∈ rows) :
      ∀ fix ∈ rows', fix.start < fix.stop := fun fix hfix => hspans fix ((hmem fix).mp hfix)
  refine ⟨⟨?_, ?_⟩, ?_, fun rows' hmem => Option.ext (fun repaired => ?_)⟩
  · rintro ⟨repaired, h⟩
    rw [← ordered_before_iff hspans]
    exact ((splice_eq_some_iff hspans).mp h).1
  · intro h
    rw [← ordered_before_iff hspans] at h
    exact ⟨_, (splice_eq_some_iff hspans).mpr ⟨h, rfl⟩⟩
  · intro repaired h
    rcases (splice_eq_some_iff hspans).mp h with ⟨⟨_, hpairs⟩, hrepaired⟩
    exact ⟨ordered rows, fun _ => mem_ordered, hpairs, hrepaired⟩
  · rw [splice_eq_some_iff hspans, splice_eq_some_iff (hspans' hmem), ordered_before_iff hspans,
      ordered_before_iff (hspans' hmem)]
    simp only [hmem]
    refine and_congr_right (fun h => ?_)
    -- Strictly ordered lists with the same members are one list.
    have hpairs := (ordered_before_iff hspans).mpr h.2
    have hpairs' := (ordered_before_iff (hspans' hmem)).mpr (by simpa only [hmem] using h.2)
    rw [hpairs'.eq_of_mem_iff hpairs (fun fix => by rw [mem_ordered, mem_ordered, hmem])]

/-- A shared edit, and one in front of it. -/
theorem splice_substitutes_sample :
    splice (utf8 "a b c") [⟨4, 5, "xy"⟩, ⟨0, 1, ""⟩, ⟨4, 5, "xy"⟩] =
      splice (utf8 "a b c") [⟨0, 1, ""⟩, ⟨4, 5, "xy"⟩] :=
  (splice_substitutes _ _ (by decide)).2.2 _ (by simp [or_comm])

/-! ### Line endings -/

section

variable (byte : UInt8) (bytes source out : Bytes) (position : Nat)

/-- The recursion by its first byte and what may follow it. -/
theorem normalizeNewlines_cons : normalizeNewlines (byte :: bytes) =
    if byte = 13 then
      if bytes.head? = some 10 then 10 :: normalizeNewlines bytes.tail
      else 10 :: normalizeNewlines bytes
    else byte :: normalizeNewlines bytes := by
  by_cases hreturn : byte = 13
  · subst hreturn
    rcases bytes with _ | ⟨next, rest⟩
    · rfl
    by_cases hfeed : next = 10
    · subst hfeed
      rfl
    · simp [normalizeNewlines, hfeed]
  · simp [normalizeNewlines, hreturn]

theorem normalizedFrom_eq : normalizedFrom bytes out = out ++ normalizeNewlines bytes := by
  fun_induction normalizedFrom bytes out with
  | case1 => rw [normalizeNewlines, append_nil]
  | case2 bytes out hfeed ih => simp [ih, normalizeNewlines_cons, hfeed]
  | case3 bytes out hfeed ih => simp [ih, normalizeNewlines_cons, hfeed]
  | case4 byte bytes out hreturn ih => simp [ih, normalizeNewlines_cons, hreturn]

theorem normalizeNewlinesFrom_eq : normalizeNewlinesFrom source position out =
    normalizedFrom (source.drop position) out := by
  have hdrop : ∀ {position byte}, source[position]? = some byte →
      source.drop position = byte :: source.drop (position + 1) := by
    intro position byte hbyte
    rcases List.getElem?_eq_some_iff.mp hbyte with ⟨hlt, rfl⟩
    exact drop_eq_getElem_cons hlt
  fun_induction normalizeNewlinesFrom source position out with
  | case1 position out hbyte =>
    rw [drop_eq_nil_of_le (getElem?_eq_none_iff.mp hbyte), normalizedFrom]
  | case2 position out hfeed hbyte ih =>
    rw [ih, hdrop hbyte, normalizedFrom, if_pos rfl, head?_drop, if_pos hfeed, tail_drop]
  | case3 position out hfeed hbyte ih =>
    rw [ih, hdrop hbyte, normalizedFrom, if_pos rfl, head?_drop, if_neg hfeed]
  | case4 position out byte hbyte hreturn ih =>
    rw [ih, hdrop hbyte, normalizedFrom, if_neg hreturn]

theorem notMem_normalizeNewlines : 13 ∉ normalizeNewlines bytes := by
  fun_induction normalizeNewlines bytes with
  | case3 byte bytes _ hreturn ih => simp [ih, Ne.symm hreturn]
  | case4 => simp
  | _ => simp_all

variable {bytes}

theorem normalizeNewlines_of_notMem (h : 13 ∉ bytes) : normalizeNewlines bytes = bytes := by
  induction bytes with
  | nil => rfl
  | cons byte bytes ih =>
    rw [mem_cons, not_or] at h
    rw [normalizeNewlines_cons, if_neg (Ne.symm h.1), ih h.2]

/-- Both ways to normalize line endings agree, leave no carriage return, and
    leave alone what is normalized. -/
theorem line_endings_normalized (source : Bytes) :
    normalizeNewlinesFrom source 0 [] = normalizedLineEndings source ∧
      13 ∉ normalizedLineEndings source ∧
      normalizeNewlinesFrom (normalizedLineEndings source) 0 [] = normalizedLineEndings source ∧
      normalizedLineEndings (normalizedLineEndings source) = normalizedLineEndings source ∧
      normalizedLineEndings source = normalizeNewlines source := by
  have hfrom : ∀ source, normalizeNewlinesFrom source 0 [] = normalizeNewlines source := by
    intro source
    rw [normalizeNewlinesFrom_eq, normalizedFrom_eq]
    rfl
  have hendings : ∀ source, normalizedLineEndings source = normalizeNewlines source := by
    intro source
    unfold normalizedLineEndings
    split
    next h => rw [normalizeNewlines_of_notMem h]
    next => rw [normalizedFrom_eq, nil_append]
  have hfree := notMem_normalizeNewlines source
  rw [hendings, hendings, hfrom, hfrom, normalizeNewlines_of_notMem hfree]
  exact ⟨rfl, hfree, rfl, rfl, rfl⟩

end

/-! ### Writing to the worktree -/

section Writing

variable {file : DocumentFile} {rows : List Fix} {staged : Option Bytes}
  {blob repaired current : Bytes}

/-- Normalizing undoes a CRLF checkout. -/
theorem normalizeNewlines_crlfCheckout (h : crlfCheckout blob = some current) :
    normalizeNewlines current = blob := by
  rw [crlfCheckout, Option.ite_none_left_eq_some, Option.some.injEq] at h
  rcases h with ⟨hfree, rfl⟩
  induction blob with
  | nil => rfl
  | cons byte rest ih =>
    rw [mem_cons, not_or] at hfree
    rw [flatMap_cons]
    by_cases hfeed : byte = 10
    · rw [if_pos hfeed, hfeed, cons_append, singleton_append, normalizeNewlines, ih hfree.2]
    · rw [if_neg hfeed, singleton_append, normalizeNewlines_cons, if_neg (Ne.symm hfree.1),
        ih hfree.2]

/-- The file after a write that the file system took. -/
def DocumentFile.after (file : DocumentFile) (written : Option Bytes) : DocumentFile :=
  { file with current := written.or file.current }

/-- What was handed to the file system, if anything was. -/
def Writes (blob repaired current written : Bytes) : Prop :=
  current = blob ∧ written = repaired ∨
    crlfCheckout blob = some current ∧ crlfCheckout repaired = some written

theorem repairDocument_present (hsplice : splice blob rows = some repaired)
    (hcontained : file.contained = true) (hregular : file.regular = true)
    (hcurrent : file.current = some current)
    (h : current = repaired ∨ crlfCheckout repaired = some current) :
    repairDocument file rows (some blob) = (.alreadyApplied rows.length, none) := by
  simp [repairDocument, hsplice, hcontained, hregular, hcurrent, h]

/-- A repair is refused, is there already, or is written over what the index
    staged. -/
theorem repairDocument_cases (file : DocumentFile) (rows : List Fix) (staged : Option Bytes) :
    (∃ reason, repairDocument file rows staged = (.refused reason, none)) ∨
    ∃ blob repaired current, staged = some blob ∧ splice blob rows = some repaired ∧
      file.contained = true ∧ file.regular = true ∧ file.current = some current ∧
      (repairDocument file rows staged = (.alreadyApplied rows.length, none) ∧
        (current = repaired ∨ crlfCheckout repaired = some current) ∨
      ∃ written, Writes blob repaired current written ∧ repairDocument file rows staged =
        (if file.writable then .applied rows.length else .refused "could not be written",
          some written)) := by
  unfold repairDocument
  split
  next => exact .inl ⟨_, rfl⟩
  next blob =>
  split
  next => exact .inl ⟨_, rfl⟩
  next repaired hsplice =>
  split
  next => exact .inl ⟨_, rfl⟩
  next hcontained =>
  split
  next => exact .inl ⟨_, rfl⟩
  next hregular =>
  split
  next => exact .inl ⟨_, rfl⟩
  next current hcurrent =>
  rw [Bool.not_eq_true, Bool.not_eq_false'] at hcontained hregular
  dsimp only
  split
  next hpresent =>
    exact .inr ⟨blob, repaired, current, rfl, hsplice, hcontained, hregular, hcurrent,
      .inl ⟨rfl, hpresent⟩⟩
  next =>
  split
  next => exact .inl ⟨_, rfl⟩
  next written hwritten =>
    refine .inr ⟨blob, repaired, current, rfl, hsplice, hcontained, hregular, hcurrent,
      .inr ⟨written, ?_, rfl⟩⟩
    by_cases hstaged : current = blob
    · rw [if_pos hstaged, Option.some.injEq] at hwritten
      exact .inl ⟨hstaged, hwritten.symm⟩
    · rw [if_neg hstaged, Option.ite_none_right_eq_some] at hwritten
      exact .inr hwritten

end Writing

/-- A repair writes only over the staged bytes or their CRLF checkout, writes
    the spliced bytes or their checkout, and finds itself applied when it is run
    again. -/
theorem repair_document_keeps_bytes (file : DocumentFile) (rows : List Fix)
    (staged : Option Bytes) :
    (∀ written, (repairDocument file rows staged).2 = some written →
      ∃ blob repaired current, staged = some blob ∧ splice blob rows = some repaired ∧
        file.current = some current ∧ (current = blob ∧ written = repaired ∨
          crlfCheckout blob = some current ∧ crlfCheckout repaired = some written ∧
            normalizeNewlines written = repaired)) ∧
      ∀ count, (repairDocument file rows staged).1 = .applied count ∨
          (repairDocument file rows staged).1 = .alreadyApplied count →
        repairDocument (file.after (repairDocument file rows staged).2) rows staged =
          (.alreadyApplied count, none) := by
  rcases repairDocument_cases file rows staged with ⟨reason, h⟩ | ⟨blob, repaired, current, rfl,
    hsplice, hcontained, hregular, hcurrent, ⟨h, hpresent⟩ | ⟨written, hwrites, h⟩⟩
  · simp [h]
  · rw [h]
    refine ⟨fun _ hnone => absurd hnone (by simp), fun count hcount => ?_⟩
    have hcount : rows.length = count := by simpa using hcount
    rw [← hcount]
    exact repairDocument_present hsplice hcontained hregular hcurrent hpresent
  · rw [h]
    refine ⟨fun _ hsome => ?_, fun count hcount => ?_⟩
    · cases hsome
      refine ⟨blob, repaired, current, rfl, hsplice, hcurrent, hwrites.imp_right ?_⟩
      exact fun hchecked => ⟨hchecked.1, hchecked.2, normalizeNewlines_crlfCheckout hchecked.2⟩
    · have hcount : rows.length = count := by
        cases hwritable : file.writable with
        | false => simp [hwritable] at hcount
        | true => simpa [hwritable] using hcount
      rw [← hcount]
      exact @repairDocument_present _ rows blob repaired written hsplice hcontained hregular rfl
        (hwrites.imp And.right And.right)

end Amiss
