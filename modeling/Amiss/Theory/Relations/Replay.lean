import Amiss.Controller.Relations.Store

/-!
# Replaying the Relation Journal

What the bytes of a journal add up to. `Replays` relates a state, the bytes of
some chunks, the entries they hold and the state after them; it is the loop of
`readEntries` with the reading taken out, and it composes the way bytes and
entries are appended.

`State.Takes` says once what an entry can do to a state. It is read off
`applyEntry` in `applyEntry_eq_ok`, and everything that later modules know of
a journal they know by induction over `Replays` with one case for each
constructor of `State.Takes`.

The bound on the number of entries is the first such induction. A binding can
be scheduled once, staged once, acknowledged once for each of two destinations
and completed once, so the entries of one binding are at most five, and the
metadata of a journal that grew by accepted entries passes its own check.

## Main definitions

* `State.Takes`: What one action does, with its guards.
* `Replays`: The state after the chunks of some entries.

## Theorems

* `applyEntry_eq_ok`, `applyEntry_of_valid`: The step an entry makes.
* `readEntry_chunk`: A written chunk reads back as its entry.
* `Replays.append`, `Replays.functional`, `Replays.unique`: How replays
  compose, and what settles them.
* `Replays.entryCount_le`: At most five entries for each binding.
* `Replays.room`: Bindings leave room for the rest of their entries.
* `Replays.validateMetadata`: The metadata of a journal passes its own check.
-/

namespace Amiss

open Std.ExtTreeMap

open List

open Fallible

namespace Relations

/-! ### One step -/

theorem orCorrupt_eq_ok {α : Type} {x : Option α} {a : α} : orCorrupt x = .ok a ↔ x = some a := by
  cases x with
  | none => simp [orCorrupt]
  | some b => simp [orCorrupt]

theorem checkedU64_eq_some {n m : Nat} : checkedU64 n = some m ↔ n < 2 ^ 64 ∧ m = n := by
  unfold checkedU64
  by_cases h : n < 2 ^ 64
  · rw [if_pos h, Option.some.injEq]
    exact ⟨fun heq => ⟨h, heq.symm⟩, fun heq => heq.2.symm⟩
  · rw [if_neg h]
    exact ⟨fun heq => absurd heq (by simp), fun heq => absurd heq.1 h⟩

/-- What one action does to the maps of a state, and when it may. -/
inductive State.Takes (state : State) (maxBindings : Nat) : JournalAction → State → Prop
  | first {relation planBinding binding next}
      (hroom : state.bindingCount < maxBindings)
      (habsent : state.relations[relation]? = none)
      (hfence : binding.fence = 1)
      (hrelations : next.relations =
        state.relations.insert relation (.admitting none planBinding binding))
      (hstatuses : next.statuses = state.statuses) :
      Takes state maxBindings (.schedule relation planBinding binding) next
  | later {relation planBinding binding next stored current}
      (hroom : state.bindingCount < maxBindings)
      (hstored : state.relations[relation]? = some stored)
      (hplan : stored.planBinding = planBinding)
      (hfresh : stored.bindings[binding.coordination]? = none)
      (hcurrent : stored.bindings[stored.currentCoordination]? = some current)
      (hfence : binding.fence = current.fence + 1)
      (hrelations : next.relations =
        state.relations.insert relation (.admitting (some stored) planBinding binding))
      (hstatuses : next.statuses = state.statuses) :
      Takes state maxBindings (.schedule relation planBinding binding) next
  | stage {planBinding workBinding status next stored binding}
      (hvalid : validateStoredStatus status = .ok ())
      (hfresh : state.statuses[(toLex (status.relation, status.coordination) : StatusKey)]? = none)
      (hstored : state.relations[status.relation]? = some stored)
      (hplan : stored.planBinding = planBinding)
      (hcurrent : stored.currentCoordination = status.coordination)
      (hbinding : stored.bindings[status.coordination]? = some binding)
      (hwork : binding.workBinding = workBinding)
      (hrole : binding.triggerRole = status.triggerRole)
      (hfence : binding.fence = status.fence)
      (hrelations : next.relations = state.relations)
      (hstatuses : next.statuses = state.statuses.insert
        (toLex (status.relation, status.coordination)) (.staged status.statusBinding status ∅)) :
      Takes state maxBindings (.stage planBinding workBinding status) next
  | acknowledge {relation coordination binding destination next status acknowledged}
      (hstaged : state.statuses[(toLex (relation, coordination) : StatusKey)]? =
        some (.staged binding status acknowledged))
      (hnamed : destination ∈ status.destinations)
      (hfresh : destination ∉ acknowledged)
      (hrelations : next.relations = state.relations)
      (hstatuses : next.statuses = state.statuses.insert (toLex (relation, coordination))
        (.staged binding status (insert destination acknowledged))) :
      Takes state maxBindings (.acknowledge relation coordination binding destination) next
  | complete {relation coordination binding next status acknowledged}
      (hstaged : state.statuses[(toLex (relation, coordination) : StatusKey)]? =
        some (.staged binding status acknowledged))
      (hall : allDestinationsAcknowledged status acknowledged = true)
      (hrelations : next.relations = state.relations)
      (hstatuses : next.statuses =
        state.statuses.insert (toLex (relation, coordination)) (.completed binding)) :
      Takes state maxBindings (.complete relation coordination binding) next

theorem mem_of_binarySearch {α : Type} [LinearOrder α] {xs : List α} {x : α}
    (h : (binarySearch xs x).isSome = true) : x ∈ xs := by
  unfold binarySearch at h
  simp only [] at h
  split at h
  next hget => exact List.mem_of_getElem? hget
  next => cases h

/-- A destination that may be acknowledged, or a batch that may be completed. -/
def MayProgress (status : StoredStatus) (acknowledged : Finset Digest) : Option Digest → Prop
  | some destination => destination ∈ status.destinations ∧ destination ∉ acknowledged
  | none => allDestinationsAcknowledged status acknowledged = true

variable {state : State}

theorem validateStatusProgress_eq_ok {relation coordination : ArtifactId} {statusBinding : Digest}
    {destination : Option Digest}
    (h : validateStatusProgress state relation coordination statusBinding destination = .ok ()) :
    ∃ status acknowledged,
      state.statuses[(toLex (relation, coordination) : StatusKey)]? =
        some (.staged statusBinding status acknowledged) ∧
      MayProgress status acknowledged destination := by
  unfold validateStatusProgress at h
  split at h
  next => cases h
  next => cases h
  next binding status acknowledged hstaged =>
  split at h
  next => cases h
  next hbinding =>
  rw [not_not] at hbinding
  subst hbinding
  refine ⟨status, acknowledged, hstaged, ?_⟩
  cases destination with
  | none =>
    simp only [ite_eq_left_iff, reduceCtorEq, imp_false, not_not] at h
    exact h
  | some destination =>
    simp only [ite_eq_left_iff, reduceCtorEq, imp_false, not_not, Bool.and_eq_true,
      Bool.not_eq_true', decide_eq_false_iff_not] at h
    exact ⟨mem_of_binarySearch h.1, h.2⟩

theorem stageableBinding_eq_some {planBinding : Digest} {status : StoredStatus}
    {binding : StoredBinding} (h : stageableBinding state planBinding status = some binding) :
    ∃ stored, state.relations[status.relation]? = some stored ∧
      stored.planBinding = planBinding ∧ stored.currentCoordination = status.coordination ∧
      stored.bindings[status.coordination]? = some binding := by
  unfold stageableBinding at h
  rw [Option.bind_eq_some_iff] at h
  rcases h with ⟨stored, hstored, hbinding⟩
  rw [Option.filter_eq_some_iff] at hstored
  simp only [Bool.and_eq_true, beq_iff_eq] at hstored
  exact ⟨stored, hstored.1, hstored.2.1, hstored.2.2, hbinding⟩

variable {maxBindings : Nat}

/-- A validated action can be taken, and applying it takes it. -/
theorem takes_of_valid {action : JournalAction}
    (hvalid : validateAction state maxBindings action = .ok ()) :
    ∃ applied, applyAction state action = .ok applied ∧
      ∀ next : State, next.relations = applied.relations → next.statuses = applied.statuses →
        state.Takes maxBindings action next := by
  cases action with
  | schedule relation planBinding binding =>
    refine ⟨_, rfl, fun next hrelations hstatuses => ?_⟩
    unfold validateAction at hvalid
    cases hstored : state.relations[relation]? with
    | none =>
      simp only [hstored, ite_eq_left_iff, reduceCtorEq, imp_false, not_not] at hvalid
      rw [hstored] at hrelations
      exact .first hvalid.2 hstored hvalid.1 hrelations hstatuses
    | some stored =>
      simp only [hstored, ite_eq_left_iff, reduceCtorEq, imp_false, not_not] at hvalid
      rcases hvalid with ⟨hroom, hplan, hfresh, hnext⟩
      rw [Option.bind_eq_some_iff] at hnext
      rcases hnext with ⟨current, hcurrent, hfence⟩
      rw [hstored] at hrelations
      exact .later hroom hstored hplan hfresh hcurrent (checkedSucc_eq_some hfence)
        hrelations hstatuses
  | stage planBinding workBinding status =>
    refine ⟨_, rfl, fun next hrelations hstatuses => ?_⟩
    unfold validateAction at hvalid
    rw [bind_eq_ok] at hvalid
    rcases hvalid with ⟨⟨⟩, hstatus, hvalid⟩
    simp only [ite_eq_right_iff, reduceCtorEq, imp_false, Bool.or_eq_true, not_or,
      Bool.not_eq_true', Bool.not_eq_false, Option.isSome_iff_ne_none, ne_eq, not_not,
      Option.any_eq_true, Bool.and_eq_true, beq_iff_eq] at hvalid
    rcases hvalid with ⟨hfresh, binding, hbinding, ⟨hwork, hrole⟩, hfence⟩
    rcases stageableBinding_eq_some hbinding with ⟨stored, hstored, hplan, hcurrent, hget⟩
    exact .stage hstatus hfresh hstored hplan hcurrent hget hwork hrole hfence hrelations
      hstatuses
  | acknowledge relation coordination statusBinding destination =>
    rw [validateAction] at hvalid
    rcases validateStatusProgress_eq_ok hvalid with ⟨status, acknowledged, hstaged, hnamed, hnew⟩
    refine ⟨_, by rw [applyAction, hstaged]; exact if_neg hnew, ?_⟩
    exact fun next hrelations hstatuses =>
      .acknowledge hstaged hnamed hnew hrelations hstatuses
  | complete relation coordination statusBinding =>
    rw [validateAction] at hvalid
    rcases validateStatusProgress_eq_ok hvalid with ⟨status, acknowledged, hstaged, hall⟩
    exact ⟨_, rfl, fun next hrelations hstatuses =>
      .complete hstaged hall hrelations hstatuses⟩

/-- What an accepted entry was checked for. -/
structure State.Accepts (state : State) (entry : JournalEntry) (chunkLength maxBindings : Nat) :
    Prop where
  entries_fit : maxBindings * maxActionsPerBinding < 2 ^ 64
  bytes_fit : maxBindings * maxJournalBytesPerBinding < 2 ^ 64
  chained : entry.previousTail = state.tailDigest
  entries_left : state.entryCount < maxBindings * maxActionsPerBinding
  bytes_left : state.journalBytes + chunkLength ≤ maxBindings * maxJournalBytesPerBinding
  action : validateAction state maxBindings entry.action = .ok ()

theorem validateAppend_eq_ok {entry : JournalEntry} {chunkLength : Nat} :
    validateAppend state entry chunkLength maxBindings = .ok () ↔
      state.Accepts entry chunkLength maxBindings := by
  unfold validateAppend journalByteLimit
  simp only [bind_eq_ok, orCorrupt_eq_ok, checkedU64_eq_some]
  constructor
  · rintro ⟨entries, ⟨hentries, rfl⟩, bytes, ⟨hbytes, rfl⟩, h⟩
    split at h
    next => cases h
    next hguards =>
      simp only [not_or, not_not, not_le, not_lt] at hguards
      exact ⟨hentries, hbytes, hguards.1, hguards.2.1, hguards.2.2, h⟩
  · intro h
    refine ⟨_, ⟨h.entries_fit, rfl⟩, _, ⟨h.bytes_fit, rfl⟩, ?_⟩
    rw [if_neg]
    · exact h.action
    · simp only [not_or, not_not, not_le, not_lt]
      exact ⟨h.chained, h.entries_left, h.bytes_left⟩

section Step

variable {state next : State} {entry : JournalEntry} {tail : Digest}
  {chunkLength maxBindings : Nat}

/-- The step an entry makes: it was accepted, the counters move by what the
    entry adds, and the maps change as its action says. -/
theorem applyEntry_eq_ok (h : applyEntry state entry tail chunkLength maxBindings = .ok next) :
    state.Accepts entry chunkLength maxBindings ∧
      next.bindingCount = state.bindingCount + bindingIncrement entry.action ∧
      next.entryCount = state.entryCount + 1 ∧
      next.journalBytes = state.journalBytes + chunkLength ∧
      next.tailDigest = some tail ∧ state.Takes maxBindings entry.action next := by
  unfold applyEntry at h
  simp only [bind_eq_ok, orCorrupt_eq_ok, checkedU64_eq_some] at h
  rcases h with ⟨⟨⟩, hvalid, _, ⟨_, rfl⟩, _, ⟨_, rfl⟩, _, ⟨_, rfl⟩, applied, happlied, h⟩
  rw [validateAppend_eq_ok] at hvalid
  rw [Except.ok.injEq] at h
  rcases takes_of_valid hvalid.action with ⟨applied', happlied', htakes⟩
  rw [happlied, Except.ok.injEq] at happlied'
  subst happlied' h
  exact ⟨hvalid, rfl, rfl, rfl, rfl, htakes _ rfl rfl⟩

/-- An accepted entry never fails when it is applied. -/
theorem applyEntry_of_valid (hvalid : validateAppend state entry chunkLength maxBindings = .ok ())
    (hcount : state.bindingCount ≤ maxBindings) :
    ∃ next, applyEntry state entry tail chunkLength maxBindings = .ok next := by
  have haccepts := validateAppend_eq_ok.mp hvalid
  have hfit := haccepts.entries_fit
  have hentries := haccepts.entries_left
  have hbytes := haccepts.bytes_left
  have hbytesFit := haccepts.bytes_fit
  rcases takes_of_valid haccepts.action with ⟨applied, happlied, _⟩
  have hincrement : state.bindingCount + bindingIncrement entry.action < 2 ^ 64 := by
    have hone : bindingIncrement entry.action ≤ 1 := by
      unfold bindingIncrement
      split <;> omega
    unfold maxActionsPerBinding at hfit
    omega
  unfold applyEntry
  rw [hvalid, happlied, checkedU64_eq_some.mpr ⟨hincrement, rfl⟩,
    checkedU64_eq_some.mpr ⟨by omega, rfl⟩, checkedU64_eq_some.mpr ⟨by omega, rfl⟩]
  exact ⟨_, rfl⟩

end Step

/-! ### Chunks -/

/-- The key an action stages. -/
def JournalAction.stages : JournalAction → List StatusKey
  | .stage _ _ status => [toLex (status.relation, status.coordination)]
  | .schedule .. | .acknowledge .. | .complete .. => []

section Chunks

variable {codec : JournalCodec} {entry : JournalEntry} {chunk : Bytes}

/-- A written chunk is the length of a frame and the frame, which fits its
    ceiling. -/
theorem encodeEntry_eq_ok (h : encodeEntry codec entry = .ok chunk) :
    ∃ frame, Frame.encode codec.sha256 entryFrame codec.entry StoreError.corrupt validateEntry
        entry = .ok frame ∧
      0 < frame.length ∧ frame.length ≤ maxEntryBytes ∧
      frame.length ≤ entryByteLimit entry.action ∧
      chunk = beBytes entryLengthBytes frame.length ++ frame := by
  unfold encodeEntry at h
  rw [bind_eq_ok] at h
  rcases h with ⟨frame, hframe, h⟩
  split at h
  next => cases h
  next hlimit =>
  rw [Except.ok.injEq] at h
  rcases Frame.encode_eq_ok hframe with ⟨_, payload, _, _, hshape, hfits⟩
  refine ⟨frame, hframe, ?_, hfits, Nat.le_of_not_lt hlimit, h.symm⟩
  rw [hshape]
  exact Frame.length_around_pos

theorem chunk_length_pos (h : encodeEntry codec entry = .ok chunk) : 0 < chunk.length := by
  rcases encodeEntry_eq_ok h with ⟨frame, _, hpos, _, _, rfl⟩
  rw [length_append]
  omega

/-- A chunk is small, unless it stages a batch. -/
theorem chunk_length_le (h : encodeEntry codec entry = .ok chunk) :
    chunk.length ≤ entryLengthBytes + maxSmallEntryBytes +
      entry.action.stages.length * (maxEntryBytes - maxSmallEntryBytes) := by
  rcases encodeEntry_eq_ok h with ⟨frame, _, _, _, hlimit, rfl⟩
  rw [length_append, length_beBytes]
  cases haction : entry.action <;> rw [haction] at hlimit <;>
    simp only [entryByteLimit, JournalAction.stages, length_cons, length_nil, maxEntryBytes,
      maxSmallEntryBytes] at hlimit ⊢ <;> omega

theorem decodeEntry_frame (hcodec : codec.Lawful) {frame : Bytes}
    (hframe : Frame.encode codec.sha256 entryFrame codec.entry StoreError.corrupt validateEntry
      entry = .ok frame) (hlimit : frame.length ≤ entryByteLimit entry.action) :
    decodeEntry codec frame = .ok entry := by
  unfold decodeEntry
  rw [Frame.decode_encode hcodec.entry hframe, ok_bind, if_pos hlimit]

/-- A written chunk reads back as its entry, whatever follows it. -/
theorem readEntry_chunk (hcodec : codec.Lawful) (h : encodeEntry codec entry = .ok chunk)
    {remaining : Nat} (hremaining : chunk.length ≤ remaining) (rest : Bytes) :
    readEntry codec remaining (chunk ++ rest) = .ok (entry, chunk, rest) := by
  rcases encodeEntry_eq_ok h with ⟨frame, hframe, hpos, hmax, hlimit, rfl⟩
  have hhead : (beBytes entryLengthBytes frame.length).length = entryLengthBytes :=
    length_beBytes _ _
  have hlength : ofBeBytes (beBytes entryLengthBytes frame.length) = frame.length := by
    refine ofBeBytes_beBytes (hmax.trans_lt ?_)
    decide
  have htake : (beBytes entryLengthBytes frame.length ++ frame ++ rest).take entryLengthBytes =
      beBytes entryLengthBytes frame.length := by
    rw [append_assoc, take_left' hhead]
  rw [length_append, hhead] at hremaining
  have hwhole : (beBytes entryLengthBytes frame.length ++ frame).length =
      entryLengthBytes + frame.length := by
    rw [length_append, hhead]
  unfold readEntry
  simp only [htake, hlength]
  rw [if_neg (by omega), if_neg (by rw [length_append, hwhole]; omega), if_neg (by omega),
    if_neg (by omega), if_neg (by rw [length_append, hwhole]; omega), take_left' hwhole,
    drop_left' hwhole, drop_left' hhead, decodeEntry_frame hcodec hframe hlimit]

end Chunks

/-! ### Runs of entries -/

/-- The chunks of some entries, and the state after them. -/
inductive Replays (codec : JournalCodec) (maxBindings : Nat) :
    State → Bytes → List JournalEntry → State → Prop
  | nil (state : State) : Replays codec maxBindings state [] [] state
  | cons {state next last : State} {entry : JournalEntry} {chunk bytes : Bytes}
      {entries : List JournalEntry} (hchunk : encodeEntry codec entry = .ok chunk)
      (hnext : applyEntry state entry (chainDigest codec chunk) chunk.length maxBindings = .ok next)
      (hrest : Replays codec maxBindings next bytes entries last) :
      Replays codec maxBindings state (chunk ++ bytes) (entry :: entries) last

namespace Replays

variable {codec : JournalCodec} {maxBindings : Nat} {state mid last : State}
  {bytes bytes' : Bytes} {entries entries' : List JournalEntry}

theorem append (h : Replays codec maxBindings state bytes entries mid)
    (h' : Replays codec maxBindings mid bytes' entries' last) :
    Replays codec maxBindings state (bytes ++ bytes') (entries ++ entries') last := by
  induction h with
  | nil => exact h'
  | cons hchunk hnext _ ih =>
    rw [append_assoc, cons_append]
    exact .cons hchunk hnext (ih h')

theorem single {entry : JournalEntry} {chunk : Bytes} (hchunk : encodeEntry codec entry = .ok chunk)
    (hnext : applyEntry state entry (chainDigest codec chunk) chunk.length maxBindings =
      .ok mid) : Replays codec maxBindings state chunk [entry] mid := by
  have h := cons hchunk hnext (nil mid)
  rwa [append_nil] at h

/-- The counters after a replay, against those before it. -/
theorem counters (h : Replays codec maxBindings state bytes entries last) :
    last.journalBytes = state.journalBytes + bytes.length ∧
      last.entryCount = state.entryCount + entries.length ∧
      state.bindingCount ≤ last.bindingCount := by
  induction h with
  | nil => exact ⟨rfl, rfl, le_refl _⟩
  | cons hchunk hnext _ ih =>
    rcases applyEntry_eq_ok hnext with ⟨_, hbindings, hentries, hbytes, _, _⟩
    rcases ih with ⟨ihbytes, ihentries, ihbindings⟩
    rw [length_append, length_cons]
    omega

/-- What every chunk preserves, a replay preserves. -/
theorem keeps (Inv : State → Prop)
    (hstep : ∀ {state next entry chunk}, encodeEntry codec entry = .ok chunk →
      applyEntry state entry (chainDigest codec chunk) chunk.length maxBindings = .ok next →
        Inv state → Inv next)
    (h : Replays codec maxBindings state bytes entries last) (hinit : Inv state) : Inv last := by
  induction h with
  | nil => exact hinit
  | cons hchunk hnext _ ih => exact ih (hstep hchunk hnext hinit)

/-- What every entry preserves, a replay preserves. -/
theorem preserves (Inv : State → Prop)
    (hstep : ∀ state action next, state.Takes maxBindings action next → Inv state → Inv next)
    (h : Replays codec maxBindings state bytes entries last) (hinit : Inv state) : Inv last := by
  refine h.keeps Inv (fun _ hnext => ?_) hinit
  rcases applyEntry_eq_ok hnext with ⟨_, _, _, _, _, htakes⟩
  exact hstep _ _ _ htakes

theorem functional (h : Replays codec maxBindings state bytes entries mid)
    (h' : Replays codec maxBindings state bytes' entries last) : bytes = bytes' ∧ mid = last := by
  induction h generalizing bytes' last with
  | nil =>
    cases h'
    exact ⟨rfl, rfl⟩
  | cons hchunk hnext _ ih =>
    cases h' with
    | cons hchunk' hnext' hrest' =>
      cases hchunk.symm.trans hchunk'
      cases hnext.symm.trans hnext'
      rcases ih hrest' with ⟨rfl, rfl⟩
      exact ⟨rfl, rfl⟩

/-- A replay is settled by the bytes: they hold one list of entries. -/
theorem unique (hcodec : codec.Lawful) (h : Replays codec maxBindings state bytes entries mid)
    (h' : Replays codec maxBindings state bytes entries' last) :
    entries = entries' ∧ mid = last := by
  induction h generalizing entries' last with
  | nil state =>
    generalize hbytes : ([] : Bytes) = none at h'
    cases h' with
    | nil => exact ⟨rfl, rfl⟩
    | cons hchunk _ _ =>
      -- A chunk is never empty.
      have hpos := chunk_length_pos hchunk
      have hlength := congrArg List.length hbytes
      rw [length_append, length_nil] at hlength
      omega
  | @cons state next _ entry chunk rest _ hchunk hnext _ ih =>
    generalize hbytes : chunk ++ rest = whole at h'
    cases h' with
    | nil =>
      have hpos := chunk_length_pos hchunk
      have hlength := congrArg List.length hbytes
      rw [length_append, length_nil] at hlength
      omega
    | @cons _ next' _ entry' chunk' rest' _ hchunk' hnext' hrest' =>
      -- Reading the common bytes gives both first entries.
      have hread := readEntry_chunk hcodec hchunk (le_max_left chunk.length chunk'.length) rest
      have hread' := readEntry_chunk hcodec hchunk' (le_max_right chunk.length chunk'.length)
        rest'
      rw [hbytes, hread'] at hread
      cases hread
      cases hnext.symm.trans hnext'
      rcases ih hrest' with ⟨rfl, rfl⟩
      exact ⟨rfl, rfl⟩

end Replays

/-! ### Entries and bindings -/

/-- The relation and coordination an action is about. -/
def JournalAction.key : JournalAction → StatusKey
  | .schedule relation _ binding => toLex (relation, binding.coordination)
  | .stage _ _ status => toLex (status.relation, status.coordination)
  | .acknowledge relation coordination _ _ => toLex (relation, coordination)
  | .complete relation coordination _ => toLex (relation, coordination)

/-- The coordination has been admitted under the relation. -/
def State.Bound (state : State) (relation coordination : ArtifactId) : Prop :=
  ∃ stored binding, state.relations[relation]? = some stored ∧
    stored.bindings[coordination]? = some binding

/-- How many entries the status of a key accounts for, its schedule included. -/
def allowance : Option StoredStatusState → Nat
  | none => 1
  | some (.staged _ _ acknowledged) => 2 + acknowledged.card
  | some (.completed _) => 5

/-- The keys of the entries so far, against the state they add up to. -/
structure State.Tallied (state : State) (keys : List StatusKey) : Prop where
  count : keys.toFinset.card = state.bindingCount
  bound : ∀ relation coordination,
    (toLex (relation, coordination) : StatusKey) ∈ keys ↔ state.Bound relation coordination
  listed : ∀ (key : StatusKey) status, state.statuses[key]? = some status → key ∈ keys
  acknowledged : ∀ (key : StatusKey) binding status acknowledged,
    state.statuses[key]? = some (.staged binding status acknowledged) →
      acknowledged ⊆ status.destinations.toFinset ∧ status.destinations.length ≤ 2
  used : ∀ key : StatusKey, keys.count key ≤ allowance state.statuses[key]?

theorem State.tallied_empty : State.empty.Tallied [] where
  count := rfl
  bound := fun relation coordination => by
    constructor
    · intro h
      cases h
    · rintro ⟨stored, _, hstored, _⟩
      rw [State.empty, Std.ExtTreeMap.getElem?_empty] at hstored
      cases hstored
  listed := fun key status h => by
    rw [State.empty, Std.ExtTreeMap.getElem?_empty] at h
    cases h
  acknowledged := fun key binding status acknowledged h => by
    rw [State.empty, Std.ExtTreeMap.getElem?_empty] at h
    cases h
  used := fun key => by
    rw [List.count_nil]
    exact Nat.zero_le _

theorem validateStoredStatus_eq_ok {status : StoredStatus}
    (h : validateStoredStatus status = .ok ()) :
    status.fence ≠ 0 ∧ 1 ≤ status.destinations.length ∧ status.destinations.length ≤ 2 ∧
      status.destinations.Nodup := by
  unfold validateStoredStatus at h
  simp only [ite_eq_right_iff, reduceCtorEq, imp_false, Bool.or_eq_true, not_or,
    Bool.not_eq_true', Bool.not_eq_false, Bool.and_eq_true, decide_eq_true_eq] at h
  rcases h with ⟨⟨⟨hfence, hone, htwo⟩, hsorted⟩, _⟩
  refine ⟨?_, hone, htwo, ?_⟩
  · intro hzero
    rw [LeaseFence.new, dif_neg (not_not_intro hzero)] at hfence
    exact hfence rfl
  · -- One or two destinations: the neighbours are all there is to compare.
    rcases hdestinations : status.destinations with _ | ⟨left, _ | ⟨right, rest⟩⟩
    · exact nodup_nil
    · exact nodup_singleton left
    rw [hdestinations, length_cons, length_cons] at htwo
    have hrest : rest = [] := length_eq_zero_iff.mp (by omega)
    rw [hdestinations] at hsorted
    simp only [noNeighbours, Bool.and_eq_true, Bool.not_eq_true', decide_eq_false_iff_not,
      not_le] at hsorted
    rw [hrest, nodup_cons, mem_singleton]
    exact ⟨ne_of_lt hsorted.1, nodup_singleton right⟩

variable {next : State}

/-- A schedule makes exactly one more key bound. -/
theorem State.bound_admitting {relation coordination : ArtifactId}
    {planBinding : Digest} {binding : StoredBinding}
    (hrelations : next.relations = state.relations.insert relation
      (.admitting state.relations[relation]? planBinding binding))
    (other : ArtifactId) :
    next.Bound other coordination ↔
      state.Bound other coordination ∨ (relation = other ∧ binding.coordination = coordination) := by
  unfold State.Bound
  rw [hrelations]
  simp only [getElem?_inserted]
  by_cases hrelation : relation = other
  · subst hrelation
    simp only [if_true, Option.some.injEq, exists_and_left, exists_eq_left', true_and]
    cases hstored : state.relations[relation]? with
    | none =>
      simp only [StoredRelation.admitting, getElem?_inserted, getElem?_empty,
        reduceCtorEq, false_and, exists_false, false_or]
      by_cases hcoordination : binding.coordination = coordination
      · simp [hcoordination]
      · simp [hcoordination]
    | some stored =>
      simp only [StoredRelation.admitting, getElem?_inserted, Option.some.injEq, exists_eq_left']
      by_cases hcoordination : binding.coordination = coordination
      · simp [hcoordination]
      · simp [hcoordination]
  · simp [hrelation]

theorem State.bound_congr (hrelations : next.relations = state.relations)
    (relation coordination : ArtifactId) :
    next.Bound relation coordination ↔ state.Bound relation coordination := by
  unfold State.Bound
  rw [hrelations]

section Tally

variable {state next : State} {keys : List StatusKey} {key : StatusKey}

/-- One more key that is new: the tally of a schedule. -/
theorem State.Tallied.schedule (h : state.Tallied keys) {relation : ArtifactId}
    {planBinding : Digest} {binding : StoredBinding}
    (hfresh : ¬ state.Bound relation binding.coordination)
    (hrelations : next.relations = state.relations.insert relation
      (.admitting state.relations[relation]? planBinding binding))
    (hstatuses : next.statuses = state.statuses)
    (hcount : next.bindingCount = state.bindingCount + 1) :
    next.Tallied (keys ++ [toLex (relation, binding.coordination)]) where
  count := by
    have hnew : (toLex (relation, binding.coordination) : StatusKey) ∉ keys.toFinset := by
      rw [mem_toFinset, h.bound]
      exact hfresh
    rw [toFinset_append, toFinset_cons, toFinset_nil, LawfulSingleton.insert_empty_eq,
      Finset.union_comm, ← Finset.insert_eq, Finset.card_insert_of_notMem hnew, h.count, hcount]
  bound := by
    intro other coordination
    rw [State.bound_admitting hrelations, mem_append, h.bound, mem_singleton,
      EmbeddingLike.apply_eq_iff_eq, Prod.mk.injEq, eq_comm (a := other),
      eq_comm (a := coordination)]
  listed := by
    intro other status hstatus
    rw [hstatuses] at hstatus
    exact mem_append_left _ (h.listed other status hstatus)
  acknowledged := by
    intro other binding status acknowledged hstatus
    rw [hstatuses] at hstatus
    exact h.acknowledged other binding status acknowledged hstatus
  used := by
    intro other
    rw [hstatuses, count_append, count_singleton]
    by_cases hother : other = toLex (relation, binding.coordination)
    · -- The new key had no entry and has no status.
      have hnone : keys.count other = 0 := by
        rw [count_eq_zero, hother, h.bound]
        exact hfresh
      have hallowance : 1 ≤ allowance state.statuses[other]? := by
        unfold allowance
        split <;> omega
      rw [hnone]
      split <;> omega
    · rw [if_neg (by rw [beq_iff_eq]; exact fun heq => hother heq.symm)]
      exact h.used other

/-- One more entry under a key that has been seen: the tally of the rest. -/
theorem State.Tallied.progress (h : state.Tallied keys) (hmem : key ∈ keys)
    {status : StoredStatusState} (hrelations : next.relations = state.relations)
    (hstatuses : next.statuses = state.statuses.insert key status)
    (hcount : next.bindingCount = state.bindingCount)
    (hacknowledged : ∀ binding stored acknowledged,
      status = .staged binding stored acknowledged →
        acknowledged ⊆ stored.destinations.toFinset ∧ stored.destinations.length ≤ 2)
    (hused : keys.count key + 1 ≤ allowance (some status)) : next.Tallied (keys ++ [key]) where
  count := by
    have hsame : (keys ++ [key]).toFinset = keys.toFinset := by
      ext other
      rw [mem_toFinset, mem_toFinset, mem_append, mem_singleton]
      exact ⟨fun hor => hor.elim id (fun heq => heq ▸ hmem), Or.inl⟩
    rw [hsame, h.count, hcount]
  bound := by
    intro relation coordination
    rw [State.bound_congr hrelations, ← h.bound, mem_append, mem_singleton]
    exact ⟨fun hor => hor.elim id (fun heq => heq ▸ hmem), Or.inl⟩
  listed := by
    intro other stored hstored
    rw [hstatuses, getElem?_inserted] at hstored
    by_cases hother : key = other
    · exact mem_append_right _ (mem_singleton.mpr hother.symm)
    · rw [if_neg hother] at hstored
      exact mem_append_left _ (h.listed other stored hstored)
  acknowledged := by
    intro other binding stored acknowledged hstored
    rw [hstatuses, getElem?_inserted] at hstored
    by_cases hother : key = other
    · rw [if_pos hother, Option.some.injEq] at hstored
      exact hacknowledged binding stored acknowledged hstored
    · rw [if_neg hother] at hstored
      exact h.acknowledged other binding stored acknowledged hstored
  used := by
    intro other
    rw [hstatuses, getElem?_inserted, count_append, count_singleton]
    by_cases hother : key = other
    · subst hother
      rw [if_pos rfl, if_pos (beq_self_eq_true _)]
      exact hused
    · rw [if_neg hother, if_neg (by rw [beq_iff_eq]; exact hother)]
      exact h.used other

end Tally

theorem State.Tallied.takes {action : JournalAction} {keys : List StatusKey}
    (h : state.Tallied keys)
    (hcount : next.bindingCount = state.bindingCount + bindingIncrement action)
    (htakes : state.Takes maxBindings action next) : next.Tallied (keys ++ [action.key]) := by
  cases htakes with
  | first hroom habsent hfence hrelations hstatuses =>
    refine h.schedule ?_ (by rw [habsent]; exact hrelations) hstatuses hcount
    rintro ⟨stored, _, hstored, _⟩
    rw [habsent] at hstored
    cases hstored
  | @later _ _ _ _ stored _ hroom hstored hplan hfresh hcurrent hfence hrelations hstatuses =>
    refine h.schedule ?_ (by rw [hstored]; exact hrelations) hstatuses hcount
    rintro ⟨stored', _, hstored', hbinding⟩
    rw [hstored, Option.some.injEq] at hstored'
    rw [← hstored', hfresh] at hbinding
    cases hbinding
  | @stage _ _ status _ stored binding hvalid hfresh hstored hplan hcurrent hbinding hwork hrole
      hfence hrelations hstatuses =>
      refine h.progress ((h.bound _ _).mpr ⟨stored, binding, hstored, hbinding⟩) hrelations
        hstatuses hcount ?_ ?_
      · rintro _ _ _ hstaged
        cases hstaged
        exact ⟨Finset.empty_subset _, (validateStoredStatus_eq_ok hvalid).2.2.1⟩
      · have hused := h.used (toLex (status.relation, status.coordination))
        rw [hfresh] at hused
        simp only [JournalAction.key, allowance, Finset.card_empty] at hused ⊢
        omega
  | @acknowledge relation coordination _ destination _ status acknowledged hstaged hnamed hfresh
      hrelations hstatuses =>
      refine h.progress (h.listed _ _ hstaged) hrelations hstatuses hcount ?_ ?_
      · rintro _ _ _ hnext
        cases hnext
        rcases h.acknowledged _ _ _ _ hstaged with ⟨hsubset, htwo⟩
        exact ⟨Finset.insert_subset (mem_toFinset.mpr hnamed) hsubset, htwo⟩
      · have hused := h.used (toLex (relation, coordination))
        rw [hstaged] at hused
        simp only [JournalAction.key, allowance, Finset.card_insert_of_notMem hfresh] at hused ⊢
        omega
  | @complete relation coordination _ _ status acknowledged hstaged hall hrelations hstatuses =>
    refine h.progress (h.listed _ _ hstaged) hrelations hstatuses hcount ?_ ?_
    · exact fun _ _ _ hnext => absurd hnext (by simp)
    · -- At most two destinations can have been acknowledged.
      rcases h.acknowledged _ _ _ _ hstaged with ⟨hsubset, htwo⟩
      have hcard : acknowledged.card ≤ 2 :=
        (Finset.card_le_card hsubset).trans ((toFinset_card_le _).trans htwo)
      have hused := h.used (toLex (relation, coordination))
      rw [hstaged] at hused
      simp only [JournalAction.key, allowance] at hused ⊢
      omega

theorem Replays.tallied {codec : JournalCodec} {last : State} {bytes : Bytes}
    {entries : List JournalEntry} {keys : List StatusKey}
    (h : Replays codec maxBindings state bytes entries last) (hkeys : state.Tallied keys) :
    last.Tallied (keys ++ entries.map (fun entry => entry.action.key)) := by
  induction h generalizing keys with
  | nil =>
    rw [map_nil, append_nil]
    exact hkeys
  | cons _ hnext _ ih =>
    rcases applyEntry_eq_ok hnext with ⟨_, hcount, _, _, _, htakes⟩
    have hrest := ih (hkeys.takes hcount htakes)
    rw [append_assoc, singleton_append] at hrest
    rw [map_cons]
    exact hrest

section Committed

variable {codec : JournalCodec} {maxBindings : Nat} {state last : State} {bytes : Bytes}
  {entries : List JournalEntry}

/-- The entries of a binding are at most five. -/
theorem State.Tallied.length_le {keys : List StatusKey} (h : state.Tallied keys) :
    keys.length ≤ state.bindingCount * maxActionsPerBinding := by
  have hfive : ∀ key ∈ keys.toFinset, keys.count key ≤ maxActionsPerBinding := by
    intro key _
    refine (h.used key).trans ?_
    unfold maxActionsPerBinding
    cases hstatus : state.statuses[key]? with
    | none => simp only [allowance]; omega
    | some status =>
      cases status with
      | completed => simp only [allowance, le_refl]
      | staged binding stored acknowledged =>
        rcases h.acknowledged key binding stored acknowledged hstatus with ⟨hsub, htwo⟩
        have hcard := (Finset.card_le_card hsub).trans ((toFinset_card_le _).trans htwo)
        simp only [allowance]
        omega
  -- The keys are counted with the equality test of the ordered pair.
  rw [lawful_beq_subsingleton (instBEqLex (ArtifactId × ArtifactId)) instBEqOfDecidableEq] at hfive
  rw [← sum_toFinset_count_eq_length keys, ← h.count]
  exact Finset.sum_le_card_nsmul _ _ _ hfive

theorem Replays.tally (h : Replays codec maxBindings .empty bytes entries state) :
    state.Tallied (entries.map (fun entry => entry.action.key)) ∧
      state.entryCount = (entries.map (fun entry => entry.action.key)).length := by
  refine ⟨h.tallied State.tallied_empty, ?_⟩
  rw [h.counters.2.1, length_map]
  exact Nat.zero_add _

/-- A journal holds at most five entries for each binding, and at least one. -/
theorem Replays.entryCount_le (h : Replays codec maxBindings .empty bytes entries state) :
    state.bindingCount ≤ state.entryCount ∧
      state.entryCount ≤ state.bindingCount * maxActionsPerBinding := by
  rcases h.tally with ⟨htally, hlength⟩
  refine ⟨?_, hlength ▸ htally.length_le⟩
  rw [← htally.count, hlength]
  exact toFinset_card_le _

/-- What has been staged is staged once and stays. -/
theorem State.Takes.stages {action : JournalAction} {next : State} {staged : List StatusKey}
    (htakes : state.Takes maxBindings action next) (hnodup : staged.Nodup)
    (h : ∀ key ∈ staged, key ∈ state.statuses) :
    (staged ++ action.stages).Nodup ∧ ∀ key ∈ staged ++ action.stages, key ∈ next.statuses := by
  cases htakes with
  | first _ _ _ _ hstatuses | later _ _ _ _ _ _ _ hstatuses =>
    rw [JournalAction.stages, append_nil, hstatuses]
    exact ⟨hnodup, h⟩
  | acknowledge _ _ _ _ hstatuses | complete _ _ _ hstatuses =>
    rw [JournalAction.stages, append_nil, hstatuses]
    exact ⟨hnodup, fun key hkey => mem_insert.mpr (.inr (h key hkey))⟩
  | @stage _ _ status _ _ _ _ hfresh _ _ _ _ _ _ _ _ hstatuses =>
    have hnew : ∀ key ∈ staged, key ≠ toLex (status.relation, status.coordination) := by
      intro key hkey hsame
      have hheld := mem_iff_isSome_getElem?.mp (h key hkey)
      rw [hsame, hfresh] at hheld
      cases hheld
    rw [JournalAction.stages, hstatuses]
    refine ⟨nodup_append.mpr ⟨hnodup, nodup_singleton _, ?_⟩, fun key hkey => ?_⟩
    · exact fun key hkey other hother => mem_singleton.mp hother ▸ hnew key hkey
    · rw [mem_insert, compare_eq_iff_eq]
      rcases mem_append.mp hkey with hold | hsame
      · exact .inr (h key hold)
      · exact .inl (mem_singleton.mp hsame).symm

/-- The bytes of a journal: a small chunk for each entry, and the rest of a
    large one for each batch that was staged. -/
theorem Replays.bytes_le (h : Replays codec maxBindings state bytes entries last)
    {staged : List StatusKey} (hnodup : staged.Nodup)
    (hstaged : ∀ key ∈ staged, key ∈ state.statuses) :
    ∃ all : List StatusKey, all.Nodup ∧ (∀ key ∈ all, key ∈ last.statuses) ∧
      last.journalBytes + staged.length * (maxEntryBytes - maxSmallEntryBytes) ≤
        state.journalBytes + entries.length * (entryLengthBytes + maxSmallEntryBytes) +
          all.length * (maxEntryBytes - maxSmallEntryBytes) := by
  induction h generalizing staged with
  | nil => exact ⟨staged, hnodup, hstaged, by omega⟩
  | @cons _ _ _ entry chunk _ rest hchunk hnext _ ih =>
    rcases applyEntry_eq_ok hnext with ⟨_, _, _, hbytes, _, htakes⟩
    rcases htakes.stages hnodup hstaged with ⟨hnodup', hstaged'⟩
    rcases ih hnodup' hstaged' with ⟨all, hall, hkept, hle⟩
    refine ⟨all, hall, hkept, ?_⟩
    have hlimit := chunk_length_le hchunk
    rw [length_append, Nat.add_mul] at hle
    rw [length_cons, Nat.add_mul, Nat.one_mul]
    omega

/-- What a state takes without a new binding fits into what its bindings have
    left: the entry itself is tallied, and so is the batch it may stage. -/
theorem Replays.room {action : JournalAction} {chunk : Bytes}
    (h : Replays codec maxBindings .empty bytes entries state)
    (hvalid : validateAction state maxBindings action = .ok ())
    (hnone : bindingIncrement action = 0)
    (hchunk : encodeEntry codec ⟨state.tailDigest, action⟩ = .ok chunk) :
    state.entryCount + 1 ≤ state.bindingCount * maxActionsPerBinding ∧
      state.journalBytes + chunk.length ≤ state.bindingCount * maxJournalBytesPerBinding := by
  rcases takes_of_valid hvalid with ⟨applied, _, htakes⟩
  have hnext := htakes { applied with bindingCount := state.bindingCount } rfl rfl
  rcases h.tally with ⟨htally, hlength⟩
  have htally' := htally.takes (by rw [hnone]; rfl) hnext
  have hentries := htally'.length_le
  rw [length_append, ← hlength, length_singleton] at hentries
  rcases h.bytes_le nodup_nil (fun _ hkey => absurd hkey not_mem_nil) with
    ⟨staged, hnodup, hkept, hbytes⟩
  rcases hnext.stages hnodup hkept with ⟨hnodup', hkept'⟩
  have hstages : (staged ++ action.stages).length ≤ state.bindingCount := by
    rw [← toFinset_card_of_nodup hnodup', ← htally'.count]
    refine Finset.card_le_card (fun key hkey => ?_)
    have hstatus := mem_iff_isSome_getElem?.mp (hkept' key (mem_toFinset.mp hkey))
    rcases Option.isSome_iff_exists.mp hstatus with ⟨status, hstatus⟩
    exact mem_toFinset.mpr (htally'.listed key status hstatus)
  have hsmall := chunk_length_le hchunk
  refine ⟨hentries, ?_⟩
  rw [length_append] at hstages
  rw [length_map] at hlength
  have hbytes' : state.journalBytes ≤ 0 + entries.length * 4104 + staged.length * 12288 := hbytes
  have hsmall' : chunk.length ≤ 4104 + action.stages.length * 12288 := hsmall
  have hentries' : state.entryCount + 1 ≤ state.bindingCount * 5 := hentries
  show _ ≤ state.bindingCount * 32808
  omega

theorem Replays.bindingCount_le (h : Replays codec maxBindings state bytes entries last)
    (hinit : state.bindingCount ≤ maxBindings) : last.bindingCount ≤ maxBindings := by
  refine h.keeps (fun state => state.bindingCount ≤ maxBindings) ?_ hinit
  intro state next entry _ _ hnext hinit
  rcases applyEntry_eq_ok hnext with ⟨_, hcount, _, _, _, htakes⟩
  rw [hcount]
  generalize entry.action = action at htakes
  cases htakes with
  | first hroom | later hroom => exact hroom
  | stage | acknowledge | complete => exact hinit

/-- The metadata that commits exactly a state. -/
def State.metadata (state : State) (maxBindings : Nat) : RootMetadata :=
  ⟨maxBindings, state.bindingCount, state.entryCount, state.journalBytes, state.tailDigest⟩

theorem State.matchesRoot_iff {state : State} {metadata : RootMetadata} :
    state.matchesRoot metadata = true ↔ metadata = state.metadata metadata.maxBindings := by
  rcases metadata with ⟨maxBindings, bindingCount, entryCount, journalBytes, tailDigest⟩
  simp only [State.matchesRoot, State.metadata, Bool.and_eq_true, beq_iff_eq,
    RootMetadata.mk.injEq, true_and, and_assoc]
  constructor
  · rintro ⟨hbindings, hentries, hbytes, htail⟩
    exact ⟨hbindings.symm, hentries.symm, hbytes.symm, htail.symm⟩
  · rintro ⟨hbindings, hentries, hbytes, htail⟩
    exact ⟨hbindings.symm, hentries.symm, hbytes.symm, htail.symm⟩

/-- Whether anything has been written shows in all three counters at once. -/
theorem Replays.empty_iff (h : Replays codec maxBindings .empty bytes entries state) :
    (state.journalBytes = 0 ↔ state.entryCount = 0) ∧
      (state.tailDigest = none ↔ state.entryCount = 0) := by
  refine h.keeps (fun state => (state.journalBytes = 0 ↔ state.entryCount = 0) ∧
    (state.tailDigest = none ↔ state.entryCount = 0)) ?_
    ⟨⟨fun _ => rfl, fun _ => rfl⟩, ⟨fun _ => rfl, fun _ => rfl⟩⟩
  intro state next entry chunk hchunk hnext _
  rcases applyEntry_eq_ok hnext with ⟨_, _, hentries, hbytes, htail, _⟩
  have hpos := chunk_length_pos hchunk
  refine ⟨by omega, ?_⟩
  rw [htail, hentries]
  simp

/-- The bytes of a journal stay within the limit for its capacity. -/
theorem Replays.journalBytes_le (h : Replays codec maxBindings state bytes entries last)
    (hinit : state.journalBytes ≤ maxBindings * maxJournalBytesPerBinding) :
    last.journalBytes ≤ maxBindings * maxJournalBytesPerBinding := by
  refine h.keeps (fun state => state.journalBytes ≤ _) (fun _ hnext _ => ?_) hinit
  rcases applyEntry_eq_ok hnext with ⟨haccepts, _, _, hbytes, _, _⟩
  exact hbytes ▸ haccepts.bytes_left

/-- The metadata of a replayed journal passes its own check. -/
theorem Replays.validateMetadata (h : Replays codec maxBindings .empty bytes entries state)
    (hone : 1 ≤ maxBindings) (hlimit : maxBindings ≤ bindingLimit) :
    Relations.validateMetadata (state.metadata maxBindings) = .ok () := by
  have hentries := h.entryCount_le
  have hbindings := h.bindingCount_le (Nat.zero_le _)
  have hbytes := h.journalBytes_le (Nat.zero_le _)
  rcases h.empty_iff with ⟨hnoBytes, hnoTail⟩
  unfold bindingLimit at hlimit
  unfold maxActionsPerBinding at hentries
  have hentriesFit : maxBindings * maxActionsPerBinding < 2 ^ 64 := by
    unfold maxActionsPerBinding
    omega
  have hadmittedFit : state.bindingCount * maxActionsPerBinding < 2 ^ 64 := by
    unfold maxActionsPerBinding
    omega
  have hbytesFit : maxBindings * maxJournalBytesPerBinding < 2 ^ 64 := by
    unfold maxJournalBytesPerBinding maxEntryBytes maxSmallEntryBytes entryLengthBytes
    omega
  have hjournal : ((state.journalBytes == 0) != (state.entryCount == 0)) = false := by
    rw [bne_eq_false_iff_eq, Bool.eq_iff_iff, beq_iff_eq, beq_iff_eq]
    exact hnoBytes
  have htail : (state.tailDigest.isNone != (state.entryCount == 0)) = false := by
    rw [bne_eq_false_iff_eq, Bool.eq_iff_iff, Option.isNone_iff_eq_none, beq_iff_eq]
    exact hnoTail
  unfold Relations.validateMetadata journalByteLimit State.metadata
  dsimp only
  simp only [checkedU64_eq_some.mpr ⟨hentriesFit, rfl⟩,
    checkedU64_eq_some.mpr ⟨hadmittedFit, rfl⟩, checkedU64_eq_some.mpr ⟨hbytesFit, rfl⟩, orCorrupt,
    ok_bind, hjournal, htail, Bool.or_false]
  rw [if_neg]
  simp only [Bool.or_eq_true, Bool.not_eq_true', Bool.and_eq_false_iff, decide_eq_true_eq,
    decide_eq_false_iff_not]
  unfold bindingLimit maxActionsPerBinding
  omega

end Committed

end Relations

end Amiss
