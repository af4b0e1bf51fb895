import Amiss.Theory.Relations.Replay

/-!
# Sessions of the Relation Store

What a program under the lock leaves behind, cut short or not. The files of a
root commit to some entries: the metadata names the state they add up to, and
the journal starts with their chunks. Whatever follows those chunks is the
torn end of an entry that was never committed. The state a process holds is
what some first entries of the journal add up to.

`Root.Step` is the one relation every single write of every program follows.
Entries are only ever added to the committed ones, and the state the process
holds stays behind them. From it the rest of the development gets what it
needs to know about files: `Follows.session` hands an operation a root whose
journal is trimmed and whose state is up to date, and `follows_append` is what
the operation may do with it.

## Main definitions

* `Disk.Commits`: The entries the files commit to.
* `Behind`: The state of a process, against the committed entries.
* `Root.Step`: What one write does.
* `Root.Current`: A trimmed journal and a state that is up to date.
* `appendPlan`: The checks an append passes before it commits.

## Theorems

* `Disk.Commits.unique`: The files commit to one list of entries.
* `finishes_synchronize`: Catching up reaches the committed state.
* `Follows.session`, `follows_append`, `follows_enact`: What operations are
  made of.
* `follows_openStore`: Opening prepares a new root and reads an old one.
-/

namespace Amiss

open List

open Fallible

namespace Relations

open Relation (ReflTransGen)

open Durable (Follows Finishes Traces)

/-- The entries the files commit to, and the state they add up to. -/
structure Disk.Commits (codec : JournalCodec) (maxBindings : Nat) (disk : Disk)
    (entries : List JournalEntry) (state : State) : Prop where
  root : ∃ bytes, disk.metadata = some bytes ∧ bytes.length ≤ maxRootBytes ∧
    decodeMetadata codec bytes maxBindings = .ok (state.metadata maxBindings)
  journal : ∃ bytes suffix, disk.journal = some (bytes ++ suffix) ∧
    Replays codec maxBindings .empty bytes entries state

/-- The state some first entries add up to, and the rest of them. -/
def Behind (codec : JournalCodec) (maxBindings : Nat) (cached : State)
    (entries : List JournalEntry) (state : State) : Prop :=
  ∃ before after bytes rest, entries = before ++ after ∧
    Replays codec maxBindings .empty bytes before cached ∧
    Replays codec maxBindings cached rest after state

/-- The files commit to the entries, and the process is behind them. -/
structure Root.Holds (codec : JournalCodec) (maxBindings : Nat) (root : Root)
    (entries : List JournalEntry) (state : State) : Prop where
  commits : root.disk.Commits codec maxBindings entries state
  behind : Behind codec maxBindings root.state entries state

/-- Nothing has been committed: there is no metadata yet, and a journal only
    if preparing the root was cut short. -/
def Disk.Fresh (disk : Disk) : Prop :=
  disk.metadata = none ∧ (disk.journal = none ∨ disk.journal = some [])

/-- What one write does. A fresh root is prepared, and in a prepared one
    entries are added to those that are committed. Which actions a program may
    add is up to whoever runs it. -/
structure Root.Step (allowed : JournalAction → Prop) (codec : JournalCodec) (maxBindings : Nat)
    (root next : Root) : Prop where
  fresh : root.disk.Fresh → root.state = .empty →
    (next.disk.Fresh ∧ next.state = .empty) ∨ next.Holds codec maxBindings [] .empty
  grows : ∀ entries state, root.Holds codec maxBindings entries state →
    ∃ more bytes state', next.Holds codec maxBindings (entries ++ more) state' ∧
      Replays codec maxBindings state bytes more state' ∧ ∀ entry ∈ more, allowed entry.action

/-- The journal ends with the committed entries. -/
structure Root.Trimmed (codec : JournalCodec) (maxBindings : Nat) (root : Root)
    (entries : List JournalEntry) (state : State) : Prop
    extends root.Holds codec maxBindings entries state where
  exact : ∃ bytes, root.disk.journal = some bytes ∧
    Replays codec maxBindings .empty bytes entries state

/-- The journal ends with the committed entries, and the process has read all
    of them. -/
structure Root.Current (codec : JournalCodec) (maxBindings : Nat) (root : Root)
    (entries : List JournalEntry) (state : State) : Prop
    extends root.Trimmed codec maxBindings entries state where
  held : root.state = state

section Committing

variable {allowed : JournalAction → Prop} {codec : JournalCodec} {maxBindings : Nat}
  {root next : Root} {disk : Disk} {entries entries' more : List JournalEntry}
  {cached state state' : State} {bytes : Bytes}

theorem Behind.refl (h : Replays codec maxBindings .empty bytes entries state) :
    Behind codec maxBindings state entries state :=
  ⟨entries, [], bytes, [], (append_nil _).symm, h, .nil state⟩

/-- A process stays behind when entries are added. -/
theorem Behind.grow (h : Behind codec maxBindings cached entries state)
    (hmore : Replays codec maxBindings state bytes more state') :
    Behind codec maxBindings cached (entries ++ more) state' := by
  rcases h with ⟨before, after, front, rest, rfl, hbefore, hafter⟩
  exact ⟨before, after ++ more, front, rest ++ bytes, append_assoc _ _ _, hbefore,
    hafter.append hmore⟩

theorem Disk.Commits.not_fresh (h : disk.Commits codec maxBindings entries state) :
    ¬ disk.Fresh := by
  rintro ⟨hnone, _⟩
  rcases h.root with ⟨_, hsome, _⟩
  rw [hnone] at hsome
  cases hsome

theorem Root.grows_of_path (hpath : ReflTransGen (Root.Step allowed codec maxBindings) root next)
    (h : root.Holds codec maxBindings entries state) :
    ∃ more bytes state', next.Holds codec maxBindings (entries ++ more) state' ∧
      Replays codec maxBindings state bytes more state' ∧ ∀ entry ∈ more, allowed entry.action := by
  induction hpath with
  | refl =>
    refine ⟨[], [], state, ?_, .nil state, fun entry hentry => absurd hentry not_mem_nil⟩
    rw [append_nil]
    exact h
  | tail _ hlast ih =>
    rcases ih with ⟨more, bytes, mid, hmid, hmore, hallowed⟩
    rcases hlast.grows _ _ hmid with ⟨more', bytes', last, hlast, hmore', hallowed'⟩
    rw [append_assoc] at hlast
    refine ⟨more ++ more', bytes ++ bytes', last, hlast, hmore.append hmore', ?_⟩
    exact forall_mem_append.mpr ⟨hallowed, hallowed'⟩

/-- Along a path, a fresh root is prepared or stays fresh. -/
theorem Root.fresh_of_path (hpath : ReflTransGen (Root.Step allowed codec maxBindings) root next)
    (hfresh : root.disk.Fresh) (hempty : root.state = .empty) :
    (next.disk.Fresh ∧ next.state = .empty) ∨
      ∃ entries state, next.Holds codec maxBindings entries state ∧
        ∀ entry ∈ entries, allowed entry.action := by
  induction hpath with
  | refl => exact Or.inl ⟨hfresh, hempty⟩
  | tail _ hlast ih =>
    rcases ih with ⟨hmid, hstate⟩ | ⟨entries, state, hmid, hallowed⟩
    · exact (hlast.fresh hmid hstate).imp id
        (fun h => ⟨[], .empty, h, fun entry hentry => absurd hentry not_mem_nil⟩)
    · rcases hlast.grows _ _ hmid with ⟨more, _, state', h, _, hallowed'⟩
      exact Or.inr ⟨entries ++ more, state', h, forall_mem_append.mpr ⟨hallowed, hallowed'⟩⟩

variable (hcodec : codec.Lawful)

include hcodec

/-- The files commit to one list of entries: the metadata says how many bytes
    are committed, and those bytes hold one list. -/
theorem Disk.Commits.unique (h : disk.Commits codec maxBindings entries state)
    (h' : disk.Commits codec maxBindings entries' state') :
    entries = entries' ∧ state = state' := by
  rcases h with ⟨⟨root, hroot, _, hdecode⟩, bytes, suffix, hjournal, hreplay⟩
  rcases h' with ⟨⟨root', hroot', _, hdecode'⟩, bytes', suffix', hjournal', hreplay'⟩
  cases hroot.symm.trans hroot'
  rw [hdecode, Except.ok.injEq] at hdecode'
  have hlength : bytes.length = bytes'.length := by
    have hbytes := congrArg RootMetadata.journalBytes hdecode'
    simp only [State.metadata] at hbytes
    have hleft := hreplay.counters.1
    have hright := hreplay'.counters.1
    omega
  rw [hjournal, Option.some.injEq] at hjournal'
  have hsame : bytes = bytes' := (append_inj hjournal' hlength).1
  subst hsame
  exact hreplay.unique hcodec hreplay'

/-- One write, given what the root holds before and after it. -/
theorem Root.Step.of_holds (h : root.Holds codec maxBindings entries state)
    (h' : next.Holds codec maxBindings (entries ++ more) state')
    (hmore : Replays codec maxBindings state bytes more state')
    (hallowed : ∀ entry ∈ more, allowed entry.action) :
    root.Step allowed codec maxBindings next where
  fresh := fun hfresh => absurd hfresh h.commits.not_fresh
  grows := by
    intro other otherState hother
    rcases h.commits.unique hcodec hother.commits with ⟨rfl, rfl⟩
    exact ⟨more, bytes, state', h', hmore, hallowed⟩

/-- A write that leaves the committed entries alone. -/
theorem Root.Step.of_same (h : root.Holds codec maxBindings entries state)
    (h' : next.Holds codec maxBindings entries state) :
    root.Step allowed codec maxBindings next := by
  refine .of_holds hcodec h ?_ (.nil state) (fun entry hentry => absurd hentry not_mem_nil)
  rw [append_nil]
  exact h'

end Committing

section Programs

variable {allowed : JournalAction → Prop} {codec : JournalCodec} {maxBindings : Nat} {root : Root}
  {entries : List JournalEntry} {state : State}

/-! ### Reading -/

variable {bytes : Bytes} {metadata : RootMetadata}

/-- Metadata that is read was framed as it is, for the capacity asked for. -/
theorem decodeMetadata_eq_ok :
    decodeMetadata codec bytes maxBindings = .ok metadata ↔
      Frame.decode codec.sha256 rootFrame codec.root StoreError.corrupt validateMetadata bytes =
        .ok metadata ∧ metadata.maxBindings = maxBindings := by
  unfold decodeMetadata
  rw [bind_eq_ok]
  constructor
  · rintro ⟨read, hframe, hread⟩
    split at hread
    next => cases hread
    next hmax =>
      cases hread
      exact ⟨hframe, not_not.mp hmax⟩
  · rintro ⟨hframe, hmax⟩
    exact ⟨metadata, hframe, if_neg (not_not_intro hmax)⟩

/-- A committed root loads the metadata of its state. -/
theorem Follows.loadMetadata {α : Type} {R : Root → Root → Prop} {next : RootMetadata → Store α}
    {post : α → Root → Prop} {err : StoreError → Root → Prop}
    (h : root.disk.Commits codec maxBindings entries state)
    (hnext : Follows R (next (state.metadata maxBindings)) root post err) :
    Follows R (Relations.loadMetadata codec maxBindings >>= next) root post err := by
  rcases h with ⟨⟨bytes, hroot, hshort, hdecode⟩, _, _, hjournal, _⟩
  refine .reading_ok ?_ hnext
  rw [hroot, hjournal]
  dsimp only
  rw [if_neg (Nat.not_lt_of_le hshort), hdecode]

/-- Changing only what the process holds keeps what the files commit to. -/
theorem Root.Trimmed.setState {cached : State} (h : root.Trimmed codec maxBindings entries state)
    (hbehind : Behind codec maxBindings cached entries state) :
    (root.setState cached).Trimmed codec maxBindings entries state :=
  ⟨⟨h.commits, hbehind⟩, h.exact⟩

section

variable (hcodec : codec.Lawful)

include hcodec

/-- Cutting off the torn end leaves the committed entries. -/
theorem finishes_openCommittedJournal (h : root.Holds codec maxBindings entries state) :
    Finishes (Root.Step allowed codec maxBindings)
      (openCommittedJournal (state.metadata maxBindings)) root
      (fun _ next => next.Trimmed codec maxBindings entries state) := by
  rcases h.commits.journal with ⟨bytes, suffix, hjournal, hreplay⟩
  have hlength : (state.metadata maxBindings).journalBytes = bytes.length :=
    hreplay.counters.1.trans (Nat.zero_add _)
  unfold openCommittedJournal journalFile
  refine .reading_ok (a := bytes ++ suffix) (by rw [hjournal]) ?_
  refine .ensure_true (by rw [hlength, length_append]; omega) ?_
  rw [hlength, take_left' rfl]
  refine .onlyIf (fun _ => ?_) (fun hwhole => ?_)
  · have htrimmed : (root.setJournal bytes).Trimmed codec maxBindings entries state := by
      refine ⟨⟨⟨h.commits.root, bytes, [], ?_, hreplay⟩, h.behind⟩, bytes, rfl, hreplay⟩
      rw [append_nil]
      rfl
    exact .write (.of_same hcodec h htrimmed.toHolds) htrimmed
  · -- Nothing follows the committed part.
    have hnil : suffix = [] := by
      rw [length_append] at hwhole
      exact length_eq_zero_iff.mp (by omega)
    rw [hnil, append_nil] at hjournal
    exact ⟨h, bytes, hjournal, hreplay⟩

/-- The loop reads exactly the entries the process has not read yet. -/
theorem finishes_readEntries {cached : State} {front rest : Bytes}
    {before after : List JournalEntry} (hentries : entries = before ++ after)
    (hbefore : Replays codec maxBindings .empty front before cached)
    (hafter : Replays codec maxBindings cached rest after state)
    (h : root.Trimmed codec maxBindings entries state) (hheld : root.state = cached) {fuel : Nat}
    (hfuel : rest.length ≤ fuel) :
    Finishes (Root.Step allowed codec maxBindings)
      (readEntries codec maxBindings state.journalBytes fuel rest) root
      (fun _ next => next.Current codec maxBindings entries state) := by
  -- The induction is on the entries still to be read; the ones already read grow.
  induction hafter generalizing root before front fuel with
  | nil cached =>
    have hdone : root.Current codec maxBindings entries cached := ⟨h, hheld⟩
    cases fuel with
    | zero => exact .pure hdone
    | succ fuel =>
      unfold readEntries Relations.held
      refine .reading_ok rfl ?_
      rw [hheld, if_neg (lt_irrefl _)]
      exact .pure hdone
  | @cons cached next state entry chunk rest after hchunk hnext hafter ih =>
    have hpos := chunk_length_pos hchunk
    have hcount := (Replays.cons hchunk hnext hafter).counters.1
    rw [length_append] at hfuel hcount
    cases fuel with
    | zero => exact absurd hfuel (by omega)
    | succ fuel =>
      have hbefore' := hbefore.append (.single hchunk hnext)
      have hentries' : entries = (before ++ [entry]) ++ after := by
        rw [hentries, append_assoc, singleton_append]
      have htrimmed := h.setState ⟨_, _, _, _, hentries', hbefore', hafter⟩
      unfold readEntries Relations.held
      refine .reading_ok rfl ?_
      rw [hheld, if_pos (by omega)]
      refine .ofExcept_ok (readEntry_chunk hcodec hchunk (by omega) rest) ?_
      refine .ofExcept_ok hnext ?_
      refine .write_bind (.of_same hcodec h.toHolds htrimmed.toHolds) ?_
      exact ih hentries' hbefore' htrimmed rfl (by omega)

/-- Catching up from any state of some first entries reaches the state of all
    of them. -/
theorem finishes_synchronize (h : root.Trimmed codec maxBindings entries state) :
    Finishes (Root.Step allowed codec maxBindings)
      (synchronize codec maxBindings (state.metadata maxBindings)) root
      (fun _ next => next.Current codec maxBindings entries state) := by
  rcases h.behind with ⟨before, after, front, rest, hentries, hbefore, hafter⟩
  rcases h.exact with ⟨bytes, hjournal, hreplay⟩
  rcases hafter.counters with ⟨hbytes, hcount, hbindings⟩
  have hread : front.length = root.state.journalBytes :=
    (hbefore.counters.1.trans (Nat.zero_add _)).symm
  have hwhole : bytes = front ++ rest :=
    (hreplay.functional (hentries ▸ hbefore.append hafter)).1
  unfold synchronize Relations.held
  refine .reading_ok rfl ?_
  split
  next hmatches =>
    -- As many entries as are committed are all of them.
    have hsame := congrArg RootMetadata.entryCount (State.matchesRoot_iff.mp hmatches)
    simp only [State.metadata] at hsame
    have hnil : after = [] := length_eq_zero_iff.mp (by omega)
    subst hnil
    generalize hheld : root.state = cached at hafter
    cases hafter
    exact .pure ⟨h, hheld⟩
  next =>
    refine .bind (show Follows _ _ _ (fun _ next => next = root) _ from
      Follows.onlyIf (fun hahead => ?_) (fun _ => rfl)) ?_
    · simp only [State.metadata] at hahead
      omega
    rintro ⟨⟩ next rfl
    refine .reading_ok rfl ?_
    refine .reading_ok (a := bytes) (by rw [hjournal]) ?_
    rw [hwhole, drop_left' hread]
    have hfuel : rest.length ≤ state.journalBytes := by omega
    refine .bind (finishes_readEntries hcodec hentries hbefore hafter h rfl hfuel) ?_
    rintro ⟨⟩ last hlast
    refine .reading_ok rfl ?_
    refine .ensure ?_ (fun hn => absurd ?_ hn)
    · exact fun _ => hlast
    · rw [State.matchesRoot_iff, hlast.held]
      rfl

/-- What an operation does before its own work: it is handed a trimmed journal
    and a state that is up to date. -/
theorem Follows.session {α : Type} {body : RootMetadata → Store α} {post : α → Root → Prop}
    {err : StoreError → Root → Prop} (h : root.Holds codec maxBindings entries state)
    (hbody : ∀ next, next.Current codec maxBindings entries state →
      Follows (Root.Step allowed codec maxBindings) (body (state.metadata maxBindings)) next
        post err) :
    Follows (Root.Step allowed codec maxBindings) (Relations.session codec maxBindings body) root
      post err := by
  unfold Relations.session
  refine Follows.loadMetadata h.commits ?_
  refine Durable.Follows.bind (.of_finishes (finishes_openCommittedJournal hcodec h)) ?_
  rintro ⟨⟩ trimmed htrimmed
  refine .bind (.of_finishes (finishes_synchronize hcodec htrimmed)) ?_
  rintro ⟨⟩ current hcurrent
  exact hbody current hcurrent

end

/-! ### Writing -/

/-- The checks an append passes before it commits, and the head it commits. -/
def appendPlan (codec : JournalCodec) (maxBindings : Nat) (state : State)
    (action : JournalAction) : Except StoreError RootMetadata := do
  let chunk ← encodeEntry codec ⟨state.tailDigest, action⟩
  let next ← nextMetadata codec maxBindings (state.metadata maxBindings) action chunk
  validateAppend state ⟨state.tailDigest, action⟩ chunk.length maxBindings
  let _ ← encodeMetadata codec next
  .ok next

theorem filter_checkedU64 {n m : Nat} {p : Nat → Bool} (h : (checkedU64 n).filter p = some m) :
    m = n ∧ p n = true := by
  rw [Option.filter_eq_some_iff, checkedU64_eq_some] at h
  rcases h with ⟨⟨_, rfl⟩, hp⟩
  exact ⟨rfl, hp⟩

theorem orFull_eq_ok {x : Option Nat} {n : Nat} : orFull x = .ok n ↔ x = some n := by
  cases x with
  | none => simp [orFull]
  | some m => simp [orFull]

variable {action : JournalAction}

/-- The head after one more chunk moves each counter by what was added. -/
theorem nextMetadata_eq_ok {next : RootMetadata} {chunk : Bytes}
    (h : nextMetadata codec maxBindings metadata action chunk = .ok next) :
    next = ⟨maxBindings, metadata.bindingCount + bindingIncrement action,
      metadata.entryCount + 1, metadata.journalBytes + chunk.length,
      some (chainDigest codec chunk)⟩ := by
  unfold nextMetadata at h
  simp only [bind_eq_ok, orFull_eq_ok, Except.ok.injEq] at h
  rcases h with ⟨bytes, hbytes, count, hcount, _, _, total, htotal, rfl⟩
  rw [(filter_checkedU64 hbytes).1, (filter_checkedU64 hcount).1, (filter_checkedU64 htotal).1]

/-- The state after an entry is the one its head commits. -/
theorem metadata_of_applied {applied : State}
    {chunk : Bytes} (hnext : nextMetadata codec maxBindings (state.metadata maxBindings) action
      chunk = .ok metadata)
    (happlied : applyEntry state ⟨state.tailDigest, action⟩ (chainDigest codec chunk)
      chunk.length maxBindings = .ok applied) :
    metadata = applied.metadata maxBindings := by
  rcases applyEntry_eq_ok happlied with ⟨_, hbindings, hentries, hbytes, htail, _⟩
  rw [nextMetadata_eq_ok hnext]
  simp only [State.metadata, hbindings, hentries, hbytes, htail]

/-- Saving metadata is one write, once it has been encoded. -/
theorem follows_saveMetadata {R : Root → Root → Prop}
    (hstep : ∀ bytes, encodeMetadata codec metadata = .ok bytes → R root (root.setMetadata bytes)) :
    Follows R (saveMetadata codec metadata) root
      (fun _ next => ∃ bytes, encodeMetadata codec metadata = .ok bytes ∧
        next = root.setMetadata bytes)
      (fun error next => encodeMetadata codec metadata = .error error ∧ next = root) := by
  unfold saveMetadata
  exact .ofExcept_bind
    (fun bytes hbytes => Follows.write (hstep bytes hbytes) ⟨bytes, hbytes, rfl⟩)
    (fun error herror => ⟨herror, rfl⟩)

theorem Root.Step.of_fresh {next : Root} (h : root.disk.Fresh)
    (h' : (next.disk.Fresh ∧ next.state = .empty) ∨ next.Holds codec maxBindings [] .empty) :
    root.Step allowed codec maxBindings next where
  fresh := fun _ _ => h'
  grows := fun _ _ hholds => absurd h hholds.commits.not_fresh

section

variable (hcodec : codec.Lawful)

include hcodec

/-- Metadata that was written loads as it was. -/
theorem encodeMetadata_commits (hbytes : encodeMetadata codec metadata = .ok bytes)
    (hstate : metadata = state.metadata maxBindings) :
    ∃ stored, (root.setMetadata bytes).disk.metadata = some stored ∧ stored.length ≤ maxRootBytes ∧
      decodeMetadata codec stored maxBindings = .ok (state.metadata maxBindings) := by
  rcases Frame.encode_eq_ok hbytes with ⟨_, _, _, _, _, hfits⟩
  refine ⟨bytes, rfl, hfits, ?_⟩
  subst hstate
  exact decodeMetadata_eq_ok.mpr ⟨Frame.decode_encode hcodec.root hbytes, rfl⟩

/-- Writing a chunk byte by byte: what stands there so far is a torn end. -/
theorem follows_writeAll {err : StoreError → Root → Prop}
    (hreplay : Replays codec maxBindings .empty bytes entries state)
    (h : root.Holds codec maxBindings entries state) (hjournal : root.disk.journal = some bytes)
    (chunk : Bytes) :
    Follows (Root.Step allowed codec maxBindings) (writeAll chunk) root
      (fun _ next => next = root.setJournal (bytes ++ chunk)) err := by
  have hholds : ∀ written, (root.setJournal (bytes ++ written)).Holds codec maxBindings entries
      state := fun written => ⟨⟨h.commits.root, bytes, written, rfl, hreplay⟩, h.behind⟩
  unfold writeAll
  refine (Follows.foldlM (fun left _ next => ∃ written, written ++ left = chunk ∧
    next = root.setJournal (bytes ++ written)) ?_ chunk ⟨[], rfl, ?_⟩).mono ?_ (fun _ _ h => h)
  · rintro byte left _ next ⟨written, hwritten, rfl⟩
    have hpush : Root.push byte (root.setJournal (bytes ++ written)) =
        root.setJournal (bytes ++ (written ++ [byte])) := by
      rw [← append_assoc]
      rfl
    refine .write ?_ ⟨written ++ [byte], ?_, hpush⟩
    · rw [hpush]
      exact .of_same hcodec (hholds _) (hholds _)
    · rw [append_assoc, singleton_append]
      exact hwritten
  · rcases root with ⟨⟨metadata, journal⟩, held⟩
    rw [append_nil, Root.setJournal]
    dsimp only at hjournal ⊢
    rw [hjournal]
  · rintro _ next ⟨written, hwritten, rfl⟩
    rw [append_nil] at hwritten
    rw [hwritten]

/-- An append that passes its checks commits its entry; one that does not
    answers as the checks do and commits nothing. -/
theorem follows_append (hallowed : allowed action)
    (h : root.Current codec maxBindings entries state) :
    Follows (Root.Step allowed codec maxBindings)
      (append codec maxBindings (state.metadata maxBindings) action) root
      (fun metadata next => ∃ applied bytes,
        appendPlan codec maxBindings state action = .ok metadata ∧
        metadata = applied.metadata maxBindings ∧
        Replays codec maxBindings state bytes [⟨state.tailDigest, action⟩] applied ∧
        next.Current codec maxBindings (entries ++ [⟨state.tailDigest, action⟩]) applied)
      (fun error next => appendPlan codec maxBindings state action = .error error ∧
        next.Holds codec maxBindings entries state) := by
  rcases h.exact with ⟨bytes, hjournal, hreplay⟩
  have hlength : bytes.length = (state.metadata maxBindings).journalBytes :=
    (hreplay.counters.1.trans (Nat.zero_add _)).symm
  have hcount : state.bindingCount ≤ maxBindings := hreplay.bindingCount_le (Nat.zero_le _)
  unfold append Relations.held
  refine .reading_ok rfl ?_
  rw [h.held]
  refine .ofExcept_bind (fun chunk hchunk => ?_) (fun error herror => ?_)
  swap
  · refine ⟨?_, h.toHolds⟩
    rw [appendPlan, herror]
    rfl
  refine .ofExcept_bind (fun metadata hnext => ?_) (fun error herror => ?_)
  swap
  · refine ⟨?_, h.toHolds⟩
    rw [appendPlan, hchunk, ok_bind, herror]
    rfl
  refine .ofExcept_bind (fun _ hvalid => ?_) (fun error herror => ?_)
  swap
  · refine ⟨?_, h.toHolds⟩
    rw [appendPlan, hchunk, ok_bind, hnext, ok_bind, herror]
    rfl
  refine .reading_ok (a := bytes) (by rw [hjournal]) ?_
  refine .ensure_true hlength ?_
  refine .bind (follows_writeAll hcodec hreplay h.toHolds hjournal chunk) ?_
  rintro ⟨⟩ written rfl
  -- The chunk is there, and it is not committed yet.
  have hwritten : (root.setJournal (bytes ++ chunk)).Holds codec maxBindings entries state :=
    ⟨⟨h.commits.root, bytes, chunk, rfl, hreplay⟩, h.behind⟩
  have happlies : ∃ applied, applyEntry state ⟨state.tailDigest, action⟩
      (chainDigest codec chunk) chunk.length maxBindings = .ok applied :=
    applyEntry_of_valid hvalid hcount
  rcases happlies with ⟨applied, happlied⟩
  have hhead := metadata_of_applied hnext happlied
  have hstep : Replays codec maxBindings state chunk [⟨state.tailDigest, action⟩] applied :=
    .single hchunk happlied
  have hcommitted : ∀ root', encodeMetadata codec metadata = .ok root' →
      ((root.setJournal (bytes ++ chunk)).setMetadata root').Trimmed codec maxBindings
        (entries ++ [⟨state.tailDigest, action⟩]) applied := by
    intro root' hroot
    have hwhole := hreplay.append hstep
    have hbehind : Behind codec maxBindings root.state
        (entries ++ [⟨state.tailDigest, action⟩]) applied := by
      rw [h.held]
      exact (Behind.refl hreplay).grow hstep
    refine ⟨⟨⟨encodeMetadata_commits hcodec hroot hhead, bytes ++ chunk, [], ?_, hwhole⟩,
      hbehind⟩, bytes ++ chunk, rfl, hwhole⟩
    rw [append_nil]
    rfl
  refine .bind ((follows_saveMetadata (fun root' hroot =>
    .of_holds hcodec hwritten (hcommitted root' hroot).toHolds hstep
      (forall_mem_singleton.mpr hallowed))).mono (fun _ _ h => h) ?_) ?_
  · rintro error _ ⟨herror, rfl⟩
    refine ⟨?_, hwritten⟩
    rw [appendPlan, hchunk, ok_bind, hnext, ok_bind, hvalid, ok_bind, herror]
    rfl
  rintro ⟨⟩ committed ⟨root', hroot, rfl⟩
  have hplan : appendPlan codec maxBindings state action = .ok metadata := by
    rw [appendPlan, hchunk, ok_bind, hnext, ok_bind, hvalid, ok_bind, hroot]
    rfl
  refine .ofExcept_ok happlied ?_
  have hlast := (hcommitted root' hroot).setState (.refl (hreplay.append hstep))
  refine .write_bind
    (.of_same hcodec (hcommitted root' hroot).toHolds hlast.toHolds) ?_
  refine .ensure_true ?_ ?_
  · rw [State.matchesRoot_iff, hhead]
    rfl
  · exact .pure ⟨applied, chunk, hplan, hhead, hstep, hlast, rfl⟩

/-- What the root is after an operation that appended the action, if any. -/
def Root.Took (codec : JournalCodec) (maxBindings : Nat) (root : Root)
    (entries : List JournalEntry) (state : State) : Option JournalAction → Prop
  | none => root.Current codec maxBindings entries state
  | some action => ∃ applied bytes,
    Replays codec maxBindings state bytes [⟨state.tailDigest, action⟩] applied ∧
      root.Current codec maxBindings (entries ++ [⟨state.tailDigest, action⟩]) applied

theorem follows_enact {α : Type} {decision : State → Except StoreError (α × Option JournalAction)}
    (hallowed : ∀ answer action, decision state = .ok (answer, some action) → allowed action)
    (h : root.Current codec maxBindings entries state) :
    Follows (Root.Step allowed codec maxBindings)
      (enact codec maxBindings (state.metadata maxBindings) decision) root
      (fun answer next => ∃ action, decision state = .ok (answer, action) ∧
        next.Took codec maxBindings entries state action)
      (fun error next => (decision state = .error error ∨ ∃ answer action,
        decision state = .ok (answer, some action) ∧
        appendPlan codec maxBindings state action = .error error) ∧
        next.Holds codec maxBindings entries state) := by
  unfold enact Relations.held
  refine .reading_ok rfl ?_
  rw [h.held]
  refine .ofExcept_bind ?_ (fun error herror => ⟨Or.inl herror, h.toHolds⟩)
  rintro ⟨answer, action⟩ hdecision
  cases action with
  | none => exact .pure ⟨none, hdecision, h⟩
  | some action =>
    refine .bind ((follows_append hcodec (hallowed answer action hdecision) h).mono
      (fun _ _ h => h)
      (fun error _ herror => ⟨Or.inr ⟨answer, action, hdecision, herror.1⟩, herror.2⟩)) ?_
    rintro metadata next ⟨applied, bytes, _, _, hreplay, hcurrent⟩
    exact .pure ⟨some action, hdecision, applied, bytes, hreplay, hcurrent⟩

/-! ### Opening -/

/-- The first metadata commits to an empty journal. -/
theorem follows_saveEmpty (hfresh : root.disk.Fresh)
    (hempty : root.state = .empty) (hjournal : root.disk.journal = some []) :
    Follows (Root.Step allowed codec maxBindings)
      (saveMetadata codec (emptyMetadata maxBindings)) root
      (fun _ next => next.Holds codec maxBindings [] .empty) (fun _ _ => True) := by
  have hholds : ∀ bytes, encodeMetadata codec (emptyMetadata maxBindings) = .ok bytes →
      (root.setMetadata bytes).Holds codec maxBindings [] .empty := by
    intro bytes hbytes
    refine ⟨⟨encodeMetadata_commits hcodec hbytes rfl, [], [], ?_, .nil _⟩, ?_⟩
    · exact hjournal
    · show Behind codec maxBindings root.state [] .empty
      rw [hempty]
      exact .refl (.nil _)
  refine (follows_saveMetadata (fun bytes hbytes =>
    .of_fresh hfresh (Or.inr (hholds bytes hbytes)))).mono ?_ (by simp)
  rintro _ next ⟨bytes, hbytes, rfl⟩
  exact hholds bytes hbytes

/-- A root that is fresh or prepared loads its metadata. -/
theorem follows_loadOrInitialize
    (h : (root.disk.Fresh ∧ root.state = .empty) ∨
      ∃ entries state, root.Holds codec maxBindings entries state) :
    Follows (Root.Step allowed codec maxBindings) (loadOrInitialize codec maxBindings) root
      (fun metadata next => ∃ entries state, metadata = state.metadata maxBindings ∧
        next.Holds codec maxBindings entries state) (fun _ _ => True) := by
  unfold loadOrInitialize
  refine .reading_ok rfl ?_
  rcases h with ⟨⟨hnone, hjournal⟩, hempty⟩ | ⟨entries, state, hholds⟩
  · rcases hjournal with hjournal | hjournal
    · simp only [hnone, hjournal]
      have hprepared : (root.setJournal []).disk.Fresh := ⟨hnone, Or.inr rfl⟩
      refine .write_bind (.of_fresh ⟨hnone, Or.inl hjournal⟩
        (Or.inl ⟨hprepared, hempty⟩)) ?_
      refine .bind (follows_saveEmpty hcodec hprepared hempty rfl) ?_
      rintro ⟨⟩ next hnext
      exact .pure ⟨[], .empty, rfl, hnext⟩
    · simp only [hnone, hjournal]
      refine .ensure_true rfl ?_
      refine .bind (follows_saveEmpty hcodec ⟨hnone, Or.inr hjournal⟩ hempty hjournal) ?_
      rintro ⟨⟩ next hnext
      exact .pure ⟨[], .empty, rfl, hnext⟩
  · rcases hholds.commits with ⟨⟨bytes, hroot, hshort, hdecode⟩, front, suffix, hjournal, _⟩
    simp only [hroot, hjournal]
    unfold Relations.loadMetadata
    refine .reading (fun metadata hload => ?_) (by simp)
    rw [hroot, hjournal] at hload
    dsimp only at hload
    rw [if_neg (Nat.not_lt_of_le hshort), hdecode, Except.ok.injEq] at hload
    exact ⟨entries, state, hload.symm, hholds⟩

/-- A store that opens has read the whole committed journal. -/
theorem follows_openStore
    (h : (root.disk.Fresh ∧ root.state = .empty) ∨
      ∃ entries state, root.Holds codec maxBindings entries state) :
    Follows (Root.Step allowed codec maxBindings) (openStore codec maxBindings) root
      (fun _ next => ∃ entries state, next.Current codec maxBindings entries state)
      (fun _ _ => True) := by
  unfold openStore
  refine .ensure_bind (fun _ => ?_) (by simp)
  refine .bind (follows_loadOrInitialize hcodec h) ?_
  rintro _ loaded ⟨entries, state, rfl, hloaded⟩
  refine .bind (.of_finishes (finishes_openCommittedJournal hcodec hloaded)) ?_
  rintro ⟨⟩ trimmed htrimmed
  exact (finishes_synchronize hcodec htrimmed).mono (fun _ _ h => ⟨entries, state, h⟩)
    (fun _ _ h => h.elim)

end

/-- A root that was prepared for another capacity is refused and left alone. -/
theorem follows_openStore_other {other : Nat}
    (h : root.disk.Commits codec maxBindings entries state)
    (hother : other ≠ maxBindings) :
    Follows (fun _ _ => False) (openStore codec other) root (fun _ _ => False)
      (fun _ _ => True) := by
  rcases h with ⟨⟨bytes, hroot, hshort, hdecode⟩, front, suffix, hjournal, _⟩
  have hrefused : decodeMetadata codec bytes other = .error .configuration := by
    rcases decodeMetadata_eq_ok.mp hdecode with ⟨hframe, hmax⟩
    unfold decodeMetadata
    rw [hframe, ok_bind]
    exact if_pos (hmax ▸ hother.symm)
  unfold openStore loadOrInitialize
  refine .ensure_bind (fun _ => ?_) (by simp)
  refine .bind (show Follows _ _ _ (fun _ _ => False) _ from Follows.reading_ok rfl ?_)
    (fun _ _ h => h.elim)
  simp only [hroot, hjournal]
  unfold Relations.loadMetadata
  refine .reading (fun metadata hload => ?_) (by simp)
  rw [hroot, hjournal] at hload
  dsimp only at hload
  rw [if_neg (Nat.not_lt_of_le hshort), hrefused] at hload
  cases hload

end Programs

end Relations

end Amiss
