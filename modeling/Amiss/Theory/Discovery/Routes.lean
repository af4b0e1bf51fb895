import Amiss.Core.Discovery

/-!
# Route Tables after Discovery

A snapshot keeps two tables of routes that are read from its documents and its
configurations. Discovery reads them before the roles are settled, and a base
that is read again under a candidate's declarations reads them only where the
size of a table says that something changed. Neither leaves a table behind that
a fresh reading would not give: the roles settle nothing a route is read from,
and a table that grows by what the candidate configures is unchanged when its
size is.

## Main definitions

* `RoutesFresh`: The tables are what a fresh reading gives.
* `claimants`: The documents that may claim a route.
* `readAsDeclaredAll`: Reading under one candidate after another.
* `ClaimsKept`: What the two tables hold.

## Theorems

* `RoutesFresh.readAsDeclared`: Reading under a candidate keeps tables fresh.
* `settleRoles_fresh`: So does settling the roles.
* `route_claims_are_sole`: Which claims a table keeps.
* `readAsDeclared_routes_fresh`: Every discovered snapshot, under every sequence
  of candidates.
-/

namespace Amiss

/-- The route tables are what the snapshot's documents and configurations give. -/
def RoutesFresh (lowercase : String → String) (snapshot : SnapshotDiscovery) : Prop :=
  (snapshot.publishedRoutes, snapshot.redirectRoutes) = publishedRoutes lowercase snapshot

section fresh

variable {lowercase : String → String} {snapshot : SnapshotDiscovery}

theorem withRoutes_fresh (snapshot : SnapshotDiscovery) :
    RoutesFresh lowercase (withRoutes lowercase snapshot) := rfl

/-- A snapshot whose declarations and sizes stay is the snapshot it was. -/
theorem configuredAs_eq_of_size {candidate : SnapshotDiscovery}
    (hrouters : snapshot.declaredRouters = candidate.declaredRouters)
    (hbound : snapshot.boundConfigs.size = (configuredAs snapshot candidate).boundConfigs.size)
    (hroots : snapshot.publishedRoots.size = (configuredAs snapshot candidate).publishedRoots.size)
    (hfolded : snapshot.foldedRoots.size = (configuredAs snapshot candidate).foldedRoots.size) :
    configuredAs snapshot candidate = snapshot := by
  unfold configuredAs at *
  rw [orInsertAll_eq_of_size hbound, orInsertAll_eq_of_size hroots, insertAll_eq_of_size hfolded,
    ← hrouters]

/-- Fresh tables stay fresh under any candidate's declarations. -/
theorem RoutesFresh.readAsDeclared (h : RoutesFresh lowercase snapshot)
    (candidate : SnapshotDiscovery) :
    RoutesFresh lowercase (readAsDeclared lowercase snapshot candidate).1 := by
  unfold Amiss.readAsDeclared
  dsimp only
  split
  · exact withRoutes_fresh _
  next hsame =>
  simp only [not_or, not_not, Prod.mk.injEq] at hsame
  rcases hsame with ⟨hrouters, hbound, hroots, hfolded⟩
  have hkept : configuredAs snapshot candidate = snapshot :=
    configuredAs_eq_of_size (Std.ExtTreeMap.toList_inj.mp hrouters) hbound hroots hfolded
  rw [hkept]
  exact h

/-- Reading under one candidate after another. -/
def readAsDeclaredAll (lowercase : String → String) (snapshot : SnapshotDiscovery)
    (candidates : List SnapshotDiscovery) : SnapshotDiscovery :=
  candidates.foldl (fun held candidate => (readAsDeclared lowercase held candidate).1) snapshot

theorem RoutesFresh.readAsDeclaredAll (h : RoutesFresh lowercase snapshot)
    (candidates : List SnapshotDiscovery) :
    RoutesFresh lowercase (readAsDeclaredAll lowercase snapshot candidates) := by
  induction candidates generalizing snapshot with
  | nil => exact h
  | cons candidate candidates ih => exact ih (h.readAsDeclared candidate)

end fresh

/-- The documents that may claim a route, with their publications. -/
def claimants (documents : List DocumentRecord) : List (RepoPath × PagePublication) :=
  documents.filterMap (fun record =>
    record.published.map (fun publication => (record.path, publication)))

/-- The routes read nothing of the documents but their claimants, and none of
    what the roles settle. -/
theorem publishedRoutes_claimants (lowercase : String → String) (snapshot : SnapshotDiscovery)
    {documents : List DocumentRecord} {labels : BTreeMap String LabelState}
    {sphinxIncluded asciidocIncluded : BTreeSet RepoPath}
    {fragmentPages : BTreeMap RepoPath (BTreeSet RepoPath)}
    (h : claimants documents = claimants snapshot.documents) :
    publishedRoutes lowercase { snapshot with
      documents, labels, sphinxIncluded, asciidocIncluded, fragmentPages } =
      publishedRoutes lowercase snapshot := by
  unfold claimants at h
  unfold publishedRoutes
  dsimp only
  rw [h]
  rfl

section settling

variable (readers : Readers)

/-- Settling a document keeps its claim to a route. -/
theorem settleDocument_claimants (discovery : SnapshotDiscovery)
    (settled : List DocumentRecord × BTreeMap String LabelState) (record : DocumentRecord) :
    Metered.Ensures (settleDocument readers discovery settled record)
      (fun result => claimants result.1 = claimants settled.1 ++ claimants [record]) := by
  have hkept : ∀ kept : DocumentRecord, kept.path = record.path →
      kept.published = record.published →
      claimants (settled.1 ++ [kept]) = claimants settled.1 ++ claimants [record] := by
    intro kept hpath hpublished
    simp [claimants, List.filterMap_cons, hpath, hpublished]
  unfold settleDocument
  cases hstatus : record.status with
  | excludedBuiltIn | unsupported | failed => exact .pure (hkept _ rfl rfl)
  | scanned scanned =>
    have hscan : claimants (settled.1 ++
        [{ record with status := .scanned (settledScan discovery record scanned) }]) =
          claimants settled.1 ++ claimants [record] := by
      refine hkept _ rfl ?_
      unfold DocumentRecord.published
      rw [hstatus]
      rfl
    dsimp only
    split
    · exact .after (fun labels => .pure hscan)
    · exact .pure hscan

theorem settleDocuments_claimants (discovery : SnapshotDiscovery) (records : List DocumentRecord)
    (settled : List DocumentRecord × BTreeMap String LabelState) :
    Metered.Ensures (records.foldlM (settleDocument readers discovery) settled)
      (fun result => claimants result.1 = claimants settled.1 ++ claimants records) := by
  induction records generalizing settled with
  | nil => exact .pure (List.append_nil _).symm
  | cons record records ih =>
    rw [List.foldlM_cons]
    refine .bind (settleDocument_claimants readers discovery settled record) (fun next hnext => ?_)
    refine (ih next).mono (fun result hresult => ?_)
    rw [hresult, hnext, List.append_assoc]
    congr 1
    exact List.filterMap_append.symm

/-- The roles settle nothing the routes are read from. -/
theorem settleRoles_fresh {lowercase : String → String} {discovery : SnapshotDiscovery}
    (h : RoutesFresh lowercase discovery) :
    Metered.Ensures (settleRoles readers discovery) (RoutesFresh lowercase) := by
  unfold settleRoles
  refine .bind (settleDocuments_claimants readers _ _ _) (fun settled hsettled => ?_)
  refine .pure ?_
  unfold RoutesFresh
  rw [publishedRoutes_claimants lowercase discovery hsettled]
  exact h

end settling

/-! ### Sole claims -/

section claims

open List

variable (tables : BTreeMap RepoPath RepoPath × BTreeSet RepoPath)
  (claims : List (RepoPath × RepoPath))

/-- The tables of `soleClaims` after one more claim. -/
def addClaim (claim : RepoPath × RepoPath) : BTreeMap RepoPath RepoPath × BTreeSet RepoPath :=
  (tables.1.insert claim.1 claim.2,
    if tables.1[claim.1]?.any (· ≠ claim.2) then tables.2.insert claim.1 else tables.2)

/-- What the tables hold of the claims they were filled with. -/
structure ClaimsKept : Prop where
  held : ∀ {route document : RepoPath}, tables.1[route]? = some document →
    (route, document) ∈ claims
  kept : ∀ {route document}, (route, document) ∈ claims → tables.1[route]? ≠ none
  twice : ∀ {route : RepoPath}, route ∈ tables.2 ↔
    ∃ document other, (route, document) ∈ claims ∧ (route, other) ∈ claims ∧ document ≠ other

variable {tables claims} {route document : RepoPath}

/-- A claim is compared with the last one of its route only, which is enough:
    where the two agree, an earlier claim that differs was seen before. -/
theorem ClaimsKept.add (h : ClaimsKept tables claims) (claim : RepoPath × RepoPath) :
    ClaimsKept (addClaim tables claim) (claims ++ [claim]) := by
  rcases claim with ⟨route, document⟩
  have hmem : ∀ key, key ∈ (addClaim tables (route, document)).2 ↔
      (route = key ∧ ∃ held, tables.1[route]? = some held ∧ held ≠ document) ∨ key ∈ tables.2 := by
    intro key
    simp only [addClaim, Option.any_eq_true, decide_eq_true_eq]
    split
    next hany => rw [mem_inserted, and_iff_left hany]
    next hany => simp [hany]
  have hget : ∀ key, (addClaim tables (route, document)).1[key]? =
      if route = key then some document else tables.1[key]? := fun _ => getElem?_inserted _ _ _ _
  rcases h with ⟨hheld, hkept, htwice⟩
  constructor <;> grind

theorem claimsKept_foldl : ClaimsKept (claims.foldl addClaim (∅, ∅)) claims := by
  induction claims using reverseRecOn with
  | nil => exact ⟨fun h => by simp at h, fun h => absurd h not_mem_nil, by simp⟩
  | append_singleton claims claim ih =>
    rw [foldl_append]
    exact ih.add claim

theorem getElem?_soleClaims : (soleClaims claims)[route]? = some document ↔
    (route, document) ∈ claims ∧ ∀ other, (route, other) ∈ claims → other = document := by
  rcases @claimsKept_foldl claims with ⟨hheld, hkept, htwice⟩
  have hlisted := Std.ExtTreeSet.mem_toList.trans (@htwice route)
  have htable : (soleClaims claims)[route]? =
      if route ∈ (claims.foldl addClaim (∅, ∅)).2.toList then none
      else (claims.foldl addClaim (∅, ∅)).1[route]? := getElem?_foldl_erase _ _ _
  rw [htable]
  grind

theorem soleClaims_perm {claims' : List (RepoPath × RepoPath)} (h : claims.Perm claims') :
    soleClaims claims = soleClaims claims' := by
  refine ext_entries fun route => Option.ext fun document => ?_
  simp only [getElem?_soleClaims, h.mem_iff]

/-- A table keeps a route exactly for the one document that all its claims name,
    and so the routes are the same in whatever order the documents are read. -/
theorem route_claims_are_sole (lowercase : String → String) (snapshot : SnapshotDiscovery) :
    (∀ claims (route document : RepoPath), (soleClaims claims)[route]? = some document ↔
      (route, document) ∈ claims ∧ ∀ other, (route, other) ∈ claims → other = document) ∧
    ∀ documents, documents.Perm snapshot.documents →
      publishedRoutes lowercase { snapshot with documents } =
        publishedRoutes lowercase snapshot := by
  refine ⟨fun _ _ _ => getElem?_soleClaims, fun documents hperm => ?_⟩
  have hclaiming : (claimants documents).Perm (claimants snapshot.documents) := hperm.filterMap _
  refine ite_congr rfl (fun _ => rfl) fun _ =>
    Prod.ext (soleClaims_perm (hclaiming.filterMap _)) (soleClaims_perm ?_)
  by_cases hmoved : publishedBy snapshot .directoryPages = true
  · refine (Perm.of_eq (if_pos hmoved)).trans (.trans ?_ (.of_eq (if_pos hmoved).symm))
    exact hclaiming.flatMap_right _
  · exact .of_eq ((if_neg hmoved).trans (if_neg hmoved).symm)

end claims

/-! ### Discovered snapshots -/

section discovered

variable {γ : Type} (scanner : Scanner γ)

theorem settleDeclarations_fresh (context : DocumentContext) (discovery : SnapshotDiscovery) :
    Metered.Ensures (settleDeclarations scanner context discovery)
      (RoutesFresh scanner.readers.lowercase) := by
  unfold settleDeclarations
  refine .after (fun declared => .after (fun documented => ?_))
  exact .inside (settleRoles_fresh scanner.readers (withRoutes_fresh _))

theorem discoverWalk_fresh (mode : WalkMode) (rootTree : Oid) :
    Metered.Ensures (discoverWalk scanner mode rootTree)
      (fun walk => RoutesFresh scanner.readers.lowercase walk.discovery) := by
  unfold discoverWalk
  refine .after (fun body => .after (fun entries => .after (fun found => ?_)))
  cases mode with
  | entries selection => exact .pure (withRoutes_fresh _)
  | documents context =>
    exact .bind (settleDeclarations_fresh scanner context _) (fun settled h => .pure h)

theorem discoverIndex_fresh (includes : Includes) (index : LogicalIndex) :
    Metered.Ensures (discoverIndex scanner includes index)
      (RoutesFresh scanner.readers.lowercase) := by
  unfold discoverIndex
  exact .after (fun found => settleDeclarations_fresh scanner _ _)

/-- Every snapshot that is discovered from a tree or an index has, under any
    sequence of candidates it is read again under, the tables that a fresh
    reading of its documents and configurations gives. -/
theorem readAsDeclared_routes_fresh (candidates : List SnapshotDiscovery) :
    (∀ mode rootTree, Metered.Ensures (discoverWalk scanner mode rootTree) (fun walk =>
      RoutesFresh scanner.readers.lowercase
        (readAsDeclaredAll scanner.readers.lowercase walk.discovery candidates))) ∧
    ∀ includes index, Metered.Ensures (discoverIndex scanner includes index) (fun discovery =>
      RoutesFresh scanner.readers.lowercase
        (readAsDeclaredAll scanner.readers.lowercase discovery candidates)) :=
  ⟨fun mode rootTree => (discoverWalk_fresh scanner mode rootTree).mono
      (fun _ h => h.readAsDeclaredAll candidates),
    fun includes index => (discoverIndex_fresh scanner includes index).mono
      (fun _ h => h.readAsDeclaredAll candidates)⟩

end discovered

end Amiss
