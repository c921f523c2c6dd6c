import ClusterMetadata.Proofs.Schema.Coherence
import ClusterMetadata.Proofs.Schema.Replay

/-!
Merges that fail. What is written stays written, also when a keyspace cannot be read afterwards:
the keyspaces read until then have changed without an event, and those after it are not read.
-/

namespace ClusterMetadata

theorem Schema.nodup_touchedKeyspaces (batch : List Mutation) : (touchedKeyspaces batch).Nodup :=
  nodup_distinct _

namespace Replica

variable {r r' : Replica} {batch : List Mutation} {result : Except StorageError MergeReport}
  {names : List String} {name : String}

-- The store after the merge, whatever comes of it, and what comes of it.
def attempt (r : Replica) (batch : List Mutation) : Replica × Except StorageError MergeReport :=
  let (storage, schema, result) := r.schema.merge r.storage batch
  (⟨storage, schema⟩, result)

-- The keyspace is shown as it is read.
def Shows (r : Replica) (name : String) : Prop :=
  ∃ fresh, Stored.keyspace r.storage name fresh = .ok r.schema.keyspaces[name]?

theorem Shows.loads (h : r.Shows name) : Stored.Loads r.storage name :=
  have ⟨_, hk⟩ := h
  (Stored.keyspace_eq_ok_iff.mp hk).left

-- The batch has been written and the keyspaces of the list have been read.
structure Took (r : Replica) (batch : List Mutation) (names : List String) (r' : Replica) :
    Prop where
  writes : r.storage.Writes (batchOn batch) r'.storage
  shows  : ∀ name ∈ names, r'.Shows name
  kept   : ∀ name ∉ names, r'.schema.keyspaces[name]? = r.schema.keyspaces[name]?

-- What comes of a merge: it cannot write, it reads all keyspaces that it touches, or it stops at
-- one that cannot be read.
inductive Outcome (r : Replica) (batch : List Mutation) :
    Replica → Except StorageError MergeReport → Prop
  | refused : Outcome r batch r (.error .writeFailure)
  | accepted {r' : Replica} {report : MergeReport}
      (took : r.Took batch (Schema.touchedKeyspaces batch) r')
      (events : report.events = r.schema.changes r'.schema (Schema.touchedKeyspaces batch)) :
      Outcome r batch r' (.ok report)
  | rejected {r' : Replica} {family : String} {value : Malformed} {names rest : List String}
      (took : r.Took batch names r')
      (stops : Schema.touchedKeyspaces batch = names ++ value.keyspace :: rest)
      (not_loads : ¬Stored.Loads r'.storage value.keyspace) :
      Outcome r batch r' (.error (.malformed family value))

theorem outcome_attempt (h : r.attempt batch = (r', result)) : Outcome r batch r' result := by
  simp only [attempt, Schema.merge] at h
  cases ha : r.storage.applyAll batch
  case error e =>
    cases Storage.applyAll_eq_error ha
    simp only [ha] at h
    cases h
    exact .refused
  case ok storage =>
    have hw := Storage.writes_applyAll ha
    simp only [ha, Schema.refreshTouched] at h
    cases hs : r.schema.refreshAll storage (Schema.touchedKeyspaces batch)
    case mk s events =>
      obtain ⟨reached, hr, he⟩ := Schema.exists_reached hs
      simp only [hs] at h
      cases events
      case error e =>
        cases h
        obtain ⟨_, _, _, rfl, ht, hl⟩ := he
        exact .rejected ⟨hw, hr.read, hr.kept⟩ ht hl
      case ok events =>
        obtain ⟨rfl, he⟩ := he
        simp only [Except.map, Prod.mk.injEq] at h
        obtain ⟨hr', rfl⟩ := h
        have hst : r'.storage = storage := hr' ▸ rfl
        have hk : r'.schema.keyspaces = s.keyspaces := by
          rw [← hr']
          dsimp only
          split <;> rfl
        refine .accepted ⟨hst ▸ hw, fun name hm => ?_, fun name hn => ?_⟩ ?_
        · rw [Shows, hst, hk]
          exact hr.read name hm
        · rw [hk]
          exact hr.kept name hn
        · simpa only [Schema.changes, hk] using he (Schema.nodup_touchedKeyspaces batch)

-- The version is computed when all keyspaces have been read, and not before.
theorem version_of_attempt_error {e : StorageError} (h : r.attempt batch = (r', .error e)) :
    r'.schema.version = r.schema.version := by
  simp only [attempt, Schema.merge] at h
  cases ha : r.storage.applyAll batch
  case error e => rw [ha] at h; cases h; rfl
  case ok storage =>
    simp only [ha, Schema.refreshTouched] at h
    cases hs : r.schema.refreshAll storage (Schema.touchedKeyspaces batch)
    case mk s events =>
      obtain ⟨reached, hr, -⟩ := Schema.exists_reached hs
      rw [hs] at h
      cases events
      case error e => cases h; exact hr.version
      case ok _    => cases h

theorem version_of_attempt_ok {report : MergeReport} (h : r.attempt batch = (r', .ok report)) :
    report.version = r'.schema.version := by
  simp only [attempt, Schema.merge] at h
  cases ha : r.storage.applyAll batch
  case error e => rw [ha] at h; cases h
  case ok storage =>
    rw [ha] at h
    dsimp only at h
    cases hs : r.schema.refreshTouched storage (Schema.touchedKeyspaces batch)
    case mk s events =>
      rw [hs] at h
      cases events
      case error e => cases h
      case ok _    => cases h; rfl

-- The batch is written as a whole or not at all.
theorem storage_attempt (r : Replica) (batch : List Mutation) :
    (r.attempt batch).1.storage = r.storage ∨
      r.storage.Writes (batchOn batch) (r.attempt batch).1.storage := by
  cases h : r.attempt batch
  case mk r' result =>
    cases outcome_attempt h
    case refused           => exact .inl rfl
    case accepted took _   => exact .inr took.writes
    case rejected _ took _ => exact .inr took.writes

-- Keyspaces that the batch does not touch are read as before, and shown as before.
theorem Took.loads_iff (ht : r.Took batch names r') (hn : name ∉ Schema.touchedKeyspaces batch) :
    Stored.Loads r'.storage name ↔ Stored.Loads r.storage name := by
  rw [Stored.loads_iff (fun _ => SchemaVersion.empty), Stored.loads_iff fun _ => SchemaVersion.empty,
    Schema.keyspace_eq_of_not_mem_touched ht.writes hn]

theorem Took.shows_iff (ht : r.Took batch names r') (hn : name ∉ Schema.touchedKeyspaces batch)
    (hn' : name ∉ names) : r'.Shows name ↔ r.Shows name := by
  simp only [Shows, ht.kept name hn', Schema.keyspace_eq_of_not_mem_touched ht.writes hn]

-- Where all keyspaces load, a merge keeps it so unless it stops at one.
theorem loads_attempt_iff (h : r.attempt batch = (r', result))
    (hl : ∀ name, Stored.Loads r.storage name) : (∀ name, Stored.Loads r'.storage name) ↔
      ∀ family value, result ≠ .error (.malformed family value) := by
  cases outcome_attempt h
  case refused => exact iff_of_true hl (by simp)
  case accepted report ht _ =>
    refine iff_of_true (fun name => ?_) (by simp)
    by_cases hm : name ∈ Schema.touchedKeyspaces batch
    case pos => exact (ht.shows name hm).loads
    case neg => exact (ht.loads_iff hm).mpr (hl name)
  case rejected family value _ _ _ _ hv =>
    exact iff_of_false (fun hl' => hv (hl' _)) fun hne => hne family value rfl

-- Cells that load do so after a merge that is made, and after one that cannot write. A merge that
-- stops at a keyspace that cannot be read does not take back what it has written, and nobody can
-- load the cells from then on.
theorem load_merge_iff {storage : Storage} {loaded : Schema} (h : Schema.load storage = .ok loaded)
    (s : Schema) (batch : List Mutation) :
    (∃ s', Schema.load (s.merge storage batch).1 = .ok s') ↔
      ∀ family value, (s.merge storage batch).2.2 ≠ .error (.malformed family value) := by
  have hl := Schema.exists_load_eq_ok_iff.mp ⟨loaded, h⟩
  rw [Schema.exists_load_eq_ok_iff]
  cases ha : attempt ⟨storage, s⟩ batch
  case mk r' result =>
    have hs : (s.merge storage batch).1 = r'.storage := congrArg (·.1.storage) ha
    have hr : (s.merge storage batch).2.2 = result := congrArg (·.2) ha
    rw [hs, hr]
    exact loads_attempt_iff ha hl

-- A keyspace is created on empty cells, and they load. Options that cannot be read are written for
-- it instead: the merge is rejected, and they do not.
theorem load_merge_iff_of_creation :
    let creation := [(Keyspace.simple "app" 1).creation 4]
    let options := [Mutation.ofFamilies Catalog.system (Utf8.encode "app")
      [(Catalog.keyspaces, Row.write [] 1 [(Row.strategyOptions, Utf8.encode "x")])]]
    ∃ loaded, Schema.load ∅ = .ok loaded ∧
      ((∃ report, (loaded.merge ∅ creation).2.2 = .ok report) ∧
        ∃ s', Schema.load (loaded.merge ∅ creation).1 = .ok s') ∧
      (loaded.merge ∅ options).2.2 = .error (.malformed Catalog.keyspaces (.strategyOptions "app")) ∧
      ¬∃ s', Schema.load (loaded.merge ∅ options).1 = .ok s' := by
  intro creation options
  have ⟨loaded, h⟩ : ∃ loaded, Schema.load ∅ = .ok loaded := ⟨_, rfl⟩
  have merges : (loaded.merge ∅ creation).2.2.isOk = true := by cases h; decide +kernel
  have stops : (loaded.merge ∅ options).2.2.map (fun _ => ()) =
      .error (.malformed Catalog.keyspaces (.strategyOptions "app")) := by cases h; decide +kernel
  have ⟨report, merges⟩ := isOk_iff.mp merges
  have stops : (loaded.merge ∅ options).2.2 =
      .error (.malformed Catalog.keyspaces (.strategyOptions "app")) := by
    cases hr : (loaded.merge ∅ options).2.2
    case ok    => simp [hr, Except.map] at stops
    case error => simpa [hr, Except.map] using stops
  refine ⟨loaded, h, ⟨⟨report, merges⟩, ?_⟩, stops, fun loads => ?_⟩
  · exact (load_merge_iff h loaded creation).mpr (by simp [merges])
  · exact (load_merge_iff h loaded options).mp loads _ _ stops

-- The node that has refused the batch cannot start again.
theorem not_load_of_options :
    let batch := [Mutation.ofFamilies Catalog.system (Utf8.encode "app")
      [(Catalog.keyspaces, Row.write [] 1 [(Row.strategyOptions, Utf8.encode "x")])]]
    (∃ loaded, Schema.load ∅ = .ok loaded) ∧
      ¬∃ s', Schema.load (Schema.empty.merge ∅ batch).1 = .ok s' := by
  intro batch
  have hn : (Schema.load (Schema.empty.merge ∅ batch).1).isOk = false := by decide +kernel
  exact ⟨⟨_, rfl⟩, fun h => Bool.false_ne_true (hn.symm.trans (isOk_iff.mpr h))⟩

-- A merge of a run.
structure Attempt where
  batch  : List Mutation
  before : Replica
  after  : Replica
  result : Except StorageError MergeReport

-- The merges of a run, whatever comes of them.
def journal (r : Replica) : List (List Mutation) → List Attempt
  | []               => []
  | batch :: batches =>
    let (r', result) := r.attempt batch
    ⟨batch, r, r', result⟩ :: r'.journal batches

-- The store after the merges.
def attemptAll (r : Replica) (batches : List (List Mutation)) : Replica :=
  batches.foldl (fun r batch => (r.attempt batch).1) r

theorem attempt_of_merge_eq_ok (h : r.merge batch = .ok r') : (r.attempt batch).1 = r' := by
  simp only [merge] at h
  split at h
  case h_1 he => cases h; simp only [attempt, he]
  case h_2    => cases h

theorem took_of_merge_eq_ok (h : r.merge batch = .ok r') :
    r.Took batch (Schema.touchedKeyspaces batch) r' := by
  cases ha : r.attempt batch
  case mk r₁ result =>
    obtain rfl : r₁ = r' := (congrArg Prod.fst ha).symm.trans (attempt_of_merge_eq_ok h)
    have hm : r.schema.merge r.storage batch = (r₁.storage, r₁.schema, result) := by
      cases ha
      rfl
    cases outcome_attempt ha
    case accepted ht _ => exact ht
    all_goals simp [merge, hm] at h

theorem attemptAll_of_mergeAll_eq_ok {batches : List (List Mutation)}
    (h : r.mergeAll batches = .ok r') : r.attemptAll batches = r' := by
  induction batches generalizing r
  case nil => cases h; rfl
  case cons batch batches hi =>
    rw [mergeAll, List.foldlM_cons, bind_eq_ok_iff] at h
    obtain ⟨r₁, hm, h⟩ := h
    rw [attemptAll, List.foldl_cons, attempt_of_merge_eq_ok hm]
    exact hi h

namespace Attempt

def touched (a : Attempt) : List String := Schema.touchedKeyspaces a.batch

def Rejected (a : Attempt) : Prop :=
  ∃ family value, a.result = .error (.malformed family value)

-- What observers are told.
def told (a : Attempt) : List SchemaEvent :=
  match a.result with
  | .ok report => report.events
  | .error _   => []

-- What changes in memory.
def changes (a : Attempt) : List SchemaEvent := a.before.schema.changes a.after.schema a.touched

-- The touched keyspaces that are read.
def read (a : Attempt) : List String :=
  match a.result with
  | .ok _                        => a.touched
  | .error (.malformed _ value)  => a.touched.takeWhile (· ≠ value.keyspace)
  | .error .writeFailure         => []

-- The touched keyspaces that the merge does not come to because it stops at another.
def missed (a : Attempt) : List String :=
  match a.result with
  | .error (.malformed _ value) => (a.touched.dropWhile (· ≠ value.keyspace)).tail
  | _                           => []

-- The keyspaces of the list that are still not read after the merge, and those it adds.
def unread (names : List String) (a : Attempt) : List String :=
  names.filter (· ∉ a.read) ++ a.missed

theorem read_and_missed_of_stops {a : Attempt} {family : String} {value : Malformed}
    {names rest : List String} (hr : a.result = .error (.malformed family value))
    (hs : a.touched = names ++ value.keyspace :: rest) : a.read = names ∧ a.missed = rest := by
  have hn : (names ++ value.keyspace :: rest).Nodup := hs ▸ Schema.nodup_touchedKeyspaces a.batch
  have hd : ∀ name ∈ names, decide (name ≠ value.keyspace) = true := by
    intro name hm
    have hne := (List.nodup_append.mp hn).right.right name hm _ List.mem_cons_self
    simpa using hne
  simp only [read, missed, hr, hs, List.takeWhile_append_of_pos hd,
    List.dropWhile_append_of_pos hd]
  simp

end Attempt

-- What the schema in memory is after merges of which some may have failed. It shows what loads,
-- except for keyspaces that may not have been read.
structure Follows (r : Replica) (unread : List String) : Prop where
  consistent : Definitions.Consistent r.schema.keyspaces
  shows      : ∀ name ∉ unread, Stored.Loads r.storage name → r.Shows name

theorem Took.consistent (ht : r.Took batch names r')
    (hc : Definitions.Consistent r.schema.keyspaces) :
    Definitions.Consistent r'.schema.keyspaces := by
  intro name k hk
  by_cases hm : name ∈ names
  case pos =>
    have ⟨_, h⟩ := ht.shows name hm
    exact Stored.consistent_reading ((Stored.keyspace_eq_ok_iff.mp h).right.trans hk)
  case neg => exact hc name k (ht.kept name hm ▸ hk)

theorem InSync.consistent (hs : InSync r) : Definitions.Consistent r.schema.keyspaces := by
  intro name k hk
  have ⟨_, h⟩ := hs.keyspaces name
  exact Stored.consistent_reading ((Stored.keyspace_eq_ok_iff.mp h).right.trans hk)

theorem consistent_attempt (hc : Definitions.Consistent r.schema.keyspaces)
    (batch : List Mutation) : Definitions.Consistent (r.attempt batch).1.schema.keyspaces := by
  cases h : r.attempt batch
  case mk r' result =>
    cases outcome_attempt h
    case refused        => exact hc
    case accepted ht _  => exact ht.consistent hc
    case rejected ht _  => exact ht.consistent hc

theorem Follows.attempt {unread : List String} (hf : r.Follows unread)
    (h : r.attempt batch = (r', result)) :
    let a : Attempt := ⟨batch, r, r', result⟩
    r'.Follows (a.unread unread) ∧
      SchemaEvent.replay r.schema.keyspaces a.changes = r'.schema.keyspaces ∧
      ((∃ report, result = .ok report) → a.told = a.changes) := by
  intro a
  have hn := Schema.nodup_touchedKeyspaces batch
  cases outcome_attempt h
  case refused =>
    refine ⟨?_, ?_, ?_⟩
    · simpa [a, Attempt.unread, Attempt.read, Attempt.missed] using hf
    · exact Schema.replay_changes hf.consistent hf.consistent hn fun _ _ => rfl
    · simp
  case accepted report ht he =>
    have hc := ht.consistent hf.consistent
    refine ⟨⟨hc, fun name hu hl => ?_⟩, ?_, fun _ => he⟩
    · by_cases hm : name ∈ Schema.touchedKeyspaces batch
      case pos => exact ht.shows name hm
      case neg =>
        refine (ht.shows_iff hm hm).mpr (hf.shows name (fun hu' => hu ?_) ((ht.loads_iff hm).mp hl))
        have hr : name ∉ a.read := hm
        exact List.mem_append_left _ (List.mem_filter.mpr ⟨hu', by simpa using hr⟩)
    · exact Schema.replay_changes hf.consistent hc hn ht.kept
  case rejected family value names rest hs ht hv =>
    have ⟨hr, hm⟩ : a.read = names ∧ a.missed = rest := Attempt.read_and_missed_of_stops rfl hs
    have hsub {name : String} (hm' : name ∈ names) : name ∈ Schema.touchedKeyspaces batch :=
      hs ▸ List.mem_append_left _ hm'
    have hc := ht.consistent hf.consistent
    refine ⟨⟨hc, fun name hu hl => ?_⟩, ?_, by simp⟩
    · rw [Attempt.unread, hr, hm, List.mem_append, List.mem_filter, not_or] at hu
      by_cases ht' : name ∈ Schema.touchedKeyspaces batch
      case pos =>
        rw [hs, List.mem_append, List.mem_cons] at ht'
        rcases ht' with hm' | rfl | hm'
        · exact ht.shows name hm'
        · exact absurd hl hv
        · exact absurd hm' hu.right
      case neg =>
        have hnames : name ∉ names := ht' ∘ hsub
        refine (ht.shows_iff ht' hnames).mpr (hf.shows name (fun hu' => ?_) ((ht.loads_iff ht').mp hl))
        exact hu.left ⟨hu', by simpa using hnames⟩
    · exact Schema.replay_changes hf.consistent hc hn fun name hn' => ht.kept name (hn' ∘ hsub)

theorem Follows.attemptAll {unread : List String} (hf : r.Follows unread)
    (batches : List (List Mutation)) :
    (r.attemptAll batches).Follows ((r.journal batches).foldl Attempt.unread unread) ∧
      SchemaEvent.replay r.schema.keyspaces ((r.journal batches).flatMap Attempt.changes) =
        (r.attemptAll batches).schema.keyspaces ∧
      ∀ a ∈ r.journal batches, (∃ report, a.result = .ok report) → a.told = a.changes := by
  induction batches generalizing r unread
  case nil => exact ⟨hf, rfl, by simp [journal]⟩
  case cons batch batches hi =>
    cases h : r.attempt batch
    case mk r' result =>
      have ⟨hf', hr, ht⟩ := hf.attempt h
      have ⟨hf'', hr', ht'⟩ := hi hf'
      simp only [journal, Replica.attemptAll, List.foldl_cons, h, List.flatMap_cons,
        SchemaEvent.replay_append, hr]
      exact ⟨hf'', hr', List.forall_mem_cons.mpr ⟨ht, ht'⟩⟩

-- A merge that is rejected for the only keyspace it touches leaves the others as they are.
theorem Follows.attempt_of_alone (hf : r.Follows []) (h : r.attempt batch = (r', result)) :
    let a : Attempt := ⟨batch, r, r', result⟩
    (a.Rejected → ∃ name, a.touched = [name]) →
      r'.Follows [] ∧ SchemaEvent.replay r.schema.keyspaces a.told = r'.schema.keyspaces := by
  intro a ha
  have ⟨hf', hr, ht⟩ := hf.attempt h
  cases outcome_attempt h
  case refused => exact ⟨hf, rfl⟩
  case accepted report _ _ => exact ⟨hf', ht ⟨report, rfl⟩ ▸ hr⟩
  case rejected family value names rest hs took _ =>
    have ⟨name, hname⟩ := ha ⟨family, value, rfl⟩
    have hnil : names = [] ∧ rest = [] := by
      have he := hs.symm.trans hname
      cases names <;> simp_all
    have ⟨_, hm⟩ : a.read = names ∧ a.missed = rest := Attempt.read_and_missed_of_stops rfl hs
    have hu : a.unread [] = [] := by simp [Attempt.unread, hm, hnil.right]
    refine ⟨hu ▸ hf', Std.ExtTreeMap.ext_getElem? fun name => ?_⟩
    exact (took.kept name (by simp [hnil.left])).symm

theorem Follows.attemptAll_of_alone (hf : r.Follows []) (batches : List (List Mutation))
    (ha : ∀ a ∈ r.journal batches, a.Rejected → ∃ name, a.touched = [name]) :
    (r.attemptAll batches).Follows [] ∧
      SchemaEvent.replay r.schema.keyspaces ((r.journal batches).flatMap Attempt.told) =
        (r.attemptAll batches).schema.keyspaces := by
  induction batches generalizing r
  case nil => exact ⟨hf, rfl⟩
  case cons batch batches hi =>
    cases h : r.attempt batch
    case mk r' result =>
      simp only [journal, h] at ha
      have ⟨ha, has⟩ := List.forall_mem_cons.mp ha
      have ⟨hf', hr⟩ := hf.attempt_of_alone h ha
      have ⟨hf'', hr'⟩ := hi hf' has
      simp only [journal, Replica.attemptAll, List.foldl_cons, h, List.flatMap_cons,
        SchemaEvent.replay_append, hr]
      exact ⟨hf'', hr'⟩

theorem follows_empty (rounds : Nat) : (empty rounds).Follows [] where
  consistent := Definitions.consistent_empty
  shows name _ _ := (inSync_empty rounds).keyspaces name

-- After merges of which any may have failed, whatever loads is shown unless it was missed, and
-- memory has changed by what observers were told and by what rejected merges did until they
-- stopped. If each rejected merge touches one keyspace only, nothing is missed or left untold.
theorem attemptAll_recovers (rounds : Nat) (batches : List (List Mutation)) :
    let j := (empty rounds).journal batches
    let r := (empty rounds).attemptAll batches
    (∀ name ∉ j.foldl Attempt.unread [], Stored.Loads r.storage name → r.Shows name) ∧
    SchemaEvent.replay ∅ (j.flatMap Attempt.changes) = r.schema.keyspaces ∧
    (∀ a ∈ j, (∃ report, a.result = .ok report) → a.told = a.changes) ∧
    ((∀ a ∈ j, a.Rejected → ∃ name, a.touched = [name]) →
      (∀ name, Stored.Loads r.storage name → r.Shows name) ∧
      SchemaEvent.replay ∅ (j.flatMap Attempt.told) = r.schema.keyspaces) := by
  intro j r
  have hf := follows_empty rounds
  have ⟨hr, hc, ht⟩ := hf.attemptAll batches
  refine ⟨hr.shows, hc, ht, fun ha => ?_⟩
  have ⟨hr, ht⟩ := hf.attemptAll_of_alone batches ha
  exact ⟨fun name => hr.shows name List.not_mem_nil, ht⟩

-- A merge that is rejected for its only keyspace, then a merge of another.
theorem attemptAll_recovers_of_alone :
    let row (name : String) (cells : List (String × Bytes)) :=
      Mutation.ofFamilies Catalog.system (Utf8.encode name)
        [(Catalog.keyspaces, Row.write [] 1 cells)]
    let batches := [[row "mmm" [(Row.strategyOptions, Utf8.encode "x")]],
      [row "aaa" [(Row.marker, [])]]]
    let j := (empty 0).journal batches
    let r := (empty 0).attemptAll batches
    ((∃ a ∈ j, a.Rejected) ∧ ∀ a ∈ j, a.Rejected → ∃ name, a.touched = [name]) ∧
      (∀ name, Stored.Loads r.storage name → r.Shows name) ∧
      SchemaEvent.replay ∅ (j.flatMap Attempt.told) = r.schema.keyspaces := by
  intro row batches
  have hj : ((empty 0).journal batches).map (fun a => (a.touched, a.result.map fun _ => ())) =
      [(["mmm"], .error (.malformed Catalog.keyspaces (.strategyOptions "mmm"))),
       (["aaa"], .ok ())] := by decide +kernel
  -- What is decided is all that counts of the batches.
  clear_value batches
  intro j r
  have ha : ∀ a ∈ j, a.Rejected → ∃ name, a.touched = [name] := by
    intro a hm _
    have hm := List.mem_map_of_mem (f := fun a => (a.touched, a.result.map fun _ => ())) hm
    rw [hj] at hm
    cases List.mem_pair.mp hm
    case inl h => exact ⟨_, congrArg Prod.fst h⟩
    case inr h => exact ⟨_, congrArg Prod.fst h⟩
  have hr : ∃ a ∈ j, a.Rejected := by
    have ⟨a, hm, h⟩ := List.mem_map.mp (hj ▸ List.mem_cons_self)
    have h := congrArg Prod.snd h
    refine ⟨a, hm, Catalog.keyspaces, .strategyOptions "mmm", ?_⟩
    cases hr : a.result
    case ok    => simp [hr, Except.map] at h
    case error => simpa [hr, Except.map] using h
  exact ⟨⟨hr, ha⟩, (attemptAll_recovers 0 batches).right.right.right ha⟩

-- A keyspace that cannot be read between two that can, then a merge of another. The keyspace
-- before it is shown but was never told, the one after it loads but is not shown.
theorem not_recovered_of_options :
    let row (name : String) (cells : List (String × Bytes)) :=
      Mutation.ofFamilies Catalog.system (Utf8.encode name)
        [(Catalog.keyspaces, Row.write [] 1 cells)]
    let broken := row "mmm" [(Row.strategyOptions, Utf8.encode "x")]
    let batches := [[row "aaa" [(Row.marker, [])], broken, row "zzz" [(Row.marker, [])]],
      [row "bbb" [(Row.marker, [])]]]
    let j := (empty 0).journal batches
    let r := (empty 0).attemptAll batches
    (∃ a ∈ j.getLast?, a.touched = ["bbb"] ∧ ∃ report, a.result = .ok report) ∧
      (Stored.Loads r.storage "zzz" ∧ ¬r.Shows "zzz") ∧
      SchemaEvent.replay ∅ (j.flatMap Attempt.told) ≠ r.schema.keyspaces := by
  intro row broken batches j r
  have hlast : ∃ a ∈ j.getLast?, a.touched = ["bbb"] ∧ a.result.isOk = true :=
    ⟨_, rfl, by decide +kernel, by decide +kernel⟩
  have hk : (Stored.keyspace r.storage "zzz" fun _ => SchemaVersion.empty).isOk = true := by
    decide +kernel
  have hp : Stored.present (Stored.cells r.storage Catalog.keyspaces "zzz") [] = true := by
    decide +kernel
  have hm : r.schema.keyspaces["zzz"]? = none := by decide +kernel
  have hm' : (r.schema.keyspaces["aaa"]?).isSome = true := by decide +kernel
  have ht : (SchemaEvent.replay ∅ (j.flatMap Attempt.told))["aaa"]? = none := by decide +kernel
  refine ⟨?_, ⟨?_, ?_⟩, ?_⟩
  · have ⟨a, ha, ht, hr⟩ := hlast
    exact ⟨a, ha, ht, isOk_iff.mp hr⟩
  · have ⟨_, h⟩ := isOk_iff.mp hk
    exact Stored.loads_of_keyspace_eq_ok h
  · intro ⟨fresh, h⟩
    have hr := (Stored.keyspace_eq_ok_iff.mp h).right
    have hs : (Stored.reading r.storage "zzz" fresh).isSome := Stored.isSome_reading_iff.mpr hp
    rw [hr, hm] at hs
    cases hs
  · intro he
    rw [he] at ht
    simp [ht] at hm'

end Replica
end ClusterMetadata
