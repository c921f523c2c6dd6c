import ClusterMetadata.Proofs.Schema.Statement
import ClusterMetadata.Schema.Event

/-!
Events as changes of a plain map of definitions. An event of a keyspace is about its attributes,
one of a table about that table; together, the events of a difference turn the old definition into
the new one (`replay_diff`).
-/

namespace ClusterMetadata

namespace SchemaEvent

variable {ds : Definitions} {name : String} {k : Keyspace} {old new : SortedMap String Table}

-- The definitions after the event.
def effect (ds : Definitions) : SchemaEvent → Definitions
  | keyspaceCreated k   => ds.insert k.name (k.withTables ∅)
  | keyspaceUpdated _ k => ds.alter k.name (·.map fun old => k.withTables old.tables)
  | keyspaceDropped k   => ds.erase k.name
  | tableCreated t      => ds.alter t.keyspace (·.map (·.withTable t))
  | tableUpdated _ t    => ds.alter t.keyspace (·.map (·.withTable t))
  | tableDropped t      => ds.alter t.keyspace (·.map (·.withoutTable t.name))

def replay (ds : Definitions) (events : List SchemaEvent) : Definitions :=
  events.foldl effect ds

theorem replay_append (ds : Definitions) (events events' : List SchemaEvent) :
    replay ds (events ++ events') = replay (replay ds events) events' :=
  List.foldl_append

-- Tables that are kept under their names and name the keyspace.
def TablesOf (name : String) (tables : SortedMap String Table) : Prop :=
  ∀ (key : String) (t : Table), tables[key]? = some t → t.name = key ∧ t.keyspace = name

variable {before : Option Table} {t : Table} {e : SchemaEvent}

theorem eq_some_of_ofTable (h : ofTable before t = none) : before = some t := by
  cases before
  case none => cases h
  case some t' =>
    simp only [ofTable] at h
    split at h
    case isTrue he => rw [he]
    case isFalse   => cases h

theorem effect_of_ofTable (h : ofTable before t = some e) :
    effect ds e = ds.alter t.keyspace (·.map (·.withTable t)) := by
  cases before
  case none => cases h; rfl
  case some t' =>
    simp only [ofTable] at h
    split at h
    case isTrue  => cases h
    case isFalse => cases h; rfl

-- The events of the kept tables bring the new definitions, whatever the map held of them before.
theorem exists_replay_kept {l : List (String × Table)} (hk : ds[name]? = some k)
    (hl : ∀ p ∈ l, new[p.1]? = some p.2 ∧ p.2.name = p.1 ∧ p.2.keyspace = name)
    (ht : ∀ key : String, k.tables[key]? = old[key]? ∨ k.tables[key]? = new[key]?) :
    ∃ tables, replay ds (l.filterMap fun p => ofTable old[p.1]? p.2) =
        ds.insert name (k.withTables tables) ∧
      ∀ key : String, tables[key]? =
        if key ∈ l.map (·.1) then new[key]? else k.tables[key]? := by
  induction l generalizing ds k
  case nil => exact ⟨k.tables, (SortedMap.insert_eq_self hk).symm, by simp⟩
  case cons p l hi =>
    obtain ⟨⟨hnew, hname, hkeyspace⟩, hl⟩ := List.forall_mem_cons.mp hl
    cases he : ofTable old[p.1]? p.2
    case none =>
      obtain ⟨tables, hr, hg⟩ := hi hk hl ht
      refine ⟨tables, by simp only [List.filterMap_cons, he, hr], fun key => ?_⟩
      have hp := eq_some_of_ofTable he
      simp only [hg key, List.map_cons, List.mem_cons]
      grind
    case some e =>
      have hd : effect ds e = ds.insert name (k.withTable p.2) := by
        rw [effect_of_ofTable he, hkeyspace, SortedMap.alter_map_eq_insert hk]
      have hk' : (ds.insert name (k.withTable p.2))[name]? = some (k.withTable p.2) :=
        Std.ExtTreeMap.getElem?_insert_self
      have hg' (key : String) : (k.withTable p.2).tables[key]? =
          if key = p.1 then new[key]? else k.tables[key]? := by
        simp only [Keyspace.withTable, Std.ExtTreeMap.getElem?_insert]
        grind
      obtain ⟨tables, hr, hg⟩ := hi hk' hl (by grind)
      refine ⟨tables, ?_, fun key => ?_⟩
      · simp only [List.filterMap_cons, he]
        change replay (effect ds e) _ = _
        rw [hd, hr, SortedMap.insert_insert]
        rfl
      · simp only [hg key, hg', List.map_cons, List.mem_cons]
        grind

theorem exists_replay_dropped {l : List (String × Table)} (hk : ds[name]? = some k)
    (hl : ∀ p ∈ l, p.2.name = p.1 ∧ p.2.keyspace = name) :
    ∃ tables, replay ds (l.map fun p => tableDropped p.2) =
        ds.insert name (k.withTables tables) ∧
      ∀ key : String, tables[key]? = if key ∈ l.map (·.1) then none else k.tables[key]? := by
  induction l generalizing ds k
  case nil => exact ⟨k.tables, (SortedMap.insert_eq_self hk).symm, by simp⟩
  case cons p l hi =>
    have ⟨⟨hname, hkeyspace⟩, hl⟩ := List.forall_mem_cons.mp hl
    have hd : effect ds (tableDropped p.2) = ds.insert name (k.withoutTable p.1) := by
      rw [effect, hname, hkeyspace, SortedMap.alter_map_eq_insert hk]
    have hk' : (ds.insert name (k.withoutTable p.1))[name]? = some (k.withoutTable p.1) :=
      Std.ExtTreeMap.getElem?_insert_self
    have ⟨tables, hr, hg⟩ := hi hk' hl
    refine ⟨tables, ?_, fun key => ?_⟩
    · rw [List.map_cons]
      change replay (effect ds _) _ = _
      rw [hd, hr, SortedMap.insert_insert]
      rfl
    · simp only [hg key, List.map_cons, List.mem_cons, Keyspace.withoutTable, Keyspace.withTables,
        Std.ExtTreeMap.getElem?_erase]
      grind

theorem replay_ofTables (hk : ds[name]? = some k) (ho : TablesOf name k.tables)
    (hn : TablesOf name new) :
    replay ds (ofTables k.tables new) = ds.insert name (k.withTables new) := by
  have hkept : ∀ p ∈ new.toList, new[p.1]? = some p.2 ∧ p.2.name = p.1 ∧ p.2.keyspace = name := by
    intro p hp
    have hp := Std.ExtTreeMap.mem_toList_iff_getElem?_eq_some.mp hp
    exact ⟨hp, hn _ _ hp⟩
  have hdropped : ∀ p ∈ k.tables.toList.filter fun p => !new.contains p.1,
      p.2.name = p.1 ∧ p.2.keyspace = name := by
    intro p hp
    exact ho _ _ (Std.ExtTreeMap.mem_toList_iff_getElem?_eq_some.mp (List.mem_of_mem_filter hp))
  have hsame (key : String) : k.tables[key]? = k.tables[key]? ∨ k.tables[key]? = new[key]? :=
    .inl rfl
  have ⟨kept, hr, hg⟩ := exists_replay_kept hk hkept hsame
  have hk' : (ds.insert name (k.withTables kept))[name]? = some (k.withTables kept) :=
    Std.ExtTreeMap.getElem?_insert_self
  have ⟨tables, hr', hg'⟩ := exists_replay_dropped hk' hdropped
  have ht : tables = new := by
    refine Std.ExtTreeMap.ext_getElem? fun key => ?_
    have hm : key ∈ new.toList.map (·.1) ↔ key ∈ new := by
      rw [Std.ExtTreeMap.map_fst_toList_eq_keys, Std.ExtTreeMap.mem_keys]
    have hm' : key ∈ (k.tables.toList.filter fun p => !new.contains p.1).map (·.1) ↔
        key ∈ k.tables ∧ key ∉ new := by
      simp only [List.mem_map, List.mem_filter, Prod.exists, exists_and_right, exists_eq_right,
        Std.ExtTreeMap.mem_toList_iff_getElem?_eq_some, ← SortedMap.mem_keys_iff]
      grind
    simp only [hg', Keyspace.withTables, hg, hm, hm']
    grind
  change replay ds (List.filterMap _ _ ++ List.map _ _) = _
  rw [replay_append]
  refine (congrArg (replay · _) hr).trans (hr'.trans ?_)
  rw [SortedMap.insert_insert, ht]
  rfl

theorem withTables_eq_of_not_differ {k k' : Keyspace} (hn : k.name = k'.name)
    (hd : k.attributesDiffer k' = false) : k.withTables k'.tables = k' := by
  simp only [Keyspace.attributesDiffer, Bool.or_eq_false_iff, decide_eq_false_iff_not, ne_eq,
    not_not] at hd
  exact Keyspace.ext hn hd.left.left hd.left.right hd.right rfl

-- The events of a difference turn the old definition into the new one and change no other.
theorem replay_diff {old new : Option Keyspace} (hk : ds[name]? = old)
    (ho : ∀ k, old = some k → k.name = name ∧ k.Consistent)
    (hn : ∀ k, new = some k → k.name = name ∧ k.Consistent) :
    replay ds (diff old new) = ds.alter name fun _ => new := by
  have tablesOf {k : Keyspace} (h : k.name = name ∧ k.Consistent) : TablesOf name k.tables :=
    fun key t ht => ⟨h.right.name_eq key t ht, (h.right.keyspace_eq key t ht).trans h.left⟩
  have empty : TablesOf name ∅ := by simp [TablesOf]
  cases old <;> cases new
  case none.none =>
    rw [SortedMap.alter_eq_erase, SortedMap.erase_eq_self hk]
    rfl
  case none.some k =>
    have hc := hn k rfl
    have hk' : (ds.insert name (k.withTables ∅))[name]? = some (k.withTables ∅) :=
      Std.ExtTreeMap.getElem?_insert_self
    change replay (ds.insert k.name (k.withTables ∅)) _ = _
    rw [hc.left, SortedMap.alter_eq_insert]
    exact (replay_ofTables hk' empty (tablesOf hc)).trans SortedMap.insert_insert
  case some.none k =>
    have hc := ho k rfl
    rw [diff, replay_append, replay_ofTables hk (tablesOf hc) empty, SortedMap.alter_eq_erase]
    change (ds.insert name _).erase k.name = _
    rw [hc.left, SortedMap.erase_insert]
  case some.some k k' =>
    have hc := ho k rfl
    have hc' := hn k' rfl
    rw [diff, replay_append, SortedMap.alter_eq_insert]
    split
    case isTrue =>
      have hk' : (ds.insert name (k'.withTables k.tables))[name]? = some (k'.withTables k.tables) :=
        Std.ExtTreeMap.getElem?_insert_self
      have hu : replay ds [keyspaceUpdated k k'] = ds.insert name (k'.withTables k.tables) := by
        change ds.alter k'.name _ = _
        rw [hc'.left, SortedMap.alter_map_eq_insert hk]
      rw [hu]
      have ht := tablesOf hc
      exact (replay_ofTables hk' ht (tablesOf hc')).trans SortedMap.insert_insert
    case isFalse hd =>
      rw [Bool.not_eq_true] at hd
      refine (replay_ofTables hk (tablesOf hc) (tablesOf hc')).trans ?_
      rw [withTables_eq_of_not_differ (hc.left.trans hc'.left.symm) hd]

end SchemaEvent

-- What is read is kept under its names.
theorem Stored.consistent_reading {s : Storage} {name : String} {fresh : Nat → Uuid} {k : Keyspace}
    (h : reading s name fresh = some k) : k.name = name ∧ k.Consistent := by
  have hname : k.name = name := by
    rw [reading, Option.ite_none_right_eq_some] at h
    obtain ⟨-, hk⟩ := h
    cases hk
    rfl
  obtain ⟨-, ht⟩ := reading_eq_some h
  have table_of {key : String} {t : Table} (hkt : k.tables[key]? = some t) :
      t.name = key ∧ t.keyspace = name ∧ t.Keyed := by
    obtain ⟨_, _, rfl⟩ := getElem?_tableMap.mp (ht ▸ hkt)
    refine ⟨rfl, rfl, fun c d hd => ?_⟩
    obtain ⟨_, rfl⟩ := getElem?_columns.mp hd
    rfl
  exact ⟨hname, fun _ _ h => (table_of h).left, fun _ _ h => hname ▸ (table_of h).right.left,
    fun _ _ h => (table_of h).right.right⟩

namespace Schema

variable {s s' : Schema} {names : List String} {ds : Definitions}

-- The events of a merge carry each keyspace of the list from its old definition to its new one.
theorem getElem?_replay_changes (hc : Definitions.Consistent s.keyspaces)
    (hc' : Definitions.Consistent s'.keyspaces) (hn : names.Nodup)
    (hd : ∀ name ∈ names, ds[name]? = s.keyspaces[name]?) (name : String) :
    (SchemaEvent.replay ds (changes s s' names))[name]? =
      if name ∈ names then s'.keyspaces[name]? else ds[name]? := by
  induction names generalizing ds
  case nil => simp [changes, SchemaEvent.replay]
  case cons n names hi =>
    obtain ⟨hn, hnd⟩ := List.nodup_cons.mp hn
    obtain ⟨hd, hds⟩ := List.forall_mem_cons.mp hd
    rw [changes, List.flatMap_cons, SchemaEvent.replay_append,
      SchemaEvent.replay_diff hd (hc n) (hc' n)]
    have hg (m : String) : (ds.alter n fun _ => s'.keyspaces[n]?)[m]? =
        if n = m then s'.keyspaces[n]? else ds[m]? := by
      simp [Std.ExtTreeMap.getElem?_alter]
    refine (hi hnd fun m hm => ?_).trans ?_
    · rw [hg, if_neg (ne_of_mem_of_not_mem hm hn).symm, hds m hm]
    · simp only [hg, List.mem_cons]
      grind

theorem replay_changes (hc : Definitions.Consistent s.keyspaces)
    (hc' : Definitions.Consistent s'.keyspaces) (hn : names.Nodup)
    (hk : ∀ name ∉ names, s'.keyspaces[name]? = s.keyspaces[name]?) :
    SchemaEvent.replay s.keyspaces (changes s s' names) = s'.keyspaces := by
  refine Std.ExtTreeMap.ext_getElem? fun name => ?_
  rw [getElem?_replay_changes hc hc' hn fun _ _ => rfl]
  split
  case isTrue     => rfl
  case isFalse hm => exact (hk name hm).symm

end Schema
end ClusterMetadata
