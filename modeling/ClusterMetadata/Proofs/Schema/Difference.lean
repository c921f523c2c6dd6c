import ClusterMetadata.Proofs.Schema.Replay

/-!
Events as the exact account of a change. What is told of a keyspace apart from its tables, or of one
table, is one event, and there is one where the definitions differ and nowhere else
(`isDifference_changes`).
-/

namespace ClusterMetadata

def Definitions.table (ds : Definitions) (keyspace name : String) : Option Table :=
  ds[keyspace]?.bind (·.tables[name]?)

-- What an event is about: a keyspace apart from its tables, or a table.
inductive SchemaItem where
  | keyspace (name : String)
  | table (owner name : String)
  deriving DecidableEq

namespace SchemaItem

def owner : SchemaItem → String
  | keyspace name => name
  | table owner _ => owner

def Differs (ds ds' : Definitions) : SchemaItem → Prop
  | keyspace name    => ds[name]?.map (·.withTables ∅) ≠ ds'[name]?.map (·.withTables ∅)
  | table owner name => ds.table owner name ≠ ds'.table owner name

end SchemaItem

namespace SchemaEvent

def item : SchemaEvent → SchemaItem
  | keyspaceCreated k   => .keyspace k.name
  | keyspaceUpdated _ k => .keyspace k.name
  | keyspaceDropped k   => .keyspace k.name
  | tableCreated t      => .table t.keyspace t.name
  | tableUpdated _ t    => .table t.keyspace t.name
  | tableDropped t      => .table t.keyspace t.name

-- The event is true of the change: it has what was there and what is there, and these differ.
def Tells (ds ds' : Definitions) : SchemaEvent → Prop
  | keyspaceCreated k       => ds[k.name]? = none ∧ ds'[k.name]? = some k
  | keyspaceUpdated old new =>
    ds[new.name]? = some old ∧ ds'[new.name]? = some new ∧ old.withTables ∅ ≠ new.withTables ∅
  | keyspaceDropped k       => ds[k.name]? = some k ∧ ds'[k.name]? = none
  | tableCreated t          =>
    ds.table t.keyspace t.name = none ∧ ds'.table t.keyspace t.name = some t
  | tableUpdated old new    => ds.table new.keyspace new.name = some old ∧
    ds'.table new.keyspace new.name = some new ∧ old ≠ new
  | tableDropped t          =>
    ds.table t.keyspace t.name = some t ∧ ds'.table t.keyspace t.name = none

-- A keyspace is there while its tables come and go.
inductive Precedes : SchemaEvent → SchemaEvent → Prop
  | creation {k : Keyspace} {e : SchemaEvent} {name : String} (h : e.item = .table k.name name) :
      Precedes (.keyspaceCreated k) e
  | drop {k : Keyspace} {e : SchemaEvent} {name : String} (h : e.item = .table k.name name) :
      Precedes e (.keyspaceDropped k)

-- The events are the difference of the definitions.
structure IsDifference (ds ds' : Definitions) (events : List SchemaEvent) : Prop where
  replay  : replay ds events = ds'
  tells   : ∀ e ∈ events, e.Tells ds ds'
  nodup   : (events.map item).Nodup
  mem_iff : ∀ i, i ∈ events.map item ↔ i.Differs ds ds'
  ordered : events.Pairwise fun e e' => ¬e'.Precedes e

variable {ds ds' : Definitions} {e e' : SchemaEvent} {name key : String} {t : Table}
  {old new : SortedMap String Table} {names : List String} {events events' : List SchemaEvent}

theorem Tells.differs (h : e.Tells ds ds') : e.item.Differs ds ds' := by
  cases e <;> simp_all [Tells, item, SchemaItem.Differs]

theorem Precedes.owner_eq (h : e.Precedes e') : e.item.owner = e'.item.owner := by
  cases h
  case creation h => rw [h]; rfl
  case drop h     => rw [h]; rfl

-- Tables have no order among each other.
theorem not_precedes_of_tables (h : ∃ name key, e.item = .table name key)
    (h' : ∃ name key, e'.item = .table name key) : ¬e.Precedes e' := by
  have ⟨_, _, h⟩ := h
  have ⟨_, _, h'⟩ := h'
  rintro (_ | _)
  · cases h
  · cases h'

-- The tables of one keyspace.

theorem ofTable_eq_some_iff {before : Option Table} : ofTable before t = some e ↔
    before = none ∧ e = .tableCreated t ∨
      ∃ old, before = some old ∧ old ≠ t ∧ e = .tableUpdated old t := by
  cases before
  case none     => simp [ofTable, eq_comm]
  case some old =>
    simp only [ofTable, Option.ite_none_left_eq_some, Option.some.injEq]
    grind

theorem mem_ofTables : e ∈ ofTables old new ↔
    (∃ (key : String) (t : Table), new[key]? = some t ∧ ofTable old[key]? t = some e) ∨
      ∃ (key : String) (t : Table), old[key]? = some t ∧ new[key]? = none ∧
        .tableDropped t = e := by
  simp only [ofTables, List.mem_append, List.mem_filterMap, List.mem_map, List.mem_filter,
    Prod.exists, Std.ExtTreeMap.mem_toList_iff_getElem?_eq_some, Bool.not_eq_true',
    Std.ExtTreeMap.contains_eq_isSome_getElem?, Option.isSome_eq_false_iff,
    Option.isNone_iff_eq_none, and_assoc]

-- Each event is about the table under whose name it was found.
theorem item_of_ofTable (hn : TablesOf name new) (hk : new[key]? = some t)
    (h : ofTable old[key]? t = some e) : e.item = .table name key := by
  have ⟨hname, hkeyspace⟩ := hn key t hk
  rcases ofTable_eq_some_iff.mp h with ⟨_, rfl⟩ | ⟨_, _, _, rfl⟩
  · rw [item, hname, hkeyspace]
  · rw [item, hname, hkeyspace]

theorem item_tableDropped (ho : TablesOf name old) (hk : old[key]? = some t) :
    (tableDropped t).item = .table name key := by
  have ⟨hname, hkeyspace⟩ := ho key t hk
  rw [item, hname, hkeyspace]

section

variable (ho : TablesOf name old) (hn : TablesOf name new)
include ho hn

theorem tells_of_mem_ofTables (hd : ∀ key, ds.table name key = old[key]?)
    (hd' : ∀ key, ds'.table name key = new[key]?) (he : e ∈ ofTables old new) :
    e.Tells ds ds' ∧ ∃ key, e.item = .table name key := by
  rcases mem_ofTables.mp he with ⟨key, t, hk, he⟩ | ⟨key, t, hk, hk', rfl⟩
  case inl =>
    refine ⟨?_, key, item_of_ofTable hn hk he⟩
    obtain ⟨rfl, rfl⟩ := hn key t hk
    rcases ofTable_eq_some_iff.mp he with ⟨hb, rfl⟩ | ⟨_, hb, hne, rfl⟩
    · exact ⟨(hd _).trans hb, (hd' _).trans hk⟩
    · exact ⟨(hd _).trans hb, (hd' _).trans hk, hne⟩
  case inr =>
    obtain ⟨rfl, rfl⟩ := ho key t hk
    exact ⟨⟨(hd _).trans hk, (hd' _).trans hk'⟩, _, rfl⟩

theorem exists_mem_ofTables (h : old[key]? ≠ new[key]?) :
    ∃ e ∈ ofTables old new, e.item = .table name key := by
  cases hk' : new[key]?
  case none =>
    obtain ⟨t, hk⟩ := Option.ne_none_iff_exists'.mp (hk' ▸ h)
    exact ⟨_, mem_ofTables.mpr (.inr ⟨key, t, hk, hk', rfl⟩), item_tableDropped ho hk⟩
  case some t =>
    have he : ofTable old[key]? t ≠ none := fun he => h (hk' ▸ eq_some_of_ofTable he)
    obtain ⟨e, he⟩ := Option.ne_none_iff_exists'.mp he
    exact ⟨e, mem_ofTables.mpr (.inl ⟨key, t, hk', he⟩), item_of_ofTable hn hk' he⟩

theorem nodup_ofTables : ((ofTables old new).map item).Nodup := by
  -- In a list of entries, those of different places have different names.
  have apart (m : SortedMap String Table) : m.toList.Pairwise fun p p' =>
      m[p.1]? = some p.2 ∧ m[p'.1]? = some p'.2 ∧ p.1 ≠ p'.1 := by
    have h := Std.ExtTreeMap.nodup_keys (t := m)
    rw [← Std.ExtTreeMap.map_fst_toList_eq_keys, List.Nodup, List.pairwise_map,
      List.Pairwise.and_mem] at h
    exact h.imp fun ⟨hp, hp', hne⟩ => ⟨Std.ExtTreeMap.mem_toList_iff_getElem?_eq_some.mp hp,
      Std.ExtTreeMap.mem_toList_iff_getElem?_eq_some.mp hp', hne⟩
  rw [List.Nodup, List.pairwise_map, ofTables, List.pairwise_append, List.pairwise_map]
  refine ⟨(apart new).filterMap _ ?_, ((apart old).imp ?_).filter _, ?_⟩
  case refine_1 =>
    rintro p p' ⟨hp, hp', hne⟩ e he e' he'
    rw [item_of_ofTable hn hp he, item_of_ofTable hn hp' he']
    simpa using hne
  case refine_2 =>
    rintro p p' ⟨hp, hp', hne⟩
    rw [item_tableDropped ho hp, item_tableDropped ho hp']
    simpa using hne
  case refine_3 =>
    intro e he e' he' heq
    simp only [List.mem_filterMap, List.mem_map, List.mem_filter, Prod.exists, Bool.not_eq_true',
      Std.ExtTreeMap.mem_toList_iff_getElem?_eq_some] at he he'
    obtain ⟨key, t, hk, he⟩ := he
    obtain ⟨key', t', ⟨hk', hc⟩, rfl⟩ := he'
    rw [item_of_ofTable hn hk he, item_tableDropped ho hk'] at heq
    cases heq
    rw [Std.ExtTreeMap.contains_eq_isSome_getElem?, hk] at hc
    cases hc

end

-- The events tell all that differs in the keyspaces of the list, and once.
structure Accounts (names : List String) (ds ds' : Definitions) (events : List SchemaEvent) :
    Prop where
  tells    : ∀ e ∈ events, e.item.owner ∈ names ∧ e.Tells ds ds'
  nodup    : (events.map item).Nodup
  complete : ∀ i : SchemaItem, i.owner ∈ names → i.Differs ds ds' → i ∈ events.map item

theorem Accounts.perm (h : Accounts names ds ds' events) (hp : events.Perm events') :
    Accounts names ds ds' events' where
  tells e he := h.tells e (hp.mem_iff.mpr he)
  nodup := (hp.map item).nodup_iff.mp h.nodup
  complete i hi hd := (hp.map item).mem_iff.mp (h.complete i hi hd)

theorem Accounts.append (hn : name ∉ names) (h : Accounts [name] ds ds' events)
    (h' : Accounts names ds ds' events') :
    Accounts (name :: names) ds ds' (events ++ events') where
  tells e he := by
    rcases List.mem_append.mp he with he | he
    · have ⟨ho, ht⟩ := h.tells e he
      exact ⟨by simpa using .inl (List.mem_singleton.mp ho), ht⟩
    · have ⟨ho, ht⟩ := h'.tells e he
      exact ⟨List.mem_cons_of_mem _ ho, ht⟩
  nodup := by
    rw [List.map_append, List.nodup_append]
    refine ⟨h.nodup, h'.nodup, ?_⟩
    simp only [List.mem_map]
    rintro _ ⟨e, he, rfl⟩ _ ⟨e', he', rfl⟩ heq
    have ho := List.mem_singleton.mp (h.tells e he).left
    exact hn (ho ▸ heq ▸ (h'.tells e' he').left)
  complete i hi hd := by
    rw [List.map_append, List.mem_append]
    rcases List.mem_cons.mp hi with hi | hi
    · exact .inl (h.complete i (List.mem_singleton.mpr hi) hd)
    · exact .inr (h'.complete i hi hd)

-- What happens to a keyspace itself, and what to its tables.
theorem accounts_ofTables (own : Option SchemaEvent) (ho : TablesOf name old)
    (hn : TablesOf name new) (hd : ∀ key, ds.table name key = old[key]?)
    (hd' : ∀ key, ds'.table name key = new[key]?)
    (hown : ∀ e, own = some e → e.item = .keyspace name ∧ e.Tells ds ds')
    (hnone : own = none → ¬(SchemaItem.keyspace name).Differs ds ds') :
    Accounts [name] ds ds' (own.toList ++ ofTables old new) where
  tells e he := by
    rcases List.mem_append.mp he with he | he
    · have ⟨hi, ht⟩ := hown e (Option.mem_toList.mp he)
      exact ⟨hi ▸ List.mem_cons_self, ht⟩
    · have ⟨ht, key, hi⟩ := tells_of_mem_ofTables ho hn hd hd' he
      exact ⟨hi ▸ List.mem_cons_self, ht⟩
  nodup := by
    rw [List.map_append, List.nodup_append]
    refine ⟨?_, nodup_ofTables ho hn, ?_⟩
    · cases own <;> simp
    · simp only [List.mem_map, Option.mem_toList]
      rintro _ ⟨e, he, rfl⟩ _ ⟨e', he', rfl⟩ heq
      have ⟨_, _, hi⟩ := tells_of_mem_ofTables ho hn hd hd' he'
      rw [(hown e he).left, hi] at heq
      cases heq
  complete i hi hi' := by
    rw [List.map_append, List.mem_append]
    cases i
    case keyspace n =>
      obtain rfl : n = name := List.mem_singleton.mp hi
      cases own
      case none   => exact absurd hi' (hnone rfl)
      case some e => exact .inl (by simp [(hown e rfl).left])
    case table n key =>
      obtain rfl : n = name := List.mem_singleton.mp hi
      rw [SchemaItem.Differs, hd, hd'] at hi'
      exact .inr (List.mem_map.mpr (exists_mem_ofTables ho hn hi'))

theorem attributesDiffer_eq_true_iff {k k' : Keyspace} (hn : k.name = k'.name) :
    k.attributesDiffer k' = true ↔ k.withTables ∅ ≠ k'.withTables ∅ := by
  simp only [Keyspace.attributesDiffer, Keyspace.withTables, ne_eq, Keyspace.mk.injEq, hn, true_and,
    and_true, Bool.or_eq_true, decide_eq_true_eq]
  grind

theorem accounts_diff (hc : ds.Consistent) (hc' : ds'.Consistent) :
    Accounts [name] ds ds' (diff ds[name]? ds'[name]?) := by
  have tablesOf {ds : Definitions} {k : Keyspace} (hc : ds.Consistent) (hk : ds[name]? = some k) :
      TablesOf name k.tables := fun key t ht =>
    have ⟨hn, hk⟩ := hc name k hk
    ⟨hk.name_eq key t ht, (hk.keyspace_eq key t ht).trans hn⟩
  have empty : TablesOf name ∅ := by simp [TablesOf]
  have absent {ds : Definitions} (hk : ds[name]? = none) (key : String) :
      ds.table name key = (∅ : SortedMap String Table)[key]? := by
    simp [Definitions.table, hk]
  have present {ds : Definitions} {k : Keyspace} (hk : ds[name]? = some k) (key : String) :
      ds.table name key = k.tables[key]? := by
    simp [Definitions.table, hk]
  cases hk : ds[name]? <;> cases hk' : ds'[name]?
  case none.none =>
    refine accounts_ofTables none empty empty (absent hk) (absent hk') (by simp) ?_
    simp [SchemaItem.Differs, hk, hk']
  case none.some k =>
    obtain ⟨rfl, -⟩ := hc' name k hk'
    refine accounts_ofTables (some (.keyspaceCreated k)) empty (tablesOf hc' hk')
      (absent hk) (present hk') ?_ (by simp)
    rintro e ⟨⟩
    exact ⟨rfl, hk, hk'⟩
  case some.none k =>
    obtain ⟨rfl, -⟩ := hc name k hk
    have h := accounts_ofTables (some (.keyspaceDropped k)) (tablesOf hc hk) empty
      (present hk) (absent hk') (by rintro e ⟨⟩; exact ⟨rfl, hk, hk'⟩) (by simp)
    exact h.perm List.perm_append_comm
  case some.some k k' =>
    obtain ⟨rfl, -⟩ := hc name k hk
    obtain ⟨hn, -⟩ := hc' _ k' hk'
    have hdiffer := attributesDiffer_eq_true_iff hn.symm
    rw [diff]
    split
    case isTrue hd =>
      refine accounts_ofTables (some (.keyspaceUpdated k k')) (tablesOf hc hk) (tablesOf hc' hk')
        (present hk) (present hk') ?_ (by simp)
      rintro e ⟨⟩
      rw [item, Tells, hn]
      exact ⟨rfl, hk, hk', hdiffer.mp hd⟩
    case isFalse hd =>
      refine accounts_ofTables none (tablesOf hc hk) (tablesOf hc' hk') (present hk) (present hk')
        (by simp) fun _ => ?_
      simpa [SchemaItem.Differs, hk, hk', hdiffer] using hd

-- The order of the events.

theorem exists_item_of_mem_ofTables (h : e ∈ ofTables old new) :
    ∃ name key, e.item = .table name key := by
  rcases mem_ofTables.mp h with ⟨key, t, _, h⟩ | ⟨key, t, _, _, rfl⟩
  case inr => exact ⟨_, _, rfl⟩
  case inl =>
    rcases ofTable_eq_some_iff.mp h with ⟨_, rfl⟩ | ⟨_, _, _, rfl⟩
    · exact ⟨_, _, rfl⟩
    · exact ⟨_, _, rfl⟩

theorem ordered_ofTables : (ofTables old new).Pairwise fun e e' => ¬e'.Precedes e :=
  List.pairwise_of_forall_mem_list fun _ he _ he' =>
    not_precedes_of_tables (exists_item_of_mem_ofTables he') (exists_item_of_mem_ofTables he)

theorem ordered_diff {before after : Option Keyspace} :
    (diff before after).Pairwise fun e e' => ¬e'.Precedes e := by
  cases before <;> cases after
  case none.none => exact List.Pairwise.nil
  case none.some k =>
    refine List.pairwise_cons.mpr ⟨fun e _ h => ?_, ordered_ofTables⟩
    cases h
    case creation h => cases h
  case some.none k =>
    refine List.pairwise_append.mpr ⟨ordered_ofTables, List.pairwise_singleton .., ?_⟩
    intro e he e' he' h
    obtain rfl := List.mem_singleton.mp he'
    obtain ⟨_, _, hi⟩ := exists_item_of_mem_ofTables he
    cases h
    case drop => cases hi
  case some.some k k' =>
    refine List.pairwise_append.mpr ⟨?_, ordered_ofTables, fun e he e' _ h => ?_⟩
    · split <;> simp
    · obtain rfl : e = .keyspaceUpdated k k' := by simpa using List.mem_ite_nil_right.mp he |>.right
      cases h
      case creation h => cases h

end SchemaEvent

namespace Schema

open SchemaEvent

variable {s s' : Schema} {names : List String}

theorem accounts_changes (hc : Definitions.Consistent s.keyspaces)
    (hc' : Definitions.Consistent s'.keyspaces) (hn : names.Nodup) :
    Accounts names s.keyspaces s'.keyspaces (changes s s' names) := by
  induction names
  case nil => exact ⟨by simp [changes], by simp [changes], by simp⟩
  case cons name names hi =>
    obtain ⟨hn, hd⟩ := List.nodup_cons.mp hn
    exact (accounts_diff hc hc').append hn (hi hd)

theorem ordered_changes (hc : Definitions.Consistent s.keyspaces)
    (hc' : Definitions.Consistent s'.keyspaces) (hn : names.Nodup) :
    (changes s s' names).Pairwise fun e e' => ¬e'.Precedes e := by
  induction names
  case nil => exact List.Pairwise.nil
  case cons name names hi =>
    obtain ⟨hn, hd⟩ := List.nodup_cons.mp hn
    refine List.pairwise_append.mpr ⟨ordered_diff, hi hd, fun e he e' he' h => hn ?_⟩
    have ho := List.mem_singleton.mp ((accounts_diff hc hc').tells e he).left
    exact ho ▸ h.owner_eq ▸ ((accounts_changes hc hc' hd).tells e' he').left

-- What a merge reports of the keyspaces it reads is the whole difference.
theorem isDifference_changes (hc : Definitions.Consistent s.keyspaces)
    (hc' : Definitions.Consistent s'.keyspaces) (hn : names.Nodup)
    (hk : ∀ name ∉ names, s'.keyspaces[name]? = s.keyspaces[name]?) :
    IsDifference s.keyspaces s'.keyspaces (changes s s' names) := by
  have ha := accounts_changes hc hc' hn
  refine ⟨replay_changes hc hc' hn hk, fun e he => (ha.tells e he).right, ha.nodup, fun i => ?_,
    ordered_changes hc hc' hn⟩
  constructor
  case mp =>
    intro hi
    obtain ⟨e, he, rfl⟩ := List.mem_map.mp hi
    exact (ha.tells e he).right.differs
  case mpr =>
    intro hd
    refine ha.complete i (by_contra fun ho => ?_) hd
    cases i
    case keyspace name    => exact hd (by rw [hk name ho])
    case table owner name => exact hd (by rw [Definitions.table, Definitions.table, hk owner ho])

end Schema
end ClusterMetadata
