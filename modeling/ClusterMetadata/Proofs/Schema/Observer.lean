import ClusterMetadata.Proofs.Schema.Difference
import ClusterMetadata.Schema.Observer
import Mathlib.Data.List.Nodup

/-!
What an observer is told. Observers are told apart by the ids they were registered under, and what
comes through one registration are the callbacks of the events, each once and in their order
(`received_eq`).
-/

namespace ClusterMetadata

-- The callback says of the change what is so.
def Callback.Tells (ds ds' : Definitions) : Callback → Prop
  | createKeyspace k => ds[k.name]? = none ∧ ds'[k.name]? = some k
  | createTable t    => ds.table t.keyspace t.name = none ∧ ds'.table t.keyspace t.name = some t
  | updateKeyspace k => ds'[k.name]? = some k ∧
    ∃ old, ds[k.name]? = some old ∧ old.withTables ∅ ≠ k.withTables ∅
  | updateTable t    => ds'.table t.keyspace t.name = some t ∧
    ∃ old, ds.table t.keyspace t.name = some old ∧ old ≠ t
  | dropKeyspace k   => ds[k.name]? = some k ∧ ds'[k.name]? = none
  | dropTable t      => ds.table t.keyspace t.name = some t ∧ ds'.table t.keyspace t.name = none

theorem SchemaEvent.Tells.callback {ds ds' : Definitions} {e : SchemaEvent} (h : e.Tells ds ds') :
    e.callback.Tells ds ds' := by
  cases e
  case keyspaceUpdated old new => exact ⟨h.right.left, old, h.left, h.right.right⟩
  case tableUpdated old new    => exact ⟨h.right.left, old, h.left, h.right.right⟩
  all_goals exact h

namespace Observers

variable {α : Type} {o : Observers α} {a : α} {id : Nat}

-- How observers come to be registered.
inductive Reached : Observers α → Prop
  | empty : Reached ∅
  | register {o : Observers α} (h : Reached o) (a : α) : Reached (o.register a).2
  | unregister {o : Observers α} (h : Reached o) (id : Nat) : Reached (o.unregister id).2

-- Ids are not used twice.
structure Distinct (o : Observers α) : Prop where
  nodup : (o.entries.map (·.1)).Nodup
  lt    : ∀ e ∈ o.entries, e.1 < o.nextId

theorem Distinct.register (h : o.Distinct) (a : α) : (o.register a).2.Distinct where
  nodup := by
    simp only [Observers.register, List.map_append, List.map_cons, List.map_nil]
    refine List.nodup_append.mpr ⟨h.nodup, List.nodup_singleton _, ?_⟩
    simp only [List.mem_map, List.mem_singleton]
    rintro _ ⟨e, he, rfl⟩ _ rfl
    exact Nat.ne_of_lt (h.lt e he)
  lt e he := by
    rcases List.mem_append.mp he with he | he
    · exact Nat.lt_succ_of_lt (h.lt e he)
    · cases List.mem_singleton.mp he
      exact Nat.lt_succ_self _

theorem Distinct.unregister (h : o.Distinct) (id : Nat) : (o.unregister id).2.Distinct where
  nodup    := h.nodup.sublist (List.filter_sublist.map _)
  lt e he  := h.lt e (List.mem_of_mem_filter he)

theorem Reached.distinct (h : o.Reached) : o.Distinct := by
  induction h
  case empty              => exact ⟨List.nodup_nil, by simp [EmptyCollection.emptyCollection]⟩
  case register a hi      => exact hi.register a
  case unregister id hi   => exact hi.unregister id

-- The observers with their ids, so that calls show through which registration they went.
def numbered (o : Observers α) : Observers (Nat × α) where
  nextId  := o.nextId
  entries := o.entries.map fun (id, a) => (id, (id, a))

theorem calls_numbered (events : List SchemaEvent) :
    (o.numbered.calls events).map (fun ((_, a), callback) => (a, callback)) = o.calls events := by
  simp only [calls, numbered, List.map_flatMap, List.map_map]
  rfl

-- The calls through one registration.
def received (o : Observers α) (events : List SchemaEvent) (id : Nat) : List Callback :=
  ((o.numbered.calls events).filter fun ((id', _), _) => id' = id).map (·.2)

theorem Distinct.filter_eq (h : o.Distinct) (ha : (id, a) ∈ o.entries) :
    o.entries.filter (·.1 = id) = [(id, a)] := by
  have hn : o.entries.Nodup := .of_map _ h.nodup
  refine List.perm_singleton.mp ?_
  refine (List.perm_ext_iff_of_nodup (hn.filter _) (List.nodup_singleton _)).mpr fun e => ?_
  rw [List.mem_filter, List.mem_singleton, decide_eq_true_eq]
  constructor
  case mp  => exact fun ⟨he, hid⟩ => List.inj_on_of_nodup_map h.nodup he ha hid
  case mpr => exact fun he => he ▸ ⟨ha, rfl⟩

theorem received_eq (h : o.Reached) (ha : (id, a) ∈ o.entries) (events : List SchemaEvent) :
    o.received events id = events.map (·.callback) := by
  have hone (event : SchemaEvent) : ((o.numbered.entries.map fun (_, observer) =>
      (observer, event.callback)).filter fun ((id', _), _) => id' = id).map (·.2) =
        [event.callback] := by
    have hf := h.distinct.filter_eq ha
    simp only [numbered, List.map_map, List.filter_map, Function.comp_def, hf, List.map_cons,
      List.map_nil]
  simp only [received, calls, List.filter_flatMap, List.map_flatMap, hone]
  exact List.map_eq_flatMap.symm

end Observers
end ClusterMetadata
