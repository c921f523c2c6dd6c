import ClusterMetadata.Schema.Event

/-!
Who is told about schema events. Every observer is told of the first event before anyone is told of
the second, in the order in which the observers were registered. There is a callback for each kind
of event.
-/

namespace ClusterMetadata

inductive Callback where
  | createKeyspace (k : Keyspace)
  | createTable (t : Table)
  | updateKeyspace (k : Keyspace)
  | updateTable (t : Table)
  | dropKeyspace (k : Keyspace)
  | dropTable (t : Table)
  deriving DecidableEq

-- Of an update an observer sees what is new.
def SchemaEvent.callback : SchemaEvent → Callback
  | keyspaceCreated k     => .createKeyspace k
  | keyspaceUpdated _ new => .updateKeyspace new
  | keyspaceDropped k     => .dropKeyspace k
  | tableCreated t        => .createTable t
  | tableUpdated _ new    => .updateTable new
  | tableDropped t        => .dropTable t

structure Observers (α : Type) where
  nextId : Nat
  entries : List (Nat × α)

namespace Observers

variable {α : Type}

instance : EmptyCollection (Observers α) := ⟨⟨0, []⟩⟩

def register (o : Observers α) (observer : α) : Nat × Observers α :=
  (o.nextId, ⟨o.nextId + 1, o.entries ++ [(o.nextId, observer)]⟩)

-- Also tells whether the id was registered.
def unregister (o : Observers α) (id : Nat) : Bool × Observers α :=
  let kept := o.entries.filter (·.1 ≠ id)
  (kept.length ≠ o.entries.length, { o with entries := kept })

def isEmpty (o : Observers α) : Bool := o.entries.isEmpty

def calls (o : Observers α) (events : List SchemaEvent) : List (α × Callback) :=
  events.flatMap fun event => o.entries.map fun (_, observer) => (observer, event.callback)

end Observers
end ClusterMetadata
