import ClusterMetadata.Document.Failure
import ClusterMetadata.Document.Mutation
import ClusterMetadata.Node.State

/-!
Schema events, merge reports and what observers noted, as documents. An id that was drawn for a
table is shown as `random`.
-/

namespace ClusterMetadata.Document

def ofUuid (u : Uuid) : Document := .text u.toText

def hideDrawn (t : Table) : Document → Document
  | record fields => .record (fields.map fun (name, d) =>
      (name, if name = "id" ∧ t.id.isRandom then .text "random" else d))
  | d => d

def showTable (t : Table) : Document := hideDrawn t (ofTable t)

def showKeyspace (k : Keyspace) : Document :=
  match ofKeyspace k with
  | record fields => .record (fields.map fun (name, d) =>
      (name, if name = "tables" then ofMap showTable k.tables else d))
  | d => d

def ofEvent : SchemaEvent → Document
  | .keyspaceCreated k   => .list [.text "keyspace_created", showKeyspace k]
  | .keyspaceUpdated a b => .list [.text "keyspace_updated", showKeyspace a, showKeyspace b]
  | .keyspaceDropped k   => .list [.text "keyspace_dropped", showKeyspace k]
  | .tableCreated t      => .list [.text "table_created", showTable t]
  | .tableUpdated a b    => .list [.text "table_updated", showTable a, showTable b]
  | .tableDropped t      => .list [.text "table_dropped", showTable t]

def ofReport (r : MergeReport) : Document :=
  .record [("events", ofList ofEvent r.events), ("version", ofUuid r.version),
           ("registry", ofList ofText r.registryTargets)]

-- What an observer is called with.
def ofCall (observer : String) (c : Callback) : Document :=
  let call (name argument : String) : Document :=
    .list [ofText observer, .text name, ofText argument]
  match c with
  | .createKeyspace k => call "create_keyspace" k.toText
  | .createTable t    => call "create_table" t.qualifiedName
  | .updateKeyspace k => call "update_keyspace" k.toText
  | .updateTable t    => call "update_table" t.qualifiedName
  | .dropKeyspace k   => call "drop_keyspace" k.toText
  | .dropTable t      => call "drop_table" t.qualifiedName

def ofNote : Note → Document
  | .call observer c            => ofCall observer c
  | .companion keyspace outcome =>
    .list [.text "reentrant", ofText keyspace, ofUnit ofFailure outcome]

end ClusterMetadata.Document
