import ClusterMetadata.Audit.Kind
import ClusterMetadata.Catalog
import ClusterMetadata.Schema.Rows
import ClusterMetadata.Storage

/-!
The registry says which kinds of entries are audited on which targets, and under which admin tag.
The entries are stored; the registry keeps those it has seen, and forgets a target when told that
its entries may have changed.
-/

namespace ClusterMetadata

@[ext]
structure Registry where
  known : SortedMap String (SortedMap String String)
  deriving DecidableEq

namespace Registry

def adminTag : String := "admin_tag"

instance : EmptyCollection Registry := ⟨⟨∅⟩⟩

def partition (target : String) : PartitionId where
  keyspace := Catalog.system
  table := Catalog.registry
  key := Utf8.encode target

def addition (target : String) (kind : AuditKind) (tag : String) (timestamp : Int64) : Mutation :=
  .ofFamilies Catalog.system (Utf8.encode target)
    [(Catalog.registry, Row.write [kind.code] timestamp
      [(Row.marker, []), (adminTag, Utf8.encode tag)])]

-- Removes the entries of all kinds.
def removal (target : String) (d : DeletionTime) : Mutation :=
  .ofFamilies Catalog.system (Utf8.encode target) [(Catalog.registry, [.rangeTombstone [] d])]

def isEntry (c : Cell) : Bool :=
  c.name[1]? == some adminTag

-- The stored answer.
def stored (s : Storage) (target : String) (kind : AuditKind) : Option String :=
  (s.read (partition target) (.under [kind.code])).find? isEntry |>.map (Utf8.lossy ·.value)

def cached (r : Registry) (target code : String) : Option String := do
  (← r.known[target]?)[code]?

def learn (r : Registry) (target code tag : String) : Registry where
  known := r.known.alter target fun entries => some ((entries.getD ∅).insert code tag)

def invalidate (r : Registry) (target : String) : Registry where
  known := r.known.erase target

-- Only answers that were found are kept.
def query (r : Registry) (s : Storage) (target : String) (kind : AuditKind) :
    Option String × Registry :=
  match r.cached target kind.code with
  | some tag => (some tag, r)
  | none     =>
    match stored s target kind with
    | some tag => (some tag, r.learn target kind.code tag)
    | none     => (none, r)

def add (r : Registry) (s : Storage) (target : String) (kind : AuditKind) (tag : String)
    (timestamp : Int64) : Except StorageError (Mutation × Registry × Storage) := do
  let m := addition target kind tag timestamp
  return (m, r.learn target kind.code tag, ← s.apply m)

def drop (r : Registry) (s : Storage) (target : String) (d : DeletionTime) :
    Except StorageError (Mutation × Registry × Storage) := do
  let m := removal target d
  return (m, r.invalidate target, ← s.apply m)

def entries (s : Storage) (target : String) : List (String × String) :=
  (s.read (partition target) .all).filterMap fun c =>
    match c.name with
    | code :: leaf :: _ => if leaf = adminTag then some (code, Utf8.lossy c.value) else none
    | _                 => none

def learnAll (r : Registry) (s : Storage) (target : String) : Registry :=
  (entries s target).foldl (fun r (code, tag) => r.learn target code tag) r

-- Learns the entries of the targets and tells how many there were.
def hydrate (r : Registry) (s : Storage) (targets : List String) : Nat × Registry :=
  targets.foldl (fun (found, r) target => (found + (entries s target).length, r.learnAll s target))
    (0, r)

end Registry
end ClusterMetadata
