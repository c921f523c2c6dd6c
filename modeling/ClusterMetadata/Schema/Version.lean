import ClusterMetadata.Catalog
import ClusterMetadata.Storage
import ClusterMetadata.Uuid

/-!
The version of a schema: a digest of the live cells of the schema tables. Instants do not enter it,
so nodes that hold the same definitions have the same version.
-/

namespace ClusterMetadata.SchemaVersion

def sized (b : Bytes) : Bytes :=
  BigEndian.encode 4 b.length ++ b

def cellImage (c : Cell) : Bytes :=
  c.name.flatMap (sized ∘ Utf8.encode) ++ sized c.value

def partitionImage (s : Storage) (table : String) (key : Bytes) : Bytes :=
  let cells := s.read ⟨Catalog.system, table, key⟩ .all
  Utf8.encode table ++ sized key ++ cells.flatMap cellImage

-- What is digested.
def image (s : Storage) : Bytes :=
  Catalog.schema.flatMap fun table =>
    (s.keys Catalog.system table).flatMap (partitionImage s table)

def ofStorage (s : Storage) : Uuid :=
  .ofDigest (image s)

-- The version of a node without any schema.
def empty : Uuid :=
  .ofDigest []

end ClusterMetadata.SchemaVersion
