import ClusterMetadata.Document.Config
import ClusterMetadata.Document.Definition

/-!
The canonical form of a document: what is written after it has been read as a value of its type.
-/

namespace ClusterMetadata.Document

-- The types of documents by name.
def canonical? (type : String) : Option (Document → Option Document) :=
  match type with
  | "table"         => some fun d => ofTable <$> d.asTable
  | "keyspace"      => some fun d => ofKeyspace <$> d.asKeyspace
  | "column"        => some fun d => ofColumn <$> d.asColumn
  | "cell_name"     => some fun d => ofCellName <$> d.asCellName
  | "deletion_time" => some fun d => ofDeletionTime <$> d.asDeletionTime
  | "token"         => some fun d => .int <$> d.asSigned 64
  | "endpoint"      => some fun d => (.text ·.toText) <$> d.asAddress
  | "config"        => some fun d => ofConfig <$> d.asConfig
  | _               => none

end ClusterMetadata.Document
