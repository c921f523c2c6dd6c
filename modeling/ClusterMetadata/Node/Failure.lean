import ClusterMetadata.Address.Text
import ClusterMetadata.Audit.Tag
import ClusterMetadata.Node.Config
import ClusterMetadata.Node.Stage
import ClusterMetadata.Schema.Definition
import ClusterMetadata.Storage
import ClusterMetadata.Wire.Reader

/-!
Why an operation of a node failed.
-/

namespace ClusterMetadata

inductive Failure where
  | definition (e : DefinitionError)
  | storage (e : StorageError)
  | wire (e : WireError)
  | tag (e : TagError)
  | stage (e : StageError)
  | config (e : ConfigError)
  -- Nothing will ever answer the pull.
  | abandonedPull (peer : Address)
  -- The ordinary write path did not take a batch.
  | refusedWrite (reason : String)

def Failure.message : Failure → String
  | definition e => e.message
  | storage e => e.message
  | wire e => e.message
  | tag e => e.message
  | stage e => e.message
  | config e => e.message
  | abandonedPull peer => "schema pull from " ++ peer.toText ++ " was abandoned"
  | refusedWrite reason => reason

end ClusterMetadata
