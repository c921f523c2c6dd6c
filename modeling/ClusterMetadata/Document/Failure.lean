import ClusterMetadata.Document.Bytes
import ClusterMetadata.Network.State
import ClusterMetadata.Node.Failure

/-!
Failures as documents: the kind of the failure and its message.
-/

namespace ClusterMetadata.Document

def ofFault (kind message : String) : Document :=
  .record [("error", .text kind), ("message", ofText message)]

def ofWireError (e : WireError) : Document :=
  let kind := match e with
    | .truncated             => "Truncated"
    | .invalidUtf8           => "InvalidUtf8"
    | .tooLong ..            => "TooLong"
    | .unknownModification _ => "UnknownModification"
    | .unsupported ..        => "UnsupportedForVersion"
    | .badAddress _          => "BadEndpoint"
    | .negativeCount _       => "NegativeCount"
  ofFault ("Codec." ++ kind) e.message

def ofDefinitionError (e : DefinitionError) : Document :=
  let kind := match e with
    | .keyspaceExists _   => "KeyspaceExists"
    | .tableExists ..     => "TableExists"
    | .keyspaceNotFound _ => "KeyspaceNotFound"
    | .tableNotFound ..   => "TableNotFound"
    | .invalid _          => "Invalid"
    | .incompatible _     => "Incompatible"
  ofFault ("Configuration." ++ kind) e.message

-- Of a malformed value, what stands before the first colon is enough.
def ofStorageError : StorageError → Document
  | .writeFailure          => ofFault "Storage.Io" StorageError.writeFailure.message
  | .malformed table value =>
    let what := ((StorageError.detail value).splitOn ": ").headD ""
    ofFault "Storage.Malformed" (StorageError.prelude table ++ what)

def ofTagError (e : TagError) : Document :=
  let kind := match e with
    | .permanentlyDropped _ => "PermanentlyDropped"
    | .unknownState ..      => "UnknownState"
    | .mismatch ..          => "Mismatch"
  ofFault ("TagState." ++ kind) e.message

def ofStageError (e : StageError) : Document :=
  let kind := match e with
    | .shutDown _      => "ShutDown"
    | .wouldDeadlock _ => "WouldDeadlock"
    | .abandoned _     => "Abandoned"
    | .timeout ..      => "Timeout"
  ofFault ("Stage." ++ kind) e.message

def ofConfigError (e : ConfigError) : Document :=
  match e with
  | .unreadable .. => ofFault "Config.Io" e.message
  | .malformed     => .record [("error", .text "Config.Parse")]
  | .invalid _     => ofFault "Config.Invalid" e.message

def ofUnreachable (e : Unreachable) : Document := ofFault "Transport.Unreachable" e.message

def ofFailure (e : Failure) : Document :=
  match e with
  | .definition e    => ofDefinitionError e
  | .storage e       => ofStorageError e
  | .wire e          => ofWireError e
  | .tag e           => ofTagError e
  | .stage e         => ofStageError e
  | .config e        => ofConfigError e
  | .abandonedPull _ => ofFault "Other" e.message
  | .refusedWrite _  => ofFault "Other" e.message

def ofExcept {ε α : Type} (fault : ε → Document) (write : α → Document) : Except ε α → Document
  | .ok a    => write a
  | .error e => fault e

def ok : Document := .text "ok"

def ofUnit {ε : Type} (fault : ε → Document) : Except ε Unit → Document :=
  ofExcept fault fun _ => ok

end ClusterMetadata.Document
