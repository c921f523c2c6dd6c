import ClusterMetadata.Network.Message

/-!
The settings of a node. Times are in milliseconds.
-/

namespace ClusterMetadata

@[ext]
structure AuditConfig where
  -- Whether applied row mutations are audited.
  rowMutations : Bool
  -- The targets whose registry entries are read at the start.
  hydrateTargets : List String
  deriving DecidableEq, Repr

@[ext]
structure Config where
  mutationTimeout : Nat
  requestTimeout : Nat
  definitionsUpdateTimeout : Nat
  migrationRequestTimeout : Nat
  -- How long a pull waits, so that a change under way can arrive first.
  migrationDelay : Nat
  mutationWorkers : Nat
  audit : AuditConfig
  deriving DecidableEq, Repr

inductive ConfigFlaw where
  | zeroTimeout (verb : Verb)
  | noWorkers
  | missing (part : String)
  deriving DecidableEq, Repr

inductive ReadFailure where
  | noSuchFile
  | isDirectory
  | nameTooLong
  | notText
  | nulInPath
  deriving DecidableEq, Repr

inductive ConfigError where
  | unreadable (path : String) (failure : ReadFailure)
  | malformed
  | invalid (flaw : ConfigFlaw)
  deriving DecidableEq, Repr

def ConfigFlaw.message : ConfigFlaw → String
  | zeroTimeout verb => "timeout for " ++ verb.toText ++ " must be positive"
  | noWorkers => "mutation_workers must be at least 1"
  | missing part => part ++ " is required"

def ReadFailure.message : ReadFailure → String
  | noSuchFile => "No such file or directory (os error 2)"
  | isDirectory => "Is a directory (os error 21)"
  | nameTooLong => "File name too long (os error 36)"
  | notText => "stream did not contain valid UTF-8"
  | nulInPath => "file name contained an unexpected NUL byte"

def ConfigError.message : ConfigError → String
  | unreadable path failure => "failed to read config " ++ path ++ ": " ++ failure.message
  | malformed => "failed to parse config"
  | invalid flaw => "invalid config: " ++ flaw.message

namespace Config

def standard : Config where
  mutationTimeout := 2000
  requestTimeout := 10000
  definitionsUpdateTimeout := 10000
  migrationRequestTimeout := 10000
  migrationDelay := 60000
  mutationWorkers := 4
  audit := { rowMutations := false, hydrateTargets := [] }

def timeout (c : Config) : Verb → Nat
  | .mutation          => c.mutationTimeout
  | .requestResponse   => c.requestTimeout
  | .definitionsUpdate => c.definitionsUpdateTimeout
  | .migrationRequest  => c.migrationRequestTimeout

def validate (c : Config) : Except ConfigFlaw Unit := do
  for verb in Verb.all do
    if c.timeout verb = 0 then throw (.zeroTimeout verb)
  if c.mutationWorkers = 0 then throw .noWorkers

-- Why nothing can be read at a path where there is no file.
def pathFailure (path : String) : ReadFailure :=
  let parts := (path.splitOn "/").filter fun part => part ≠ "" ∧ part ≠ "." ∧ part ≠ ".."
  if path.contains '\x00' then .nulInPath
  else if 4096 ≤ path.utf8ByteSize ∨ 255 < (parts.head?.elim 0 (·.utf8ByteSize)) then .nameTooLong
  else if parts.isEmpty ∧ path ≠ "" then .isDirectory
  else .noSuchFile

end Config
end ClusterMetadata
