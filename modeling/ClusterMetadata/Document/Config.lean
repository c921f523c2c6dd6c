import ClusterMetadata.Document.Definition
import ClusterMetadata.Node.Config

/-!
Settings as documents, and how they are read from whatever they are written in. Every field may be
left out; then it has its standard value.
-/

namespace ClusterMetadata

-- What settings are written in: the views that their values are read through.
class Source (σ : Type) where
  text? : σ → Option String
  bool? : σ → Option Bool
  -- A whole number of so many bits.
  nat? : Nat → σ → Option Nat
  items? : σ → Option (List σ)
  -- The fields of these names, if they are there.
  fields? : List String → σ → Option (List (Option σ))

namespace Source

variable {σ : Type} [Source σ]

-- A value that may be left out.
def getD {α : Type} (standard : α) (read : σ → Option α) : Option σ → Option α
  | none   => some standard
  | some s => read s

def texts? (s : σ) : Option (List String) := do
  (← items? s).mapM text?

def auditConfig? (s : σ) : Option AuditConfig :=
  let standard := Config.standard.audit
  match fields? ["row_mutations", "hydrate_targets"] s with
  | some [rowMutations, hydrateTargets] => do
    return { rowMutations := ← getD standard.rowMutations bool? rowMutations
             hydrateTargets := ← getD standard.hydrateTargets texts? hydrateTargets }
  | _ => none

def config? (s : σ) : Option Config :=
  let standard := Config.standard
  let number (n : Nat) : Option σ → Option Nat := getD n (nat? 64)
  match fields? ["mutation_timeout_ms", "request_timeout_ms", "definitions_update_timeout_ms",
      "migration_request_timeout_ms", "migration_delay_ms", "mutation_workers", "audit"] s with
  | some [mutation, request, definitionsUpdate, migrationRequest, delay, workers, audit] => do
    return { mutationTimeout := ← number standard.mutationTimeout mutation
             requestTimeout := ← number standard.requestTimeout request
             definitionsUpdateTimeout :=
               ← number standard.definitionsUpdateTimeout definitionsUpdate
             migrationRequestTimeout := ← number standard.migrationRequestTimeout migrationRequest
             migrationDelay := ← number standard.migrationDelay delay
             mutationWorkers := ← number standard.mutationWorkers workers
             audit := ← getD standard.audit auditConfig? audit }
  | _ => none

end Source

namespace Document

instance : Source Document where
  text? := asText
  bool? := asBool
  nat? := asNat
  items? := asList some
  fields? := fields?

def ofAuditConfig (c : AuditConfig) : Document :=
  .record [("row_mutations", .bool c.rowMutations),
           ("hydrate_targets", .list (c.hydrateTargets.map .text))]

def ofConfig (c : Config) : Document :=
  .record [("mutation_timeout_ms", .int c.mutationTimeout),
           ("request_timeout_ms", .int c.requestTimeout),
           ("definitions_update_timeout_ms", .int c.definitionsUpdateTimeout),
           ("migration_request_timeout_ms", .int c.migrationRequestTimeout),
           ("migration_delay_ms", .int c.migrationDelay),
           ("mutation_workers", .int c.mutationWorkers),
           ("audit", ofAuditConfig c.audit)]

def asConfig : Document → Option Config := Source.config?

end Document
end ClusterMetadata
