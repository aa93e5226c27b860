/-! The events that a store and a key storage report, and how grave events and errors are. -/
namespace RevForest

inductive Severity where
  | trace | info | warn | error | fatal
  deriving DecidableEq, Repr, Inhabited

namespace Severity

def rank : Severity → Nat
  | .trace => 0 | .info => 1 | .warn => 2 | .error => 3 | .fatal => 4

def name : Severity → String
  | .trace => "TRACE" | .info => "INFO" | .warn => "WARN" | .error => "ERROR" | .fatal => "FATAL"

def parse? (s : String) : Option Severity :=
  match String.ofList (s.toList.map Char.toLower) with
  | "trace" => some .trace
  | "info" => some .info
  | "warn" => some .warn
  | "warning" => some .warn
  | "error" => some .error
  | "fatal" => some .fatal
  | _ => none

def isError (s : Severity) : Bool := Severity.error.rank ≤ s.rank

end Severity

inductive Event where
  | datastoreOpened
  | treeLoaded
  | revisionInserted
  | foreignRevisionInserted
  | foreignRevisionSkipped
  | conflictingWriteRejected
  | noopSave
  | winnerChanged
  | conflictDetected
  | conflictsResolved
  | projectionMaterialized
  | projectionSourceMissing
  | storageFailure
  | keyDataSaved
  | keyDataCleared
  | keyDataCorrupt
  deriving DecidableEq, Repr

namespace Event

def all : List Event :=
  [.datastoreOpened, .treeLoaded, .revisionInserted, .foreignRevisionInserted,
    .foreignRevisionSkipped, .conflictingWriteRejected, .noopSave, .winnerChanged,
    .conflictDetected, .conflictsResolved, .projectionMaterialized, .projectionSourceMissing,
    .storageFailure, .keyDataSaved, .keyDataCleared, .keyDataCorrupt]

def name : Event → String
  | .datastoreOpened => "DATASTORE_OPENED"
  | .treeLoaded => "REVISION_TREE_LOADED"
  | .revisionInserted => "REVISION_INSERTED"
  | .foreignRevisionInserted => "FOREIGN_REVISION_INSERTED"
  | .foreignRevisionSkipped => "FOREIGN_REVISION_SKIPPED"
  | .conflictingWriteRejected => "CONFLICTING_WRITE_REJECTED"
  | .noopSave => "SAVE_SKIPPED_UNMODIFIED"
  | .winnerChanged => "WINNER_CHANGED"
  | .conflictDetected => "CONFLICT_DETECTED"
  | .conflictsResolved => "CONFLICTS_RESOLVED"
  | .projectionMaterialized => "PROJECTION_MATERIALIZED"
  | .projectionSourceMissing => "PROJECTION_SOURCE_MISSING"
  | .storageFailure => "STORAGE_FAILURE"
  | .keyDataSaved => "KEY_DATA_SAVED"
  | .keyDataCleared => "KEY_DATA_CLEARED"
  | .keyDataCorrupt => "KEY_DATA_CORRUPT"

def isFatal (e : Event) : Bool := e = .storageFailure

end Event
end RevForest
