import RevForest.Json.Printer
/-! Counters of what a store has done since it was opened. -/
namespace RevForest

structure Metrics where
  localEdits : Nat := 0
  foreignInserts : Nat := 0
  duplicateForeignInserts : Nat := 0
  conflictingWrites : Nat := 0
  conflictsDetected : Nat := 0
  projectionsMaterialized : Nat := 0
  sequencesAllocated : Nat := 0
  storageFailures : Nat := 0
  deriving DecidableEq, Repr

inductive Counter where
  | localEdits
  | foreignInserts
  | duplicateForeignInserts
  | conflictingWrites
  | conflictsDetected
  | projectionsMaterialized
  | sequencesAllocated
  | storageFailures
  deriving DecidableEq, Repr

namespace Counter

def all : List Counter :=
  [.localEdits, .foreignInserts, .duplicateForeignInserts, .conflictingWrites, .conflictsDetected,
    .projectionsMaterialized, .sequencesAllocated, .storageFailures]

def name : Counter → String
  | .localEdits => "local_edits"
  | .foreignInserts => "foreign_inserts"
  | .duplicateForeignInserts => "duplicate_foreign_inserts"
  | .conflictingWrites => "conflicting_writes"
  | .conflictsDetected => "conflicts_detected"
  | .projectionsMaterialized => "projections_materialized"
  | .sequencesAllocated => "sequences_allocated"
  | .storageFailures => "storage_failures"

end Counter

namespace Metrics

def read (m : Metrics) : Counter → Nat
  | .localEdits => m.localEdits
  | .foreignInserts => m.foreignInserts
  | .duplicateForeignInserts => m.duplicateForeignInserts
  | .conflictingWrites => m.conflictingWrites
  | .conflictsDetected => m.conflictsDetected
  | .projectionsMaterialized => m.projectionsMaterialized
  | .sequencesAllocated => m.sequencesAllocated
  | .storageFailures => m.storageFailures

def increment (m : Metrics) : Counter → Metrics
  | .localEdits => { m with localEdits := m.localEdits + 1 }
  | .foreignInserts => { m with foreignInserts := m.foreignInserts + 1 }
  | .duplicateForeignInserts => { m with duplicateForeignInserts := m.duplicateForeignInserts + 1 }
  | .conflictingWrites => { m with conflictingWrites := m.conflictingWrites + 1 }
  | .conflictsDetected => { m with conflictsDetected := m.conflictsDetected + 1 }
  | .projectionsMaterialized => { m with projectionsMaterialized := m.projectionsMaterialized + 1 }
  | .sequencesAllocated => { m with sequencesAllocated := m.sequencesAllocated + 1 }
  | .storageFailures => { m with storageFailures := m.storageFailures + 1 }

def json (m : Metrics) : Json := .object (Counter.all.map fun c => (c.name, .int (m.read c)))

end Metrics
end RevForest
