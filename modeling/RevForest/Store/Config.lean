import RevForest.ContentDigest
import RevForest.Files
/-! The settings of a store. Each has a default, so an empty object is a valid configuration. -/
namespace RevForest

structure DatastoreConfig where
  logLevel : String := "info"
  maxRevisionHistory : Nat := 1000
  digestLength : Nat := ContentDigest.defaultLength
  treeCacheCapacity : Nat := 1024
  deriving DecidableEq, Repr

namespace DatastoreConfig

def standard : DatastoreConfig := {}

def fieldNames : List String :=
  ["log_level", "max_revision_history", "digest_length", "tree_cache_capacity"]

def ofWire? (w : Wire) : Option DatastoreConfig := do
  match ← w.fields? fieldNames with
  | [logLevel, maxRevisionHistory, digestLength, treeCacheCapacity] => do
    let word := Wire.asNat? word64
    let logLevel ← defaulted logLevel Wire.asString? standard.logLevel
    let maxRevisionHistory ← defaulted maxRevisionHistory word standard.maxRevisionHistory
    let digestLength ← defaulted digestLength word standard.digestLength
    let treeCacheCapacity ← defaulted treeCacheCapacity word standard.treeCacheCapacity
    some { logLevel, maxRevisionHistory, digestLength, treeCacheCapacity }
  | _ => none

def json (c : DatastoreConfig) : Json :=
  .object [("log_level", .text c.logLevel), ("max_revision_history", .int c.maxRevisionHistory),
    ("digest_length", .int c.digestLength), ("tree_cache_capacity", .int c.treeCacheCapacity)]

def fault? (c : DatastoreConfig) : Option String :=
  if (Severity.parse? c.logLevel).isNone then some s!"Invalid log_level: '{c.logLevel}'"
  else if c.maxRevisionHistory = 0 then some "max_revision_history must be > 0"
  else if c.treeCacheCapacity = 0 then some "tree_cache_capacity must be > 0"
  else if c.digestLength < ContentDigest.minLength ∨ ContentDigest.maxLength < c.digestLength then
    some s!"digest_length must be between {ContentDigest.minLength} and {ContentDigest.maxLength}"
  else none

def validate (c : DatastoreConfig) : Except StoreError Unit :=
  match c.fault? with
  | some reason => .error (.config reason)
  | none => .ok ()

def severity (c : DatastoreConfig) : Severity := (Severity.parse? c.logLevel).getD .info

def ofText (content : String) : Except StoreError DatastoreConfig :=
  match (Wire.ofString? content).bind ofWire? with
  | none => .error (.config s!"Invalid config JSON: {Json.unreadable}")
  | some c => do
    c.validate
    .ok c

def load (files : FileSystem) (path : String) : Except StoreError DatastoreConfig :=
  match files.readText path with
  | .error f => .error (.config s!"Failed to read config: {f.message}")
  | .ok content => ofText content

end DatastoreConfig
end RevForest
