import RevForest.Log.Event
/-! What can go wrong in a store and in its documents: causes, texts, codes and gravity. -/
namespace RevForest

inductive StoreError where
  | sequenceAllocation (reason : String)
  | persistFailed (sequence : Int) (reason : String)
  | io (reason : String)
  | serialization (reason : String)
  | lockPoisoned (what : String)
  | config (reason : String)
  deriving DecidableEq, Repr

namespace StoreError

def message : StoreError → String
  | .sequenceAllocation reason => s!"Sequence allocation failed: {reason}"
  | .persistFailed sequence reason => s!"Persisting sequence {sequence} failed: {reason}"
  | .io reason => s!"Storage I/O error: {reason}"
  | .serialization reason => s!"Storage serialization error: {reason}"
  | .lockPoisoned what => s!"Lock poisoned: {what}"
  | .config reason => s!"Invalid configuration: {reason}"

def code : StoreError → String
  | .sequenceAllocation _ => "REVTREE_SEQUENCE_ALLOCATION"
  | .persistFailed _ _ => "REVTREE_PERSIST_FAILED"
  | .io _ => "REVTREE_STORAGE_IO"
  | .serialization _ => "REVTREE_STORAGE_SERIALIZATION"
  | .lockPoisoned _ => "REVTREE_LOCK_POISONED"
  | .config _ => "REVTREE_CONFIG_INVALID"

def severity : StoreError → Severity
  | .config _ => .error
  | _ => .fatal

end StoreError

/-- Identifiers are held as texts: an error may be about one that is not valid. -/
inductive DocumentError where
  | invalidIdentifier (value reason : String)
  | invalidBody (reason : String)
  | malformedRevisionTree (document reason : String)
  | documentNotFound (document : String) (revision : Option String)
  | conflictingWrite (document attempted current : String)
  | projectedWrite (document revision : String)
  | storage (cause : StoreError)
  deriving DecidableEq, Repr

namespace DocumentError

def message : DocumentError → String
  | .invalidIdentifier value reason => s!"Invalid identifier '{value}': {reason}"
  | .invalidBody reason => s!"Invalid document body: {reason}"
  | .malformedRevisionTree document reason => s!"Malformed revision tree for '{document}': {reason}"
  | .documentNotFound document none => s!"Document not found: {document}"
  | .documentNotFound document (some revision) =>
    s!"Document not found: {document} (revision {revision})"
  | .conflictingWrite document attempted current =>
    s!"Conflicting write on '{document}': expected current revision {current}, got {attempted}"
  | .projectedWrite document revision =>
    s!"Projected revision {revision} of '{document}' cannot be saved; " ++
      "materialize a full copy first"
  | .storage cause => cause.message

def code : DocumentError → String
  | .invalidIdentifier _ _ => "REVTREE_INVALID_IDENTIFIER"
  | .invalidBody _ => "REVTREE_INVALID_BODY"
  | .malformedRevisionTree _ _ => "REVTREE_MALFORMED_TREE"
  | .documentNotFound _ _ => "REVTREE_DOCUMENT_NOT_FOUND"
  | .conflictingWrite _ _ _ => "REVTREE_CONFLICTING_WRITE"
  | .projectedWrite _ _ => "REVTREE_PROJECTED_WRITE"
  | .storage _ => "REVTREE_STORAGE_FAILURE"

def severity : DocumentError → Severity
  | .storage _ => .fatal
  | _ => .error

def isFatal (e : DocumentError) : Bool := e.severity = .fatal

end DocumentError
end RevForest
