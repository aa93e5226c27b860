import RevForest.Files
import RevForest.Log.Event
/-! What can go wrong with stored keys and preferences. -/
namespace RevForest

inductive KeyError where
  | emptyIdentifier
  | invalidKeyData (reason : String)
  | corrupt (key reason : String)
  | io (reason : String)
  | lockPoisoned (what : String)
  deriving DecidableEq, Repr

namespace KeyError

def ofFault (f : FileFault) : KeyError := .io f.message

def message : KeyError → String
  | .emptyIdentifier => "Key storage identifier must not be empty"
  | .invalidKeyData reason => s!"Invalid key data: {reason}"
  | .corrupt key reason => s!"Stored key data under '{key}' is corrupt: {reason}"
  | .io reason => s!"Preferences I/O error: {reason}"
  | .lockPoisoned what => s!"Lock poisoned: {what}"

def code : KeyError → String
  | .emptyIdentifier => "REVTREE_KEY_IDENTIFIER"
  | .invalidKeyData _ => "REVTREE_KEY_DATA_INVALID"
  | .corrupt _ _ => "REVTREE_KEY_DATA_CORRUPT"
  | .io _ => "REVTREE_PREFERENCES_IO"
  | .lockPoisoned _ => "REVTREE_LOCK_POISONED"

def severity : KeyError → Severity
  | .io _ => .fatal
  | .lockPoisoned _ => .fatal
  | _ => .error

end KeyError
end RevForest
