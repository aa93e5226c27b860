import RevForest.Keys.KeyData
import RevForest.Keys.Preferences
import RevForest.Log
/-!
Key data bound to an identifier. Storages of one identifier share their entry in a preference
store. What cannot be read there is logged and counts as absent.
-/
namespace RevForest

structure KeyStorage where
  identifier : String
  deriving DecidableEq, Repr

namespace KeyStorage

def make (identifier : String) : Except KeyError KeyStorage :=
  if identifier = "" then .error .emptyIdentifier else .ok ⟨identifier⟩

def entryName (s : KeyStorage) : String := "dpk-" ++ s.identifier

variable {π : Type} [PreferenceStore π]

def get (s : KeyStorage) (store : π) (log : Log) : Option KeyData × Log :=
  match PreferenceStore.getString store s.entryName with
  | none => (none, log)
  | some content =>
    match KeyData.ofText s.entryName content with
    | .ok k => (some k, log)
    | .error e =>
      (none, log.write .error Event.keyDataCorrupt.name
        [("key", s.entryName), ("error", e.message)])

def save (s : KeyStorage) (k : KeyData) (store : π) (log : Log) : Except KeyError Unit × π × Log :=
  match PreferenceStore.putString store s.entryName k.json.render with
  | (.error e, store) => (.error e, store, log)
  | (.ok (), store) => (.ok (), store, log.event .keyDataSaved [("key", s.entryName)])

def clear (s : KeyStorage) (store : π) (log : Log) : Except KeyError Unit × π × Log :=
  match PreferenceStore.remove store s.entryName with
  | (.error e, store) => (.error e, store, log)
  | (.ok (), store) => (.ok (), store, log.event .keyDataCleared [("key", s.entryName)])

def isStored (s : KeyStorage) (store : π) : Bool := PreferenceStore.contains store s.entryName

end KeyStorage
end RevForest
