import RevForest.Body
import RevForest.Json.Record
import RevForest.Keys.Error
/-!
Stores of named texts, in memory and in a file. The file is one JSON object, rewritten in five
steps on every change: make the directory, open a temporary file, write it, flush it, and move it
over the old one. Each step may fail; the entries in memory change only after the last.
-/
namespace RevForest

abbrev Entries := Dict String String

/-- A store of named texts; a change that fails may still leave traces in the store. -/
class PreferenceStore (π : Type) where
  getString : π → String → Option String
  putString : π → String → String → Except KeyError Unit × π
  remove : π → String → Except KeyError Unit × π

def PreferenceStore.contains {π : Type} [PreferenceStore π] (store : π) (key : String) : Bool :=
  (getString store key).isSome

structure MemoryPreferences where
  entries : Entries
  deriving DecidableEq, Repr

instance : PreferenceStore MemoryPreferences where
  getString store key := store.entries.find? key
  putString store key value := (.ok (), ⟨store.entries.insert key value⟩)
  remove store key := (.ok (), ⟨store.entries.erase key⟩)

def Entries.pretty (entries : Entries) : String :=
  let line (e : String × String) : List Char :=
    [' ', ' '] ++ Json.writeText e.1 ++ [':', ' '] ++ Json.writeText e.2
  if entries.isEmpty then "\x7b\x7d"
  else String.ofList <|
    ['\x7b', '\n'] ++ ([',', '\n'].intercalate (entries.entries.map line)) ++ ['\n', '\x7d']

def Entries.ofText? (content : String) : Option Entries :=
  (Wire.ofString? content).bind Wire.asStrings?

inductive WriteStep where
  | makeDirectory
  | openTemporary
  | write
  | flush
  | rename
  deriving DecidableEq, Repr

/-- Which steps the device refuses, and how much a refused write still writes. -/
structure DeviceFaults where
  refuses : WriteStep → Bool
  written : Nat

def DeviceFaults.never : DeviceFaults := ⟨fun _ => false, 0⟩

structure FilePreferences where
  path : String
  temporary : String
  entries : Entries
  deriving DecidableEq, Repr

namespace FilePreferences

def ofFile (files : FileSystem) (path : String) : Except KeyError FilePreferences := do
  let entries ← match files.readText path with
    | .error .missing => .ok Dict.empty
    | .error f => .error (.ofFault f)
    | .ok content =>
      match Entries.ofText? content with
      | none => .error (.corrupt path Json.unreadable)
      | some entries => .ok entries
  .ok { path, temporary := Path.withExtension path "tmp", entries }

def step (device : DeviceFaults) (s : WriteStep) (files : FileSystem)
    (act : FileSystem → Except FileFault FileSystem) : Except FileFault FileSystem :=
  if device.refuses s then .error .refused else act files

def makeDirectory (device : DeviceFaults) (path : String) (files : FileSystem) :
    Except FileFault Unit × FileSystem :=
  let parent := Path.parent path
  if parent = "" then (.ok (), files)
  else if device.refuses .makeDirectory then (.error .refused, files)
  else files.createDirectories parent

def writeAtomic (device : DeviceFaults) (store : FilePreferences) (content : List UInt8)
    (files : FileSystem) : Except FileFault Unit × FileSystem :=
  match makeDirectory device store.path files with
  | (.error f, files) => (.error f, files)
  | (.ok (), files) =>
    match step device .openTemporary files (·.truncate store.temporary) with
    | .error f => (.error f, files)
    | .ok files =>
      match step device .write files (·.write store.temporary content) with
      | .error f =>
        match files.write store.temporary (content.take device.written) with
        | .error _ => (.error f, files)
        | .ok files => (.error f, files)
      | .ok files =>
        match step device .flush files .ok with
        | .error f => (.error f, files)
        | .ok files =>
          match step device .rename files (·.rename store.temporary store.path) with
          | .error f => (.error f, files)
          | .ok files => (.ok (), files)

def update (device : DeviceFaults) (store : FilePreferences) (files : FileSystem)
    (entries : Entries) : Except KeyError Unit × FilePreferences × FileSystem :=
  match store.writeAtomic device entries.pretty.toByteArray.data.toList files with
  | (.error f, files) => (.error (.ofFault f), store, files)
  | (.ok (), files) => (.ok (), { store with entries }, files)

def putString (device : DeviceFaults) (store : FilePreferences) (files : FileSystem)
    (key value : String) : Except KeyError Unit × FilePreferences × FileSystem :=
  store.update device files (store.entries.insert key value)

def remove (device : DeviceFaults) (store : FilePreferences) (files : FileSystem) (key : String) :
    Except KeyError Unit × FilePreferences × FileSystem :=
  if store.entries.contains key then store.update device files (store.entries.erase key)
  else (.ok (), store, files)

end FilePreferences

structure PreferenceFile where
  store : FilePreferences
  files : FileSystem
  deriving DecidableEq, Repr

instance : PreferenceStore PreferenceFile where
  getString p key := p.store.entries.find? key
  putString p key value :=
    let (r, store, files) := p.store.putString .never p.files key value
    (r, ⟨store, files⟩)
  remove p key :=
    let (r, store, files) := p.store.remove .never p.files key
    (r, ⟨store, files⟩)

inductive Preferences where
  | memory (store : MemoryPreferences)
  | file (store : PreferenceFile)
  deriving DecidableEq, Repr

def Preferences.connect (files : FileSystem) : Option String → Except KeyError Preferences
  | none => .ok (.memory ⟨Dict.empty⟩)
  | some path => (FilePreferences.ofFile files path).map fun store => .file ⟨store, files⟩

instance : PreferenceStore Preferences where
  getString
    | .memory m, key => PreferenceStore.getString m key
    | .file f, key => PreferenceStore.getString f key
  putString
    | .memory m, key, value =>
      let (r, m) := PreferenceStore.putString m key value
      (r, .memory m)
    | .file f, key, value =>
      let (r, f) := PreferenceStore.putString f key value
      (r, .file f)
  remove
    | .memory m, key =>
      let (r, m) := PreferenceStore.remove m key
      (r, .memory m)
    | .file f, key =>
      let (r, f) := PreferenceStore.remove f key
      (r, .file f)

end RevForest
