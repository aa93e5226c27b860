import Mathlib.Data.String.Basic
import Mathlib.Order.RelClasses
import RevForest.Keys.Preferences
import RevForest.Proofs.Files
import RevForest.Proofs.Json.Reader

/-! Entries that are written to a preferences file are read from it again. Once the file can be
written it stays so, and opening it gives the store that wrote it last. -/
namespace RevForest

namespace Entries

def prettyLine (e : String × String) : List Char :=
  [' ', ' '] ++ Json.writeText e.1 ++ [':', ' '] ++ Json.writeText e.2

def member (e : String × String) : String × List Char × Wire :=
  (e.1, Json.writeText e.2, .text (Wire.units e.2))

theorem prettyMembers {es : List (String × String)} (filled : es ≠ []) :
    '\n' :: [',', '\n'].intercalate (es.map prettyLine) ++ ['\n', '}'] =
      Wire.membersText ['\n', ' ', ' '] [' '] ['\n'] (es.map member) := by
  match es with
  | [] => exact absurd rfl filled
  | [e] => simp [Wire.membersText, Wire.memberText, prettyLine, member]
  | e :: f :: rest =>
    have later := prettyMembers (List.cons_ne_nil f rest)
    have split : [',', '\n'].intercalate ((e :: f :: rest).map prettyLine) =
        prettyLine e ++ ',' :: '\n' :: [',', '\n'].intercalate ((f :: rest).map prettyLine) := rfl
    rw [split]
    simp only [List.map_cons] at later ⊢
    rw [Wire.membersText, ← later]
    simp [Wire.memberText, prettyLine, member]

theorem writtenRead {read : List Nat × Wire → Option (String × String)}
    (reads : ∀ e, read (Wire.units e.1, .text (Wire.units e.2)) = some e)
    (es : List (String × String)) :
    (es.map fun e => (Wire.units e.1, Wire.text (Wire.units e.2))).mapM read = some es := by
  induction es with
  | nil => rfl
  | cons e rest ih =>
    rw [List.map_cons, List.mapM_cons, ih, reads]
    rfl

theorem textsRead (es : List (String × String)) :
    (Wire.object (es.map fun e => (Wire.units e.1, .text (Wire.units e.2)))).asStrings? =
      some (Dict.ofList es) := by
  unfold Wire.asStrings?
  dsimp only
  rw [writtenRead]
  · rfl
  · intro e
    simp only [Wire.stringUnits, Wire.asString?, Option.bind_eq_bind, Option.bind_some]

theorem readPretty {entries : Entries} (sorted : entries.Sorted) :
    ofText? entries.pretty = some entries := by
  obtain ⟨es⟩ := entries
  have whole := Dict.ofListSorted sorted
  by_cases filled : es = []
  · subst filled
    rfl
  · have layout : Wire.Layout ['\n', ' ', ' '] [' '] ['\n'] :=
      ⟨by simp [Wire.isBlank], by simp [Wire.isBlank], .inr ⟨[], rfl, List.forall_mem_nil _⟩⟩
    have reads : ∀ m ∈ es.map member, Wire.Reads m.2.1 m.2.2 :=
      List.forall_mem_map.mpr fun e _ => Wire.readsText e.2
    have read := Wire.readObject layout (fun none => filled (List.map_eq_nil_iff.mp none)) reads
    have text : (pretty ⟨es⟩).toList =
        '{' :: Wire.membersText ['\n', ' ', ' '] [' '] ['\n'] (es.map member) := by
      rw [← prettyMembers filled]
      unfold pretty
      rw [if_neg (by simpa [Dict.isEmpty] using filled), String.toList_ofList]
      rfl
    unfold ofText? Wire.ofString?
    rw [text, read, List.map_map, Option.bind_some]
    exact (textsRead es).trans (congrArg some whole)

end Entries

namespace FilePreferences

variable {store : FilePreferences} {files made later : FileSystem}

structure Writable (store : FilePreferences) (files made : FileSystem) : Prop where
  directory : makeDirectory .never store.path files = (.ok (), made)
  temporary : ∃ place, made.Leads store.temporary place
  target : ∃ place, made.Leads store.path place

theorem makeDirectoryNever (path : String) (files : FileSystem) :
    makeDirectory .never path files =
      if Path.parent path = "" then (.ok (), files)
      else files.createDirectories (Path.parent path) := by
  have accepts : ¬ DeviceFaults.never.refuses .makeDirectory = true := Bool.false_ne_true
  unfold makeDirectory
  dsimp only
  by_cases plain : Path.parent path = ""
  · rw [if_pos plain, if_pos plain]
  · rw [if_neg plain, if_neg plain, if_neg accepts]

theorem directoryAgain (ok : makeDirectory .never store.path files = (.ok (), made))
    (kept : made.Keeps later) : makeDirectory .never store.path later = (.ok (), later) := by
  rw [makeDirectoryNever] at ok ⊢
  by_cases plain : Path.parent store.path = ""
  · rw [if_pos plain]
  · rw [if_neg plain] at ok ⊢
    unfold FileSystem.createDirectories at ok ⊢
    cases names : FileSystem.readNames (Path.parent store.path) with
    | error f =>
      rw [names] at ok
      cases ok
    | ok names' =>
      rw [names] at ok
      exact FileSystem.createAgain ok kept

theorem writeSteps {content : List UInt8} :
    store.writeAtomic .never content files = (.ok (), later) ↔
      ∃ made opened written, makeDirectory .never store.path files = (.ok (), made) ∧
        made.truncate store.temporary = .ok opened ∧
        opened.write store.temporary content = .ok written ∧
        written.rename store.temporary store.path = .ok later := by
  have accepts (s : WriteStep) (fs : FileSystem) (act : FileSystem → Except FileFault FileSystem) :
      step .never s fs act = act fs := rfl
  unfold writeAtomic
  simp only [accepts]
  constructor
  · intro ok
    split at ok
    · cases ok
    rename_i made directory
    split at ok
    · cases ok
    rename_i opened truncated
    split at ok
    · split at ok <;> cases ok
    rename_i written wrote
    split at ok
    · cases ok
    rename_i moved renamed
    cases ok
    exact ⟨made, opened, written, directory, truncated, wrote, renamed⟩
  · rintro ⟨made, opened, written, directory, truncated, wrote, renamed⟩
    simp only [directory, truncated, wrote, renamed]

theorem writableOf {content : List UInt8}
    (ok : (store.writeAtomic .never content files).1 = .ok ()) :
    ∃ made, store.Writable files made := by
  generalize outcome : store.writeAtomic .never content files = result at ok
  obtain ⟨r, later⟩ := result
  cases ok
  obtain ⟨made, opened, written, directory, truncated, wrote, renamed⟩ := writeSteps.mp outcome
  obtain ⟨old, temporary⟩ := FileSystem.truncateLeads truncated
  obtain ⟨new, target⟩ := FileSystem.renameLeads renamed
  obtain ⟨opened', written', truncated', wrote', kept, back, _⟩ := temporary.filled content
  cases truncated.symm.trans truncated'
  cases wrote.symm.trans wrote'
  exact ⟨made, directory, ⟨old, temporary⟩, ⟨new, target.kept back kept⟩⟩

theorem Writable.holds (writable : store.Writable files made) (content : List UInt8) :
    ∃ later, store.writeAtomic .never content files = (.ok (), later) ∧
      store.Writable later later ∧ later.readBytes store.path = .ok content := by
  obtain ⟨old, temporary⟩ := writable.temporary
  obtain ⟨new, target⟩ := writable.target
  obtain ⟨opened, written, truncated, wrote, kept, back, there⟩ := temporary.filled content
  -- Writing the temporary file leaves the directories, so both paths lead where they led.
  have target' := target.kept kept back
  have renamed := FileSystem.renameFile (kept.locate temporary.located) there target'
  obtain ⟨onward, backward⟩ := FileSystem.keepsMoved there target'.fits
  have onward' := kept.trans onward
  have backward' := backward.trans back
  have holds : FileSystem.entry? (written.moved old new content) new = some (.file content) := by
    rw [FileSystem.entryMoved there target'.fits, if_pos rfl]
  refine ⟨written.moved old new content,
    writeSteps.mpr ⟨made, opened, written, writable.directory, truncated, wrote, renamed⟩,
    ⟨directoryAgain writable.directory onward', ⟨old, temporary.kept onward' backward'⟩,
      ⟨new, target.kept onward' backward'⟩⟩, ?_⟩
  exact FileSystem.readFileThere (onward'.locate target.located) holds

end FilePreferences

namespace PreferenceFile

structure Synced (p : PreferenceFile) : Prop where
  reopens : FilePreferences.ofFile p.files p.store.path = .ok p.store
  writable : ∃ made, p.store.Writable p.files made
  sorted : p.store.entries.Sorted

theorem opensHolding {files : FileSystem} {path : String} {entries : Entries}
    (sorted : entries.Sorted)
    (holds : files.readBytes path = .ok entries.pretty.toByteArray.data.toList) :
    FilePreferences.ofFile files path =
      .ok { path, temporary := Path.withExtension path "tmp", entries } := by
  simp only [FilePreferences.ofFile, FileSystem.readTextOf holds, Entries.readPretty sorted]
  rfl

theorem opensAt {files : FileSystem} {path : String} {store : FilePreferences}
    (opened : FilePreferences.ofFile files path = .ok store) :
    store.path = path ∧ store.temporary = Path.withExtension path "tmp" := by
  simp only [FilePreferences.ofFile, bind, Except.bind] at opened
  split at opened
  · cases opened
    exact ⟨rfl, rfl⟩
  · cases opened
  · split at opened
    · cases opened
    · cases opened
      exact ⟨rfl, rfl⟩

theorem Synced.update {p : PreferenceFile} (synced : p.Synced) {entries : Entries}
    (sorted : entries.Sorted) :
    ∃ q : PreferenceFile, p.store.update .never p.files entries = (.ok (), q.store, q.files) ∧
      q.Synced ∧ q.store.entries = entries := by
  obtain ⟨made, writable⟩ := synced.writable
  obtain ⟨later, ok, writable', holds⟩ :=
    writable.holds entries.pretty.toByteArray.data.toList
  have temporary := (opensAt synced.reopens).2
  refine ⟨⟨{ p.store with entries }, later⟩, ?_, ⟨?_, ⟨later, writable'.directory,
    writable'.temporary, writable'.target⟩, sorted⟩, rfl⟩
  · unfold FilePreferences.update
    rw [ok]
  · exact (opensHolding sorted holds).trans (by rw [← temporary])

theorem Synced.put {p : PreferenceFile} (synced : p.Synced) (key value : String) :
    ∃ q : PreferenceFile, PreferenceStore.putString p key value = (.ok (), q) ∧ q.Synced ∧
      ∀ k, q.store.entries.find? k =
        if k = key then some value else p.store.entries.find? k := by
  obtain ⟨q, ok, synced', entries⟩ := synced.update (Dict.sortedInsert synced.sorted key value)
  refine ⟨q, ?_, synced', fun k => entries ▸ Dict.findInsert p.store.entries key value k⟩
  simp only [PreferenceStore.putString, FilePreferences.putString]
  rw [ok]

theorem Synced.remove {p : PreferenceFile} (synced : p.Synced) (key : String) :
    ∃ q : PreferenceFile, PreferenceStore.remove p key = (.ok (), q) ∧ q.Synced ∧
      ∀ k, q.store.entries.find? k = if k = key then none else p.store.entries.find? k := by
  simp only [PreferenceStore.remove, FilePreferences.remove]
  by_cases there : p.store.entries.contains key = true
  · obtain ⟨q, ok, synced', entries⟩ := synced.update (Dict.sortedErase synced.sorted key)
    rw [if_pos there, ok]
    exact ⟨q, rfl, synced', fun k => entries ▸ Dict.findErase p.store.entries key k⟩
  · rw [if_neg there]
    refine ⟨p, rfl, synced, fun k => ?_⟩
    have absent := (Dict.notContains _ _).mp (Bool.eq_false_iff.mpr there)
    by_cases same : k = key
    · rw [if_pos same, same, absent]
    · rw [if_neg same]

end PreferenceFile

namespace Preferences

def entries : Preferences → Entries
  | .memory m => m.entries
  | .file f => f.store.entries

def reopen : Preferences → Except KeyError Preferences
  | .memory m => .ok (.memory m)
  | .file f => (FilePreferences.ofFile f.files f.store.path).map fun store => .file ⟨store, f.files⟩

def Sound : Preferences → Prop
  | .memory _ => True
  | .file f => f.Synced

variable {p : Preferences}

theorem getEntry (p : Preferences) (key : String) :
    PreferenceStore.getString p key = p.entries.find? key := by
  cases p <;> rfl

theorem Sound.reopens (sound : p.Sound) : p.reopen = .ok p := by
  cases p with
  | memory m => rfl
  | file f =>
    have opened : FilePreferences.ofFile f.files f.store.path = .ok f.store := sound.reopens
    simp only [reopen, opened]
    rfl

theorem Sound.put (sound : p.Sound) (key value : String) :
    ∃ q : Preferences, PreferenceStore.putString p key value = (.ok (), q) ∧ q.Sound ∧
      ∀ k, q.entries.find? k = if k = key then some value else p.entries.find? k := by
  cases p with
  | memory m =>
    exact ⟨.memory ⟨m.entries.insert key value⟩, rfl, trivial,
      Dict.findInsert m.entries key value⟩
  | file f =>
    obtain ⟨q, ok, synced, entries⟩ := PreferenceFile.Synced.put sound key value
    refine ⟨.file q, ?_, synced, entries⟩
    simp only [PreferenceStore.putString] at ok ⊢
    obtain ⟨answered, stored⟩ := Prod.mk.inj ok
    rw [answered, stored]

theorem Sound.remove (sound : p.Sound) (key : String) :
    ∃ q : Preferences, PreferenceStore.remove p key = (.ok (), q) ∧ q.Sound ∧
      ∀ k, q.entries.find? k = if k = key then none else p.entries.find? k := by
  cases p with
  | memory m =>
    exact ⟨.memory ⟨m.entries.erase key⟩, rfl, trivial, Dict.findErase m.entries key⟩
  | file f =>
    obtain ⟨q, ok, synced, entries⟩ := PreferenceFile.Synced.remove sound key
    refine ⟨.file q, ?_, synced, entries⟩
    simp only [PreferenceStore.remove] at ok ⊢
    obtain ⟨answered, stored⟩ := Prod.mk.inj ok
    rw [answered, stored]

end Preferences
end RevForest
