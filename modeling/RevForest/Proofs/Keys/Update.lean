import RevForest.Proofs.Keys.Preferences
import RevForest.Proofs.Path

/-! What a change of a preferences file leaves when it fails. The entries in memory are published
last, so they are safe; the file is, where neither making its directory nor opening the temporary
file changes what its path reads. Only a file with the name of its own temporary file, or a path
that leads elsewhere once its directories are made, can lose anything. -/
namespace RevForest.FilePreferences
open FileSystem (Filled)

variable {path : String} {store : FilePreferences} {files made later : FileSystem}

theorem makeDirectoryOr (device : DeviceFaults) (path : String) (files : FileSystem) :
    makeDirectory device path files = makeDirectory .never path files ∨
      makeDirectory device path files = (.error .refused, files) := by
  unfold makeDirectory
  dsimp only
  split
  · exact .inl rfl
  · cases device.refuses .makeDirectory with
    | false => exact .inl rfl
    | true => exact .inr rfl

theorem makeDirectoryTwice {r : Except FileFault Unit}
    (ran : makeDirectory .never path files = (r, made)) :
    makeDirectory .never path made = (r, made) := by
  rw [makeDirectoryNever] at ran ⊢
  by_cases plain : Path.parent path = ""
  · rw [if_pos plain] at ran ⊢
    cases ran
    rfl
  · rw [if_neg plain] at ran ⊢
    unfold FileSystem.createDirectories at ran ⊢
    cases names : FileSystem.readNames (Path.parent path) with
    | error f =>
      rw [names] at ran
      cases ran
      rfl
    | ok names' =>
      rw [names] at ran
      exact FileSystem.createTwice ran

theorem stepOr (device : DeviceFaults) (s : WriteStep) (files : FileSystem)
    (act : FileSystem → Except FileFault FileSystem) :
    step device s files act = act files ∨ step device s files act = .error .refused := by
  unfold step
  cases device.refuses s with
  | false => exact .inl rfl
  | true => exact .inr rfl

inductive Write (store : FilePreferences) (content : List UInt8) (files : FileSystem) :
    Except FileFault Unit → FileSystem → Prop where
  | untouched (f : FileFault) : Write store content files (.error f) files
  | directory {r made} (ran : makeDirectory .never store.path files = (r, made)) (f : FileFault) :
      Write store content files (.error f) made
  | temporary {made place part later} (ran : makeDirectory .never store.path files = (.ok (), made))
      (leads : made.Leads store.temporary place) (filled : Filled made place part later)
      (f : FileFault) : Write store content files (.error f) later
  | replaced {made place new written}
      (ran : makeDirectory .never store.path files = (.ok (), made))
      (leads : made.Leads store.temporary place) (filled : Filled made place content written)
      (target : written.Leads store.path new) :
      Write store content files (.ok ()) (written.moved place new content)

theorem writeEnds (device : DeviceFaults) (store : FilePreferences) (content : List UInt8)
    (files : FileSystem) :
    Write store content files (store.writeAtomic device content files).1
      (store.writeAtomic device content files).2 := by
  unfold writeAtomic
  rcases makeDirectoryOr device store.path files with same | refused
  · rw [same]
    cases ran : makeDirectory .never store.path files with
    | mk r made =>
    cases r with
    | error f => exact .directory ran f
    | ok u =>
      dsimp only
      rcases stepOr device .openTemporary made (·.truncate store.temporary) with opens | refused
      · rw [opens]
        cases truncated : made.truncate store.temporary with
        | error f => exact .directory ran f
        | ok opened =>
          obtain ⟨place, leads⟩ := FileSystem.truncateLeads truncated
          cases truncated.symm.trans (FileSystem.truncateFile leads)
          have filled := Filled.put leads.fits []
          generalize made.put place (.file []) = opened at filled
          have located := (filled.keeps leads.fits).1.locate leads.located
          have writes (part : List UInt8) := FileSystem.writeFileThere located filled.there part
          dsimp only
          rcases stepOr device .write opened (·.write store.temporary content) with wrote | refused
          · rw [wrote, writes]
            have filled' := filled.again content
            generalize opened.put place (.file content) = written at filled'
            have located' := (filled'.keeps leads.fits).1.locate leads.located
            dsimp only
            rcases stepOr device .flush written .ok with flushed | refused
            · rw [flushed]
              dsimp only
              rcases stepOr device .rename written (·.rename store.temporary store.path) with
                moves | refused
              · rw [moves]
                cases renamed : written.rename store.temporary store.path with
                | error f => exact .temporary ran leads filled' f
                | ok later =>
                  obtain ⟨new, target⟩ := FileSystem.renameLeads renamed
                  cases renamed.symm.trans (FileSystem.renameFile located' filled'.there target)
                  exact .replaced ran leads filled' target
              · rw [refused]
                exact .temporary ran leads filled' _
            · rw [refused]
              exact .temporary ran leads filled' _
          · rw [refused]
            dsimp only
            rw [writes]
            exact .temporary ran leads (filled.again _) _
      · rw [refused]
        exact .directory ran _
  · rw [refused]
    exact .untouched _

theorem ofFileSame (same : later.readBytes path = files.readBytes path) :
    ofFile later path = ofFile files path := by
  unfold ofFile FileSystem.readText
  rw [same]

theorem madeReads (grounded : files.Grounded)
    (straight : FileSystem.Straight (FileSystem.names path)) :
    (makeDirectory .never path files).2.readBytes path = files.readBytes path := by
  rw [makeDirectoryNever]
  split
  · rfl
  · rename_i filled
    rcases Path.splitsOrNone path with none | ⟨front, name, back, splits⟩
    · exact absurd (by rw [Path.parent, none]; rfl) filled
    rw [splits.parent] at filled ⊢
    unfold FileSystem.createDirectories
    cases readable : FileSystem.readNames (Path.join front) with
    | error f => rfl
    | ok ns =>
      rw [splits.names] at straight
      obtain ⟨straight, last⟩ := List.forall_mem_append.mp straight
      obtain ⟨notUp, short⟩ := last name List.mem_cons_self
      have dark : ¬ FileSystem.isHere name = true := Bool.eq_false_iff.mp splits.own
      have listed : front ≠ [] := fun none => filled (none ▸ rfl)
      rw [FileSystem.readNamesOk readable, Path.namesJoin listed splits.plain.1,
        splits.startFront filled]
      dsimp only
      rcases FileSystem.createStraight grounded (FileSystem.startThere files path) straight with
        same | ⟨nowhere, last, way, bare⟩
      · rw [same]
      -- The file was missing with its directory, and now it is missing in an empty one.
      unfold FileSystem.readBytes FileSystem.locate
      rw [if_neg splits.filled, if_neg splits.filled]
      cases found : FileSystem.readNames path with
      | error f => rfl
      | ok ns =>
        simp only [bind, Except.bind]
        rw [FileSystem.readNamesOk found, splits.names, nowhere, FileSystem.followAppend, way]
        have absent := bare.below name []
        simp only [bind, Except.bind, FileSystem.follow, bare.there, if_neg dark, if_neg notUp,
          if_neg short]
        cases back with
        | nil => simp only [FileSystem.follow, absent]
        | cons n rest => simp only [FileSystem.follow, absent]

theorem openedFrom (opened : ofFile files path = .ok store) :
    files.readText path = .error .missing ∧ store.entries = Dict.empty ∨
      ∃ text, files.readText path = .ok text ∧ Entries.ofText? text = some store.entries := by
  simp only [ofFile, bind, Except.bind] at opened
  split at opened
  · cases opened
    exact .inl ⟨‹_›, rfl⟩
  · cases opened
  · rename_i text read
    split at opened
    · cases opened
    · cases opened
      exact .inr ⟨text, read, ‹_›⟩

theorem openedSorted (opened : ofFile files path = .ok store) : store.entries.Sorted := by
  rcases openedFrom opened with ⟨_, empty⟩ | ⟨text, _, parsed⟩
  · exact empty ▸ Dict.sortedEmpty
  · obtain ⟨w, _, strings⟩ := Option.bind_eq_some_iff.mp parsed
    unfold Wire.asStrings? at strings
    split at strings
    · obtain ⟨es, _, same⟩ := Option.bind_eq_some_iff.mp strings
      exact Option.some.inj same ▸ Dict.sortedOfList es
    · cases strings

theorem emptyUnopened (there : files.readText path ≠ .error .missing)
    (empty : ∀ text, files.readText path = .ok text → text = "") :
    ofFile files path ≠ .ok store := by
  intro opened
  rcases openedFrom opened with ⟨missing, _⟩ | ⟨text, read, parsed⟩
  · exact there missing
  · cases empty text read
    cases parsed

/-- Neither making the directory nor opening the temporary file changes what the path reads. -/
structure Safe (files : FileSystem) (path : String) : Prop where
  directory : ofFile (makeDirectory .never path files).2 path = ofFile files path
  temporary : (makeDirectory .never path files).1 = .ok () → Path.OwnTemporary path →
    ∀ opened, (makeDirectory .never path files).2.truncate (Path.withExtension path "tmp") ≠
      .ok opened

theorem straightSafe (grounded : files.Grounded)
    (straight : FileSystem.Straight (FileSystem.names path)) (other : ¬ Path.OwnTemporary path) :
    Safe files path :=
  ⟨ofFileSame (madeReads grounded straight), fun _ own => absurd own other⟩

theorem Safe.after (safe : Safe files store.path)
    (temporary : store.temporary = Path.withExtension store.path "tmp") {content : List UInt8}
    {r : Except FileFault Unit} (write : Write store content files r later) :
    Safe later store.path ∧
      (∀ f, r = .error f → ofFile later store.path = ofFile files store.path) ∧
      (r = .ok () → later.readBytes store.path = .ok content) := by
  -- A temporary file that could be opened has another name.
  have other {made place} (ran : makeDirectory .never store.path files = (.ok (), made))
      (leads : made.Leads store.temporary place) : ¬ Path.OwnTemporary store.path := by
    intro own
    have refused := safe.temporary (by rw [ran]) own
    rw [ran, ← temporary] at refused
    exact refused _ (FileSystem.truncateFile leads)
  have onward {made later : FileSystem}
      (ran : makeDirectory .never store.path files = (.ok (), made)) (kept : made.Keeps later)
      (apart : ¬ Path.OwnTemporary store.path) : Safe later store.path := by
    have again := directoryAgain ran kept
    exact ⟨by rw [again], fun _ own => absurd own apart⟩
  cases write with
  | untouched f => exact ⟨safe, fun _ _ => rfl, fun ok => by cases ok⟩
  | directory ran f =>
    have again := makeDirectoryTwice ran
    have same := safe.directory
    have refused := safe.temporary
    rw [ran] at same refused
    exact ⟨⟨by rw [again], by rw [again]; exact refused⟩, fun _ _ => same, fun ok => by cases ok⟩
  | temporary ran leads filled f =>
    have apart := other ran leads
    have kept := (filled.keeps leads.fits).1
    have same := safe.directory
    rw [ran] at same
    refine ⟨onward ran kept apart, fun _ _ => (ofFileSame ?_).trans same, fun ok => by cases ok⟩
    rcases Path.temporaryPath store.path with ⟨_, own⟩ | ⟨_, _, _, _, beside, ownIff⟩
    · exact absurd own apart
    · exact beside.readBytes (fun same => apart (ownIff.mpr same)) (temporary ▸ leads) filled
  | replaced ran leads filled target =>
    have apart := other ran leads
    have kept := (filled.keeps leads.fits).1
    obtain ⟨onward', _⟩ := FileSystem.keepsMoved filled.there target.fits
    refine ⟨onward ran (kept.trans onward') apart, fun f none => (by cases none), fun _ => ?_⟩
    have holds := FileSystem.entryMoved filled.there target.fits
    refine FileSystem.readFileThere (onward'.locate target.located) ?_
    rw [holds, if_pos rfl]

inductive Change where
  | put (key value : String)
  | remove (key : String)

def Change.apply (entries : Entries) : Change → Entries
  | .put key value => entries.insert key value
  | .remove key => entries.erase key

def change (device : DeviceFaults) (store : FilePreferences) (files : FileSystem) :
    Change → Except KeyError Unit × FilePreferences × FileSystem
  | .put key value => store.putString device files key value
  | .remove key => store.remove device files key

def changes (store : FilePreferences) (files : FileSystem)
    (history : List (DeviceFaults × Change)) : FilePreferences × FileSystem :=
  history.foldl (fun now call => (change call.1 now.1 now.2 call.2).2) (store, files)

/-- A change that fails leaves the store, and what opening its path gives. One that succeeds changes
both as it says. -/
structure Atomic (device : DeviceFaults) (store : FilePreferences) (files : FileSystem)
    (c : Change) : Prop where
  failed : ∀ e, (change device store files c).1 = .error e →
    (change device store files c).2.1 = store ∧
      ofFile (change device store files c).2.2 store.path = .ok store
  done : (change device store files c).1 = .ok () →
    (change device store files c).2.1 = { store with entries := c.apply store.entries } ∧
      ofFile (change device store files c).2.2 store.path =
        .ok { store with entries := c.apply store.entries }

structure Guarded (store : FilePreferences) (files : FileSystem) : Prop where
  opened : ofFile files store.path = .ok store
  safe : Safe files store.path

theorem Guarded.update (guarded : Guarded store files) (device : DeviceFaults) {entries : Entries}
    (sorted : entries.Sorted) :
    (∃ e later, store.update device files entries = (.error e, store, later) ∧
        Guarded store later) ∨
      ∃ later, store.update device files entries = (.ok (), { store with entries }, later) ∧
        Guarded { store with entries } later := by
  have temporary := (PreferenceFile.opensAt guarded.opened).2
  have write := writeEnds device store entries.pretty.toByteArray.data.toList files
  unfold FilePreferences.update
  generalize store.writeAtomic device entries.pretty.toByteArray.data.toList files = result at write
  obtain ⟨r, later⟩ := result
  obtain ⟨safe, kept, holds⟩ := guarded.safe.after temporary write
  cases r with
  | error f => exact .inl ⟨_, later, rfl, (kept f rfl).trans guarded.opened, safe⟩
  | ok u =>
    refine .inr ⟨later, rfl, ?_, safe⟩
    exact (PreferenceFile.opensHolding sorted (holds rfl)).trans (by rw [← temporary])

theorem Guarded.change (guarded : Guarded store files) (device : DeviceFaults) (c : Change) :
    Atomic device store files c ∧
      Guarded (FilePreferences.change device store files c).2.1
        (FilePreferences.change device store files c).2.2 ∧
      (FilePreferences.change device store files c).2.1.path = store.path := by
  have updated (sorted : (c.apply store.entries).Sorted)
      (same : FilePreferences.change device store files c =
        store.update device files (c.apply store.entries)) :
      Atomic device store files c ∧
        Guarded (FilePreferences.change device store files c).2.1
          (FilePreferences.change device store files c).2.2 ∧
        (FilePreferences.change device store files c).2.1.path = store.path := by
    rcases guarded.update device sorted with ⟨e, later, ended, after⟩ | ⟨later, ended, after⟩
    · have ended := same.trans ended
      refine ⟨⟨fun e' _ => ?_, fun ok => ?_⟩, ?_, ?_⟩ <;> rw [ended]
      · exact ⟨rfl, after.opened⟩
      · rw [ended] at ok
        cases ok
      · exact after
    · have ended := same.trans ended
      refine ⟨⟨fun e none => ?_, fun _ => ?_⟩, ?_, ?_⟩ <;> rw [ended]
      · rw [ended] at none
        cases none
      · exact ⟨rfl, after.opened⟩
      · exact after
  have sorted := openedSorted guarded.opened
  cases c with
  | put key value => exact updated (Dict.sortedInsert sorted key value) rfl
  | remove key =>
    by_cases there : store.entries.contains key = true
    · exact updated (Dict.sortedErase sorted key) (if_pos there)
    · -- Nothing is removed, and nothing written.
      have same : FilePreferences.change device store files (.remove key) =
          (.ok (), store, files) := if_neg there
      have absent := (Dict.notContains _ _).mp (Bool.eq_false_iff.mpr there)
      have entries : Change.apply store.entries (.remove key) = store.entries :=
        Dict.eraseAbsent absent
      refine ⟨⟨fun e none => ?_, fun _ => ?_⟩, ?_, ?_⟩
      · rw [same] at none
        cases none
      · rw [same, entries]
        exact ⟨rfl, guarded.opened⟩
      · rw [same]
        exact guarded
      · rw [same]

theorem Guarded.changes (guarded : Guarded store files) (history : List (DeviceFaults × Change)) :
    Guarded (changes store files history).1 (changes store files history).2 ∧
      (changes store files history).1.path = store.path := by
  induction history generalizing store files with
  | nil => exact ⟨guarded, rfl⟩
  | cons call rest ih =>
    obtain ⟨_, after, path⟩ := guarded.change call.1 call.2
    obtain ⟨last, same⟩ := ih after
    exact ⟨last, same.trans path⟩

def refusing (s : WriteStep) : DeviceFaults := ⟨fun t => t = s, 0⟩

theorem unopenedLeaves {r : Except FileFault Unit}
    (ran : makeDirectory .never store.path files = (r, made)) (key value : String) :
    ∃ e, change (refusing .openTemporary) store files (.put key value) =
      (.error e, store, made) := by
  have same : makeDirectory (refusing .openTemporary) store.path files = (r, made) := ran
  unfold change putString FilePreferences.update writeAtomic
  dsimp only
  rw [same]
  cases r with
  | error f => exact ⟨_, rfl⟩
  | ok u => exact ⟨_, rfl⟩

theorem unwrittenLeaves (ran : makeDirectory .never store.path files = (.ok (), made))
    {place : Place} (leads : made.Leads store.temporary place) (key value : String) :
    ∃ e later, change (refusing .write) store files (.put key value) = (.error e, store, later) ∧
      Filled made place [] later := by
  have same : makeDirectory (refusing .write) store.path files = (.ok (), made) := ran
  have filled := Filled.put leads.fits []
  have located := (filled.keeps leads.fits).1.locate leads.located
  have opens : step (refusing .write) .openTemporary made (·.truncate store.temporary) =
      .ok (made.put place (.file [])) := FileSystem.truncateFile leads
  have nothing (content : List UInt8) : content.take (refusing .write).written = [] := rfl
  have empty := FileSystem.writeFileThere located filled.there []
  refine ⟨.ofFault .refused, (made.put place (.file [])).put place (.file []), ?_, filled.again []⟩
  unfold change putString FilePreferences.update writeAtomic
  dsimp only
  rw [same]
  dsimp only
  rw [opens]
  dsimp only
  rw [nothing, empty]
  rfl

theorem Atomic.left {device : DeviceFaults} {c : Change} (atomic : Atomic device store files c)
    {e : KeyError} {kept : FilePreferences}
    (ended : change device store files c = (.error e, kept, later)) :
    ofFile later store.path = .ok store := by
  have left := (atomic.failed e (congrArg Prod.fst ended)).2
  rwa [ended] at left

theorem safeIff (opened : ofFile files path = .ok store) :
    Safe files path ↔ ∀ history device c,
      ofFile (changes store files history).2 path = .ok (changes store files history).1 ∧
        Atomic device (changes store files history).1 (changes store files history).2 c := by
  obtain rfl := (PreferenceFile.opensAt opened).1
  have temporary := (PreferenceFile.opensAt opened).2
  constructor
  · intro safe history device c
    have guarded : Guarded store files := ⟨opened, safe⟩
    obtain ⟨now, path⟩ := guarded.changes history
    exact ⟨path ▸ now.opened, (now.change device c).1⟩
  · intro atomic
    have now (device : DeviceFaults) (c : Change) : Atomic device store files c :=
      (atomic [] device c).2
    cases ran : makeDirectory .never store.path files with
    | mk r made =>
    constructor
    · obtain ⟨e, ended⟩ := unopenedLeaves ran "" ""
      rw [ran]
      exact ((now _ _).left ended).trans opened.symm
    · rw [ran]
      intro ok own emptied truncated
      cases ok
      obtain ⟨place, leads⟩ := FileSystem.truncateLeads truncated
      obtain ⟨e, later, ended, filled⟩ := unwrittenLeaves ran (temporary ▸ leads) "" ""
      obtain ⟨there, empty⟩ := Path.ownRead own leads filled
      exact emptyUnopened there empty ((now _ _).left ended)

/-- Changes are done in the file as in memory or not at all, whatever steps the device refuses and
however long the history is, exactly where the path is safe. A path that never goes up is, unless
its name is that of its own temporary file. -/
theorem changesAtomic (opened : ofFile files path = .ok store) :
    (Safe files path ↔ ∀ history device c,
      ofFile (changes store files history).2 path = .ok (changes store files history).1 ∧
        Atomic device (changes store files history).1 (changes store files history).2 c) ∧
    (files.Grounded → FileSystem.Straight (FileSystem.names path) → ¬ Path.OwnTemporary path →
      Safe files path) :=
  ⟨safeIff opened, straightSafe⟩

namespace Sample

-- Two refused changes and one that is done between them.
def history : List (DeviceFaults × Change) :=
  [(refusing .flush, .put "a" "0"), (.never, .put "a" "1"), (refusing .rename, .put "b" "2")]

end Sample

theorem refusedChangesLoseNothing :
    ∃ store, ofFile FileSystem.empty "keys/prefs.json" = .ok store ∧
      (changes store FileSystem.empty Sample.history).1.entries = ⟨[("a", "1")]⟩ ∧
      ofFile (changes store FileSystem.empty Sample.history).2 "keys/prefs.json" =
        .ok (changes store FileSystem.empty Sample.history).1 := by
  have opened : ofFile FileSystem.empty "keys/prefs.json" =
      .ok ⟨"keys/prefs.json", "keys/prefs.tmp", Dict.empty⟩ := rfl
  have straight : FileSystem.Straight (FileSystem.names "keys/prefs.json") := by
    unfold FileSystem.Straight
    decide
  obtain ⟨exactly, safe⟩ := changesAtomic opened
  have kept := exactly.mp (safe FileSystem.emptyGrounded straight (by decide)) Sample.history .never
    (.remove "a")
  exact ⟨_, opened, by decide, kept.1⟩

/-- A path whose temporary path is the same but for the slash: the refused change leaves a file in
the way. One that is its own temporary path is empty after a refused write. -/
theorem ownTemporaryLost :
    (ofFile FileSystem.empty "prefs.tmp/" = .ok ⟨"prefs.tmp/", "prefs.tmp", Dict.empty⟩ ∧
      ∃ later, putString .never ⟨"prefs.tmp/", "prefs.tmp", Dict.empty⟩ FileSystem.empty "a" "1" =
          (.error (.ofFault .notDirectory), ⟨"prefs.tmp/", "prefs.tmp", Dict.empty⟩, later) ∧
        ofFile later "prefs.tmp/" = .error (.ofFault .notDirectory)) ∧
    ∃ held lost, putString .never ⟨"prefs.tmp", "prefs.tmp", Dict.empty⟩ FileSystem.empty "a" "1" =
        (.ok (), ⟨"prefs.tmp", "prefs.tmp", ⟨[("a", "1")]⟩⟩, held) ∧
      putString (refusing .write) ⟨"prefs.tmp", "prefs.tmp", ⟨[("a", "1")]⟩⟩ held "b" "2" =
        (.error (.ofFault .refused), ⟨"prefs.tmp", "prefs.tmp", ⟨[("a", "1")]⟩⟩, lost) ∧
      ofFile lost "prefs.tmp" = .error (.corrupt "prefs.tmp" Json.unreadable) :=
  ⟨⟨rfl, _, rfl, rfl⟩, _, _, rfl, rfl, rfl⟩

end RevForest.FilePreferences
