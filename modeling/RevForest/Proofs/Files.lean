import Mathlib.Data.List.Induction
import RevForest.Files
import RevForest.Proofs.Dict

/-! What the operations of a file system leave as it was. None takes a directory away, so a path
that leads somewhere still leads there, and directories that were made need not be made again. A
file that is moved over another is read where that was. -/
namespace RevForest.FileSystem

variable {fs later made : FileSystem}

def Fits (fs : FileSystem) (place : Place) : Prop := fs.entry? place ≠ some .directory

theorem Fits.movable {place : Place} (fits : fs.Fits place) :
    ¬ (place.isAbove || place = .root) = true := by
  intro fixed
  unfold Fits entry? at fits
  exact fits (if_pos fixed)

theorem entryPut {place : Place} (fits : fs.Fits place) (entry : FileEntry) (p : Place) :
    FileSystem.entry? (fs.put place entry) p =
      if p = place then some entry else fs.entry? p := by
  unfold entry? put
  rw [Dict.findInsert]
  by_cases here : p = place
  · rw [if_neg (here ▸ fits.movable), if_pos here, if_pos here]
  · rw [if_neg here, if_neg here]

theorem entryErase {place : Place} (fits : fs.Fits place) (p : Place) :
    FileSystem.entry? ⟨fs.entries.erase place⟩ p =
      if p = place then none else fs.entry? p := by
  unfold entry?
  rw [Dict.findErase]
  by_cases here : p = place
  · rw [if_neg (here ▸ fits.movable), if_pos here, if_pos here]
  · rw [if_neg here, if_neg here]

def Keeps (fs later : FileSystem) : Prop :=
  ∀ place, fs.entry? place = some .directory → later.entry? place = some .directory

theorem Keeps.refl (fs : FileSystem) : fs.Keeps fs := fun _ there => there

theorem Keeps.trans {last : FileSystem} (kept : fs.Keeps later) (kept' : later.Keeps last) :
    fs.Keeps last := fun place there => kept' place (kept place there)

theorem keepsPut {place : Place} (fits : fs.Fits place) (entry : FileEntry) :
    fs.Keeps (fs.put place entry) := by
  intro p there
  have other : p ≠ place := fun same => fits (same ▸ there)
  rw [entryPut fits, if_neg other]
  exact there

theorem putKeeps {place : Place} (fits : fs.Fits place) (content : List UInt8) :
    (fs.put place (.file content)).Keeps fs := by
  intro p there
  rw [entryPut fits] at there
  split at there
  · cases there
  · exact there

theorem Keeps.follow (kept : fs.Keeps later) {names : List String} {here place : Place}
    (found : fs.follow here names = .ok place) : later.follow here names = .ok place := by
  fun_induction FileSystem.follow fs here names with
  | case1 => exact found
  | case2 => contradiction
  | case3 => contradiction
  | case4 here name rest there isHere ih =>
    rw [FileSystem.follow, kept _ there, if_pos isHere]
    exact ih found
  | case5 here rest there notHere ih =>
    rw [FileSystem.follow, kept _ there, if_neg notHere, if_pos rfl]
    exact ih found
  | case6 => contradiction
  | case7 here name rest there notHere notUp short ih =>
    rw [FileSystem.follow, kept _ there, if_neg notHere, if_neg notUp, if_neg short]
    exact ih found

theorem Keeps.locate (kept : fs.Keeps later) {path : String} {place : Place}
    (found : fs.locate path = .ok place) : later.locate path = .ok place := by
  unfold FileSystem.locate at found ⊢
  split
  · rw [if_pos ‹_›] at found
    contradiction
  · rw [if_neg ‹_›] at found
    cases names : readNames path with
    | error f => rw [names] at found; contradiction
    | ok names' =>
      rw [names] at found
      exact kept.follow found

theorem readNamesOk {path : String} {ns : List String} (readable : readNames path = .ok ns) :
    ns = names path := by
  unfold readNames at readable
  split at readable
  · cases readable
  · split at readable
    · cases readable
    · exact (Except.ok.inj readable).symm

theorem startThere (fs : FileSystem) (path : String) :
    fs.entry? (Place.start path) = some .directory := by
  unfold entry? Place.start
  split <;> exact if_pos rfl

theorem followAppend (fs : FileSystem) (here : Place) (names rest : List String) :
    fs.follow here (names ++ rest) =
      fs.follow here names >>= fun place => fs.follow place rest := by
  fun_induction FileSystem.follow fs here names with
  | case1 => rfl
  | case2 here name later none => rw [List.cons_append, FileSystem.follow, none]; rfl
  | case3 here name later content there => rw [List.cons_append, FileSystem.follow, there]; rfl
  | case4 here name later there isHere ih =>
    rw [List.cons_append, FileSystem.follow, there]
    exact (if_pos isHere).trans ih
  | case5 here later there notHere ih =>
    rw [List.cons_append, FileSystem.follow, there]
    exact (if_neg notHere).trans ((if_pos rfl).trans ih)
  | case6 here name later there notHere notUp long =>
    rw [List.cons_append, FileSystem.follow, there]
    exact (if_neg notHere).trans ((if_neg notUp).trans (if_pos long))
  | case7 here name later there notHere notUp short ih =>
    rw [List.cons_append, FileSystem.follow, there]
    exact (if_neg notHere).trans ((if_neg notUp).trans ((if_neg short).trans ih))

theorem followLast {here place : Place} {name : String} (own : isHere name = false)
    (found : fs.follow here [name] = .ok place) :
    fs.entry? here = some .directory ∧
      (name = ".." ∧ place = here.up ∨
        name ≠ ".." ∧ ¬ maxNameBytes < name.utf8ByteSize ∧ place = here ++ [name]) := by
  have dark : ¬ isHere name = true := Bool.eq_false_iff.mp own
  rw [FileSystem.follow] at found
  split at found
  · cases found
  · cases found
  · rename_i there
    refine ⟨there, ?_⟩
    rw [if_neg dark] at found
    split at found
    · rename_i up
      exact .inl ⟨up, (Except.ok.inj found).symm⟩
    · rename_i notUp
      split at found
      · cases found
      · rename_i short
        exact .inr ⟨notUp, short, (Except.ok.inj found).symm⟩

theorem followIdle {here : Place} (same : fs.entry? here = later.entry? here) {names : List String}
    (idle : ∀ n ∈ names, isHere n = true) :
    fs.follow here names = later.follow here names ∧
      ∀ place, fs.follow here names = .ok place → place = here := by
  induction names with
  | nil => exact ⟨rfl, fun place found => (Except.ok.inj found).symm⟩
  | cons name rest ih =>
    obtain ⟨first, others⟩ := List.forall_mem_cons.mp idle
    obtain ⟨along, still⟩ := ih others
    rw [FileSystem.follow, FileSystem.follow, ← same, if_pos first, if_pos first]
    cases fs.entry? here with
    | none => exact ⟨rfl, fun place found => by cases found⟩
    | some entry =>
      cases entry with
      | directory => exact ⟨along, still⟩
      | file content => exact ⟨rfl, fun place found => by cases found⟩

theorem keepsCreate (fs : FileSystem) (here : Place) (names : List String) :
    fs.Keeps (fs.createAlong here names).2 := by
  fun_induction createAlong fs here names with
  | case1 => exact .refl _
  | case2 _ _ _ _ _ ih => exact ih
  | case3 _ _ _ _ ih => exact ih
  | case4 => exact .refl _
  | case5 _ _ _ _ _ _ _ _ _ ih => exact ih
  | case6 => exact .refl _
  | case7 fs _ _ _ _ _ _ next none ih =>
    have fits : fs.Fits next := fun there => nomatch none.symm.trans there
    exact (keepsPut fits .directory).trans ih

theorem createAgain {here : Place} {names : List String}
    (ok : fs.createAlong here names = (.ok (), made)) (kept : made.Keeps later) :
    later.createAlong here names = (.ok (), later) := by
  fun_induction createAlong fs here names with
  | case1 => rfl
  | case2 fs here name rest isHere ih =>
    rw [createAlong, if_pos isHere]
    exact ih ok
  | case3 fs here rest notHere ih =>
    rw [createAlong, if_neg notHere, if_pos rfl]
    exact ih ok
  | case4 => cases ok
  | case5 fs here name rest notHere notUp short next there ih =>
    -- The directory stood there before, and the rest of the way has kept it.
    have keeps := keepsCreate fs next rest
    rw [ok] at keeps
    have still : later.entry? (here ++ [name]) = some .directory := kept next (keeps next there)
    rw [createAlong, if_neg notHere, if_neg notUp, if_neg short]
    dsimp only
    rw [still]
    exact ih ok
  | case6 => cases ok
  | case7 fs here name rest notHere notUp short next none ih =>
    have fits : fs.Fits next := fun there => nomatch none.symm.trans there
    -- The directory was made here, and the rest of the way has kept it.
    have there : FileSystem.entry? (fs.put next .directory) next = some .directory := by
      rw [entryPut fits, if_pos rfl]
    have keeps := keepsCreate (fs.put next .directory) next rest
    rw [ok] at keeps
    have still : later.entry? (here ++ [name]) = some .directory := kept next (keeps next there)
    rw [createAlong, if_neg notHere, if_neg notUp, if_neg short]
    dsimp only
    rw [still]
    exact ih ok

theorem createTwice {here : Place} {names : List String} {r : Except FileFault Unit}
    (ran : fs.createAlong here names = (r, made)) :
    made.createAlong here names = (r, made) := by
  have again {fs : FileSystem} {next : Place} {rest : List String}
      (there : fs.entry? next = some .directory) (ran : fs.createAlong next rest = (r, made)) :
      made.entry? next = some .directory := by
    have keeps := keepsCreate fs next rest
    rw [ran] at keeps
    exact keeps next there
  fun_induction createAlong fs here names with
  | case1 => cases ran; rfl
  | case2 fs here name rest isHere ih =>
    rw [createAlong, if_pos isHere]
    exact ih ran
  | case3 fs here rest notHere ih =>
    rw [createAlong, if_neg notHere, if_pos rfl]
    exact ih ran
  | case4 fs here name rest notHere notUp long =>
    cases ran
    rw [createAlong, if_neg notHere, if_neg notUp, if_pos long]
  | case5 fs here name rest notHere notUp short next there ih =>
    have still : made.entry? (here ++ [name]) = some .directory := again there ran
    rw [createAlong, if_neg notHere, if_neg notUp, if_neg short]
    dsimp only
    rw [still]
    exact ih ran
  | case6 fs here name rest notHere notUp short next content there =>
    cases ran
    have still : made.entry? (here ++ [name]) = some (.file content) := there
    rw [createAlong, if_neg notHere, if_neg notUp, if_neg short]
    dsimp only
    rw [still]
  | case7 fs here name rest notHere notUp short next none ih =>
    have fits : fs.Fits next := fun there => nomatch none.symm.trans there
    have there : FileSystem.entry? (fs.put next .directory) next = some .directory := by
      rw [entryPut fits, if_pos rfl]
    have still : made.entry? (here ++ [name]) = some .directory := again there ran
    rw [createAlong, if_neg notHere, if_neg notUp, if_neg short]
    dsimp only
    rw [still]
    exact ih ran

def Grounded (fs : FileSystem) : Prop :=
  ∀ place name, fs.entry? (place ++ [name]) ≠ none → fs.entry? place = some .directory

theorem Grounded.below (grounded : fs.Grounded) {here : Place} (absent : fs.entry? here = none)
    (names : List String) : fs.entry? (here ++ names) = none := by
  induction names using List.reverseRecOn with
  | nil => rwa [List.append_nil]
  | append_singleton names name ih =>
    by_contra there
    rw [← List.append_assoc] at there
    cases ih.symm.trans (grounded _ name there)

theorem emptyGrounded : empty.Grounded := by
  intro place name there
  have fixed : (Place.isAbove (place ++ [name]) || place ++ [name] = Place.root) = true := by
    by_contra free
    exact there (if_neg free)
  refine if_pos ?_
  rcases Bool.or_eq_true_iff.mp fixed with above | root
  · unfold Place.isAbove at above ⊢
    rw [List.all_append, Bool.and_eq_true] at above
    rw [above.1, Bool.true_or]
  · have length := congrArg List.length (of_decide_eq_true root)
    rw [List.length_append, List.length_singleton] at length
    have none : place = [] := List.length_eq_zero_iff.mp (Nat.succ.inj length)
    rw [none]
    rfl

structure Bare (fs : FileSystem) (here : Place) : Prop where
  there : fs.entry? here = some .directory
  below : ∀ name rest, fs.entry? (here ++ name :: rest) = none

def Straight (names : List String) : Prop :=
  ∀ n ∈ names, n ≠ ".." ∧ ¬ maxNameBytes < n.utf8ByteSize

theorem bareMade {next : Place} (absent : fs.entry? next = none)
    (below : ∀ name rest, fs.entry? (next ++ name :: rest) = none) :
    FileSystem.Bare (fs.put next .directory) next := by
  have fits : fs.Fits next := fun there => nomatch absent.symm.trans there
  refine ⟨by rw [entryPut fits, if_pos rfl], fun name rest => ?_⟩
  have longer : next ++ name :: rest ≠ next := fun same => by
    have length := congrArg List.length same
    rw [List.length_append, List.length_cons] at length
    omega
  rw [entryPut fits, if_neg longer, below]

theorem createBare {here : Place} {names : List String} (bare : fs.Bare here)
    (straight : Straight names) :
    ∃ made last, fs.createAlong here names = (.ok (), made) ∧ made.follow here names = .ok last ∧
      made.Bare last := by
  induction names generalizing fs here with
  | nil => exact ⟨fs, here, rfl, rfl, bare⟩
  | cons name rest ih =>
    obtain ⟨⟨notUp, short⟩, others⟩ := List.forall_mem_cons.mp straight
    have along (fs : FileSystem) (next : Place) (made : FileSystem)
        (kept : fs.entry? here = some .directory)
        (ran : fs.createAlong next rest = (.ok (), made)) :
        made.entry? here = some .directory := by
      have keeps := keepsCreate fs next rest
      rw [ran] at keeps
      exact keeps here kept
    rw [createAlong]
    by_cases idle : isHere name = true
    · rw [if_pos idle]
      obtain ⟨made, last, ran, found, bare'⟩ := ih bare others
      refine ⟨made, last, ran, ?_, bare'⟩
      rw [FileSystem.follow, along fs here made bare.there ran]
      exact (if_pos idle).trans found
    · have absent : fs.entry? (here ++ [name]) = none := bare.below name []
      have fits : fs.Fits (here ++ [name]) := fun there => nomatch absent.symm.trans there
      have next : FileSystem.Bare (fs.put (here ++ [name]) .directory) (here ++ [name]) :=
        bareMade absent fun n more => by rw [List.append_assoc]; exact bare.below _ _
      obtain ⟨made, last, ran, found, bare'⟩ := ih next others
      rw [if_neg idle, if_neg notUp, if_neg short]
      dsimp only
      rw [absent]
      refine ⟨made, last, ran, ?_, bare'⟩
      rw [FileSystem.follow, along _ _ made (keepsPut fits _ here bare.there) ran]
      exact (if_neg idle).trans ((if_neg notUp).trans ((if_neg short).trans found))

theorem createStraight (grounded : fs.Grounded) {here : Place} {names : List String}
    (there : fs.entry? here = some .directory) (straight : Straight names) :
    (fs.createAlong here names).2 = fs ∨
      (∀ name rest, fs.follow here (names ++ name :: rest) = .error .missing) ∧
        ∃ last, (fs.createAlong here names).2.follow here names = .ok last ∧
          (fs.createAlong here names).2.Bare last := by
  induction names generalizing here with
  | nil => exact .inl rfl
  | cons name rest ih =>
    obtain ⟨⟨notUp, short⟩, others⟩ := List.forall_mem_cons.mp straight
    have kept := keepsCreate fs here (name :: rest) here there
    simp only [List.cons_append, FileSystem.follow, kept, there]
    rw [createAlong]
    by_cases idle : isHere name = true
    · simp only [if_pos idle]
      exact ih there others
    · simp only [if_neg idle, if_neg notUp, if_neg short]
      cases found : fs.entry? (here ++ [name]) with
      | some entry =>
        cases entry with
        | directory => exact ih found others
        | file content => exact .inl rfl
      | none =>
        right
        have next := bareMade found fun n more => grounded.below found (n :: more)
        obtain ⟨made, last, ran, way, bare⟩ := createBare next others
        dsimp only
        rw [ran]
        refine ⟨fun n more => ?_, last, way, bare⟩
        obtain ⟨first, later, same⟩ := List.exists_cons_of_ne_nil
          (List.append_ne_nil_of_right_ne_nil rest (List.cons_ne_nil n more))
        rw [same, FileSystem.follow, found]

structure Leads (fs : FileSystem) (path : String) (place : Place) : Prop where
  located : fs.locate path = .ok place
  fits : fs.Fits place

theorem Leads.kept {path : String} {place : Place} (leads : fs.Leads path place)
    (kept : fs.Keeps later) (back : later.Keeps fs) : later.Leads path place :=
  ⟨kept.locate leads.located, fun there => leads.fits (back place there)⟩

theorem truncateFile {path : String} {place : Place} (leads : fs.Leads path place) :
    fs.truncate path = .ok (fs.put place (.file [])) := by
  simp only [truncate, leads.located, bind, Except.bind]
  split
  · exact absurd ‹_› leads.fits
  · rfl

theorem truncateLeads {path : String} (ok : fs.truncate path = .ok later) :
    ∃ place, fs.Leads path place := by
  unfold truncate at ok
  cases located : fs.locate path with
  | error f =>
    rw [located] at ok
    cases ok
  | ok place =>
    simp only [located, bind, Except.bind] at ok
    split at ok
    · cases ok
    · exact ⟨place, located, ‹_›⟩

theorem writeFileThere {path : String} {place : Place} {old : List UInt8}
    (located : fs.locate path = .ok place) (there : fs.entry? place = some (.file old))
    (content : List UInt8) : fs.write path content = .ok (fs.put place (.file content)) := by
  simp only [write, located, there, bind, Except.bind]

def Filled (fs : FileSystem) (place : Place) (content : List UInt8) (later : FileSystem) : Prop :=
  ∀ p, later.entry? p = if p = place then some (.file content) else fs.entry? p

namespace Filled
variable {place : Place} {content : List UInt8}

theorem there (filled : fs.Filled place content later) :
    later.entry? place = some (.file content) := by
  rw [filled, if_pos rfl]

theorem elsewhere (filled : fs.Filled place content later) {p : Place} (other : p ≠ place) :
    later.entry? p = fs.entry? p := by
  rw [filled, if_neg other]

theorem keeps (filled : fs.Filled place content later) (fits : fs.Fits place) :
    fs.Keeps later ∧ later.Keeps fs := by
  constructor
  · intro p directory
    rw [filled.elsewhere fun same => fits (same ▸ directory)]
    exact directory
  · intro p directory
    by_cases here : p = place
    · rw [here, filled.there] at directory
      cases directory
    · rwa [filled.elsewhere here] at directory

theorem put (fits : fs.Fits place) (content : List UInt8) :
    fs.Filled place content (fs.put place (.file content)) := entryPut fits _

theorem again (filled : fs.Filled place content later) (content' : List UInt8) :
    fs.Filled place content' (later.put place (.file content')) := by
  have fits : later.Fits place := fun directory => by
    rw [filled.there] at directory
    cases directory
  intro p
  rw [entryPut fits]
  by_cases here : p = place
  · rw [if_pos here, if_pos here]
  · rw [if_neg here, if_neg here, filled.elsewhere here]

end Filled

theorem Leads.filled {path : String} {place : Place} (leads : fs.Leads path place)
    (content : List UInt8) :
    ∃ opened written, fs.truncate path = .ok opened ∧ opened.write path content = .ok written ∧
      fs.Keeps written ∧ written.Keeps fs ∧ written.entry? place = some (.file content) := by
  have kept := keepsPut leads.fits (.file [])
  have back := putKeeps leads.fits []
  have leads' := leads.kept kept back
  have there : FileSystem.entry? (fs.put place (.file [])) place = some (.file []) := by
    rw [entryPut leads.fits, if_pos rfl]
  refine ⟨_, _, truncateFile leads, writeFileThere leads'.located there content,
    kept.trans (keepsPut leads'.fits _), (putKeeps leads'.fits content).trans back, ?_⟩
  rw [entryPut leads'.fits, if_pos rfl]

theorem readFileThere {path : String} {place : Place} {content : List UInt8}
    (located : fs.locate path = .ok place) (there : fs.entry? place = some (.file content)) :
    fs.readBytes path = .ok content := by
  simp only [readBytes, located, there, bind, Except.bind]

def moved (fs : FileSystem) (old new : Place) (content : List UInt8) : FileSystem :=
  if old = new then fs else (⟨fs.entries.erase old⟩ : FileSystem).put new (.file content)

theorem renameFile {source target : String} {old new : Place} {content : List UInt8}
    (located : fs.locate source = .ok old) (there : fs.entry? old = some (.file content))
    (leads : fs.Leads target new) :
    fs.rename source target = .ok (fs.moved old new content) := by
  simp only [rename, located, readFileThere located there, leads.located, bind, Except.bind, moved]
  split
  · exact absurd ‹_› leads.fits
  · split <;> rfl

theorem renameLeads {source target : String} (ok : fs.rename source target = .ok later) :
    ∃ place, fs.Leads target place := by
  unfold rename at ok
  cases located : fs.locate source with
  | error f =>
    rw [located] at ok
    cases ok
  | ok old =>
    cases read : fs.readBytes source with
    | error f =>
      rw [located, read] at ok
      cases ok
    | ok content =>
      cases found : fs.locate target with
      | error f =>
        rw [located, read, found] at ok
        cases ok
      | ok new =>
        simp only [located, read, found, bind, Except.bind] at ok
        split at ok
        · cases ok
        · exact ⟨new, found, ‹_›⟩

theorem entryMoved {old new : Place} {content : List UInt8}
    (there : fs.entry? old = some (.file content)) (fits : fs.Fits new) (p : Place) :
    FileSystem.entry? (fs.moved old new content) p =
      if p = new then some (.file content) else if p = old then none else fs.entry? p := by
  have apart : fs.Fits old := fun directory => nomatch there.symm.trans directory
  unfold moved
  split
  · rename_i same
    by_cases here : p = new
    · rw [if_pos here, here, ← same, there]
    · rw [if_neg here, if_neg fun here' => here (here'.trans same)]
  · rename_i other
    have fits' : (⟨fs.entries.erase old⟩ : FileSystem).Fits new := by
      unfold Fits
      rw [entryErase apart, if_neg (Ne.symm other)]
      exact fits
    rw [entryPut fits', entryErase apart]

theorem keepsMoved {old new : Place} {content : List UInt8}
    (there : fs.entry? old = some (.file content)) (fits : fs.Fits new) :
    fs.Keeps (fs.moved old new content) ∧ (fs.moved old new content).Keeps fs := by
  constructor
  · intro p directory
    have notNew : p ≠ new := fun same => fits (same ▸ directory)
    have notOld : p ≠ old := fun same => nomatch (same ▸ there).symm.trans directory
    rw [entryMoved there fits, if_neg notNew, if_neg notOld]
    exact directory
  · intro p directory
    rw [entryMoved there fits] at directory
    split at directory
    · cases directory
    · split at directory
      · cases directory
      · exact directory

theorem readTextOf {path content : String}
    (read : fs.readBytes path = .ok content.toByteArray.data.toList) :
    fs.readText path = .ok content := by
  have whole : String.fromUTF8? content.toByteArray = some content :=
    dif_pos content.isValidUTF8
  simp only [readText, read, bind, Except.bind, Array.toArray_toList, whole]

end RevForest.FileSystem
