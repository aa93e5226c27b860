import RevForest.Keys.KeyStorage
import RevForest.Proofs.Keys.KeyData
import RevForest.Proofs.Keys.Preferences

/-! Stored keys are a map from identifiers. What is found under an identifier is what the last
change of it left there, whatever was done with other identifiers and however often a file store
was opened again meanwhile. -/
namespace RevForest

inductive KeyOp where
  | save (key : KeyData)
  | get
  | isStored
  | clear

inductive KeyCall where
  | op (identifier : String) (o : KeyOp)
  | reopen

inductive KeyReply where
  | done
  | key (found : Option KeyData)
  | stored (there : Bool)
  deriving DecidableEq

abbrev KeyAnswer := Except KeyError KeyReply

structure KeyState where
  store : Preferences
  log : Log

namespace KeyState

def perform (st : KeyState) (s : KeyStorage) : KeyOp → KeyAnswer × KeyState
  | .save k =>
    let (r, store, log) := s.save k st.store st.log
    (r.map fun _ => .done, ⟨store, log⟩)
  | .get =>
    let (found, log) := s.get st.store st.log
    (.ok (.key found), ⟨st.store, log⟩)
  | .isStored => (.ok (.stored (s.isStored st.store)), st)
  | .clear =>
    let (r, store, log) := s.clear st.store st.log
    (r.map fun _ => .done, ⟨store, log⟩)

def serve (st : KeyState) : KeyCall → KeyAnswer × KeyState
  | .op identifier o =>
    match KeyStorage.make identifier with
    | .error e => (.error e, st)
    | .ok s => st.perform s o
  | .reopen =>
    match st.store.reopen with
    | .error e => (.error e, st)
    | .ok store => (.ok .done, ⟨store, st.log⟩)

def run (st : KeyState) : List KeyCall → List KeyAnswer × KeyState
  | [] => ([], st)
  | c :: rest =>
    let (answer, st) := st.serve c
    let (answers, st) := st.run rest
    (answer :: answers, st)

end KeyState

namespace KeyCall

def leaves? (identifier : String) : KeyCall → Option (Option KeyData)
  | .op i (.save k) => if i = identifier then some (some k) else none
  | .op i .clear => if i = identifier then some none else none
  | _ => none

def lastSaved (calls : List KeyCall) (identifier : String) : Option KeyData :=
  (calls.filterMap (leaves? identifier)).getLast?.join

def answer (before : List KeyCall) : KeyCall → KeyReply
  | .op identifier .get => .key (lastSaved before identifier)
  | .op identifier .isStored => .stored (lastSaved before identifier).isSome
  | _ => .done

def answers (before : List KeyCall) : List KeyCall → List KeyAnswer
  | [] => []
  | c :: rest => .ok (c.answer before) :: answers (before ++ [c]) rest

def Proper : KeyCall → Prop
  | .op identifier o => identifier ≠ "" ∧ ∀ k, o = .save k → k.Valid
  | .reopen => True

def Names (identifier : String) : KeyCall → Prop
  | .op i _ => i = identifier
  | .reopen => False

theorem lastSavedSnoc (calls : List KeyCall) (c : KeyCall) (identifier : String) :
    lastSaved (calls ++ [c]) identifier =
      (c.leaves? identifier).getD (lastSaved calls identifier) := by
  unfold lastSaved
  rw [List.filterMap_append]
  cases left : c.leaves? identifier with
  | none => simp [left]
  | some k => simp [left]

theorem lastSavedOthers (calls : List KeyCall) {others : List KeyCall} {identifier : String}
    (apart : ∀ c ∈ others, ¬ c.Names identifier) :
    lastSaved (calls ++ others) identifier = lastSaved calls identifier := by
  have silent : others.filterMap (leaves? identifier) = [] := by
    refine List.filterMap_eq_nil_iff.mpr fun c member => ?_
    have other := apart c member
    match c with
    | .op i (.save k) => exact if_neg other
    | .op i .clear => exact if_neg other
    | .op i .get => rfl
    | .op i .isStored => rfl
    | .reopen => rfl
  unfold lastSaved
  rw [List.filterMap_append, silent, List.append_nil]

end KeyCall

theorem KeyStorage.entryNames {i j : String}
    (same : (KeyStorage.mk i).entryName = (KeyStorage.mk j).entryName) : i = j := by
  unfold entryName at same
  exact (String.append_right_inj _).mp same

namespace KeyState
open KeyCall (lastSaved)

structure Holds (st : KeyState) (calls : List KeyCall) : Prop where
  sound : st.store.Sound
  valid : ∀ identifier k, lastSaved calls identifier = some k → k.Valid
  found : ∀ identifier, st.store.entries.find? (KeyStorage.mk identifier).entryName =
    (lastSaved calls identifier).map fun k => k.json.render

variable {st : KeyState} {calls : List KeyCall} {c : KeyCall}

theorem Holds.read (holds : st.Holds calls) (silent : ∀ i, c.leaves? i = none) (log : Log) :
    Holds ⟨st.store, log⟩ (calls ++ [c]) := by
  have same (i : String) : lastSaved (calls ++ [c]) i = lastSaved calls i := by
    rw [KeyCall.lastSavedSnoc, silent, Option.getD_none]
  exact ⟨holds.sound, fun i k saved => holds.valid i k ((same i).symm.trans saved),
    fun i => (same i).symm ▸ holds.found i⟩

theorem Holds.change (holds : st.Holds calls) {identifier : String} {left : Option KeyData}
    (leaves : ∀ i, c.leaves? i = if identifier = i then some left else none)
    (valid : ∀ k, left = some k → k.Valid) {store : Preferences} (sound : store.Sound)
    (found : ∀ key, store.entries.find? key =
      if key = (KeyStorage.mk identifier).entryName then left.map fun k => k.json.render
      else st.store.entries.find? key) (log : Log) :
    Holds ⟨store, log⟩ (calls ++ [c]) := by
  have now (i : String) : lastSaved (calls ++ [c]) i =
      if identifier = i then left else lastSaved calls i := by
    rw [KeyCall.lastSavedSnoc, leaves]
    split <;> rfl
  refine ⟨sound, fun i k saved => ?_, fun i => ?_⟩
  · rw [now] at saved
    split at saved
    · exact valid k saved
    · exact holds.valid i k saved
  · rw [now, found]
    by_cases here : identifier = i
    · rw [if_pos here, if_pos (here ▸ rfl)]
    · -- Other identifiers have other entries.
      rw [if_neg here, if_neg fun same => here (KeyStorage.entryNames same).symm]
      exact holds.found i

theorem Holds.got (holds : st.Holds calls) (identifier : String) :
    (KeyStorage.mk identifier).get st.store st.log = (lastSaved calls identifier, st.log) := by
  have found := holds.found identifier
  unfold KeyStorage.get
  rw [Preferences.getEntry, found]
  cases saved : lastSaved calls identifier with
  | none => rfl
  | some k =>
    have read := KeyData.readStored (holds.valid _ _ saved) (KeyStorage.mk identifier).entryName
    simp only [Option.map_some, read]

theorem Holds.there (holds : st.Holds calls) (identifier : String) :
    (KeyStorage.mk identifier).isStored st.store = (lastSaved calls identifier).isSome := by
  unfold KeyStorage.isStored PreferenceStore.contains
  rw [Preferences.getEntry, holds.found, Option.isSome_map]

theorem Holds.perform (holds : st.Holds calls) (identifier : String) {o : KeyOp}
    (valid : ∀ k, o = .save k → k.Valid) :
    (st.perform ⟨identifier⟩ o).1 = .ok (KeyCall.answer calls (.op identifier o)) ∧
      (st.perform ⟨identifier⟩ o).2.Holds (calls ++ [.op identifier o]) := by
  cases o with
  | save k =>
    obtain ⟨store, ok, sound, found⟩ :=
      holds.sound.put (KeyStorage.mk identifier).entryName k.json.render
    have own : ∀ l, some k = some l → l.Valid := fun l same => Option.some.inj same ▸ valid k rfl
    unfold KeyState.perform KeyStorage.save
    simp only [ok]
    exact ⟨rfl, holds.change (fun _ => rfl) own sound found _⟩
  | get =>
    unfold KeyState.perform
    simp only [holds.got]
    exact ⟨rfl, holds.read (fun _ => rfl) st.log⟩
  | isStored =>
    unfold KeyState.perform
    simp only [holds.there]
    exact ⟨rfl, holds.read (fun _ => rfl) st.log⟩
  | clear =>
    obtain ⟨store, ok, sound, found⟩ := holds.sound.remove (KeyStorage.mk identifier).entryName
    have nothing : ∀ l : KeyData, none = some l → l.Valid := fun _ same => nomatch same
    unfold KeyState.perform KeyStorage.clear
    simp only [ok]
    exact ⟨rfl, holds.change (fun _ => rfl) nothing sound found _⟩

theorem Holds.serve (holds : st.Holds calls) (proper : c.Proper) :
    (st.serve c).1 = .ok (c.answer calls) ∧ (st.serve c).2.Holds (calls ++ [c]) := by
  cases c with
  | reopen =>
    unfold KeyState.serve
    simp only [holds.sound.reopens]
    exact ⟨rfl, holds.read (fun _ => rfl) st.log⟩
  | op identifier o =>
    obtain ⟨named, valid⟩ := proper
    have served : st.serve (.op identifier o) = st.perform ⟨identifier⟩ o := by
      unfold KeyState.serve KeyStorage.make
      simp only [if_neg named]
    rw [served]
    exact holds.perform identifier valid

theorem Holds.run (holds : st.Holds calls) {later : List KeyCall}
    (proper : ∀ c ∈ later, c.Proper) :
    (st.run later).1 = KeyCall.answers calls later ∧
      (st.run later).2.Holds (calls ++ later) := by
  induction later generalizing st calls with
  | nil => exact ⟨rfl, by rwa [List.append_nil]⟩
  | cons c rest ih =>
    obtain ⟨own, others⟩ := List.forall_mem_cons.mp proper
    obtain ⟨answered, next⟩ := holds.serve own
    obtain ⟨answers, last⟩ := ih next others
    refine ⟨?_, ?_⟩
    · exact congrArg₂ List.cons answered answers
    · rw [List.append_cons]
      exact last

theorem holdsEmpty {store : Preferences} (sound : store.Sound) (empty : store.entries = Dict.empty)
    (log : Log) : Holds ⟨store, log⟩ [] :=
  ⟨sound, fun _ _ none => (nomatch none), fun _ => by rw [empty]; rfl⟩

theorem holdsOpened {files : FileSystem} {path : String} {store : FilePreferences}
    (opened : FilePreferences.ofFile files path = .ok store) (fresh : store.entries = Dict.empty)
    {content : List UInt8} (writable : (store.writeAtomic .never content files).1 = .ok ())
    (log : Log) : Holds ⟨.file ⟨store, files⟩, log⟩ [] := by
  have synced : PreferenceFile.Synced ⟨store, files⟩ := by
    refine ⟨?_, FilePreferences.writableOf writable, ?_⟩
    · exact (PreferenceFile.opensAt opened).1 ▸ opened
    · exact fresh ▸ Dict.sortedEmpty
  have sound : (Preferences.file ⟨store, files⟩).Sound := synced
  exact holdsEmpty sound fresh log

theorem Holds.others (holds : st.Holds []) (proper : ∀ c ∈ calls, c.Proper) {others : List KeyCall}
    {identifier : String} {o : KeyOp} (own : (KeyCall.op identifier o).Proper)
    (apart : ∀ c ∈ others, c.Proper ∧ ¬ c.Names identifier) :
    ((st.run (calls ++ others)).2.serve (.op identifier o)).1 =
      ((st.run calls).2.serve (.op identifier o)).1 := by
  have all : ∀ c ∈ calls ++ others, c.Proper :=
    List.forall_mem_append.mpr ⟨proper, fun c member => (apart c member).1⟩
  have kept := KeyCall.lastSavedOthers calls fun c member => (apart c member).2
  rw [((holds.run all).2.serve own).1, ((holds.run proper).2.serve own).1]
  cases o with
  | save k => rfl
  | get => exact congrArg (fun k => Except.ok (KeyReply.key k)) kept
  | isStored => exact congrArg (fun k => Except.ok (KeyReply.stored k.isSome)) kept
  | clear => rfl

/-- Stores of both kinds answer from one map of identifiers, a file store also where it is dropped
and opened again between the calls. -/
theorem answersAsMap {files : FileSystem} {path : String} {store : FilePreferences}
    (opened : FilePreferences.ofFile files path = .ok store) (fresh : store.entries = Dict.empty)
    {content : List UInt8} (writable : (store.writeAtomic .never content files).1 = .ok ())
    (log : Log) {calls : List KeyCall} (proper : ∀ c ∈ calls, c.Proper) :
    ∀ start ∈ [Preferences.memory ⟨Dict.empty⟩, .file ⟨store, files⟩],
      (run ⟨start, log⟩ calls).1 = KeyCall.answers [] calls ∧
      ∀ identifier o others, (KeyCall.op identifier o).Proper →
        (∀ c ∈ others, c.Proper ∧ ¬ c.Names identifier) →
        ((run ⟨start, log⟩ (calls ++ others)).2.serve (.op identifier o)).1 =
          ((run ⟨start, log⟩ calls).2.serve (.op identifier o)).1 := by
  intro start member
  have holds : Holds ⟨start, log⟩ [] := by
    rcases List.mem_cons.mp member with rfl | member
    · have sound : (Preferences.memory ⟨Dict.empty⟩).Sound := trivial
      exact holdsEmpty sound rfl log
    · exact List.mem_singleton.mp member ▸ holdsOpened opened fresh writable log
  exact ⟨(holds.run proper).1, fun _ _ _ own apart => holds.others proper own apart⟩

namespace Sample

def key : KeyData := ⟨[1, 2, 171], [9], List.replicate 16 7, 10000, "1.0 \"é\""⟩

def store : FilePreferences := ⟨"keys/prefs.json", "keys/prefs.tmp", Dict.empty⟩

def session : List KeyCall :=
  [.op "alice" (.save key), .reopen, .op "alice" .get, .op "bob" .isStored, .op "bob" .clear,
    .op "alice" .clear, .reopen, .op "alice" .get]

end Sample

theorem answersReopened :
    (run ⟨.file ⟨Sample.store, FileSystem.empty⟩, Log.empty⟩ Sample.session).1 =
      [.ok .done, .ok .done, .ok (.key (some Sample.key)), .ok (.stored false), .ok .done,
        .ok .done, .ok .done, .ok (.key none)] := by
  have opened : FilePreferences.ofFile FileSystem.empty "keys/prefs.json" = .ok Sample.store := by
    rfl
  have writable : (Sample.store.writeAtomic .never [] FileSystem.empty).1 = .ok () := by rfl
  have valid : Sample.key.Valid := ⟨by decide, by decide⟩
  have proper : ∀ c ∈ Sample.session, c.Proper := by
    simp [Sample.session, KeyCall.Proper, valid]
  exact ((answersAsMap opened rfl writable Log.empty proper) _
    (List.mem_cons_of_mem _ List.mem_cons_self)).1

end KeyState
end RevForest
