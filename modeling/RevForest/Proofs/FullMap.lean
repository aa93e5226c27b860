import RevForest.FullMap
import RevForest.Proofs.BodyText
import RevForest.Proofs.Copies

/-! What is read of a revision is never out of date. A map is kept only while the revision has the
body that it was computed from, so revisions that keep their maps answer as if they computed them
at every reading. What they answer is the body and the metadata, apart from each other. -/
namespace RevForest

def metadataKeys : List String := ["_id", "_rev", "_deleted"]

structure Revision.ShownBy (r : Revision) (full : Dict String Json) : Prop where
  sorted : full.Sorted
  id : full.find? "_id" = some (.text r.document.text)
  rev : full.find? "_rev" = some (.text r.id.text)
  deleted : full.find? "_deleted" = if r.deleted then some (.bool true) else none
  fields : ∀ key, key ∉ metadataKeys → full.find? key = r.body.get? key
  apart : ∀ key ∈ metadataKeys, r.body.get? key = none
  restored : DocumentBody.ofDict (full.filter fun key _ => !metadataKeys.contains key) = .ok r.body

theorem Revision.findFullMap (r : Revision) (key : String) :
    r.fullMap.find? key =
      if key = "_deleted" ∧ r.deleted = true then some (.bool true)
      else if key = "_rev" then some (.text r.id.text)
      else if key = "_id" then some (.text r.document.text)
      else r.body.get? key := by
  unfold fullMap DocumentBody.get?
  cases r.deleted <;> simp [Dict.findInsert]

theorem Revision.fullMapSorted {r : Revision} (plain : r.body.Plain) : r.fullMap.Sorted := by
  have named := Dict.sortedInsert (Dict.sortedInsert plain.sorted "_id" (.text r.document.text))
    "_rev" (.text r.id.text)
  unfold fullMap
  dsimp only
  split
  · exact Dict.sortedInsert named _ _
  · exact named

theorem Revision.shownByFullMap {r : Revision} (plain : r.body.Plain) : r.ShownBy r.fullMap := by
  have apart : ∀ key ∈ metadataKeys, r.body.get? key = none := by
    intro key metadata
    refine plain.free key ?_
    revert key
    decide
  have fields : ∀ key, key ∉ metadataKeys → r.fullMap.find? key = r.body.get? key := by
    intro key other
    simp only [metadataKeys, List.mem_cons, List.not_mem_nil, or_false, not_or] at other
    rw [r.findFullMap, if_neg fun both => other.2.2 both.1, if_neg other.2.1, if_neg other.1]
  have sorted := fullMapSorted plain
  refine ⟨sorted, ?_, ?_, ?_, fields, apart, ?_⟩
  · rw [r.findFullMap]
    rfl
  · rw [r.findFullMap]
    rfl
  · rw [r.findFullMap, apart "_deleted" (by decide)]
    cases r.deleted <;> rfl
  · have same : r.body.fields = r.fullMap.filter fun key _ => !metadataKeys.contains key := by
      refine Dict.extFind plain.sorted (sorted.filter _) fun key => ?_
      rw [Dict.findChosen]
      by_cases metadata : key ∈ metadataKeys
      · have cut : ¬ (!metadataKeys.contains key) = true := by simpa using metadata
        rw [if_neg cut]
        exact apart key metadata
      · have kept : (!metadataKeys.contains key) = true := by simpa using metadata
        rw [if_pos kept, fields key metadata]
        rfl
    rw [← same]
    exact DocumentBody.ofDictIff.mpr ⟨rfl, plain.free⟩

theorem Revision.editedFullMap (r : Revision) {e : ContentEdit} (other : ∀ b, e ≠ .body b) :
    (r.edited e).fullMap = r.fullMap := by
  cases e with
  | body b => exact absurd rfl (other b)
  | attachments entries => rfl
  | change e => rfl
  | sequence q =>
    unfold edited initializeSequence
    dsimp only
    split <;> rfl

namespace MappedRevision
variable {m : MappedRevision}

def UpToDate (m : MappedRevision) : Prop := ∀ full, m.full = some full → full = m.revision.fullMap

theorem newUpToDate (r : Revision) : UpToDate { revision := r } := by
  intro full none
  cases none

theorem UpToDate.fullMap (upToDate : m.UpToDate) :
    m.fullMap.1 = m.revision.fullMap ∧ m.fullMap.2.revision = m.revision ∧
      m.fullMap.2.UpToDate := by
  have read : m.full.getD m.revision.fullMap = m.revision.fullMap := by
    cases kept : m.full with
    | none => rfl
    | some full => exact upToDate full kept
  refine ⟨read, rfl, fun full same => ?_⟩
  cases same
  exact read

theorem UpToDate.edited (upToDate : m.UpToDate) (e : ContentEdit) : (m.edited e).UpToDate := by
  have kept {e : ContentEdit} (other : ∀ b, e ≠ .body b) (full : Dict String Json)
      (same : m.full = some full) : full = (m.revision.edited e).fullMap :=
    (upToDate full same).trans (m.revision.editedFullMap other).symm
  cases e with
  | body b =>
    intro full none
    cases none
  | attachments entries => exact kept fun b same => by cases same
  | change e => exact kept fun b same => by cases same
  | sequence q => exact kept fun b same => by cases same

end MappedRevision

namespace Use
open MappedRevision
variable {ms : List MappedRevision}

def command? : Use → Option Command
  | .command c => some c
  | _ => none

def answer (rs : List Revision) : Use → Option Reading
  | .command _ => none
  | .readMap i => rs[i]?.map fun r => .map r.fullMap
  | .readJson i => rs[i]?.map fun r => .json r.documentJson

theorem performed (upToDate : ∀ m ∈ ms, m.UpToDate) (c : Command) :
    (∀ m ∈ perform ms c, m.UpToDate) ∧
      (perform ms c).map (·.revision) = c.onValues (ms.map (·.revision)) := by
  have added {m : MappedRevision} {rs : List Revision} (new : m.UpToDate)
      (same : [m.revision] = rs) : (∀ x ∈ ms ++ [m], x.UpToDate) ∧
        (ms ++ [m]).map (·.revision) = ms.map (·.revision) ++ rs := by
    refine ⟨List.forall_mem_append.mpr ⟨upToDate, ?_⟩, ?_⟩
    · exact List.forall_mem_singleton.mpr new
    · rw [List.map_append, ← same]
      rfl
  unfold perform Command.onValues
  cases c with
  | copy i =>
    dsimp only
    rw [List.getElem?_map]
    cases ms[i]? with
    | none => exact ⟨by simpa using upToDate, by simp⟩
    | some m => exact added (newUpToDate _) rfl
  | project i fields =>
    dsimp only
    rw [List.getElem?_map]
    cases ms[i]? with
    | none => exact ⟨by simpa using upToDate, by simp⟩
    | some m => exact added (newUpToDate _) rfl
  | edit i e =>
    refine ⟨fun x member => ?_, ?_⟩
    · obtain ⟨j, found⟩ := List.mem_iff_getElem?.mp member
      rw [List.getElem?_modify] at found
      obtain ⟨m, there, rfl⟩ := Option.map_eq_some_iff.mp found
      have before := upToDate m (List.mem_of_getElem? there)
      split
      · exact before.edited e
      · exact before
    · refine List.ext_getElem? fun j => ?_
      rw [List.getElem?_map, List.getElem?_modify, List.getElem?_modify, List.getElem?_map]
      cases ms[j]? with
      | none => rfl
      | some m =>
        show some (if i = j then m.edited e else m).revision = _
        split <;> rfl
  | detach i => exact ⟨upToDate, rfl⟩
  | editLoose j e => exact ⟨upToDate, rfl⟩

theorem readUpToDate {α : Type} {look : MappedRevision → α × MappedRevision} (value : Revision → α)
    (upToDate : ∀ m ∈ ms, m.UpToDate) (i : Nat)
    (looks : ∀ m, m.UpToDate →
      (look m).1 = value m.revision ∧ (look m).2.revision = m.revision ∧ (look m).2.UpToDate) :
    (read ms i look).1 = (ms.map (·.revision))[i]?.map value ∧
      (∀ m ∈ (read ms i look).2, m.UpToDate) ∧
      (read ms i look).2.map (·.revision) = ms.map (·.revision) := by
  rw [List.getElem?_map]
  unfold read
  cases found : ms[i]? with
  | none => exact ⟨rfl, upToDate, rfl⟩
  | some m =>
    obtain ⟨answered, same, after⟩ := looks m (upToDate m (List.mem_of_getElem? found))
    refine ⟨congrArg some answered, fun x member => ?_, ?_⟩
    · rcases List.mem_or_eq_of_mem_set member with old | rfl
      · exact upToDate x old
      · exact after
    · obtain ⟨inside, rfl⟩ := List.getElem?_eq_some_iff.mp found
      have there : i < (ms.map (·.revision)).length := by rwa [List.length_map]
      have kept := List.set_getElem_self there
      rwa [List.getElem_map, ← same, ← List.map_set] at kept

theorem stepAnswers (upToDate : ∀ m ∈ ms, m.UpToDate) (use : Use) :
    (use.step ms).1 = use.answer (ms.map (·.revision)) ∧
      (∀ m ∈ (use.step ms).2, m.UpToDate) ∧
      (use.step ms).2.map (·.revision) =
        use.command?.toList.foldl Command.onValues (ms.map (·.revision)) := by
  cases use with
  | command c => exact ⟨rfl, performed upToDate c⟩
  | readMap i =>
    obtain ⟨answered, after⟩ :=
      readUpToDate Revision.fullMap upToDate i fun m before => before.fullMap
    refine ⟨(congrArg (Option.map Reading.map) answered).trans ?_, after⟩
    rw [Option.map_map]
    rfl
  | readJson i =>
    have looks (m : MappedRevision) (before : m.UpToDate) :
        m.documentJson.1 = m.revision.documentJson ∧
          m.documentJson.2.revision = m.revision ∧ m.documentJson.2.UpToDate :=
      ⟨congrArg (fun full => (Json.ofDict full).render) before.fullMap.1, before.fullMap.2⟩
    obtain ⟨answered, after⟩ := readUpToDate Revision.documentJson upToDate i looks
    refine ⟨(congrArg (Option.map Reading.json) answered).trans ?_, after⟩
    rw [Option.map_map]
    rfl

theorem runAnswers (upToDate : ∀ m ∈ ms, m.UpToDate) {uses : List Use} {n : Nat} {use : Use}
    (there : uses[n]? = some use) :
    (run ms uses)[n]? = some (use.answer
      (((uses.take n).filterMap command?).foldl Command.onValues (ms.map (·.revision)))) := by
  induction uses generalizing ms n with
  | nil => cases there
  | cons first rest ih =>
    obtain ⟨answered, after, values⟩ := stepAnswers upToDate first
    cases n with
    | zero =>
      cases there
      exact congrArg some answered
    | succ n =>
      have later := ih after there
      rw [values, ← List.foldl_append] at later
      rw [List.take_succ_cons, List.filterMap_cons]
      cases what : first.command? with
      | none => rwa [what] at later
      | some c => rwa [what] at later

end Use

def Command.Made : Command → Prop
  | .edit _ (.body b) => b.Made
  | _ => True

theorem Desk.allPlain {r x : Revision} {commands : List Command} (plain : r.body.Plain)
    (given : ∀ c ∈ commands, c.Made) (member : x ∈ ((Desk.of r).run commands).values) :
    x.body.Plain := by
  rw [(Desk.valuesRun r commands).2] at member
  refine Command.keepsRun (P := fun x => x.body.Plain) ?_ ?_ ?_ x member
  · exact fun x fields plain => plain.project fields
  · intro i e inside x plain
    cases e with
    | body b => exact (given _ inside).plain
    | attachments entries => exact plain
    | change e => exact plain
    | sequence q =>
      unfold Revision.edited Revision.initializeSequence
      dsimp only
      split <;> exact plain
  · intro x only
    exact List.mem_singleton.mp only ▸ plain

/-- Whatever was read and done before, a reading shows the revision as it is: the map, or its text,
has the body of this moment and the metadata, and neither hides the other. -/
theorem readingsUpToDate {r : Revision} (made : r.body.Made) {uses : List Use}
    (given : ∀ c, .command c ∈ uses → c.Made) {n i : Nat} {x : Revision}
    (there : ((Desk.of r).run ((uses.take n).filterMap Use.command?)).values[i]? = some x) :
    ∃ full, x.ShownBy full ∧ x.From r ∧
      (uses[n]? = some (.readMap i) →
        (Use.run [{ revision := r }] uses)[n]? = some (some (.map full))) ∧
      (uses[n]? = some (.readJson i) →
        (Use.run [{ revision := r }] uses)[n]? =
          some (some (.json (Json.ofDict full).render))) := by
  have member := List.mem_of_getElem? there
  have commands : ∀ c ∈ (uses.take n).filterMap Use.command?, c.Made := by
    intro c found
    obtain ⟨use, before, same⟩ := List.mem_filterMap.mp found
    cases use with
    | command c' =>
      cases same
      exact given c (List.mem_of_mem_take before)
    | readMap j => cases same
    | readJson j => cases same
  have start : ∀ m ∈ [({ revision := r } : MappedRevision)], m.UpToDate :=
    List.forall_mem_singleton.mpr (MappedRevision.newUpToDate r)
  have value := there
  rw [(Desk.valuesRun r _).2] at value
  refine ⟨x.fullMap, Revision.shownByFullMap (Desk.allPlain made.plain commands member),
    Desk.allFrom member, fun asked => ?_, fun asked => ?_⟩
  · refine (Use.runAnswers start asked).trans (congrArg some ?_)
    exact congrArg (Option.map fun r => Reading.map r.fullMap) value
  · refine (Use.runAnswers start asked).trans (congrArg some ?_)
    exact congrArg (Option.map fun r => Reading.json r.documentJson) value

namespace Sample

def oneField (key : String) (n : Int) : DocumentBody := ⟨⟨[(key, .int n)]⟩⟩

-- A deleted revision that had been read before it was copied.
def marked : Revision :=
  { document := ⟨"kept", by decide⟩, id := ⟨"1-kept", 1, "kept", by decide⟩
    body := oneField "a" 1, deleted := true }

def readings : List Use :=
  [.readMap 0, .command (.copy 0), .readJson 1, .command (.edit 1 (.body (oneField "b" 2))),
    .readMap 1, .readJson 0]

theorem oneFieldMade {key : String} (own : key ∉ DocumentBody.reservedKeys) (n : Int) :
    (oneField key n).Made := by
  refine .ofDict (List.pairwise_singleton _ _) (DocumentBody.ofDictIff.mpr ⟨rfl, ?_⟩)
  intro other reserved
  refine (Dict.findNoneIff _ _).mpr fun there => ?_
  have same : other = key := List.mem_singleton.mp there
  exact own (same ▸ reserved)

end Sample

theorem sampleReadings :
    Sample.marked.body.Made ∧ (∀ c, .command c ∈ Sample.readings → c.Made) ∧
      ∃ full, (Use.run [{ revision := Sample.marked }] Sample.readings)[4]? =
          some (some (.map full)) ∧ full.find? "b" = some (.int 2) ∧ full.find? "a" = none ∧
        full.find? "_deleted" = some (.bool true) := by
  have made : Sample.marked.body.Made := Sample.oneFieldMade (by decide) 1
  have given : ∀ c, .command c ∈ Sample.readings → c.Made := by
    intro c member
    simp only [Sample.readings, List.mem_cons, List.not_mem_nil, or_false, reduceCtorEq, false_or,
      Use.command.injEq] at member
    rcases member with rfl | rfl
    · trivial
    · exact Sample.oneFieldMade (by decide) 2
  have there : ((Desk.of Sample.marked).run
      ((Sample.readings.take 4).filterMap Use.command?)).values[1]? =
        some { Sample.marked with body := Sample.oneField "b" 2, dirty := true } := rfl
  obtain ⟨full, shown, _, read, _⟩ := readingsUpToDate made given there
  refine ⟨made, given, full, read rfl, ?_, ?_, shown.deleted⟩
  · exact (shown.fields "b" (by decide)).trans rfl
  · exact (shown.fields "a" (by decide)).trans rfl

end RevForest
