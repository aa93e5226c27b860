import RevForest.Proofs.Store.CacheBound

/-! Documents with nothing stored and nothing cached. Only a request that makes the document can
leave anything of it; every other one works on an empty tree that is never kept, and no write
gets past that tree's own checks. So a run goes on as if it had not been asked at all. -/
namespace RevForest

def Request.seeks? : Request → Option DocumentId
  | .update document _ _ | .delete document _ | .resolve document _ | .current document
  | .revision document _ | .conflicted document | .leaves document | .conflicts document
  | .history document _ | .since document _ | .project document _ =>
    (DocumentId.parse document).toOption
  | .save r => if r.dirty then some r.document else none
  | _ => none

namespace Datastore
variable {s : Datastore FaultyBackend} {d : DocumentId} {document : String} {α : Type}

structure Missing (s : Datastore FaultyBackend) (d : DocumentId) : Prop where
  uncached : s.cache.find? d = none
  unstored : ∀ r ∈ s.backend.memory.revisions.values, r.document ≠ d

theorem Sound.nothingStored (sound : s.Sound) (missing : s.Missing d) :
    s.backend.memory.revisionsOf d = [] := by
  refine List.eq_nil_iff_forall_not_mem.mpr fun r member => ?_
  obtain ⟨found, own, _⟩ := sound.kept.held.stored member
  obtain ⟨e, first, rfl⟩ := Option.map_eq_some_iff.mp found
  exact missing.unstored _ (List.mem_map_of_mem (List.mem_of_find?_eq_some first)) own

theorem Sound.detached (sound : s.Sound) (missing : s.Missing d) :
    s.treeOf d false = (.ok (.empty d detachedKey), s) := by
  unfold Datastore.treeOf
  rw [missing.uncached]
  dsimp only
  rw [loadsBare sound.steady (sound.nothingStored missing), okThen]
  rfl

theorem Sound.editMissing (sound : s.Sound) (missing : s.Missing d) (parent : RevisionId)
    (body : DocumentBody) (attachments : Option AttachmentMap) (deleted : Bool) :
    s.localEdit d (some parent) body attachments deleted =
      (.error (.documentNotFound d.text (some parent.text)), s) := by
  unfold Datastore.localEdit
  rw [show (some parent).isNone = false from rfl, sound.detached missing, okThen]
  rfl

theorem Sound.resolveMissing (sound : s.Sound) (missing : s.Missing d)
    (parsed : DocumentId.parse document = .ok d) (keep : String) :
    (s.resolveConflicts document keep).2 = s := by
  unfold Datastore.resolveConflicts
  rw [parsed]
  dsimp only
  split
  · rfl
  · rw [sound.detached missing, okThen]
    rfl

theorem Sound.readMissing (sound : s.Sound) (missing : s.Missing d)
    (parsed : DocumentId.parse document = .ok d)
    (read : DocumentId → RevisionTree → Except DocumentError α) :
    (s.readTree document read).2 = s := by
  unfold Datastore.readTree
  rw [parsed]
  dsimp only
  rw [sound.detached missing, okThen]

theorem soughtParsed (sought : (DocumentId.parse document).toOption = some d) :
    DocumentId.parse document = .ok d := by
  cases parsed : DocumentId.parse document with
  | error e =>
    rw [parsed] at sought
    cases sought
  | ok e =>
    rw [parsed] at sought
    cases sought
    rfl

theorem Sound.writeMissing (sound : s.Sound) (missing : s.Missing d)
    (parsed : DocumentId.parse document = .ok d) (parent : String) (body : DocumentBody)
    (attachments : Option AttachmentMap) (deleted : Bool) :
    (s.withParent document parent fun d p =>
      s.localEdit d (some p) body attachments deleted).2 = s := by
  unfold Datastore.withParent
  rw [parsed]
  dsimp only
  split
  · rfl
  · rw [sound.editMissing missing]

theorem Sound.saveMissing (sound : s.Sound) {r : Revision} (missing : s.Missing r.document)
    (edited : r.dirty = true) : (s.saveRevision r).2 = s := by
  unfold Datastore.saveRevision
  split
  · rfl
  · rw [edited, if_neg (by decide), sound.editMissing missing]

theorem replyLeaves {o : Outcome FaultyBackend α} (left : o.2 = s) (wrap : α → Reply) :
    (o.reply wrap).2 = s := left

theorem Sound.seeksMissing (sound : s.Sound) {q : Request} (sought : q.seeks? = some d)
    (missing : s.Missing d) : (s.serve q).2 = s := by
  have read {α : Type} {document : String} (sought : (DocumentId.parse document).toOption = some d)
      (read : DocumentId → RevisionTree → Except DocumentError α) :
      (s.readTree document read).2 = s := sound.readMissing missing (soughtParsed sought) read
  cases q with
  | update document parent body =>
    exact sound.writeMissing missing (soughtParsed sought) parent body none false
  | delete document parent =>
    exact sound.writeMissing missing (soughtParsed sought) parent .empty (some .empty) true
  | save r =>
    have named : (if r.dirty = true then some r.document else none) = some d := sought
    split at named
    · rename_i edited
      cases named
      exact sound.saveMissing missing edited
    · cases named
  | resolve document keep => exact sound.resolveMissing missing (soughtParsed sought) keep
  | current document => exact replyLeaves (read sought _) _
  | revision document id => exact replyLeaves (read sought _) _
  | conflicted document => exact replyLeaves (read sought _) _
  | leaves document => exact replyLeaves (read sought _) _
  | conflicts document => exact replyLeaves (read sought _) _
  | history document id => exact replyLeaves (read sought _) _
  | since document since => exact replyLeaves (read sought _) _
  | project document fields =>
    exact replyLeaves (keepThen (P := (· = s)) (read sought _) fun r u left => left) _
  | create | force | conflictedDocuments | materialize | lastSequence => cases sought

/-- A run without some of the requests that looked for a document when it was missing. -/
inductive LeavesOut : Datastore FaultyBackend → List Step → List Step → Prop where
  | nil (s : Datastore FaultyBackend) : LeavesOut s [] []
  | kept {s : Datastore FaultyBackend} {steps fewer : List Step} (step : Step)
      (rest : LeavesOut (s.step step).2 steps fewer) : LeavesOut s (step :: steps) (step :: fewer)
  | missed {s : Datastore FaultyBackend} {q : Request} {d : DocumentId} {steps fewer : List Step}
      (sought : q.seeks? = some d) (missing : s.Missing d)
      (rest : LeavesOut (s.step (.ask q)).2 steps fewer) : LeavesOut s (.ask q :: steps) fewer

theorem Sound.leavesOut (sound : s.Sound) {steps fewer : List Step}
    (out : s.LeavesOut steps fewer) :
    (s.run steps).2 = (s.run fewer).2 ∧ (s.run fewer).1.Sublist (s.run steps).1 := by
  induction out with
  | nil s => exact ⟨rfl, .slnil⟩
  | kept step rest ih =>
    obtain ⟨store, answers⟩ := ih (sound.step step)
    exact ⟨store, answers.append_left _⟩
  | @missed s q d steps fewer sought missing rest ih =>
    have same : (s.step (.ask q)).2 = s := sound.seeksMissing sought missing
    have later : (s.step (.ask q)).2.run fewer = s.run fewer := congrArg (·.run fewer) same
    obtain ⟨store, answers⟩ := ih (sound.step (.ask q))
    rw [later] at store answers
    exact ⟨store, answers.trans (List.sublist_append_right _ _)⟩

/-- In every run the cache stays within its capacity, with a document in it once at most; and what
was asked of a missing document may as well not have been asked: all that follows is the
same, a first write of that document with its key and its sequence too. -/
theorem missingLeaveNothing (reachable : Reachable s) :
    (∀ steps, (s.run steps).2.cache.size ≤ (s.run steps).2.config.treeCacheCapacity ∧
        ((s.run steps).2.cache.values.map (·.document)).Nodup) ∧
      (∀ q d, q.seeks? = some d → s.Missing d → (s.serve q).2 = s) ∧
      ∀ steps fewer, s.LeavesOut steps fewer →
        (s.run steps).2 = (s.run fewer).2 ∧ (s.run fewer).1.Sublist (s.run steps).1 := by
  refine ⟨fun steps => ?_, fun q d => reachable.sound.seeksMissing, fun steps fewer => ?_⟩
  · have within := (reachable.run steps).withinCapacity
    exact ⟨within.size, within.once⟩
  · exact reachable.sound.leavesOut

namespace Sample

-- A store with two documents and with room for one tree.
def crowded : Datastore FaultyBackend :=
  ((store 1).run [.ask (.create (some "a") tracked .empty .empty),
    .ask (.create (some "b") tracked .empty .empty)]).2

def sought : List Step :=
  [.ask (.current "d"), .ask (.update "d" "1-a" .empty), .ask (.resolve "d" "1-a"),
    .ask (.force root [])]

end Sample

theorem sampleMissing :
    Sample.crowded.cache.size = 1 ∧ Sample.crowded.Missing Sample.tracked ∧
      (Sample.crowded.serve (.current "d")).2 = Sample.crowded ∧
      (Sample.crowded.run Sample.sought).2 =
        (Sample.crowded.run [.ask (.force Sample.root [])]).2 ∧
      (Sample.crowded.run Sample.sought).2.backend.memory.revisions.values.map
        (fun r => (r.document.text, r.key, r.sequence)) =
          [("a", 1, 1), ("b", 2, 2), ("d", 3, 3)] := by
  have reachable : Reachable Sample.crowded :=
    (Reachable.opened (Sample.opened 1 (by decide))).run _
  obtain ⟨_, untouched, same⟩ := missingLeaveNothing reachable
  have missing : Sample.crowded.Missing Sample.tracked :=
    ⟨Option.isNone_iff_eq_none.mp (by decide +kernel), by decide +kernel⟩
  have out : Sample.crowded.LeavesOut Sample.sought [.ask (.force Sample.root [])] := by
    refine .missed (by decide +kernel) missing (.missed (d := Sample.tracked) (by decide +kernel)
      ?_ (.missed (d := Sample.tracked) (by decide +kernel) ?_ (.kept _ (.nil _))))
    · exact ⟨Option.isNone_iff_eq_none.mp (by decide +kernel), by decide +kernel⟩
    · exact ⟨Option.isNone_iff_eq_none.mp (by decide +kernel), by decide +kernel⟩
  exact ⟨by decide +kernel, missing, untouched _ _ (by decide +kernel) missing, (same _ _ out).1,
    by decide +kernel⟩

end Datastore
end RevForest
