import RevForest.Proofs.Store.AppendOnly
import RevForest.Proofs.Store.Refusal
import RevForest.Proofs.Tree.Accepted

/-! A revision that is in a tree stays in it under the sequence that it was given. So a
foreign insert of its id, whatever its content, finds it there at any later time, and has
written nothing by then. -/
namespace RevForest.Datastore
variable {s s' : Datastore FaultyBackend} {d : DocumentId} {id : RevisionId} {q : Int}

def Has (s : Datastore FaultyBackend) (d : DocumentId) (id : RevisionId) (q : Int) : Prop :=
  ∃ t, (s.treeOf d false).1 = .ok t ∧ t.sequenceOf? id.text = some q

theorem Sound.hasIff (sound : s.Sound) :
    s.Has d id q ↔ (s.backend.memory.tree d).sequenceOf? id.text = some q := by
  obtain ⟨t, after, got, _, _, shown⟩ := sound.seen d
  have same : t.sequenceOf? id.text = (s.backend.memory.tree d).sequenceOf? id.text := by
    cases shown with
    | stored some => rfl
    | bare none key =>
      rw [MemoryBackend.treeBare none]
      rfl
  unfold Has
  rw [got, ← same]
  constructor
  · rintro ⟨_, ⟨⟩, found⟩
    exact found
  · exact fun found => ⟨t, rfl, found⟩

theorem Sound.treeMade (sound : s.Sound) (d : DocumentId) :
    (s.treeOf d true).1 = .ok ((s.backend.know d).memory.tree d) := by
  have fetched := sound.treeOf d true
  generalize s.treeOf d true = got at fetched
  cases fetched with
  | kept _ _ _ backend => rw [← backend]
  | detached told absent bare => cases absent

theorem Sound.hasStored (sound : s.Sound) {x : Revision}
    (stored : x ∈ s.backend.memory.revisionsOf d) : s.Has d x.id x.sequence := by
  obtain ⟨y, found, row⟩ := sound.kept.storedNode stored
  refine sound.hasIff.mpr (((sound.kept.wellFormed d).indexed _ _).mpr ⟨y, found, ?_⟩)
  rw [row.id]

theorem LocalEdit.has {named : Option RevisionId} {deleted : Bool} {x : Revision}
    (edit : LocalEdit s d named deleted (.ok x, s')) : s'.Has d x.id x.sequence := by
  cases edit with
  | stored moves edited tree answer =>
    have wf := moves.sound.kept.wellFormed d
    refine moves.sound.hasIff.mpr ((wf.indexed _ _).mpr ⟨x, ?_, rfl⟩)
    rwa [(wf.own _ x answer).1]

theorem Sound.hasEdited (sound : s.Sound) {request : Request} {named : Option RevisionId}
    {x : Revision} (target : request.target? = some (d, named))
    (served : s.serve request = (.ok (.revision x), s')) : s'.Has d x.id x.sequence := by
  obtain ⟨body, attachments, deleted, same⟩ := servedEdit target
  have edit := sound.localEdit d named body attachments deleted
  rw [same s] at served
  generalize s.localEdit d named body attachments deleted = o at served edit
  obtain ⟨answer, after⟩ := o
  cases answer with
  | error e => cases served
  | ok y =>
    cases served
    exact edit.has

theorem Sound.hasForced (sound : s.Sound) {r : Revision} {history : List RevisionId}
    {given : ForeignInsert} (forced : s.forceInsert r history = (.ok given, s')) :
    s'.Has r.document r.id given.sequence := by
  have after : s'.Sound := by
    have grew := (sound.forceInsert r history).grew
    rw [forced] at grew
    exact grew.sound
  refine after.hasIff.mpr ?_
  unfold Datastore.forceInsert at forced
  dsimp only at forced
  split at forced
  · cases forced
  · have fetched := sound.treeOf r.document true
    generalize s.treeOf r.document true = got at fetched forced
    cases fetched with
    | detached told absent bare => cases absent
    | @kept u soundU config digest backend known _ =>
      obtain ⟨answer, last, b, ran, wrote, foreign⟩ := soundU.insertForeign known r history
      simp only [Outcome.andThen, ran] at forced
      cases foreign with
      | refused | stalled => cases forced
      | present =>
        have found := RevisionTree.insertForeignFinds ran
        cases forced
        rw [← wrote.backend] at found
        exact found
      | stored =>
        have found := RevisionTree.insertForeignFinds ran
        rw [← wrote.backend, ← (Alike.keepTree last _).backend] at found
        obtain ⟨answer, reported⟩ := Prod.mk.inj forced
        cases answer
        rw [← reported,
          ((Told.count _ _).trans ((Told.report _ _ _).trans (.reportChanges _ _ _ _))).backend]
        exact found

/-- The insert has found the revision, and nothing but counters, the log and the cache differs. -/
structure FoundAgain (s : Datastore FaultyBackend) (r : Revision) (history : List RevisionId)
    (q : Int) (s' : Datastore FaultyBackend) : Prop where
  answer : s.forceInsert r history = (.ok (.alreadyPresent q), s')
  still : s.Still s'
  untouched : s.Untouched s'
  trees : ∀ e, (s'.treeOf e true).1 = (s.treeOf e true).1

theorem Sound.planPresent (sound : s.Sound) {r : Revision} {history path : List RevisionId}
    (found : (s.backend.memory.tree r.document).sequenceOf? r.id.text = some q)
    (full : r.projection = none)
    (valid : (s.backend.memory.tree r.document).validateHistory r.id history = .ok path) :
    (s.backend.memory.tree r.document).planForeign r history = .ok (.present q) := by
  obtain ⟨rfl, descends⟩ := RevisionTree.validateHistoryIff.mp valid
  refine RevisionTree.planForeignIff.mpr
    ⟨full, (sound.kept.document r.document).symm, descends, ?_⟩
  unfold RevisionTree.planOf
  rw [found]

theorem Sound.forceAgain (sound : s.Sound) {r : Revision} {history path : List RevisionId}
    (found : (s.backend.memory.tree r.document).sequenceOf? r.id.text = some q)
    (full : r.projection = none) (short : history.length ≤ s.config.maxRevisionHistory)
    (valid : (s.backend.memory.tree r.document).validateHistory r.id history = .ok path) :
    ∃ s', s.FoundAgain r history q s' := by
  have stored : s.backend.memory.revisionsOf r.document ≠ [] := by
    intro bare
    rw [MemoryBackend.treeBare bare] at found
    cases found
  have fetched := sound.treeOf r.document true
  have allocated := ((Filed.refl sound.steady sound.kept.held).treeOf r.document true).allocated
  have plan := sound.planPresent found full valid
  cases got : s.treeOf r.document true with
  | mk answer u =>
    rw [got] at fetched allocated
    cases fetched with
    | detached told absent bare => cases absent
    | kept soundU config digest backend =>
      have same : u.backend = s.backend := backend.trans (knowSame (sound.kept.known stored))
      have still : s.Still u := ⟨same, allocated⟩
      have alike : s.Alike u := ⟨config, digest, same⟩
      let last := (u.count .duplicateForeignInserts).note .trace .foreignRevisionSkipped
        [("document_id", r.document.text), ("revision_id", r.id.text), ("sequence", toString q)]
      have told : u.Told last := (Told.count _ _).trans (.note _ _ _ _)
      have counted : u.Still last := ((Quiet.count _ (by decide)).trans (.note _ _ _ _)).still
      have both := alike.trans told.alike
      have soundLast := soundU.told told
      refine ⟨last, ?_, still.trans counted, both.untouched sound soundLast, ?_⟩
      · unfold Datastore.forceInsert
        dsimp only
        rw [if_neg (not_lt.mpr short), got, okThen, same]
        unfold RevisionTree.insertForeign
        rw [plan]
      · intro e
        rw [soundLast.treeMade, sound.treeMade, both.backend]

structure Ingested (s : Datastore FaultyBackend) : Prop where
  stored : ∀ d, ∀ x ∈ s.backend.memory.revisionsOf d, s.Has d x.id x.sequence
  edited : ∀ request d named x s', request.target? = some (d, named) →
    s.serve request = (.ok (.revision x), s') → s'.Has d x.id x.sequence
  forced : ∀ r history given s', s.forceInsert r history = (.ok given, s') →
    s'.Has r.document r.id given.sequence
  again : ∀ d id q, s.Has d id q → ∀ steps r history path, r.document = d → r.id = id →
    r.projection = none → history.length ≤ (s.run steps).2.config.maxRevisionHistory →
    ((s.run steps).2.backend.memory.tree d).validateHistory id history = .ok path →
      ∃ s', (s.run steps).2.FoundAgain r history q s'

theorem reachableIngested (reachable : Reachable s) : s.Ingested := by
  have sound := reachable.sound
  refine ⟨fun d x => sound.hasStored, fun request d named x s' => sound.hasEdited,
    fun r history given s' => sound.hasForced, ?_⟩
  rintro _ _ q has steps r history path rfl rfl full short valid
  have later := (reachable.run steps).sound
  have kept := ((sound.runAppends steps).trees r.document).ids _ _ (sound.hasIff.mp has)
  exact later.forceAgain kept full short valid

namespace Sample

-- The root comes back with another body, and deleted, after faults and a new store.
def replayed : Revision :=
  { root with body := ⟨Dict.empty.insert "k" (.int 1)⟩, deleted := true }

def eventful : List Step :=
  [.failNext, .ask (.update "d" "1-a" .empty), .ask (.update "d" "1-a" .empty),
    .evict fun _ => false, .renew 1 "info"]

end Sample

theorem replayedFound :
    Reachable Sample.rooted ∧ Sample.rooted.Has Sample.tracked Sample.root.id 1 ∧
      ∃ s', (Sample.rooted.run Sample.eventful).2.FoundAgain Sample.replayed [] 1 s' := by
  have reachable : Reachable Sample.rooted := Sample.reachable [.ask (.force Sample.root [])]
  have has : Sample.rooted.Has Sample.tracked Sample.root.id 1 :=
    reachable.sound.hasIff.mpr (by decide +kernel)
  refine ⟨reachable, has, ?_⟩
  exact (reachableIngested reachable).again _ _ 1 has Sample.eventful Sample.replayed []
    [Sample.root.id] rfl rfl rfl (by decide +kernel) rfl

end RevForest.Datastore
