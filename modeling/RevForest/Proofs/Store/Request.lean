import RevForest.Proofs.Store.Resolve

/-! Requests to a store, each with its answer. An edit names a document and a parent, or it is
answered without their tree. A read leaves all but the cache as it was, and what it
answers is read off the tree that is built from what is stored. -/
namespace RevForest

inductive Request where
  | create (id : Option String) (fresh : DocumentId) (body : DocumentBody)
      (attachments : AttachmentMap)
  | update (document parent : String) (body : DocumentBody)
  | save (edited : Revision)
  | delete (document parent : String)
  | force (revision : Revision) (history : List RevisionId)
  | resolve (document keep : String)
  | current (document : String)
  | revision (document id : String)
  | conflicted (document : String)
  | leaves (document : String)
  | conflicts (document : String)
  | conflictedDocuments
  | history (document id : String)
  | since (document : String) (since : Int)
  | project (document : String) (fields : List String)
  | materialize (revision : Revision)
  | lastSequence

inductive Reply where
  | revision (r : Revision)
  | foreign (result : ForeignInsert)
  | count (n : Nat)
  | flag (b : Bool)
  | revisions (rs : List Revision)
  | ids (ids : List RevisionId)
  | documents (ds : List DocumentId)
  | sequence (q : Int)

def Request.isRead : Request → Bool
  | .create .. | .update .. | .save .. | .delete .. | .force .. | .resolve .. => false
  | _ => true

def Request.isEdit : Request → Bool
  | .create .. | .update .. | .save .. | .delete .. => true
  | _ => false

def Request.target? : Request → Option (DocumentId × Option RevisionId)
  | .create none fresh _ _ => some (fresh, none)
  | .create (some text) _ _ _ =>
    match DocumentId.parse text with
    | .ok d => some (d, none)
    | .error _ => none
  | .update document parent _ | .delete document parent =>
    match DocumentId.parse document, RevisionId.parse parent with
    | .ok d, .ok p => some (d, some p)
    | _, _ => none
  | .save r => if r.isProjected || !r.dirty then none else some (r.document, some r.id)
  | _ => none

namespace Datastore

def Outcome.reply {β α : Type} (o : Outcome β α) (wrap : α → Reply) : Outcome β Reply :=
  (o.1.map wrap, o.2)

def serve {β : Type} [Backend β] (s : Datastore β) : Request → Outcome β Reply
  | .create id fresh body attachments =>
    (s.createDocument id fresh body attachments).reply .revision
  | .update document parent body => (s.updateDocument document parent body).reply .revision
  | .save edited => (s.saveRevision edited).reply .revision
  | .delete document parent => (s.deleteDocument document parent).reply .revision
  | .force r history => (s.forceInsert r history).reply .foreign
  | .resolve document keep => (s.resolveConflicts document keep).reply .count
  | .current document => (s.getDocument document).reply .revision
  | .revision document id => (s.getRevision document id).reply .revision
  | .conflicted document => (s.isConflicted document).reply .flag
  | .leaves document => (s.leaves document).reply .revisions
  | .conflicts document => (s.conflicts document).reply .revisions
  | .conflictedDocuments => s.conflictedDocuments.reply .documents
  | .history document id => (s.history document id).reply .ids
  | .since document since => (s.since document since).reply .revisions
  | .project document fields => (s.project document fields).reply .revision
  | .materialize r => (s.materialize r).reply .revision
  | .lastSequence => s.lastSequence.reply .sequence

variable {s s' s'' : Datastore FaultyBackend} {d : DocumentId} {α γ : Type}

theorem withParentNamed {document parent : String} {p : RevisionId}
    (parsed : DocumentId.parse document = .ok d) (named : RevisionId.parse parent = .ok p)
    (write : DocumentId → RevisionId → Outcome FaultyBackend Revision) :
    (s.withParent document parent write).reply .revision = (write d p).reply .revision := by
  unfold withParent
  rw [parsed, named]

theorem servedEdit {q : Request} {named : Option RevisionId}
    (target : q.target? = some (d, named)) :
    ∃ body attachments deleted, ∀ s : Datastore FaultyBackend,
      s.serve q = (s.localEdit d named body attachments deleted).reply .revision := by
  unfold Request.target? at target
  split at target
  · cases target
    exact ⟨_, _, _, fun s => rfl⟩
  · rename_i text fresh body attachments
    split at target
    · rename_i parsed
      cases target
      refine ⟨body, some attachments, false, fun s => congrArg (Outcome.reply · .revision) ?_⟩
      unfold createDocument
      simp only [parsed]
    · cases target
  · split at target
    · rename_i parsed naming
      cases target
      exact ⟨_, _, _, fun s => withParentNamed parsed naming _⟩
    · cases target
  · split at target
    · rename_i parsed naming
      cases target
      exact ⟨_, _, _, fun s => withParentNamed parsed naming _⟩
    · cases target
  · rename_i r
    split at target
    · cases target
    · rename_i edited
      rw [Bool.not_eq_true, Bool.or_eq_false_iff, Bool.not_eq_false'] at edited
      cases target
      refine ⟨r.body, some (.ofRecords r.attachments.toRecords), r.deleted,
        fun s => congrArg (Outcome.reply · .revision) ?_⟩
      unfold saveRevision
      simp only [edited]
      rfl
  · cases target

def Plain (q : Request) (answer : Except DocumentError Revision) : Prop :=
  ∀ s : Datastore FaultyBackend, ∃ s',
    s.serve q = Outcome.reply (answer, s') .revision ∧ s.Told s'

theorem plainUnparsed {document parent : String} {q : Request}
    (unparsed : ∀ d p, DocumentId.parse document = .ok d → RevisionId.parse parent ≠ .ok p)
    {write : Datastore FaultyBackend → DocumentId → RevisionId → Outcome FaultyBackend Revision}
    (served : ∀ s : Datastore FaultyBackend,
      s.serve q = (s.withParent document parent (write s)).reply .revision) :
    ∃ answer, Plain q answer := by
  unfold withParent at served
  cases parsed : DocumentId.parse document with
  | error e =>
    simp only [parsed] at served
    exact ⟨.error e, fun s => ⟨s, served s, .refl s⟩⟩
  | ok d =>
    cases named : RevisionId.parse parent with
    | error e =>
      simp only [parsed, named] at served
      exact ⟨.error e, fun s => ⟨s, served s, .refl s⟩⟩
    | ok p => exact absurd named (unparsed d p parsed)

theorem servedPlain {q : Request} (edit : q.isEdit = true) (target : q.target? = none) :
    ∃ answer, Plain q answer := by
  cases q with
  | create id fresh body attachments =>
    cases id with
    | none => cases target
    | some text =>
      cases parsed : DocumentId.parse text with
      | error e =>
        refine ⟨.error e, fun s => ⟨s, ?_, .refl s⟩⟩
        unfold serve createDocument
        simp only [parsed]
      | ok d => simp [Request.target?, parsed] at target
  | update document parent body =>
    refine plainUnparsed (fun d p parsed named => ?_) fun s => rfl
    simp [Request.target?, parsed, named] at target
  | delete document parent =>
    refine plainUnparsed (fun d p parsed named => ?_) fun s => rfl
    simp [Request.target?, parsed, named] at target
  | save r =>
    by_cases projected : r.isProjected = true
    · refine ⟨.error (.projectedWrite r.document.text r.id.text), fun s => ⟨s, ?_, .refl s⟩⟩
      unfold serve saveRevision
      simp only [projected]
      rfl
    · by_cases dirty : r.dirty = true
      · simp [Request.target?, projected, dirty] at target
      · refine ⟨.ok r, fun s => ⟨_, ?_, .note s .trace .noopSave
          [("document_id", r.document.text), ("revision_id", r.id.text)]⟩⟩
        unfold serve saveRevision
        simp only [projected, dirty]
        rfl
  | _ => cases edit

inductive Shown (m : MemoryBackend) (d : DocumentId) : RevisionTree → Prop where
  | stored (some : m.revisionsOf d ≠ []) : Shown m d (m.tree d)
  | bare (none : m.revisionsOf d = []) (key : Int) : Shown m d (.empty d key)

structure Kindly (s : Datastore FaultyBackend) (o : Outcome FaultyBackend α) : Prop where
  sound : o.2.Sound
  alike : s.Alike o.2

theorem Told.kindly (told : s.Told s') (sound : s.Sound) (answer : Except DocumentError α) :
    s.Kindly (answer, s') := ⟨sound.told told, told.alike⟩

theorem Kindly.andThen {o : Outcome FaultyBackend α}
    {next : α → Datastore FaultyBackend → Outcome FaultyBackend γ} (first : s.Kindly o)
    (later : ∀ a (s' : Datastore FaultyBackend), s'.Sound → s'.Kindly (next a s')) :
    s.Kindly (o.andThen next) := by
  obtain ⟨answer, after⟩ := o
  cases answer with
  | error e => exact ⟨first.sound, first.alike⟩
  | ok a =>
    have kindly := later a after first.sound
    exact ⟨kindly.sound, first.alike.trans kindly.alike⟩

theorem Sound.seen (sound : s.Sound) (d : DocumentId) :
    ∃ t s', s.treeOf d false = (.ok t, s') ∧ s'.Sound ∧ s.Alike s' ∧
      Shown s.backend.memory d t := by
  have fetched := sound.treeOf d false
  generalize s.treeOf d false = got at fetched
  cases fetched with
  | @kept s' sound' config digest backend known asked =>
    have same := backend.trans (knowSame (asked.resolve_left (by decide)))
    refine ⟨_, s', rfl, sound', ⟨config, digest, same⟩, ?_⟩
    rw [same]
    by_cases bare : s.backend.memory.revisionsOf d = []
    · rw [MemoryBackend.treeBare bare]
      exact .bare bare _
    · exact .stored bare
  | @detached s' told absent bare =>
    exact ⟨_, s', rfl, sound.told told, told.alike, .bare bare _⟩

theorem Sound.kindlyTree (sound : s.Sound) (d : DocumentId) : s.Kindly (s.treeOf d false) := by
  obtain ⟨t, s', got, sound', alike, _⟩ := sound.seen d
  rw [got]
  exact ⟨sound', alike⟩

theorem Sound.kindlyRead (sound : s.Sound) (document : String)
    (read : DocumentId → RevisionTree → Except DocumentError α) :
    s.Kindly (s.readTree document read) := by
  unfold readTree
  split
  · exact (Told.refl s).kindly sound _
  · rename_i d _
    exact (sound.kindlyTree d).andThen fun t s' sound' => (Told.refl s').kindly sound' _

theorem Sound.kindlyAmong (sound : s.Sound) (ds : List DocumentId) :
    s.Kindly (conflictedAmong ds s) := by
  induction ds generalizing s with
  | nil => exact (Told.refl s).kindly sound _
  | cons d ds ih =>
    refine (sound.kindlyTree d).andThen fun t s' sound' => ?_
    exact (ih sound').andThen fun found s'' sound'' => (Told.refl s'').kindly sound'' _

theorem Sound.kindlyDocuments (sound : s.Sound) : s.Kindly s.conflictedDocuments := by
  unfold conflictedDocuments
  rw [kindlyCall sound.steady.documentIds]
  exact sound.kindlyAmong _

theorem completesSteady (steady : s.backend.Steady) (r : Revision) :
    s.completed r =
      (r.mutableCopy fun _ _ => .ok (s.backend.memory.loadRevision? r.document r.id), s) := by
  unfold Datastore.completed
  split
  · rw [kindlyCall (steady.loadRevision r.document r.id)]
    rfl
  · rename_i full
    unfold Revision.mutableCopy
    rw [if_neg full, if_neg full]

theorem materializesSteady (steady : s.backend.Steady) (r : Revision) :
    ∃ s', s.materialize r =
        (r.mutableCopy fun _ _ => .ok (s.backend.memory.loadRevision? r.document r.id), s') ∧
      s.Told s' := by
  unfold Datastore.materialize
  rw [completesSteady steady]
  split
  · exact ⟨s, rfl, .refl s⟩
  · generalize r.mutableCopy _ = copy
    cases copy with
    | ok full => exact ⟨_, rfl, (Told.count s _).trans (.report _ _ _)⟩
    | error e =>
      cases e with
      | documentNotFound d id => exact ⟨_, rfl, .note s _ _ _⟩
      | _ => exact ⟨s, rfl, .refl s⟩

theorem Kindly.reply {o : Outcome FaultyBackend α} (kindly : s.Kindly o) (wrap : α → Reply) :
    s.Kindly (o.reply wrap) := ⟨kindly.sound, kindly.alike⟩

theorem Sound.reads (sound : s.Sound) {q : Request} (read : q.isRead = true) :
    s.Kindly (s.serve q) := by
  cases q with
  | create | update | save | delete | force | resolve => cases read
  | current document => exact (sound.kindlyRead document _).reply _
  | revision document id => exact (sound.kindlyRead document _).reply _
  | conflicted document => exact (sound.kindlyRead document _).reply _
  | leaves document => exact (sound.kindlyRead document _).reply _
  | conflicts document => exact (sound.kindlyRead document _).reply _
  | history document id => exact (sound.kindlyRead document _).reply _
  | since document since => exact (sound.kindlyRead document _).reply _
  | conflictedDocuments => exact sound.kindlyDocuments.reply _
  | project document fields =>
    refine Kindly.reply (Kindly.andThen (sound.kindlyRead document _) ?_) _
    exact fun r s' sound' => (Told.refl s').kindly sound' _
  | materialize r =>
    obtain ⟨s', ran, told⟩ := materializesSteady sound.steady r
    show s.Kindly ((s.materialize r).reply .revision)
    rw [ran]
    exact (told.kindly sound _).reply _
  | lastSequence =>
    show s.Kindly ((s.call Backend.lastSequence).reply .sequence)
    rw [kindlyCall sound.steady.lastSequence]
    exact ((Told.refl s).kindly sound _).reply _

structure SameStored (m m' : MemoryBackend) : Prop where
  counter : m'.counter = m.counter
  revisions : m'.revisions = m.revisions
  byDocument : m'.byDocument = m.byDocument
  keys : ∀ d, m.revisionsOf d ≠ [] → m'.keyOf d = m.keyOf d

theorem SameStored.revisionsOf {m m' : MemoryBackend} (same : SameStored m m') (d : DocumentId) :
    m'.revisionsOf d = m.revisionsOf d := by
  unfold MemoryBackend.revisionsOf
  rw [same.revisions, same.byDocument]

theorem SameStored.tree {m m' : MemoryBackend} (same : SameStored m m')
    (some : m.revisionsOf d ≠ []) : m'.tree d = m.tree d := by
  unfold MemoryBackend.tree MemoryBackend.grown
  rw [same.revisionsOf, same.keys d some]

theorem SameStored.alike (same : SameStored s.backend.memory s'.backend.memory)
    {u u' : Datastore FaultyBackend} (alike : s.Alike u) (alike' : s'.Alike u') :
    SameStored u.backend.memory u'.backend.memory := by
  rw [alike.backend, alike'.backend]
  exact same

def Blind (read : DocumentId → RevisionTree → Except DocumentError α) : Prop :=
  ∀ d key key', read d (.empty d key) = read d (.empty d key')

theorem Sound.answers (sound : s.Sound) {document : String}
    (parsed : DocumentId.parse document = .ok d)
    {read : DocumentId → RevisionTree → Except DocumentError α} (blind : Blind read) :
    (s.readTree document read).1 = read d (s.backend.memory.tree d) := by
  obtain ⟨t, s', got, _, _, shown⟩ := sound.seen d
  unfold readTree
  rw [parsed]
  dsimp only
  rw [got]
  cases shown with
  | stored some => rfl
  | bare none key =>
    rw [MemoryBackend.treeBare none]
    exact blind d key _

theorem Sound.shownCurrent (sound : s.Sound) {document : String}
    (parsed : DocumentId.parse document = .ok d) {w : Revision} :
    (s.getDocument document).1 = .ok w ↔ (s.backend.memory.tree d).current? = some w := by
  unfold getDocument
  rw [sound.answers parsed fun _ _ _ => rfl]
  cases (s.backend.memory.tree d).current? with
  | none => simp
  | some r => simp

theorem Shown.read {m m' : MemoryBackend} (same : SameStored m m') {t t' : RevisionTree}
    (shown : Shown m d t) (shown' : Shown m' d t')
    {read : DocumentId → RevisionTree → Except DocumentError α} (blind : Blind read) :
    read d t = read d t' := by
  cases shown with
  | stored some =>
    cases shown' with
    | stored _ => rw [same.tree some]
    | bare none key => exact absurd ((same.revisionsOf d).symm.trans none) some
  | bare none key =>
    cases shown' with
    | stored some => exact absurd ((same.revisionsOf d).trans none) some
    | bare _ key' => exact blind d key key'

theorem SameStored.read (same : SameStored s.backend.memory s'.backend.memory) (sound : s.Sound)
    (sound' : s'.Sound) (document : String)
    {read : DocumentId → RevisionTree → Except DocumentError α} (blind : Blind read) :
    (s.readTree document read).1 = (s'.readTree document read).1 := by
  unfold readTree
  split
  · rfl
  · rename_i d _
    obtain ⟨t, u, got, _, _, shown⟩ := sound.seen d
    obtain ⟨t', u', got', _, _, shown'⟩ := sound'.seen d
    rw [got, got']
    exact shown.read same shown' blind

theorem SameStored.among (same : SameStored s.backend.memory s'.backend.memory) (sound : s.Sound)
    (sound' : s'.Sound) (ds : List DocumentId) :
    (conflictedAmong ds s).1 = (conflictedAmong ds s').1 := by
  induction ds generalizing s s' with
  | nil => rfl
  | cons d ds ih =>
    obtain ⟨t, u, got, soundU, alike, shown⟩ := sound.seen d
    obtain ⟨t', u', got', soundU', alike', shown'⟩ := sound'.seen d
    have blind : Blind fun (_ : DocumentId) (t : RevisionTree) =>
        (.ok t.isConflicted : Except DocumentError Bool) := fun _ _ _ => rfl
    have flag : t.isConflicted = t'.isConflicted := Except.ok.inj (shown.read same shown' blind)
    have rest := ih (same.alike alike alike') soundU soundU'
    unfold conflictedAmong
    rw [got, got']
    simp only [Outcome.andThen]
    generalize conflictedAmong ds u = o at rest ⊢
    generalize conflictedAmong ds u' = o' at rest ⊢
    obtain ⟨answer, last⟩ := o
    obtain ⟨_, last'⟩ := o'
    cases rest
    cases answer with
    | error e => rfl
    | ok found => simp only [flag]

theorem mapThen (o : Outcome FaultyBackend α) (f : α → γ) :
    (o.andThen fun a s => (.ok (f a), s)).1 = o.1.map f := by
  obtain ⟨answer, after⟩ := o
  cases answer <;> rfl

theorem SameStored.loads {m m' : MemoryBackend} (same : SameStored m m') (d : DocumentId)
    (id : RevisionId) : m'.loadRevision? d id = m.loadRevision? d id := by
  unfold MemoryBackend.loadRevision?
  rw [same.revisionsOf]

theorem SameStored.reads (same : SameStored s.backend.memory s'.backend.memory) (sound : s.Sound)
    (sound' : s'.Sound) {q : Request} (read : q.isRead = true) :
    (s.serve q).1 = (s'.serve q).1 := by
  cases q with
  | create | update | save | delete | force | resolve => cases read
  | current document =>
    exact congrArg (Except.map _) (same.read sound sound' document fun _ _ _ => rfl)
  | revision document id =>
    exact congrArg (Except.map _) (same.read sound sound' document fun _ _ _ => rfl)
  | conflicted document =>
    exact congrArg (Except.map _) (same.read sound sound' document fun _ _ _ => rfl)
  | leaves document =>
    exact congrArg (Except.map _) (same.read sound sound' document fun _ _ _ => rfl)
  | conflicts document =>
    exact congrArg (Except.map _) (same.read sound sound' document fun _ _ _ => rfl)
  | history document id =>
    exact congrArg (Except.map _) (same.read sound sound' document fun _ _ _ => rfl)
  | since document since =>
    exact congrArg (Except.map _) (same.read sound sound' document fun _ _ _ => rfl)
  | conflictedDocuments =>
    refine congrArg (Except.map _) ?_
    unfold conflictedDocuments
    rw [kindlyCall sound.steady.documentIds, kindlyCall sound'.steady.documentIds]
    have ids : s'.backend.memory.documentIds = s.backend.memory.documentIds := by
      unfold MemoryBackend.documentIds
      rw [same.byDocument]
    rw [ids]
    exact same.among sound sound' _
  | project document fields =>
    refine congrArg (Except.map _) ?_
    unfold project
    rw [mapThen, mapThen]
    exact congrArg (Except.map _) (same.read sound sound' document fun _ _ _ => rfl)
  | materialize r =>
    obtain ⟨u, ran, _⟩ := materializesSteady sound.steady r
    obtain ⟨u', ran', _⟩ := materializesSteady sound'.steady r
    refine congrArg (Except.map _) ?_
    rw [ran, ran', same.loads]
  | lastSequence =>
    refine congrArg (Except.map _) ?_
    unfold lastSequence
    rw [kindlyCall sound.steady.lastSequence, kindlyCall sound'.steady.lastSequence]
    unfold MemoryBackend.lastSequence
    rw [same.counter]

end Datastore
end RevForest
