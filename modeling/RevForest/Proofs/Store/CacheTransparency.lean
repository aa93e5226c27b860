import RevForest.Proofs.Store.Run

/-! Two stores on one backend that differ in what they cache answer alike. Each write of a
tree is the same function of the tree and the backend, and so is what a failure
leaves; hence two runs with the same requests and faults agree, whatever is dropped
from either cache and however often either store is opened again. -/
namespace RevForest.Datastore
variable {s s' u u' : Datastore FaultyBackend} {d : DocumentId} {α : Type}

structure Twins (s s' : Datastore FaultyBackend) : Prop where
  sound : s.Sound
  sound' : s'.Sound
  backend : s'.backend = s.backend
  digest : s'.digest = s.digest
  limit : s'.config.maxRevisionHistory = s.config.maxRevisionHistory

structure Agree (o o' : Outcome FaultyBackend α) : Prop where
  answer : o.1 = o'.1
  backend : o'.2.backend = o.2.backend

theorem Agree.reply {o o' : Outcome FaultyBackend α} (agree : Agree o o') (wrap : α → Reply) :
    Agree (o.reply wrap) (o'.reply wrap) :=
  ⟨congrArg (Except.map wrap) agree.answer, agree.backend⟩

theorem Twins.stored (twins : Twins s s') {create : Bool}
    (wanted : create = true ∨ s.backend.memory.revisionsOf d ≠ []) :
    ∃ u u', s.treeOf d create = (.ok (u.backend.memory.tree d), u) ∧
      s'.treeOf d create = (.ok (u.backend.memory.tree d), u') ∧ Twins u u' ∧
      u.backend.memory.Knows d := by
  have fetched := twins.sound.treeOf d create
  have fetched' := twins.sound'.treeOf d create
  generalize s.treeOf d create = got at fetched
  generalize s'.treeOf d create = got' at fetched'
  cases fetched with
  | detached told absent bare =>
    rcases wanted with wanted | stored
    · rw [absent] at wanted
      cases wanted
    · exact absurd bare stored
  | @kept u sound config digest backend known asked =>
    cases fetched' with
    | detached told absent bare =>
      rw [twins.backend] at bare
      rcases wanted with wanted | stored
      · rw [absent] at wanted
        cases wanted
      · exact absurd bare stored
    | @kept u' sound' config' digest' backend' known' asked' =>
      have same : u'.backend = u.backend := by
        rw [backend', backend, twins.backend]
      refine ⟨u, u', rfl, by rw [same], ⟨sound, sound', same, ?_, ?_⟩, known⟩
      · rw [digest', digest, twins.digest]
      · rw [config', config, twins.limit]

theorem SoundBut.settleBackend (but : s.SoundBut d) {t : RevisionTree} (document : t.document = d)
    (key : t.key = s.backend.memory.keyOf d) (e : DocumentError) :
    (s.settle t e).backend = s.backend := by
  by_cases storage : ∃ cause, e = .storage cause
  · obtain ⟨cause, rfl⟩ := storage
    exact (but.settleStorage document key cause).2.backend
  · exact (settleRecoverable s t fun cause same => storage ⟨cause, same⟩).backend

theorem Wrote.settled {b : FaultyBackend} (wrote : s.Wrote u b) (sound : s.Sound)
    (steady : b.Steady) {chain : List Revision}
    (extended : s.backend.memory.Extends b.memory d chain) (e : DocumentError) :
    (u.settle (s.backend.memory.tree d) e).backend = u.backend := by
  refine (wrote.but sound steady extended).settleBackend (sound.kept.document d) ?_ e
  rw [wrote.backend, extended.keyOf]
  exact sound.kept.key d

def Settles (s : Datastore FaultyBackend) (d : DocumentId) (u : Datastore FaultyBackend) : Prop :=
  ∀ e, (u.settle (s.backend.memory.tree d) e).backend = u.backend

theorem Told.settles (told : s.Told u) (sound : s.Sound) (d : DocumentId) : Settles s d u := by
  intro e
  refine ((sound.told told).but d).settleBackend (sound.kept.document d) ?_ e
  rw [told.backend]
  exact sound.kept.key d

theorem Sound.editSettles (sound : s.Sound) (known : s.backend.memory.Knows d)
    (digest : ContentDigest) (named : Option RevisionId) (body : DocumentBody)
    (attachments : AttachmentMap) (deleted : Bool) :
    Settles s d ((s.backend.memory.tree d).insertLocalEdit digest commit named body attachments
      deleted s).2 := by
  unfold RevisionTree.insertLocalEdit
  cases ok : (s.backend.memory.tree d).editParent named with
  | error e => exact (Told.refl s).settles sound d
  | ok above =>
    have holds := (RevisionTree.editParentExtends (sound.kept.wellFormed d) (sound.kept.crowned d)
      ok).holds
    obtain ⟨answer, after, b, ran, wrote, child⟩ :=
      sound.insertChild known holds digest body attachments deleted
    dsimp only
    rw [ran]
    cases child with
    | refused bad => exact wrote.told.settles sound d
    | stalled drafted steady idle =>
      exact wrote.settled sound steady (sound.kept.extendsIdle idle d)
    | stored drafted steady extended tree fits => exact wrote.settled sound steady extended

theorem Sound.foreignSettles (sound : s.Sound) (known : s.backend.memory.Knows d) (r : Revision)
    (history : List RevisionId) :
    Settles s d ((s.backend.memory.tree d).insertForeign commit r history s).2 := by
  obtain ⟨answer, after, b, ran, wrote, foreign⟩ := sound.insertForeign known r history
  rw [ran]
  cases foreign with
  | refused bad => exact wrote.told.settles sound d
  | present there => exact wrote.told.settles sound d
  | stalled steady extended => exact wrote.settled sound steady extended
  | stored missing steady length extended => exact wrote.settled sound steady extended

theorem followsAgree
    {write : Datastore FaultyBackend → Except DocumentError α × Datastore FaultyBackend}
    {other : FaultyBackend → Except DocumentError α × FaultyBackend}
    (follows : ∀ s, Prod.map id Datastore.backend (write s) = other s.backend)
    (same : u'.backend = u.backend) : Agree (write u) (write u') := by
  have there := follows u'
  rw [same, ← follows u] at there
  obtain ⟨answer, backend⟩ := Prod.mk.inj there
  exact ⟨answer.symm, backend⟩

theorem placedAgree {v v' w w' : Datastore FaultyBackend} (same : v'.backend = v.backend)
    {grown : RevisionTree} (told : (v.keepTree grown).Told w) (told' : (v'.keepTree grown).Told w')
    (answer : Except DocumentError α) : Agree (answer, w) (answer, w') := by
  have left := told.backend.trans (Alike.keepTree v grown).backend
  have right := told'.backend.trans (Alike.keepTree v' grown).backend
  exact ⟨rfl, right.trans (same.trans left.symm)⟩

theorem Sound.editBare (sound : s.Sound) (bare : s.backend.memory.revisionsOf d = [])
    (p : RevisionId) (body : DocumentBody) (attachments : Option AttachmentMap) (deleted : Bool) :
    ∃ u, s.localEdit d (some p) body attachments deleted =
      (.error (.documentNotFound d.text (some p.text)), u) ∧ s.Alike u := by
  obtain ⟨t, u, got, _, alike, shown⟩ := sound.seen d
  cases shown with
  | stored some => exact absurd bare some
  | bare _ key =>
    refine ⟨u, ?_, alike⟩
    unfold Datastore.localEdit
    rw [show (some p).isNone = false from rfl, got]
    rfl

theorem Twins.localEdit (twins : Twins s s') (d : DocumentId) (named : Option RevisionId)
    (body : DocumentBody) (attachments : Option AttachmentMap) (deleted : Bool) :
    Agree (s.localEdit d named body attachments deleted)
      (s'.localEdit d named body attachments deleted) := by
  by_cases wanted : named.isNone = true ∨ s.backend.memory.revisionsOf d ≠ []
  · obtain ⟨u, u', got, got', twins, known⟩ := twins.stored wanted
    unfold Datastore.localEdit
    rw [got, got', okThen, okThen, twins.digest]
    dsimp only
    generalize attachments.getD _ = attachments
    have agree := followsAgree (fun s => commitFollows.insertLocalEdit (u.backend.memory.tree d)
      u.digest named body attachments deleted s) twins.backend
    have settles := twins.sound.editSettles known u.digest named body attachments deleted
    have settles' := twins.sound'.editSettles (twins.backend ▸ known) u.digest named body
      attachments deleted
    unfold Settles at settles'
    rw [twins.backend] at settles'
    generalize (u.backend.memory.tree d).insertLocalEdit u.digest commit named body attachments
      deleted u = o at agree settles ⊢
    generalize (u.backend.memory.tree d).insertLocalEdit u.digest commit named body attachments
      deleted u' = o' at agree settles' ⊢
    obtain ⟨answer, v⟩ := o
    obtain ⟨_, v'⟩ := o'
    obtain ⟨rfl, backend⟩ := agree
    cases answer with
    | error e => exact ⟨rfl, (settles' e).trans (backend.trans (settles e).symm)⟩
    | ok done =>
      obtain ⟨grown, report⟩ := done
      dsimp only
      split
      · exact placedAgree backend (.count _ _) (.count _ _) _
      · exact placedAgree backend
          ((Told.count _ _).trans ((Told.report _ _ _).trans (.reportChanges _ _ _ _)))
          ((Told.count _ _).trans ((Told.report _ _ _).trans (.reportChanges _ _ _ _))) _
  · obtain ⟨parent, bare⟩ := not_or.mp wanted
    cases named with
    | none => exact absurd rfl parent
    | some p =>
      have bare := not_not.mp bare
      obtain ⟨u, ran, alike⟩ := twins.sound.editBare bare p body attachments deleted
      obtain ⟨u', ran', alike'⟩ :=
        twins.sound'.editBare (twins.backend ▸ bare) p body attachments deleted
      rw [ran, ran']
      exact ⟨rfl, alike'.backend.trans (twins.backend.trans alike.backend.symm)⟩

theorem Twins.forceInsert (twins : Twins s s') (r : Revision) (history : List RevisionId) :
    Agree (s.forceInsert r history) (s'.forceInsert r history) := by
  unfold Datastore.forceInsert
  rw [twins.limit]
  dsimp only
  split
  · exact ⟨rfl, twins.backend⟩
  · obtain ⟨u, u', got, got', twins, known⟩ := twins.stored (d := r.document) (.inl rfl)
    rw [got, got', okThen, okThen]
    have agree := followsAgree (fun s => commitFollows.insertForeign
      (u.backend.memory.tree r.document) r history s) twins.backend
    have settles := twins.sound.foreignSettles known r history
    have settles' := twins.sound'.foreignSettles (twins.backend ▸ known) r history
    unfold Settles at settles'
    rw [twins.backend] at settles'
    generalize (u.backend.memory.tree r.document).insertForeign commit r history u = o
      at agree settles ⊢
    generalize (u.backend.memory.tree r.document).insertForeign commit r history u' = o'
      at agree settles' ⊢
    obtain ⟨answer, v⟩ := o
    obtain ⟨_, v'⟩ := o'
    obtain ⟨rfl, backend⟩ := agree
    cases answer with
    | error e => exact ⟨rfl, (settles' e).trans (backend.trans (settles e).symm)⟩
    | ok done =>
      obtain ⟨grown, result⟩ := done
      cases result with
      | alreadyPresent q => exact ⟨rfl, backend⟩
      | inserted report =>
        exact placedAgree backend
          ((Told.count _ _).trans ((Told.report _ _ _).trans (.reportChanges _ _ _ _)))
          ((Told.count _ _).trans ((Told.report _ _ _).trans (.reportChanges _ _ _ _))) _

theorem Tombstone.settles {leaf : RevisionId}
    {o : Except DocumentError (RevisionTree × InsertReport) × Datastore FaultyBackend}
    (tombstone : Tombstone s d leaf o) (sound : s.Sound) : Settles s d o.2 := by
  cases tombstone with
  | refused active named bad told => exact told.settles sound d
  | stalled wrote steady extended => exact wrote.settled sound steady extended
  | stored wrote steady extended ends tree => exact wrote.settled sound steady extended

theorem Tombstone.placed {leaf : RevisionId} {grown : RevisionTree} {report : InsertReport}
    {after : Datastore FaultyBackend}
    (tombstone : Tombstone s d leaf (.ok (grown, report), after)) :
    ∃ x b, s.Wrote after b ∧ b.Steady ∧ s.backend.memory.Extends b.memory d [x] ∧
      (s.backend.memory.tree d).Ends leaf x ∧
      b.memory.tree d = ((s.backend.memory.tree d).link x).chooseWinner ∧
      grown = b.memory.tree d := by
  cases tombstone with
  | stored wrote steady extended ends tree =>
    exact ⟨_, _, wrote, steady, extended, ends, tree, rfl⟩

theorem Twins.placed {v v' w w' : Datastore FaultyBackend} (twins : Twins s s') {b : FaultyBackend}
    (wrote : s.Wrote v b) (wrote' : s'.Wrote v' b) (steady : b.Steady) {chain : List Revision}
    (extended : s.backend.memory.Extends b.memory d chain)
    (told : (v.keepTree (b.memory.tree d)).Told w)
    (told' : (v'.keepTree (b.memory.tree d)).Told w') : Twins w w' := by
  have moves := (wrote.placed twins.sound steady extended).told told
  have moves' := (wrote'.placed twins.sound' steady (twins.backend ▸ extended)).told told'
  refine ⟨moves.sound, moves'.sound, ?_, ?_, ?_⟩
  · rw [wrote.placedBackend told, wrote'.placedBackend told']
  · rw [moves.digest, moves'.digest, twins.digest]
  · rw [moves.config, moves'.config, twins.limit]

theorem Twins.tombstoneAll (twins : Twins s s') (known : s.backend.memory.Knows d)
    {losers : List RevisionId} (once : losers.Nodup)
    (live : ∀ id ∈ losers, (s.backend.memory.tree d).Live id) :
    Agree (s.tombstoneAll (s.backend.memory.tree d) losers)
      (s'.tombstoneAll (s.backend.memory.tree d) losers) := by
  induction losers generalizing s s' with
  | nil => exact ⟨rfl, twins.backend⟩
  | cons leaf rest ih =>
    have agree := followsAgree (fun u => commitFollows.tombstoneLeaf (s.backend.memory.tree d)
      s.digest leaf u) twins.backend
    have tombstone := twins.sound.tombstone known (live leaf List.mem_cons_self)
    have live' : (s'.backend.memory.tree d).Live leaf :=
      twins.backend ▸ live leaf List.mem_cons_self
    have tombstone' := twins.sound'.tombstone (twins.backend ▸ known) live'
    have settles := tombstone.settles twins.sound
    have settles' := tombstone'.settles twins.sound'
    unfold Settles at settles'
    unfold Datastore.tombstoneAll
    rw [twins.backend] at settles'
    rw [twins.backend, twins.digest] at tombstone'
    rw [twins.digest] at settles' ⊢
    generalize (s.backend.memory.tree d).tombstoneLeaf s.digest commit leaf s = o
      at agree tombstone settles ⊢
    generalize (s.backend.memory.tree d).tombstoneLeaf s.digest commit leaf s' = o'
      at agree tombstone' settles' ⊢
    obtain ⟨answer, v⟩ := o
    obtain ⟨_, v'⟩ := o'
    obtain ⟨rfl, backend⟩ := agree
    cases answer with
    | error e => exact ⟨rfl, (settles' e).trans (backend.trans (settles e).symm)⟩
    | ok done =>
      obtain ⟨grown, report⟩ := done
      obtain ⟨x, b, wrote, steady, extended, ends, tree, rfl⟩ := tombstone.placed
      obtain ⟨_, b', wrote', _⟩ := tombstone'.placed
      have there : v'.backend = v.backend := backend
      have same : b' = b := wrote'.backend.symm.trans (there.trans wrote.backend)
      have goOn (w w' : Datastore FaultyBackend) (told : (v.keepTree (b.memory.tree d)).Told w)
          (told' : (v'.keepTree (b.memory.tree d)).Told w') :
          Agree (w.tombstoneAll (b.memory.tree d) rest)
            (w'.tombstoneAll (b.memory.tree d) rest) := by
        have next := twins.placed wrote (same ▸ wrote') steady extended told told'
        obtain ⟨known', once', live'⟩ :=
          wrote.next twins.sound known extended ends tree told once live
        have rest := ih next known' once' live'
        rwa [wrote.placedBackend told] at rest
      exact goOn _ _ (.reportChanges _ _ _ _) (.reportChanges _ _ _ _)

theorem bareRefused (sound : s.Sound) (bare : s.backend.memory.revisionsOf d = [])
    {document keep : String} (parsed : DocumentId.parse document = .ok d) {kept : RevisionId}
    (named : RevisionId.parse keep = .ok kept) :
    ∃ u, s.resolveConflicts document keep =
      (.error (.conflictingWrite d.text kept.text RevisionTree.noRevision), u) ∧ s.Alike u := by
  obtain ⟨t, u, got, _, alike, shown⟩ := sound.seen d
  cases shown with
  | stored some => exact absurd bare some
  | bare _ key =>
    refine ⟨u, ?_, alike⟩
    unfold Datastore.resolveConflicts
    simp only [parsed, named]
    rw [got]
    rfl

theorem Twins.resolveConflicts (twins : Twins s s') (document keep : String) :
    Agree (s.resolveConflicts document keep) (s'.resolveConflicts document keep) := by
  cases parsed : DocumentId.parse document with
  | error e =>
    unfold Datastore.resolveConflicts
    simp only [parsed]
    exact ⟨rfl, twins.backend⟩
  | ok d =>
    cases named : RevisionId.parse keep with
    | error e =>
      unfold Datastore.resolveConflicts
      simp only [parsed, named]
      exact ⟨rfl, twins.backend⟩
    | ok kept =>
      by_cases bare : s.backend.memory.revisionsOf d = []
      · obtain ⟨u, ran, alike⟩ := bareRefused twins.sound bare parsed named
        obtain ⟨u', ran', alike'⟩ := bareRefused twins.sound' (twins.backend ▸ bare) parsed named
        rw [ran, ran']
        exact ⟨rfl, alike'.backend.trans (twins.backend.trans alike.backend.symm)⟩
      · have wanted : false = true ∨ s.backend.memory.revisionsOf d ≠ [] := .inr bare
        obtain ⟨u, u', got, got', twins, known⟩ := twins.stored wanted
        have wf := twins.sound.kept.wellFormed d
        have agree := twins.tombstoneAll known
          ((RevisionTree.liveOnce wf).filter (· ≠ kept)) fun id member =>
            (RevisionTree.memLive wf).mp (List.mem_of_mem_filter member)
        unfold Datastore.resolveConflicts
        simp only [parsed, named]
        rw [got, got', okThen, okThen]
        split
        · exact ⟨rfl, twins.backend⟩
        · unfold RevisionTree.liveIds at agree
          generalize u.tombstoneAll (u.backend.memory.tree d) _ = o at agree ⊢
          generalize u'.tombstoneAll (u.backend.memory.tree d) _ = o' at agree ⊢
          obtain ⟨answer, v⟩ := o
          obtain ⟨_, v'⟩ := o'
          obtain ⟨rfl, backend⟩ := agree
          cases answer with
          | error e => exact ⟨rfl, backend⟩
          | ok t =>
            rw [okThen, okThen]
            refine ⟨rfl, ?_⟩
            split <;> exact backend

theorem Twins.edit (twins : Twins s s') {q : Request} (edit : q.isEdit = true) :
    Agree (s.serve q) (s'.serve q) := by
  cases target : q.target? with
  | none =>
    obtain ⟨answer, plain⟩ := servedPlain edit target
    obtain ⟨u, served, told⟩ := plain s
    obtain ⟨u', served', told'⟩ := plain s'
    rw [served, served']
    exact ⟨rfl, told'.backend.trans (twins.backend.trans told.backend.symm)⟩
  | some named =>
    obtain ⟨body, attachments, deleted, served⟩ := servedEdit target
    rw [served, served]
    exact (twins.localEdit named.1 named.2 body attachments deleted).reply _

theorem Twins.reads (twins : Twins s s') {q : Request} (read : q.isRead = true) :
    Agree (s.serve q) (s'.serve q) := by
  have same : SameStored s.backend.memory s'.backend.memory := by
    rw [twins.backend]
    exact ⟨rfl, rfl, rfl, fun _ _ => rfl⟩
  have left := (twins.sound.reads read).alike.backend
  have right := (twins.sound'.reads read).alike.backend
  exact ⟨same.reads twins.sound twins.sound' read, right.trans (twins.backend.trans left.symm)⟩

theorem Twins.serve (twins : Twins s s') (q : Request) : Agree (s.serve q) (s'.serve q) := by
  by_cases edit : q.isEdit = true
  · exact twins.edit edit
  · by_cases read : q.isRead = true
    · exact twins.reads read
    · cases q with
      | force r history => exact (twins.forceInsert r history).reply _
      | resolve document keep => exact (twins.resolveConflicts document keep).reply _
      | create | update | save | delete => exact absurd rfl edit
      | _ => exact absurd rfl read

theorem Twins.symm (twins : Twins s s') : Twins s' s :=
  ⟨twins.sound', twins.sound, twins.backend.symm, twins.digest.symm, twins.limit.symm⟩

theorem Twins.reopened (twins : Twins s s') (config : DatastoreConfig) (digest : ContentDigest) :
    Twins (s.reopened config digest) (s'.reopened config digest) := by
  obtain ⟨sound, backend, either⟩ := twins.sound.reopened config digest
  obtain ⟨sound', backend', either'⟩ := twins.sound'.reopened config digest
  have same := backend'.trans (twins.backend.trans backend.symm)
  rcases either with ⟨good, settings, digests⟩ | ⟨⟨cause, bad⟩, alike⟩
  · rcases either' with ⟨_, settings', digests'⟩ | ⟨⟨cause, bad⟩, _⟩
    · exact ⟨sound, sound', same, digests'.trans digests.symm, by rw [settings', settings]⟩
    · rw [good] at bad
      cases bad
  · rcases either' with ⟨good, _, _⟩ | ⟨_, alike'⟩
    · rw [good] at bad
      cases bad
    · exact ⟨sound, sound', same, alike'.digest.trans (twins.digest.trans alike.digest.symm),
        by rw [alike'.config, alike.config, twins.limit]⟩

theorem Twins.hidden (twins : Twins s s') {step : Step} (hidden : step.hidden = true) :
    (s.step step).1 = [] ∧ Twins (s.step step).2 s' := by
  cases step with
  | ask | failNext | allocations | reopen => cases hidden
  | evict keep =>
    exact ⟨rfl, twins.sound.evict keep, twins.sound', twins.backend, twins.digest, twins.limit⟩
  | renew capacity logLevel =>
    obtain ⟨sound, backend, either⟩ := twins.sound.reopened
      { s.config with treeCacheCapacity := capacity, logLevel } s.digest
    refine ⟨rfl, sound, twins.sound', twins.backend.trans backend.symm, ?_, ?_⟩
    · rcases either with ⟨_, _, digest⟩ | ⟨_, alike⟩
      · exact twins.digest.trans digest.symm
      · exact twins.digest.trans alike.digest.symm
    · rcases either with ⟨_, config, _⟩ | ⟨_, alike⟩
      · exact twins.limit.trans (congrArg DatastoreConfig.maxRevisionHistory config).symm
      · exact twins.limit.trans (congrArg DatastoreConfig.maxRevisionHistory alike.config).symm

theorem Twins.shared (twins : Twins s s') {step : Step} (shared : step.hidden = false) :
    (s.step step).1 = (s'.step step).1 ∧ Twins (s.step step).2 (s'.step step).2 := by
  cases step with
  | evict | renew => cases shared
  | ask q =>
    have agree := twins.serve q
    have grew := twins.sound.serve q
    have grew' := twins.sound'.serve q
    refine ⟨congrArg ([·]) agree.answer, grew.sound, grew'.sound, agree.backend, ?_, ?_⟩
    · exact grew'.digest.trans (twins.digest.trans grew.digest.symm)
    · show (s'.serve q).2.config.maxRevisionHistory = (s.serve q).2.config.maxRevisionHistory
      rw [grew'.config, grew.config, twins.limit]
  | failNext =>
    exact ⟨rfl, twins.sound.step .failNext, twins.sound'.step .failNext,
      congrArg (fun b : FaultyBackend => { b with memory := b.memory.failNextSequence })
        twins.backend, twins.digest, twins.limit⟩
  | allocations outcomes =>
    exact ⟨rfl, twins.sound.step (.allocations outcomes), twins.sound'.step (.allocations outcomes),
      congrArg (fun b : FaultyBackend => b.setQueue .nextSequence
        (outcomes.map BackendFault.ofOutcome)) twins.backend, twins.digest, twins.limit⟩
  | reopen config digest => exact ⟨rfl, twins.reopened config digest⟩

theorem Twins.rest (twins : Twins s s') {steps : List Step}
    (hidden : ∀ step ∈ steps, step.hidden = true) :
    (s.run steps).1 = [] ∧ Twins (s.run steps).2 s' := by
  induction steps generalizing s with
  | nil => exact ⟨rfl, twins⟩
  | cons step rest ih =>
    obtain ⟨silent, next⟩ := twins.hidden (hidden step List.mem_cons_self)
    obtain ⟨quiet, last⟩ := ih next fun step later => hidden step (List.mem_cons_of_mem _ later)
    refine ⟨?_, last⟩
    unfold run
    rw [silent, quiet]
    rfl

theorem Twins.upTo (twins : Twins s s') {steps rest : List Step} {step : Step}
    (seen : steps.filter (!·.hidden) = step :: rest) :
    ∃ front back, steps = front ++ step :: back ∧ back.filter (!·.hidden) = rest ∧
      step.hidden = false ∧ (s.run front).1 = [] ∧ Twins (s.run front).2 s' := by
  obtain ⟨front, back, whole, hidden, shown, later⟩ := List.filter_eq_cons_iff.mp seen
  have silent : ∀ step ∈ front, step.hidden = true := by
    intro step member
    simpa using hidden step member
  obtain ⟨quiet, next⟩ := twins.rest silent
  exact ⟨front, back, whole, later, by simpa using shown, quiet, next⟩

theorem runAppend (s : Datastore FaultyBackend) (front back : List Step) :
    s.run (front ++ back) =
      ((s.run front).1 ++ ((s.run front).2.run back).1, ((s.run front).2.run back).2) := by
  induction front generalizing s with
  | nil => rfl
  | cons step rest ih =>
    simp only [List.cons_append, run, ih, List.append_assoc]

theorem Twins.run (twins : Twins s s') {steps steps' : List Step}
    (same : steps.filter (!·.hidden) = steps'.filter (!·.hidden)) :
    (s.run steps).1 = (s'.run steps').1 ∧ Twins (s.run steps).2 (s'.run steps').2 := by
  -- By the steps that a client sees; what is hidden before and after them moves one store only.
  induction seen : steps.filter (!·.hidden) generalizing s s' steps steps' with
  | nil =>
    have silent := List.filter_eq_nil_iff.mp seen
    have silent' := List.filter_eq_nil_iff.mp (same.symm.trans seen)
    obtain ⟨quiet, next⟩ := twins.rest fun step member => by simpa using silent step member
    obtain ⟨quiet', last⟩ := next.symm.rest fun step member => by simpa using silent' step member
    exact ⟨quiet.trans quiet'.symm, last.symm⟩
  | cons step rest ih =>
    obtain ⟨front, back, rfl, later, shared, quiet, next⟩ := twins.upTo seen
    obtain ⟨front', back', rfl, later', _, quiet', next'⟩ := next.symm.upTo (same ▸ seen)
    obtain ⟨answer, after⟩ := next'.symm.shared shared
    obtain ⟨answers, last⟩ := ih after (later.trans later'.symm) later
    rw [runAppend, runAppend, quiet, quiet']
    unfold run
    exact ⟨by rw [answer, answers], last⟩

theorem Sound.cachedRebuilt (sound : s.Sound) {t : RevisionTree}
    (cached : s.cache.find? d = some t) :
    (Backend.documentKey d s.backend).1 = .ok t.key ∧
      t = (s.backend.memory.rebuilt d).getD (.empty d t.key) := by
  obtain ⟨rfl, known⟩ := sound.cached d t cached
  refine ⟨?_, ?_⟩
  · rw [sound.steady.documentKey, known.asked, sound.kept.key]
  · cases found : s.backend.memory.rebuilt d with
    | some t => exact (MemoryBackend.rebuiltSome found).2.symm
    | none =>
      have bare := MemoryBackend.rebuiltNone found
      rw [sound.kept.key, Option.getD_none]
      exact MemoryBackend.treeBare bare

theorem cachesAreTransparent :
    (∀ s : Datastore FaultyBackend, Reachable s → ∀ d, ∃ found,
      (s.loadTree d).1 = .ok found ∧ (found = none ↔ s.backend.memory.revisionsOf d = []) ∧
        ∀ t, s.cache.find? d = some t →
          (Backend.documentKey d s.backend).1 = .ok t.key ∧ t = found.getD (.empty d t.key)) ∧
    ∀ s s' : Datastore FaultyBackend, Reachable s → Reachable s' → s'.backend = s.backend →
      s'.digest = s.digest → s'.config.maxRevisionHistory = s.config.maxRevisionHistory →
      ∀ steps steps', steps.filter (!·.hidden) = steps'.filter (!·.hidden) →
        (s.run steps).1 = (s'.run steps').1 ∧
          (s'.run steps').2.backend = (s.run steps).2.backend := by
  constructor
  · intro s reachable d
    have sound := reachable.sound
    obtain ⟨_, loaded, _⟩ := loadTreeKept sound.steady sound.kept d
    refine ⟨s.backend.memory.rebuilt d, by rw [loaded], ?_, fun t => sound.cachedRebuilt⟩
    unfold MemoryBackend.rebuilt
    rw [ite_eq_left_iff, ← List.isEmpty_iff]
    simp
  · intro s s' reachable reachable' backend digest limit steps steps' same
    have twins : Twins s s' := ⟨reachable.sound, reachable'.sound, backend, digest, limit⟩
    obtain ⟨answers, last⟩ := twins.run same
    exact ⟨answers, last.backend⟩

namespace Sample

def update : Step := .ask (.update "d" "1-a" .empty)

def plain : List Step := [.ask (.force root []), .failNext, update, update, .ask (.leaves "d")]

-- The same, with trees dropped and stores opened in between.
def disturbed : List Step :=
  [.ask (.force root []), .evict fun _ => false, .failNext, .renew 1 "trace", update,
    .evict fun _ => false, update, .renew 2 "info", .ask (.leaves "d")]

end Sample

theorem sampleTransparent :
    ((Sample.store 1).run Sample.disturbed).1 = ((Sample.store 2).run Sample.plain).1 ∧
      ((Sample.store 2).run Sample.plain).1.map Except.isOk = [true, false, true, true] ∧
      ∀ d, ∃ found, (((Sample.store 2).run Sample.plain).2.loadTree d).1 = .ok found := by
  obtain ⟨rebuilds, agree⟩ := cachesAreTransparent
  have one : Reachable (Sample.store 1) := .opened (Sample.opened 1 (by decide))
  have two : Reachable (Sample.store 2) := Sample.reachable []
  have same := agree _ _ one two rfl rfl rfl Sample.disturbed Sample.plain rfl
  refine ⟨same.1, by decide +kernel, ?_⟩
  intro d
  obtain ⟨found, loaded, _⟩ := rebuilds _ (two.run Sample.plain) d
  exact ⟨found, loaded⟩

end RevForest.Datastore
