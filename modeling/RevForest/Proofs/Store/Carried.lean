import RevForest.Proofs.Store.ReadBack
import RevForest.Proofs.Store.Run
import RevForest.Proofs.Tree.Arrival

/-! Attachments that a store copies from a revision. A save copies those of the edited revision, an
update those of the parent and a foreign insert those that came; each goes through the records, and
so puts every attachment under its own name. From a map that says what it holds nothing is lost. -/
namespace RevForest.Datastore
variable {s s' : Datastore FaultyBackend} {d : DocumentId} {r x y : Revision}

theorem Sound.treeFound (sound : s.Sound) {create : Bool} {t : RevisionTree}
    {u : Datastore FaultyBackend} (got : s.treeOf d create = (.ok t, u)) :
    t.document = d ∧ t.WellFormed ∧ t.Crowned := by
  have fetched := sound.treeOf d create
  rw [got] at fetched
  cases fetched with
  | kept after =>
    exact ⟨after.kept.document d, after.kept.wellFormed d, after.kept.crowned d⟩
  | detached =>
    exact ⟨rfl, RevisionTree.emptyWellFormed d detachedKey, RevisionTree.emptyCrowned d detachedKey⟩

theorem Sound.editGives (sound : s.Sound) {named : Option RevisionId} {body : DocumentBody}
    {attachments : Option AttachmentMap} {deleted : Bool}
    (ran : s.localEdit d named body attachments deleted = (.ok r, s')) :
    ∃ t u x, s.treeOf d named.isNone = (.ok t, u) ∧ t.WellFormed ∧ t.Place named x ∧
      r.attachments = attachments.getD
        (((named.bind fun p => t.find? p.text).map (·.rekeyed.attachments)).getD .empty) := by
  obtain ⟨t, u, got, ran⟩ := Outcome.andThenOk ran
  obtain ⟨_, wf, crowned⟩ := sound.treeFound got
  dsimp only at ran
  split at ran
  · cases ran
  · rename_i grown report v inserted
    obtain ⟨x, made⟩ := RevisionTree.editInserted wf crowned inserted
    split at ran
    · cases ran
    · rename_i y found
      cases (Prod.mk.inj ran).1
      have node := made.node
      rw [made.sequence, found] at node
      have same : r.unflagged.attachments = x.unflagged.attachments :=
        congrArg Revision.attachments (Option.some.inj node)
      refine ⟨t, u, x, got, wf, made.place, ?_⟩
      refine same.trans (made.attachments.trans ?_)
      cases named.bind fun p => t.find? p.text <;> rfl

structure CopiesRecords (s : Datastore FaultyBackend) : Prop where
  saved : ∀ {x y s'}, x.dirty = true → s.saveRevision x = (.ok y, s') →
    y.attachments = x.rekeyed.attachments
  unsaved : ∀ {x y s'}, x.dirty = false → s.saveRevision x = (.ok y, s') → y = x
  updated : ∀ {document parent body y s'}, s.updateDocument document parent body = (.ok y, s') →
    ∃ w u, s.getDocument document = (.ok w, u) ∧ w.id.text = parent ∧
      y.attachments = w.rekeyed.attachments
  forced : ∀ {r history report s'}, s.forceInsert r history = (.ok (.inserted report), s') →
    ∃ t x, s'.treeOf r.document false = (.ok t, s') ∧ t.get? report.sequence = some x ∧
      x.id = r.id ∧ x.attachments = r.rekeyed.attachments

theorem Sound.saveTakes (sound : s.Sound) (dirty : x.dirty = true)
    (ran : s.saveRevision x = (.ok y, s')) : y.attachments = x.rekeyed.attachments := by
  unfold saveRevision at ran
  split at ran
  · cases ran
  · rw [if_neg (by simp [dirty])] at ran
    obtain ⟨_, _, _, _, _, _, given⟩ := sound.editGives ran
    exact given

theorem Sound.updateTakes (sound : s.Sound) {document parent : String} {body : DocumentBody}
    (ran : s.updateDocument document parent body = (.ok y, s')) :
    ∃ w u, s.getDocument document = (.ok w, u) ∧ w.id.text = parent ∧
      y.attachments = w.rekeyed.attachments := by
  unfold updateDocument withParent at ran
  split at ran
  · cases ran
  · rename_i d parsed
    split at ran
    · cases ran
    · rename_i p naming
      obtain ⟨t, u, x, got, wf, place, given⟩ := sound.editGives ran
      cases place with
      | alone unnamed => cases unnamed
      | @below w q won found _ _ _ licensed =>
        rcases licensed with same | ⟨unnamed, _⟩
        · cases same
          have current := RevisionTree.currentIff.mpr ⟨q, won, found⟩
          refine ⟨w, u, getCurrent parsed got current, RevisionId.textParsed naming, ?_⟩
          rw [given, Option.bind_some, wf.findNode found]
          rfl
        · cases unnamed

theorem Sound.forceTakes (sound : s.Sound) {history : List RevisionId} {report : InsertReport}
    (ran : s.forceInsert r history = (.ok (.inserted report), s')) :
    ∃ t x, s'.treeOf r.document false = (.ok t, s') ∧ t.get? report.sequence = some x ∧
      x.id = r.id ∧ x.attachments = r.rekeyed.attachments := by
  unfold Datastore.forceInsert at ran
  dsimp only at ran
  split at ran
  · cases ran
  · obtain ⟨t, u, got, ran⟩ := Outcome.andThenOk ran
    have spared := (commitSpares.keeps u).insertForeign t r history
      (fun _ _ _ _ _ _ => trivial) rfl
    split at ran
    · cases ran
    · cases ran
    · rename_i grown told v inserted
      obtain ⟨answer, reported⟩ := Prod.mk.inj ran
      cases answer
      rw [inserted] at spared
      obtain ⟨owner, x, found, id, given⟩ := RevisionTree.insertForeignAdopts inserted
      have own := (sound.treeFound got).1
      have there : v.cache.find? r.document = some t := by
        rw [show v.cache = u.cache from congrArg (·.2.2) spared]
        exact treeCachedNew own got
      have quiet : (v.keepTree grown).Quiet s' := by
        rw [← reported]
        exact .changed _ (by decide) _ _ _ _ _
      exact ⟨grown, x, keptRead (owner.trans own) there quiet, found, id, given⟩

theorem Sound.copiesRecords (sound : s.Sound) : s.CopiesRecords where
  saved := sound.saveTakes
  unsaved {x y s'} clean ran := by
    unfold saveRevision at ran
    split at ran
    · cases ran
    · rw [if_pos (by simp [clean])] at ran
      cases ran
      rfl
  updated := sound.updateTakes
  forced := sound.forceTakes

theorem editsThrough (r : Revision) (es : List AttachmentEdit) :
    (es.foldl (fun r e => (r.editAttachments e).1) r).attachments = r.attachments.edits es := by
  induction es generalizing r with
  | nil => rfl
  | cons e rest ih => exact ih (r.editAttachments e).1

/-- A map says what it holds once edits have taken out each entry under another name, and so
always if it was made of records. Then no copy of it loses or renames an attachment. -/
theorem namesKept :
    (∀ {m : AttachmentMap}, m.entries.Sorted → ∀ es,
      (m.edits es).Faithful ↔ ∀ x, m.Misplaced x → ∃ e ∈ es, ¬ e.spares x) ∧
    (∀ records es, ((AttachmentMap.ofRecords records).edits es).Faithful) ∧
    (∀ (r : Revision) entries es,
      (es.foldl (fun r e => (r.editAttachments e).1) (r.setAttachments entries)).attachments =
        (AttachmentMap.ofDict entries).edits es) ∧
    (∀ r : Revision, r.attachments.Faithful → r.rekeyed = r) ∧
    (∀ (r : Revision) fields, (r.project fields).attachments = r.rekeyed.attachments) ∧
    ∀ {s : Datastore FaultyBackend}, Reachable s → s.CopiesRecords := by
  refine ⟨fun sorted => AttachmentMap.editsFaithful sorted, fun records es => ?_,
    fun r entries => editsThrough (r.setAttachments entries), fun r faithful => ?_,
    fun _ _ => rfl, fun reachable => reachable.sound.copiesRecords⟩
  · exact (AttachmentMap.recordsNamed records).edited es
  · exact Revision.rekeyedNamed (AttachmentMap.restoredIff.mp faithful.restored)

namespace Sample

def renamed : AttachmentMap := .ofDict ⟨[("x", note)]⟩

end Sample

/-- A mapping is taken with its keys as they are, and what is saved of it has other names. -/
theorem givenNameLost :
    Sample.renamed.entries.Sorted ∧ ¬ Sample.renamed.Faithful ∧
      Sample.renamed.get? "x" = some Sample.note ∧ Sample.renamed.get? "a" = none ∧
      ((Sample.holding.saveRevision
        (Sample.reading.setAttachments Sample.renamed.entries)).1.toOption.map fun y =>
          (y.attachments.get? "x", y.attachments.get? "a")) = some (none, some Sample.note) := by
  refine ⟨List.pairwise_singleton _ _, ?_, by decide, by decide, by decide +kernel⟩
  intro faithful
  exact absurd (faithful.own ("x", Sample.note) (List.mem_singleton_self _)) (by decide)

end RevForest.Datastore
