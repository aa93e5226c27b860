import RevForest.Proofs.Store.Refusal

/-! A resolution of conflicts that succeeds has ended every live branch but the one that was
kept. The branches are ended one at a time and another leaf may win after each step, so this
is read off the whole chain of tombstones; what is stored carries it to any store on top. -/
namespace RevForest.Datastore
variable {s s' : Datastore FaultyBackend} {d : DocumentId} {document keep : String}
  {kept : RevisionId} {t : RevisionTree}

theorem Ending.pruned {losers : List RevisionId} {o : Outcome FaultyBackend RevisionTree}
    {chain : List Revision} (ending : Ending d s losers o chain) (sound : s.Sound)
    (ok : o.1 = .ok t) :
    (s.backend.memory.tree d).Pruned (o.2.backend.memory.tree d) losers := by
  induction ending with
  | done s => exact .refl _
  | refused | stalled => cases ok
  | ended moves ends tree next ih =>
    have step := ends.pruned (sound.kept.wellFormed d)
    rw [← tree] at step
    exact step.trans (ih moves.sound ok)

theorem Ending.leftWith {o : Outcome FaultyBackend RevisionTree} {chain : List Revision}
    (ending : Ending d s (losers (s.backend.memory.tree d) kept) o chain) (sound : s.Sound)
    (ok : o.1 = .ok t) (live : (s.backend.memory.tree d).Live kept) :
    (s.backend.memory.tree d).LeftWith (o.2.backend.memory.tree d) kept := by
  have after := (ending.moves sound).sound.kept
  exact (ending.pruned sound ok).leftWith (sound.kept.wellFormed d) (after.wellFormed d)
    (after.crowned d) live

theorem Sound.conflictedAmong (sound : s.Sound) (ds : List DocumentId) :
    (Datastore.conflictedAmong ds s).1 =
      .ok (ds.filter fun d => (s.backend.memory.tree d).isConflicted) := by
  induction ds generalizing s with
  | nil => rfl
  | cons d ds ih =>
    obtain ⟨t, u, got, soundU, alike, shown⟩ := sound.seen d
    have flag : t.isConflicted = (s.backend.memory.tree d).isConflicted := by
      cases shown with
      | stored some => rfl
      | bare none key =>
        rw [MemoryBackend.treeBare none]
        rfl
    have rest := ih soundU
    rw [alike.backend] at rest
    unfold Datastore.conflictedAmong
    rw [got]
    simp only [Outcome.andThen]
    generalize Datastore.conflictedAmong ds u = o at rest ⊢
    obtain ⟨answer, last⟩ := o
    cases rest
    rw [List.filter_cons, flag]

theorem Sound.listed (sound : s.Sound) : s.conflictedDocuments.1 =
    .ok (s.backend.memory.documentIds.filter fun d => (s.backend.memory.tree d).isConflicted) := by
  unfold conflictedDocuments
  rw [kindlyCall sound.steady.documentIds]
  exact sound.conflictedAmong _

/-- Where the document had the tree `t`, all that is live in it by now is the leaf that was
kept. -/
structure Resolved (s : Datastore FaultyBackend) (document : String) (t : RevisionTree)
    (kept : RevisionId) : Prop where
  tree : ∃ last u, s.treeOf t.document false = (.ok last, u) ∧ t.LeftWith last kept
  current : ∃ w, (s.getDocument document).1 = .ok w ∧ w.id = kept ∧ w.deleted = false
  calm : (s.isConflicted document).1 = .ok false
  unlisted : ∃ ds, s.conflictedDocuments.1 = .ok ds ∧ t.document ∉ ds

theorem Sound.resolved (sound : s.Sound) (parsed : DocumentId.parse document = .ok d)
    (own : t.document = d) (left : t.LeftWith (s.backend.memory.tree d) kept) :
    s.Resolved document t kept := by
  subst own
  obtain ⟨w, won, named, live⟩ := left.won
  refine ⟨?_, ⟨w, ?_, named, live⟩, ?_, _, sound.listed, ?_⟩
  · obtain ⟨last, u, got, _, _, shown⟩ := sound.seen t.document
    refine ⟨last, u, got, ?_⟩
    cases shown with
    | stored some => exact left
    | bare none key =>
      rw [MemoryBackend.treeBare none] at won
      cases won
  · exact (sound.shownCurrent parsed).mpr won
  · unfold isConflicted
    rw [sound.answers parsed fun _ _ _ => rfl, left.calm]
  · intro member
    have conflicted := (List.mem_filter.mp member).2
    rw [left.calm] at conflicted
    cases conflicted

theorem Sound.connects (sound : s.Sound) {config : DatastoreConfig} {digest : ContentDigest}
    {log log' : Log} {v : Datastore FaultyBackend} {b : FaultyBackend}
    (opens : connect config digest s.backend log = (.ok v, b, log')) :
    v.Sound ∧ v.backend = s.backend := by
  rcases connected config digest sound.steady log with
    ⟨_, _, _, tried⟩ | ⟨v', _, _, opened, _, _, backend, empty⟩
  · rw [tried] at opens
    cases opens
  · rw [opened] at opens
    cases opens
    exact ⟨soundEmpty (backend ▸ sound.steady) (backend ▸ sound.kept) empty, backend⟩

theorem Shown.live {m : MemoryBackend} (shown : Shown m d t) (live : (m.tree d).Live kept) :
    t = m.tree d := by
  obtain ⟨q, p, active, _⟩ := live
  cases shown with
  | stored some => rfl
  | bare none key =>
    rw [MemoryBackend.treeBare none] at active
    cases active.1.1

/-- Ending the branches but that of one live leaf leaves this one; where there is no such leaf
nothing is ended. -/
theorem resolutionKeeps (reachable : Reachable s) (parsed : DocumentId.parse document = .ok d)
    (named : RevisionId.parse keep = .ok kept) :
    ∃ t u, s.treeOf d false = (.ok t, u) ∧ t.document = d ∧
      (¬ t.Live kept → ∃ s', s.resolveConflicts document keep =
        (.error (t.conflictingWrite keep), s') ∧ s.Alike s' ∧ s.Untouched s') ∧
      ∀ n s', s.resolveConflicts document keep = (.ok n, s') →
        t.Live kept ∧ n = (t.activeLeaves.filter (·.id ≠ kept)).length ∧
          s'.Resolved document t kept ∧
          ∀ config digest log v b log',
            connect config digest s'.backend log = (.ok v, b, log') →
              v.Resolved document t kept := by
  have sound := reachable.sound
  obtain ⟨t, u, got, soundU, alike, shown⟩ := sound.seen d
  have good : t.document = d ∧ t.WellFormed := by
    cases shown with
    | stored some => exact ⟨sound.kept.document d, sound.kept.wellFormed d⟩
    | bare none key => exact ⟨rfl, RevisionTree.emptyWellFormed d key⟩
  obtain ⟨own, wf⟩ := good
  refine ⟨t, u, got, own, ?_, ?_⟩
  · intro dead
    have absent : (t.activeLeaves.map (·.id)).contains kept = false := by
      by_contra inside
      exact dead ((RevisionTree.memLive wf).mp (by simpa [RevisionTree.liveIds] using inside))
    refine ⟨u, ?_, alike, alike.untouched sound soundU⟩
    unfold resolveConflicts
    rw [parsed, named]
    dsimp only
    rw [got, okThen, absent, RevisionId.textParsed named]
    rfl
  · intro n s' ran
    have resolution := sound.resolveConflicts document keep
    generalize s.resolveConflicts document keep = o at ran resolution
    cases resolution with
    | refused => cases ran
    | @run d' kept' v last o chain parsed' named' alike' soundV live ending told =>
      cases parsed.symm.trans parsed'
      cases named.symm.trans named'
      obtain ⟨answer, rfl⟩ := Prod.mk.inj ran
      obtain ⟨result, after⟩ := o
      cases result with
      | error e => cases answer
      | ok done =>
        obtain rfl := Except.ok.inj answer
        rw [← alike'.backend] at shown live ending ⊢
        obtain rfl := shown.live live
        have left := ending.leftWith soundV rfl live
        have sound' := ((ending.moves soundV).told told).sound
        rw [← told.backend] at left
        refine ⟨live, ?_, sound'.resolved parsed own left, ?_⟩
        · unfold losers RevisionTree.liveIds
          rw [List.filter_map, List.length_map]
          rfl
        · intro config digest log x b log' opens
          obtain ⟨soundX, backend⟩ := sound'.connects opens
          exact soundX.resolved parsed own (backend ▸ left)

namespace Sample

def gone : Revision :=
  { RevisionTree.Sample.delivered ⟨"5-x", 5, "x", by decide⟩ with deleted := true }

def high : RevisionId := ⟨"4-y", 4, "y", by decide⟩

-- Three live roots and a deleted one; the first root is the lowest.
def scattered : List Step :=
  [root, RevisionTree.Sample.delivered other, RevisionTree.Sample.delivered high, gone].map
    fun r => .ask (.force r [])

def tangled : Datastore FaultyBackend := ((store 2).run scattered).2

end Sample

theorem lowestKept :
    ∃ t u, Sample.tangled.treeOf Sample.tracked false = (.ok t, u) ∧
      t.current?.map (·.id) = some Sample.high ∧
      (Sample.tangled.resolveConflicts "d" "5-x").1 = .error (t.conflictingWrite "5-x") ∧
      ∃ s', Sample.tangled.resolveConflicts "d" "1-a" = (.ok 2, s') ∧
        s'.Resolved "d" t Sample.root.id := by
  have reachable : Reachable Sample.tangled := Sample.reachable Sample.scattered
  have parsed : DocumentId.parse "d" = .ok Sample.tracked := DocumentId.parseText Sample.tracked
  obtain ⟨t, u, got, _, refused, _⟩ :=
    resolutionKeeps reachable parsed (RevisionId.parseText Sample.gone.id)
  obtain ⟨_, _, again, _, _, resolved⟩ :=
    resolutionKeeps reachable parsed (RevisionId.parseText Sample.root.id)
  obtain rfl := Except.ok.inj (congrArg Prod.fst (got.symm.trans again))
  have shown : (Sample.tangled.treeOf Sample.tracked false).1.map
      (fun t => (t.liveIds, t.current?.map (·.id))) =
        .ok ([Sample.root.id, Sample.other, Sample.high], some Sample.high) := by decide +kernel
  rw [got] at shown
  obtain ⟨live, won⟩ := Prod.mk.inj (Except.ok.inj shown)
  have dead : ¬ t.Live Sample.gone.id := by
    rw [← RevisionTree.memLive (reachable.sound.treeReady got).wellFormed, live]
    decide
  obtain ⟨s', ran, _⟩ := refused dead
  have ended : (Sample.tangled.resolveConflicts "d" "1-a").1 = .ok 2 := by decide +kernel
  have whole : Sample.tangled.resolveConflicts "d" "1-a" =
      (.ok 2, (Sample.tangled.resolveConflicts "d" "1-a").2) := Prod.ext ended rfl
  obtain ⟨_, _, left, _⟩ := resolved _ _ whole
  exact ⟨t, u, got, won, congrArg Prod.fst ran, _, whole, left⟩

end RevForest.Datastore
