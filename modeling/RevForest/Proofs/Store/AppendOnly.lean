import RevForest.Proofs.Store.Ledger

/-! History is only added to. What is stored stays stored as it is; what is new is of the document
that was written to and stands under a sequence above all others. In a tree nodes keep their
revisions and their places, and only flags change. Other documents stay as they are. -/
namespace RevForest

namespace RevisionTree
variable {t u v : RevisionTree} {r : Revision} {chain : List Revision}

structure Preserves (t u : RevisionTree) : Prop where
  document : u.document = t.document
  nodes : ∀ s x, t.get? s = some x → ∃ y, u.get? s = some y ∧ y.unflagged = x.unflagged
  ids : ∀ id s, t.sequenceOf? id = some s → u.sequenceOf? id = some s
  roots : t.roots <+: u.roots
  children : ∀ s, t.childrenOf s <+: u.childrenOf s

namespace Preserves

theorem refl (t : RevisionTree) : t.Preserves t :=
  ⟨rfl, fun _ x found => ⟨x, found, rfl⟩, fun _ _ => id, List.prefix_rfl, fun _ => List.prefix_rfl⟩

theorem trans (first : t.Preserves u) (later : u.Preserves v) : t.Preserves v where
  document := later.document.trans first.document
  nodes s x found := by
    obtain ⟨y, there, same⟩ := first.nodes s x found
    obtain ⟨z, last, still⟩ := later.nodes s y there
    exact ⟨z, last, still.trans same⟩
  ids id s found := later.ids id s (first.ids id s found)
  roots := first.roots.trans later.roots
  children s := (first.children s).trans (later.children s)

theorem link (fits : t.Fits r) : t.Preserves (t.link r) where
  document := by rw [linkShape]
  nodes s x found := by
    have other : s ≠ r.sequence := by
      rintro rfl
      rw [fits.freeSequence] at found
      cases found
    exact ⟨x, by rw [getLink, if_neg other, found], rfl⟩
  ids id s found := by
    have other : id ≠ r.id.text := by
      rintro rfl
      rw [fits.freeId] at found
      cases found
    rw [sequenceLink, if_neg other, found]
  roots := by
    rw [rootsLink]
    split
    · exact List.prefix_rfl
    · exact List.prefix_append _ _
  children s := by
    rw [childrenLink fits]
    split
    · exact List.prefix_append _ _
    · exact List.prefix_rfl

theorem grows (grows : Grows t chain u) : t.Preserves u := by
  induction grows with
  | nil t => exact .refl t
  | cons fits next ih => exact (link fits).trans ih

theorem chosen (kept : t.Preserves u) : t.chooseWinner.Preserves u.chooseWinner where
  document := kept.document
  nodes s x found := by
    obtain ⟨old, there, rfl⟩ := chosenIff.mp found
    obtain ⟨y, last, same⟩ := kept.nodes s old there
    exact ⟨_, chosenIff.mpr ⟨y, last, rfl⟩, same⟩
  ids := kept.ids
  roots := kept.roots
  children s := by
    rw [childrenChosen, childrenChosen]
    exact kept.children s

theorem empty (d : DocumentId) (key key' : Int) : (empty d key).Preserves (.empty d key') where
  document := rfl
  nodes s x found := by cases found
  ids id s found := by cases found
  roots := List.prefix_rfl
  children _ := List.prefix_rfl

end Preserves

end RevisionTree

namespace MemoryBackend
variable {m m' m'' : MemoryBackend} {d e : DocumentId} {own also : DocumentId → Prop}
  {rs chain : List Revision}

structure Grafts (m m' : MemoryBackend) (own : DocumentId → Prop) : Prop where
  trees : ∀ d, (m.tree d).Preserves (m'.tree d)
  others : ∀ d, ¬ own d → m'.revisionsOf d = m.revisionsOf d ∧ m'.tree d = m.tree d

namespace Grafts

theorem idle (idle : m.Idle m') : m.Grafts m' own := by
  obtain ⟨failNext, rfl⟩ := idle
  exact ⟨fun d => .refl _, fun d _ => ⟨rfl, rfl⟩⟩

theorem same (memory : m' = m) : m.Grafts m' own := .idle ⟨m.failNext, memory⟩

theorem trans (first : m.Grafts m' own) (later : m'.Grafts m'' own) : m.Grafts m'' own where
  trees d := (first.trees d).trans (later.trees d)
  others d other := by
    obtain ⟨stored, tree⟩ := later.others d other
    obtain ⟨before, old⟩ := first.others d other
    exact ⟨stored.trans before, tree.trans old⟩

theorem mono (grafts : m.Grafts m' own) (sub : ∀ d, own d → also d) : m.Grafts m' also :=
  ⟨grafts.trees, fun d other => grafts.others d fun mine => other (sub d mine)⟩

end Grafts

theorem treeKnowOther (m : MemoryBackend) (other : e ≠ d) : (m.know d).tree e = m.tree e := by
  have key : (m.know d).keyOf e = m.keyOf e := by
    unfold keyOf
    rw [knowKeys, if_neg other]
  unfold tree grown
  rw [revisionsKnow, key]

theorem Kept.graftsKnow (kept : m.Kept) (mine : own d) : m.Grafts (m.know d) own where
  trees e := by
    by_cases bare : m.revisionsOf e = []
    · have still : (m.know d).revisionsOf e = [] := (revisionsKnow m d e).trans bare
      rw [treeBare bare, treeBare still]
      exact .empty _ _ _
    · rw [kept.treeKnow d bare]
      exact .refl _
  others e other := by
    have apart : e ≠ d := by
      rintro rfl
      exact other mine
    exact ⟨revisionsKnow m d e, m.treeKnowOther apart⟩

theorem Extends.grafts (extended : m.Extends m' d chain) (mine : own d) : m.Grafts m' own where
  trees e := by
    by_cases same : e = d
    · subst same
      exact (RevisionTree.Preserves.grows extended.grows).chosen
    · rw [extended.otherTree same]
      exact .refl _
  others e other := by
    have apart : e ≠ d := by
      rintro rfl
      exact other mine
    exact ⟨extended.others e apart, extended.otherTree apart⟩

/-- What is stored is kept, and what comes to it is of some documents and above all the rest. -/
structure Appends (m m' : MemoryBackend) (own : DocumentId → Prop) : Prop extends
    Grafts m m' own where
  kept : ∀ q r, m.revisions.find? q = some r → m'.revisions.find? q = some r
  stored : ∀ d, m.revisionsOf d <+: m'.revisionsOf d
  new : ∀ q r, m'.revisions.find? q = some r → m.revisions.find? q = some r ∨
    own r.document ∧ r.sequence = q ∧ ∀ p x, m.revisions.find? p = some x → p < q

theorem Grafts.appends (grafts : m.Grafts m' own) (held : m.Held) (files : m.Files rs m') :
    m.Appends m' own where
  toGrafts := grafts
  kept q r found := (files.finds held).mpr (.inl found)
  stored d := by
    rw [files.revisionsOf held]
    exact List.prefix_append _ _
  new q r found := by
    rcases (files.finds held).mp found with old | ⟨member, rfl⟩
    · exact .inl old
    · refine .inr ⟨?_, rfl, ?_⟩
      · -- A document that nothing was written to would have had the revision before.
        by_contra other
        have inside := ((files.held held).belongs found).1
        rw [(grafts.others _ other).1] at inside
        have before := (held.stored inside).2.2
        exact absurd (files.above member).1 (not_lt.mpr before)
      · intro p x there
        exact lt_of_le_of_lt (held.inside p x there).1 (files.above member).1

theorem Appends.trans (first : m.Appends m' own) (later : m'.Appends m'' own) :
    m.Appends m'' own where
  toGrafts := first.toGrafts.trans later.toGrafts
  kept q r found := later.kept q r (first.kept q r found)
  stored d := (first.stored d).trans (later.stored d)
  new q r found := by
    rcases later.new q r found with old | ⟨mine, sequence, above⟩
    · exact first.new q r old
    · exact .inr ⟨mine, sequence, fun p x there => above p x (first.kept p x there)⟩

theorem Appends.mono (appends : m.Appends m' own) (sub : ∀ d, own d → also d) :
    m.Appends m' also where
  toGrafts := appends.toGrafts.mono sub
  kept := appends.kept
  stored := appends.stored
  new q r found := (appends.new q r found).imp_right fun new => ⟨sub _ new.1, new.2⟩

end MemoryBackend

def Request.document? : Request → Option DocumentId
  | .force r _ => some r.document
  | .resolve document _ => (DocumentId.parse document).toOption
  | q => q.target?.map (·.1)

def Step.document? : Step → Option DocumentId
  | .ask q => q.document?
  | _ => none

def Touches (steps : List Step) (d : DocumentId) : Prop :=
  ∃ step ∈ steps, some d = step.document?

namespace Datastore
variable {s s' : Datastore FaultyBackend} {d : DocumentId} {own : DocumentId → Prop}

abbrev Grafts (s s' : Datastore FaultyBackend) (own : DocumentId → Prop) : Prop :=
  s.backend.memory.Grafts s'.backend.memory own

abbrev Appends (s s' : Datastore FaultyBackend) (own : DocumentId → Prop) : Prop :=
  s.backend.memory.Appends s'.backend.memory own

theorem Alike.grafts (alike : s.Alike s') : s.Grafts s' own :=
  .same (congrArg FaultyBackend.memory alike.backend)

theorem Sound.askedGrafts (sound : s.Sound) (mine : own d) : s.Grafts (s.asked d) own :=
  sound.kept.graftsKnow mine

theorem Refused.grafts (refused : s.Refused s' d) (sound : s.Sound) (mine : own d) :
    s.Grafts s' own := by
  rcases refused.alike with alike | alike
  · exact alike.grafts
  · exact (sound.askedGrafts mine).trans alike.grafts

theorem Moves.grafts {chain : List Revision} (moves : (s.asked d).Moves s' d chain)
    (sound : s.Sound) (mine : own d) : s.Grafts s' own :=
  (sound.askedGrafts mine).trans (moves.extended.grafts mine)

theorem LocalEdit.grafts {named : Option RevisionId} {deleted : Bool}
    {o : Outcome FaultyBackend Revision} (edit : LocalEdit s d named deleted o) (sound : s.Sound)
    (mine : own d) : s.Grafts o.2 own := by
  cases edit with
  | refused plain refused => exact refused.grafts sound mine
  | stalled moves => exact moves.grafts sound mine
  | stored moves edited tree answer => exact moves.grafts sound mine

theorem ForceInsert.grafts {o : Outcome FaultyBackend ForeignInsert} (force : ForceInsert s d o)
    (sound : s.Sound) (mine : own d) : s.Grafts o.2 own := by
  cases force with
  | refused plain refused => exact refused.grafts sound mine
  | present moves => exact moves.grafts sound mine
  | stalled moves => exact moves.grafts sound mine
  | stored moves => exact moves.grafts sound mine

theorem Resolution.grafts {document keep : String} {o : Outcome FaultyBackend Nat}
    (resolution : Resolution s document keep o) :
    s.Grafts o.2 (some · = (Request.resolve document keep).document?) := by
  cases resolution with
  | refused plain sound alike => exact alike.grafts
  | run parsed named alike sound live ending told =>
    have moves := alike.movesFrom ((ending.moves sound).told told)
    have own : (Request.resolve document keep).document? = some _ :=
      congrArg Except.toOption parsed
    exact moves.extended.grafts own.symm

theorem Sound.editGrafts (sound : s.Sound) {q : Request} (edit : q.isEdit = true) :
    s.Grafts (s.serve q).2 (some · = q.target?.map (·.1)) := by
  cases target : q.target? with
  | none =>
    obtain ⟨answer, plain⟩ := servedPlain edit target
    obtain ⟨s', served, told⟩ := plain s
    rw [served]
    exact told.alike.grafts
  | some named =>
    obtain ⟨body, attachments, deleted, served⟩ := servedEdit target
    rw [served]
    exact (sound.localEdit named.1 named.2 body attachments deleted).grafts sound rfl

theorem Sound.serveGrafts (sound : s.Sound) (q : Request) :
    s.Grafts (s.serve q).2 (some · = q.document?) := by
  cases q with
  | create | update | save | delete => exact sound.editGrafts rfl
  | force r history => exact (sound.forceInsert r history).grafts sound rfl
  | resolve document keep => exact (sound.resolveConflicts document keep).grafts
  | _ => exact (sound.reads rfl).alike.grafts

theorem Sound.stepGrafts (sound : s.Sound) (step : Step) :
    s.Grafts (s.step step).2 (some · = step.document?) := by
  cases step with
  | ask q => exact sound.serveGrafts q
  | failNext => exact .idle ⟨true, rfl⟩
  | allocations outcomes => exact .same rfl
  | evict keep => exact .same rfl
  | renew capacity logLevel =>
    exact .same (congrArg FaultyBackend.memory (sound.reopened _ _).2.1)
  | reopen config digest =>
    exact .same (congrArg FaultyBackend.memory (sound.reopened config digest).2.1)

theorem Sound.stepAppends (sound : s.Sound) (step : Step) :
    s.Appends (s.step step).2 (some · = step.document?) := by
  obtain ⟨rs, counts⟩ := sound.stepCounts step
  exact (sound.stepGrafts step).appends sound.kept.held counts.files

theorem Sound.runAppends (sound : s.Sound) (steps : List Step) :
    s.Appends (s.run steps).2 (Touches steps) := by
  induction steps generalizing s with
  | nil => exact (MemoryBackend.Grafts.same rfl).appends sound.kept.held (.refl _)
  | cons step rest ih =>
    have first : s.Appends (s.step step).2 (Touches (step :: rest)) :=
      (sound.stepAppends step).mono fun d own => ⟨step, List.mem_cons_self, own⟩
    have later : (s.step step).2.Appends (s.run (step :: rest)).2 (Touches (step :: rest)) :=
      (ih (sound.step step)).mono fun d own => by
        obtain ⟨x, member, mine⟩ := own
        exact ⟨x, List.mem_cons_of_mem _ member, mine⟩
    exact first.trans later

/-- What a store shows of a document, cached or in answers, is the tree of what is stored. -/
structure Shows (s : Datastore FaultyBackend) : Prop where
  cached : ∀ d t, s.cache.find? d = some t → t = s.backend.memory.tree d
  answers : ∀ {α : Type} document d (read : DocumentId → RevisionTree → Except DocumentError α),
    DocumentId.parse document = .ok d → Blind read →
      (s.readTree document read).1 = read d (s.backend.memory.tree d)

theorem Sound.shows (sound : s.Sound) : s.Shows :=
  ⟨fun d t found => (sound.cached d t found).1, fun _ _ _ parsed blind => sound.answers parsed blind⟩

/-- A request only adds to the history of its own document, and a run to those of its requests. -/
theorem reachableAppends (reachable : Reachable s) :
    s.Shows ∧ (∀ q, s.Appends (s.serve q).2 (some · = q.document?)) ∧
      ∀ steps, (s.run steps).2.Shows ∧ s.Appends (s.run steps).2 (Touches steps) := by
  have sound := reachable.sound
  refine ⟨sound.shows, fun q => sound.stepAppends (.ask q), ?_⟩
  intro steps
  exact ⟨(reachable.run steps).sound.shows, sound.runAppends steps⟩

namespace Sample

def rooted : Datastore FaultyBackend := ((store 2).run [.ask (.force root [])]).2

def edit : Request := .update "d" "1-a" .empty

end Sample

theorem editedRootKept :
    ∃ x y, (Sample.rooted.backend.memory.tree Sample.tracked).get? 1 = some x ∧
      ((Sample.rooted.serve Sample.edit).2.backend.memory.tree Sample.tracked).get? 1 = some y ∧
      y.unflagged = x.unflagged ∧ x.current = true ∧ y.current = false := by
  have appends : Sample.rooted.Appends (Sample.rooted.serve Sample.edit).2 _ :=
    (reachableAppends (Sample.reachable [.ask (.force Sample.root [])])).2.1 Sample.edit
  have before : ((Sample.rooted.backend.memory.tree Sample.tracked).get? 1).map (·.current) =
      some true := by decide +kernel
  have after : (((Sample.rooted.serve Sample.edit).2.backend.memory.tree Sample.tracked).get? 1).map
      (·.current) = some false := by decide +kernel
  obtain ⟨x, found, current⟩ := Option.map_eq_some_iff.mp before
  obtain ⟨y, there, same⟩ := (appends.trees Sample.tracked).nodes 1 x found
  rw [there] at after
  exact ⟨x, y, found, there, same, current, Option.some.inj after⟩

end Datastore
end RevForest
