import RevForest.Proofs.Store.ApplyOnce

/-! What a refused request leaves. A write of one revision, or of a foreign chain, is refused
before anything is allocated or not at all: once the commits have succeeded, the tree takes
what was stored. Ending branches is refused in between where a later loser is refused. -/
namespace RevForest

def Step.isReading : Step → Bool
  | .ask q => q.isRead
  | step => step.hidden

def Request.isResolve : Request → Bool
  | .resolve _ _ => true
  | _ => false

namespace Datastore
variable {s s' u v : Datastore FaultyBackend} {d : DocumentId} {t : RevisionTree}

/-- Nothing is stored, allocated, or taken from the faults to come, and reads find what they
would have found. -/
structure Untouched (s s' : Datastore FaultyBackend) : Prop where
  counter : s'.backend.memory.counter = s.backend.memory.counter
  revisions : s'.backend.memory.revisions = s.backend.memory.revisions
  byDocument : s'.backend.memory.byDocument = s.backend.memory.byDocument
  pending : s'.backend.memory.failNext = s.backend.memory.failNext
  queues : s'.backend.queues = s.backend.queues
  reads : ∀ steps, (∀ step ∈ steps, step.isReading = true) → (s'.run steps).1 = (s.run steps).1

theorem Sound.reading (sound : s.Sound) {step : Step} (reading : step.isReading = true) :
    (s.step step).2.backend = s.backend := by
  cases step with
  | ask q => exact (sound.reads reading).alike.backend
  | evict keep => rfl
  | renew capacity logLevel => exact (sound.reopened _ _).2.1
  | failNext | allocations | reopen => cases reading

theorem SameStored.runs (same : SameStored s.backend.memory s'.backend.memory) (sound : s.Sound)
    (sound' : s'.Sound) {steps : List Step} (reading : ∀ step ∈ steps, step.isReading = true) :
    (s'.run steps).1 = (s.run steps).1 := by
  induction steps generalizing s s' with
  | nil => rfl
  | cons step rest ih =>
    have first := reading step List.mem_cons_self
    have after : SameStored (s.step step).2.backend.memory (s'.step step).2.backend.memory := by
      rw [sound.reading first, sound'.reading first]
      exact same
    have later := ih after (sound.step step) (sound'.step step)
      fun step later => reading step (List.mem_cons_of_mem _ later)
    have now : (s'.step step).1 = (s.step step).1 := by
      cases step with
      | ask q => exact congrArg ([·]) (same.reads sound sound' first).symm
      | _ => rfl
    unfold run
    rw [now, later]

theorem sameStoredKnow {m : MemoryBackend} (kept : m.Kept) (d : DocumentId) :
    SameStored m (m.know d) := by
  have shape := m.knowShape d
  refine ⟨by rw [shape], by rw [shape], by rw [shape], ?_⟩
  intro e some
  exact ((kept.known some).know d).2

theorem Refused.untouched (refused : s.Refused s' d) (sound : s.Sound) : s.Untouched s' := by
  have shape := s.backend.memory.knowShape d
  rcases refused.alike with alike | alike
  · have backend := alike.backend
    have same : SameStored s.backend.memory s'.backend.memory := by
      rw [backend]
      exact ⟨rfl, rfl, rfl, fun _ _ => rfl⟩
    exact ⟨same.counter, same.revisions, same.byDocument, by rw [backend], by rw [backend],
      fun steps => same.runs sound refused.sound⟩
  · have backend : s'.backend = s.backend.know d := alike.backend
    have memory : s'.backend.memory = s.backend.memory.know d := congrArg _ backend
    have same : SameStored s.backend.memory s'.backend.memory := by
      rw [memory]
      exact sameStoredKnow sound.kept d
    exact ⟨same.counter, same.revisions, same.byDocument, by rw [memory, shape],
      by rw [backend]; rfl, fun steps => same.runs sound refused.sound⟩

theorem LocalEdit.refusal {named : Option RevisionId} {deleted : Bool}
    {o : Outcome FaultyBackend Revision} {e : DocumentError}
    (edit : LocalEdit s d named deleted o) (failed : o.1 = .error e) (plain : e.Recoverable) :
    s.Refused o.2 d := by
  cases edit with
  | refused _ refused => exact refused
  | stalled moves =>
    cases failed
    exact absurd rfl (plain _)
  | stored => cases failed

theorem LocalWrite.refusal {o : Outcome FaultyBackend Revision} {e : DocumentError}
    (write : LocalWrite s o) (sound : s.Sound) (failed : o.1 = .error e) (plain : e.Recoverable) :
    s.Untouched o.2 := by
  cases write with
  | plain told => exact (told.refused sound (DocumentId.generated 0)).untouched sound
  | edit edit => exact (edit.refusal failed plain).untouched sound

theorem ForceInsert.refusal {o : Outcome FaultyBackend ForeignInsert} {e : DocumentError}
    (force : ForceInsert s d o) (sound : s.Sound) (failed : o.1 = .error e)
    (plain : e.Recoverable) : s.Untouched o.2 := by
  cases force with
  | refused _ refused => exact refused.untouched sound
  | present => cases failed
  | stalled moves =>
    cases failed
    exact absurd rfl (plain _)
  | stored => cases failed

theorem mapFailed {α γ : Type} {answer : Except DocumentError α} {f : α → γ} {e : DocumentError}
    (failed : answer.map f = .error e) : answer = .error e := by
  cases answer with
  | error e' =>
    cases failed
    rfl
  | ok a => cases failed

structure Ready (u : Datastore FaultyBackend) (t : RevisionTree) : Prop where
  sound : u.Sound
  wellFormed : t.WellFormed
  crowned : t.Crowned
  free : ∀ q, u.backend.memory.counter.highest < q → t.get? q = none

theorem Sound.ready (sound : s.Sound) (d : DocumentId) : s.Ready (s.backend.memory.tree d) :=
  ⟨sound, sound.kept.wellFormed d, sound.kept.crowned d,
    fun _ above => FaultyBackend.freeAbove sound.kept above⟩

theorem Sound.treeReady (sound : s.Sound) {create : Bool}
    (got : s.treeOf d create = (.ok t, u)) : u.Ready t := by
  have fetched := sound.treeOf d create
  rw [got] at fetched
  cases fetched with
  | kept sound => exact sound.ready d
  | detached told absent bare =>
    exact ⟨sound.told told, RevisionTree.emptyWellFormed d detachedKey,
      RevisionTree.emptyCrowned d detachedKey, fun _ _ => rfl⟩

theorem Sound.committed (sound : s.Sound) {r done : Revision} (new : r.sequence = unassigned)
    (full : r.projection = none) (ran : Commit.run commit r s = (.ok done, v)) :
    done = s.backend.memory.numbered r := by
  have seen := commitFollows.run r s
  rw [ran, Commit.runNew _ new] at seen
  have committed := sound.steady.commits sound.kept.held new full
  generalize Backend.commit r s.backend = asked at seen committed
  cases committed with
  | stalled steady idle => cases seen
  | stored steady memory =>
    cases seen
    rfl

theorem Ready.placed (ready : u.Ready t) {parent : Option Int} (holds : t.Holds parent)
    {digest : ContentDigest} {body : DocumentBody} {attachments : AttachmentMap} {deleted : Bool}
    {r done : Revision} (drafted : t.draft digest parent body attachments deleted = .ok r)
    (ran : Commit.run commit r u = (.ok done, v)) :
    ∃ grown report x, t.place parent.isNone done = .ok (grown, report) ∧
      grown.get? report.sequence = some x := by
  obtain ⟨shape, _, _⟩ := RevisionTree.draftOk drafted
  have numbered := ready.sound.committed (by rw [shape]; rfl) (by rw [shape]; rfl) ran
  subst numbered
  have counted := ready.sound.kept.counted
  have fits : t.Fits (u.backend.memory.numbered r) :=
    RevisionTree.draftFits drafted holds (by omega) (ready.free _ (lt_add_one _))
  obtain ⟨x, found⟩ := linkedNode t (u.backend.memory.numbered r)
  exact ⟨_, _, x, RevisionTree.placeFits fits parent.isNone, found⟩

theorem Sound.placedChain (sound : s.Sound) (known : s.backend.memory.Knows d) {r : Revision}
    {history : List RevisionId} {parent : Option Int} {chain done : List Revision}
    (plan : (s.backend.memory.tree d).planForeign r history = .ok (.missing parent chain))
    (ran : (s.backend.memory.tree d).commitChain commit (parent.getD noParent) chain s =
      (.ok done, v)) :
    ∃ grown report, (s.backend.memory.tree d).placeChain parent.isNone done =
      .ok (grown, report) := by
  have seen := commitFollows.commitChain (s.backend.memory.tree d) chain (parent.getD noParent) s
  have committed := sound.steady.commitPlan sound.kept known plan
  rw [ran] at seen
  rw [← seen] at committed
  cases committed with
  | stored qs steady length extended =>
    obtain ⟨grown, grows, _⟩ := FaultyBackend.growsTree sound.kept extended
    exact ⟨_, _, RevisionTree.placeChainGrows parent grows⟩

theorem Sound.linked (sound : s.Sound) {q : Int} {r : Revision}
    (stored : s.backend.memory.revisions.find? q = some r) (create : Bool) :
    ∃ t u x, s.treeOf r.document create = (.ok t, u) ∧ t.get? q = some x ∧
      MemoryBackend.Row r x := by
  have kept := sound.kept
  obtain ⟨_, there, rfl, _⟩ := kept.listed _ q (kept.inside q r stored).2
  cases there.symm.trans stored
  have member := kept.belongs stored
  have some : s.backend.memory.revisionsOf r.document ≠ [] := List.ne_nil_of_mem member
  obtain ⟨x, found, row⟩ := kept.storedNode member
  have fetched := sound.treeOf r.document create
  generalize s.treeOf r.document create = got at fetched
  cases fetched with
  | @kept u _ _ _ backend =>
    rw [backend.trans (knowSame (kept.known some))]
    exact ⟨_, u, x, rfl, found, row⟩
  | detached told absent bare => exact absurd bare some

inductive Under (t : RevisionTree) (parent : Option Int) : Prop where
  | edit (named : Option RevisionId) (ok : t.editParent named = .ok parent)
  | leaf {id : String} {q : Int} (found : t.sequenceOf? id = some q) (same : parent = some q)

theorem Ready.under (ready : u.Ready t) {parent : Option Int} (under : Under t parent) :
    t.Holds parent := by
  cases under with
  | edit named ok => exact (RevisionTree.editParentExtends ready.wellFormed ready.crowned ok).holds
  | @leaf id q found same =>
    obtain ⟨p, node, _⟩ := (ready.wellFormed.indexed id q).mp found
    subst same
    rintro _ ⟨⟩
    exact ⟨p, node⟩

/-- A write of one revision or one chain is refused before its first commit, or not at all. -/
structure RefusesEarly (s : Datastore FaultyBackend) : Prop where
  untouched : ∀ q e s', q.isRead = false → q.isResolve = false → s.serve q = (.error e, s') →
    e.Recoverable → s.Untouched s'
  child : ∀ d create t u, s.treeOf d create = (.ok t, u) → ∀ parent, Under t parent →
    ∀ body attachments deleted r done v,
      t.draft u.digest parent body attachments deleted = .ok r →
      Commit.run commit r u = (.ok done, v) →
        ∃ grown report x, t.place parent.isNone done = .ok (grown, report) ∧
          grown.get? report.sequence = some x
  chain : ∀ r history t u, s.treeOf r.document true = (.ok t, u) → ∀ parent chain done v,
    t.planForeign r history = .ok (.missing parent chain) →
    t.commitChain commit (parent.getD noParent) chain u = (.ok done, v) →
      ∃ grown report, t.placeChain parent.isNone done = .ok (grown, report)
  linked : ∀ q r, s.backend.memory.revisions.find? q = some r → ∀ create,
    ∃ t u x, s.treeOf r.document create = (.ok t, u) ∧ t.get? q = some x ∧ MemoryBackend.Row r x

theorem Sound.refusedWrite (sound : s.Sound) {q : Request} {e : DocumentError}
    (write : q.isRead = false) (single : q.isResolve = false) (failed : (s.serve q).1 = .error e)
    (plain : e.Recoverable) : s.Untouched (s.serve q).2 := by
  have served := sound.served q
  generalize s.serve q = o at served failed ⊢
  cases served with
  | read read kindly =>
    rw [write] at read
    cases read
  | write write => exact write.refusal sound (mapFailed failed) plain
  | force force => exact force.refusal sound (mapFailed failed) plain
  | resolve => cases single

theorem reachableRefusesEarly (reachable : Reachable s) : s.RefusesEarly := by
  have sound := reachable.sound
  constructor
  case untouched =>
    intro q e s' write single served plain
    have untouched := sound.refusedWrite write single (congrArg Prod.fst served) plain
    rwa [served] at untouched
  case child =>
    intro d create t u got parent under body attachments deleted r done v drafted ran
    have ready := sound.treeReady got
    exact ready.placed (ready.under under) drafted ran
  case chain =>
    intro r history t u got parent chain done v plan ran
    have fetched := sound.treeOf r.document true
    rw [got] at fetched
    cases fetched with
    | kept sound _ _ _ known => exact sound.placedChain known plan ran
    | detached told absent bare => cases absent
  case linked => exact fun q r stored create => sound.linked stored create

namespace Sample

-- A document with two revisions, and a fault to come.
def behind : List Step := [.ask (.force root []), .ask (.update "d" "1-a" .empty), .failNext]

def faulty : Datastore FaultyBackend := ((store 2).run behind).2

def late : Request := .update "d" "1-a" .empty

end Sample

theorem lateEditUntouched :
    (Sample.faulty.serve Sample.late).1 = .error (.conflictingWrite "d" "1-a" "2-d") ∧
      Sample.faulty.Untouched (Sample.faulty.serve Sample.late).2 ∧
      (Sample.faulty.serve Sample.late).2.backend.memory.failNext = true := by
  have early := reachableRefusesEarly (Sample.reachable Sample.behind)
  have failed : (Sample.faulty.serve Sample.late).1 =
      .error (.conflictingWrite "d" "1-a" "2-d") :=
    mapFailed (f := fun _ => ()) (by decide +kernel)
  have untouched := early.untouched Sample.late _ _ rfl rfl (Prod.ext failed rfl)
    fun cause same => by cases same
  exact ⟨failed, untouched, untouched.pending⟩

theorem Alike.untouched (alike : s.Alike s') (sound : s.Sound) (sound' : s'.Sound) :
    s.Untouched s' :=
  Refused.untouched (d := DocumentId.generated 0) ⟨sound', .inl alike⟩ sound

structure Halfway (s s' : Datastore FaultyBackend) (d : DocumentId) (kept : RevisionId)
    (ended : List RevisionId) (leaf : RevisionId) (e : DocumentError) : Prop where
  some : ended ≠ []
  order : ∃ rest, losers (s.backend.memory.tree d) kept = ended ++ leaf :: rest
  stored : (s.added s' d).length = ended.length
  dead : ∀ x ∈ s.added s' d, x.deleted = true
  others : ∀ f, f ≠ d → s.added s' f = []
  counter : s'.backend.memory.counter.highest =
    s.backend.memory.counter.highest + ended.length
  stopped : s.Stopped s' d ended leaf e

theorem Moves.halfway {chain : List Revision} {kept leaf : RevisionId}
    {ended rest : List RevisionId} {e : DocumentError} (moves : s.Moves s' d chain)
    (some : ended ≠ []) (order : losers (s.backend.memory.tree d) kept = ended ++ leaf :: rest)
    (length : ended.length = chain.length) (dead : ∀ x ∈ chain, x.deleted = true)
    (stopped : s.Stopped s' d ended leaf e) : s.Halfway s' d kept ended leaf e := by
  have extended := moves.extended
  have own : s.added s' d = chain := addedChain extended.own
  refine ⟨some, ⟨rest, order⟩, ?_, ?_, ?_, ?_, stopped⟩
  · rw [own, length]
  · rw [own]
    exact dead
  · exact fun f other => addedNothing (extended.others f other)
  · rw [extended.counter, length]

theorem resolutionRefused (reachable : Reachable s) {document keep : String} {e : DocumentError}
    (ran : s.resolveConflicts document keep = (.error e, s')) (plain : e.Recoverable) :
    s.Untouched s' ∨ ∃ d kept ended leaf, DocumentId.parse document = .ok d ∧
      RevisionId.parse keep = .ok kept ∧ s.Halfway s' d kept ended leaf e := by
  have sound := reachable.sound
  have resolution := sound.resolveConflicts document keep
  generalize s.resolveConflicts document keep = o at ran resolution
  have failed : o.1 = .error e := congrArg Prod.fst ran
  obtain rfl : o.2 = s' := congrArg Prod.snd ran
  cases resolution with
  | refused plain sound' alike => exact .inl (alike.untouched sound sound')
  | @run d kept u last o chain parsed named alike soundU live ending told =>
    obtain ⟨ended, leaf, rest, order, length, stopped⟩ :=
      ending.refusal soundU (mapFailed failed) plain
    have moves := alike.movesFrom ((ending.moves soundU).told told)
    have stopped := (stopped.told told).movesFrom alike
    by_cases some : ended = []
    · exact .inl ((stopped.alike some).untouched sound moves.sound)
    · exact .inr ⟨d, kept, ended, leaf, parsed, named,
        moves.halfway some order length ending.dead stopped⟩

namespace Sample

def last : RevisionId := ⟨"18446744073709551615-c", maxGeneration, "c", by decide⟩

def other : RevisionId := ⟨"1-b", 1, "b", by decide⟩

-- Three branches; the last one can have no child.
def branches : List Step :=
  [root, RevisionTree.Sample.delivered other, RevisionTree.Sample.delivered last].map
    fun r => .ask (.force r [])

def branched : Datastore FaultyBackend := ((store 2).run branches).2

def error : DocumentError :=
  .malformedRevisionTree "d" "revision 18446744073709551615-c is at the maximum generation"

theorem recoverable : error.Recoverable := fun cause same => by cases same

end Sample

/-- One branch is ended and stays so, although the request is refused. -/
theorem refusedBranchEnded :
    Reachable Sample.branched ∧
      (Sample.branched.resolveConflicts "d" "1-a").1 = .error Sample.error ∧
      Sample.error.Recoverable ∧
      ((Sample.branched.added (Sample.branched.resolveConflicts "d" "1-a").2
        Sample.tracked).map fun x => (x.id.text, x.sequence, x.deleted)) = [("2-d", 4, true)] ∧
      Sample.branched.live Sample.tracked = 3 ∧
      (Sample.branched.resolveConflicts "d" "1-a").2.live Sample.tracked = 2 :=
  ⟨Sample.reachable Sample.branches, by decide +kernel, Sample.recoverable, by decide +kernel,
    by decide +kernel, by decide +kernel⟩

theorem refusedHalfway :
    ∃ d kept ended leaf, DocumentId.parse "d" = .ok d ∧ RevisionId.parse "1-a" = .ok kept ∧
      Sample.branched.Halfway (Sample.branched.resolveConflicts "d" "1-a").2 d kept ended leaf
        Sample.error := by
  have failed : (Sample.branched.resolveConflicts "d" "1-a").1 = .error Sample.error := by
    decide +kernel
  have either := resolutionRefused (Sample.reachable Sample.branches)
    (Prod.ext failed rfl : Sample.branched.resolveConflicts "d" "1-a" = (_, _)) Sample.recoverable
  refine either.resolve_left fun untouched => ?_
  have more : (Sample.branched.resolveConflicts "d" "1-a").2.backend.memory.counter.highest ≠
      Sample.branched.backend.memory.counter.highest := by
    decide +kernel
  exact more (congrArg _ untouched.counter)

end Datastore
end RevForest
