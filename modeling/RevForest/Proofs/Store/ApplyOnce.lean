import RevForest.Proofs.Store.Run

/-! Local writes over a whole run. Each extends a node that nothing extends, or is the first
revision of its document; so no two have one parent, and an edit of a revision that has
a child is refused. None of them adds to the live leaves beyond the first: only
foreign revisions bring a document into conflict. -/
namespace RevForest

namespace MemoryBackend
variable {m m' m'' : MemoryBackend} {d : DocumentId}

structure Row (r x : Revision) : Prop where
  sequence : x.sequence = r.sequence
  id : x.id = r.id
  parent : x.parent = r.parent
  status : x.deleted = r.deleted

theorem Kept.nodeStored (kept : m.Kept) {s : Int} {x : Revision}
    (found : (m.tree d).get? s = some x) : ∃ r ∈ m.revisionsOf d, r.sequence = s ∧ Row r x := by
  obtain ⟨old, linked, rfl⟩ := RevisionTree.chosenIff.mp found
  obtain ⟨r, member, own, rfl⟩ := kept.node.mp linked
  exact ⟨r, member, own, rfl, rfl, rfl, rfl⟩

theorem Kept.storedNode (kept : m.Kept) {r : Revision} (member : r ∈ m.revisionsOf d) :
    ∃ x, (m.tree d).get? r.sequence = some x ∧ Row r x :=
  ⟨_, RevisionTree.chosenIff.mpr ⟨_, kept.node.mpr ⟨r, member, rfl, rfl⟩, rfl⟩, rfl, rfl, rfl, rfl⟩

def HasChild (m : MemoryBackend) (d : DocumentId) (p : RevisionId) : Prop :=
  ∃ x ∈ m.revisionsOf d, x.id = p ∧ ∃ y ∈ m.revisionsOf d, y.parent = x.sequence

theorem Kept.inner (kept : m.Kept) {x y : Revision} (member : x ∈ m.revisionsOf d)
    (child : y ∈ m.revisionsOf d) (parent : y.parent = x.sequence) :
    (m.tree d).childrenOf x.sequence ≠ [] := by
  have wf := kept.wellFormed d
  obtain ⟨_, above, row⟩ := kept.storedNode member
  obtain ⟨below, node, row'⟩ := kept.storedNode child
  have positive := (wf.own _ _ above).2.1
  have edge : (m.tree d).parentOf y.sequence = some x.sequence :=
    RevisionTree.parentOfIff.mpr ⟨below, node, by rw [row'.parent, parent]; exact positive,
      row'.parent.trans parent⟩
  exact List.ne_nil_of_mem ((wf.children _ _).mpr edge)

theorem Kept.childless (kept : m.Kept) {q : Int} {p y : Revision}
    (leaf : (m.tree d).LeafAt q p) (member : y ∈ m.revisionsOf d) : y.parent ≠ q := by
  obtain ⟨x, stored, own, _⟩ := kept.nodeStored leaf.1
  rintro parent
  rw [← own] at leaf
  exact kept.inner stored member (parent.trans own.symm) leaf.2

/-- The document has some more revisions, each with a parent that no other revision has. -/
structure Once (m m' : MemoryBackend) (d : DocumentId) (chain : List Revision) : Prop where
  own : m'.revisionsOf d = m.revisionsOf d ++ chain
  apart : (chain.map (·.parent)).Nodup
  new : ∀ x ∈ chain, ∀ y ∈ m.revisionsOf d, y.parent ≠ x.parent

theorem Once.nothing (same : m'.revisionsOf d = m.revisionsOf d) : m.Once m' d [] :=
  ⟨by rw [same, List.append_nil], List.nodup_nil, fun x member => by cases member⟩

theorem Once.single {x : Revision} (own : m'.revisionsOf d = m.revisionsOf d ++ [x])
    (new : ∀ y ∈ m.revisionsOf d, y.parent ≠ x.parent) : m.Once m' d [x] := by
  refine ⟨own, List.nodup_singleton _, ?_⟩
  intro z member
  rwa [List.mem_singleton.mp member]

theorem Once.trans {chain rest : List Revision} (first : m.Once m' d chain)
    (later : m'.Once m'' d rest) : m.Once m'' d (chain ++ rest) := by
  refine ⟨by rw [later.own, first.own, List.append_assoc], ?_, ?_⟩
  · rw [List.map_append]
    refine List.Nodup.append first.apart later.apart ?_
    intro q before after
    obtain ⟨y, old, rfl⟩ := List.mem_map.mp before
    obtain ⟨x, young, same⟩ := List.mem_map.mp after
    refine later.new x young y ?_ same.symm
    rw [first.own]
    exact List.mem_append_right _ old
  · intro x member y old
    rcases List.mem_append.mp member with early | late
    · exact first.new x early y old
    · refine later.new x late y ?_
      rw [first.own]
      exact List.mem_append_left _ old

/-- Below the revision that it names, or on a deleted winner, or first of all. -/
inductive Placed (m : MemoryBackend) (d : DocumentId) (named : Option RevisionId) (x : Revision) :
    Prop where
  | first (unnamed : named = none) (bare : m.revisionsOf d = []) (parent : x.parent = noParent) :
      Placed m d named x
  | below {p : Revision} (stored : p ∈ m.revisionsOf d) (parent : x.parent = p.sequence)
      (ended : named = none → p.deleted = true) (same : ∀ id, named = some id → p.id = id) :
      Placed m d named x

theorem Kept.placed (kept : m.Kept) {named : Option RevisionId} {above : Option Int}
    {x : Revision} (extended : (m.tree d).Extended named above)
    (parent : x.parent = above.getD noParent) :
    m.Placed d named x ∧ ∀ y ∈ m.revisionsOf d, y.parent ≠ x.parent := by
  have wf := kept.wellFormed d
  have crowned := kept.crowned d
  cases extended with
  | nothing unnamed bare =>
    have none := (RevisionTree.emptyIff wf.nodesSorted).mp ((crowned.currentNone wf).mp bare)
    have nothing : m.revisionsOf d = [] := by
      refine List.eq_nil_iff_forall_not_mem.mpr ?_
      intro r member
      obtain ⟨node, found, _⟩ := kept.storedNode member
      rw [none] at found
      cases found
    exact ⟨.first unnamed nothing parent, by simp [nothing]⟩
  | @winner w q won found ended same =>
    obtain ⟨b, best⟩ := (crowned.best q).mp won
    cases found.symm.trans best.1.1
    obtain ⟨p, stored, own, row⟩ := kept.nodeStored found
    refine ⟨.below stored (parent.trans own.symm) ?_ ?_, ?_⟩
    · exact fun unnamed => row.status.symm.trans (ended unnamed)
    · exact fun id naming => row.id.symm.trans (same id naming)
    · intro y member
      rw [show x.parent = q from parent]
      exact kept.childless best.1 member

end MemoryBackend

namespace Datastore
variable {s s' s'' : Datastore FaultyBackend} {d : DocumentId}

def added (s s' : Datastore FaultyBackend) (d : DocumentId) : List Revision :=
  (s'.backend.memory.revisionsOf d).drop (s.backend.memory.revisionsOf d).length

theorem addedChain {chain : List Revision}
    (own : s'.backend.memory.revisionsOf d = s.backend.memory.revisionsOf d ++ chain) :
    s.added s' d = chain := by
  unfold added
  rw [own, List.drop_left]

theorem addedNothing (same : s'.backend.memory.revisionsOf d = s.backend.memory.revisionsOf d) :
    s.added s' d = [] := by
  refine addedChain ?_
  rw [same, List.append_nil]

def live (s : Datastore FaultyBackend) (d : DocumentId) : Nat :=
  (s.backend.memory.tree d).activeLeaves.length

structure Lone (s s' : Datastore FaultyBackend) : Prop where
  once : ∀ e, s.backend.memory.Once s'.backend.memory e (s.added s' e)
  quiet : ∀ e, s'.live e ≤ max 1 (s.live e)

theorem Lone.trans (first : s.Lone s') (later : s'.Lone s'') : s.Lone s'' := by
  constructor
  · intro e
    have both := (first.once e).trans (later.once e)
    rwa [addedChain both.own]
  · intro e
    have first := first.quiet e
    have later := later.quiet e
    omega

theorem Lone.nothing (same : ∀ e, s'.backend.memory.revisionsOf e = s.backend.memory.revisionsOf e)
    (live : ∀ e, s'.live e = s.live e) : s.Lone s' := by
  constructor
  · intro e
    rw [addedNothing (same e)]
    exact .nothing (same e)
  · intro e
    rw [live e]
    exact le_max_right _ _

theorem loneBackend (same : s'.backend.memory = s.backend.memory) : s.Lone s' := by
  refine .nothing (fun e => by rw [same]) fun e => ?_
  unfold live
  rw [same]

theorem loneAsked (sound : s.Sound) (d : DocumentId) : s.Lone (s.asked d) := by
  refine .nothing (askedRevisions s d) fun e => ?_
  unfold live
  by_cases bare : s.backend.memory.revisionsOf e = []
  · have bare' := (askedRevisions s d e).trans bare
    rw [MemoryBackend.treeBare bare, MemoryBackend.treeBare bare']
    rfl
  · rw [show (s.asked d).backend.memory = s.backend.memory.know d from rfl,
      sound.kept.treeKnow d bare]

theorem Moves.loneIdle (moves : s.Moves s' d []) : s.Lone s' := by
  refine .nothing moves.extended.sameRevisions fun e => ?_
  unfold live
  rw [moves.extended.sameTree e]

theorem Moves.lone {x : Revision} (moves : s.Moves s' d [x]) (sound : s.Sound)
    (tree : s'.backend.memory.tree d = ((s.backend.memory.tree d).link x).chooseWinner)
    (fits : (s.backend.memory.tree d).Fits x) (quiet : (s.backend.memory.tree d).Quiet x)
    (new : ∀ y ∈ s.backend.memory.revisionsOf d, y.parent ≠ x.parent) : s.Lone s' := by
  have extended := moves.extended
  constructor
  · intro e
    by_cases own : e = d
    · subst own
      rw [addedChain extended.own]
      exact .single extended.own new
    · have same := extended.others e own
      rw [addedNothing same]
      exact .nothing same
  · intro e
    unfold live
    by_cases own : e = d
    · subst own
      rw [tree]
      exact RevisionTree.quietCount (sound.kept.wellFormed e) fits quiet
    · rw [extended.otherTree own]
      exact le_max_right _ _

theorem Alike.lone (alike : s.Alike s') : s.Lone s' := loneBackend (congrArg _ alike.backend)

theorem LocalEdit.lone {named : Option RevisionId} {deleted : Bool}
    {o : Outcome FaultyBackend Revision} (edit : LocalEdit s d named deleted o) (sound : s.Sound) :
    s.Lone o.2 := by
  have asked := loneAsked sound d
  cases edit with
  | refused plain refused =>
    rcases refused.alike with alike | alike
    · exact alike.lone
    · exact asked.trans alike.lone
  | stalled moves => exact asked.trans moves.loneIdle
  | stored moves edited tree answer =>
    have kept := (sound.keyed d).kept
    obtain ⟨above, extended, parent⟩ := edited.above
    refine asked.trans (moves.lone (sound.keyed d) tree edited.fits ?_ ?_)
    · exact extended.quiet (kept.wellFormed d) (kept.crowned d) parent
    · exact (kept.placed extended parent).2

theorem Ending.lone {losers : List RevisionId} {o : Outcome FaultyBackend RevisionTree}
    {chain : List Revision} (ending : Ending d s losers o chain) (sound : s.Sound) :
    s.Lone o.2 := by
  induction ending with
  | done s => exact loneBackend rfl
  | refused active named bad told => exact told.alike.lone
  | stalled moves => exact moves.loneIdle
  | ended moves ends tree next ih =>
    obtain ⟨p, active, _⟩ := ends.above
    refine (moves.lone sound tree ends.fits (.tombstone ends.status) ?_).trans (ih moves.sound)
    exact fun y member => sound.kept.childless active.1 member

theorem LocalWrite.lone {o : Outcome FaultyBackend Revision} (write : LocalWrite s o)
    (sound : s.Sound) : s.Lone o.2 := by
  cases write with
  | plain told => exact told.alike.lone
  | edit edit => exact edit.lone sound

theorem Resolution.lone {document keep : String} {o : Outcome FaultyBackend Nat}
    (resolution : Resolution s document keep o) : s.Lone o.2 := by
  cases resolution with
  | refused plain sound alike => exact alike.lone
  | run parsed named alike sound live ending told =>
    exact alike.lone.trans ((ending.lone sound).trans told.alike.lone)

end Datastore

def Request.isForeign : Request → Bool
  | .force _ _ => true
  | _ => false

def Step.isForeign : Step → Bool
  | .ask q => q.isForeign
  | _ => false

namespace Datastore
variable {s s' s'' : Datastore FaultyBackend} {d : DocumentId}

theorem Sound.lone (sound : s.Sound) {q : Request} (own : q.isForeign = false) :
    s.Lone (s.serve q).2 := by
  have served := sound.served q
  generalize s.serve q = o at served ⊢
  cases served with
  | read read kindly => exact kindly.alike.lone
  | write write => exact write.lone sound
  | force => cases own
  | resolve resolution => exact resolution.lone

theorem Sound.stepLone (sound : s.Sound) {step : Step} (own : step.isForeign = false) :
    s.Lone (s.step step).2 := by
  cases step with
  | ask q => exact sound.lone own
  | failNext => exact .nothing (fun _ => rfl) fun _ => rfl
  | allocations outcomes => exact loneBackend rfl
  | evict keep => exact loneBackend rfl
  | renew capacity logLevel => exact loneBackend (congrArg _ (sound.reopened _ _).2.1)
  | reopen config digest => exact loneBackend (congrArg _ (sound.reopened config digest).2.1)

theorem Sound.stepStored (sound : s.Sound) (step : Step) (d : DocumentId) :
    s.backend.memory.revisionsOf d <+: (s.step step).2.backend.memory.revisionsOf d := by
  cases own : step.isForeign with
  | false =>
    rw [((sound.stepLone own).once d).own]
    exact List.prefix_append _ _
  | true =>
    cases step with
    | ask q => exact (sound.serve q).stored d
    | _ => cases own

def localRevisions (s : Datastore FaultyBackend) (d : DocumentId) : List Step → List Revision
  | [] => []
  | step :: rest =>
    (if step.isForeign then [] else s.added (s.step step).2 d) ++
      (s.step step).2.localRevisions d rest

theorem Sound.localOnce (sound : s.Sound) (d : DocumentId) (steps : List Step) :
    ((s.localRevisions d steps).map (·.parent)).Nodup ∧
      ∀ x ∈ s.localRevisions d steps, ∀ y ∈ s.backend.memory.revisionsOf d,
        y.parent ≠ x.parent := by
  induction steps generalizing s with
  | nil => exact ⟨List.nodup_nil, fun x member => by cases member⟩
  | cons step rest ih =>
    obtain ⟨apart, new⟩ := ih (sound.step step)
    have older {y : Revision} (member : y ∈ s.backend.memory.revisionsOf d) :=
      (sound.stepStored step d).subset member
    unfold localRevisions
    cases own : step.isForeign with
    | true => exact ⟨apart, fun x later y member => new x later y (older member)⟩
    | false =>
      have once := (sound.stepLone own).once d
      rw [if_neg (by decide)]
      refine ⟨?_, ?_⟩
      · -- What comes later shares no parent with anything stored by then, this step's own included.
        rw [List.map_append]
        refine List.Nodup.append once.apart apart ?_
        intro q before after
        obtain ⟨y, early, rfl⟩ := List.mem_map.mp before
        obtain ⟨x, later, same⟩ := List.mem_map.mp after
        refine new x later y ?_ same.symm
        rw [once.own]
        exact List.mem_append_right _ early
      · intro x member y old
        rcases List.mem_append.mp member with early | later
        · exact once.new x early y old
        · exact new x later y (older old)

theorem Sound.run (sound : s.Sound) (steps : List Step) :
    (s.run steps).2.Sound ∧ ∀ d,
      s.backend.memory.revisionsOf d <+: (s.run steps).2.backend.memory.revisionsOf d := by
  induction steps generalizing s with
  | nil => exact ⟨sound, fun d => List.prefix_rfl⟩
  | cons step rest ih =>
    obtain ⟨last, later⟩ := ih (sound.step step)
    exact ⟨last, fun d => (sound.stepStored step d).trans (later d)⟩

inductive Applied (s : Datastore FaultyBackend) (d : DocumentId) (named : Option RevisionId) :
    Outcome FaultyBackend Reply → Prop where
  | failed {e : DocumentError} {s' : Datastore FaultyBackend} (nothing : ∀ e, s.added s' e = []) :
      Applied s d named (.error e, s')
  | stored {r x : Revision} {s' : Datastore FaultyBackend} (own : s.added s' d = [x])
      (others : ∀ e, e ≠ d → s.added s' e = []) (answer : MemoryBackend.Row x r)
      (placed : s.backend.memory.Placed d named x) : Applied s d named (.ok (.revision r), s')

theorem LocalEdit.applied {named : Option RevisionId} {deleted : Bool}
    {o : Outcome FaultyBackend Revision} (edit : LocalEdit s d named deleted o) (sound : s.Sound) :
    Applied s d named (o.reply .revision) := by
  cases edit with
  | refused plain refused =>
    refine .failed fun e => addedNothing ?_
    rcases refused.alike with alike | alike
    · rw [alike.backend]
    · rw [alike.backend]
      exact askedRevisions s d e
  | stalled moves =>
    refine .failed fun e => addedNothing ?_
    rw [← askedRevisions s d e]
    exact moves.extended.sameRevisions e
  | @stored r x s' moves edited tree answer =>
    obtain ⟨above, extended, parent⟩ := edited.above
    have own : s'.backend.memory.revisionsOf d = s.backend.memory.revisionsOf d ++ [x] := by
      rw [moves.extended.own, askedRevisions]
    have others (e : DocumentId) (other : e ≠ d) : s.added s' e = [] := by
      refine addedNothing ?_
      rw [moves.extended.others e other, askedRevisions]
    have row : MemoryBackend.Row x r := by
      rw [tree] at answer
      obtain ⟨old, linked, rfl⟩ := RevisionTree.chosenIff.mp answer
      rw [RevisionTree.getLink, if_pos rfl] at linked
      cases linked
      exact ⟨rfl, rfl, rfl, rfl⟩
    refine .stored (addedChain own) others row ?_
    cases ((sound.keyed d).kept.placed extended parent).1 with
    | first unnamed bare parent => exact .first unnamed (askedRevisions s d d ▸ bare) parent
    | below stored parent ended same =>
      exact .below (askedRevisions s d d ▸ stored) parent ended same

theorem Sound.servedApplied (sound : s.Sound) {q : Request} {named : Option RevisionId}
    (target : q.target? = some (d, named)) : Applied s d named (s.serve q) := by
  obtain ⟨body, attachments, deleted, served⟩ := servedEdit target
  rw [served]
  exact (sound.localEdit d named body attachments deleted).applied sound

theorem Sound.editInner (sound : s.Sound) {p : RevisionId}
    (inner : s.backend.memory.HasChild d p) (body : DocumentBody)
    (attachments : Option AttachmentMap) (deleted : Bool) :
    ∃ current, (s.localEdit d (some p) body attachments deleted).1 =
      .error (.conflictingWrite d.text p.text current) := by
  obtain ⟨x, stored, rfl, y, child, parent⟩ := inner
  have wf := sound.kept.wellFormed d
  have crowned := sound.kept.crowned d
  have document := sound.kept.document d
  obtain ⟨node, found, row⟩ := sound.kept.storedNode stored
  have inside : (s.backend.memory.tree d).contains x.id.text = true := by
    have here := (wf.indexed x.id.text x.sequence).mpr ⟨node, found, by rw [row.id]⟩
    exact Option.isSome_iff_exists.mpr ⟨_, here⟩
  obtain ⟨w, won⟩ : ∃ w, (s.backend.memory.tree d).current? = some w := by
    refine Option.ne_none_iff_exists'.mp fun none => ?_
    have empty := (RevisionTree.emptyIff wf.nodesSorted).mp ((crowned.currentNone wf).mp none)
    rw [empty] at found
    cases found
  -- The winner is a leaf, so it is not the one that was named.
  have other : w.id ≠ x.id := by
    intro same
    obtain ⟨q, _, best⟩ := crowned.current won
    have here := wf.uniqueIds best.1.1 found (same.trans row.id.symm)
    rw [here] at best
    exact sound.kept.inner stored child parent best.1.2
  have refused : (s.backend.memory.tree d).editParent (some x.id) =
      .error (.conflictingWrite d.text x.id.text w.id.text) := by
    unfold RevisionTree.editParent RevisionTree.conflictingWrite
    simp [won, inside, other, document]
  obtain ⟨t, u, got, _, _, shown⟩ := sound.seen d
  cases shown with
  | bare none => simp [none] at stored
  | stored some =>
    refine ⟨w.id.text, ?_⟩
    unfold Datastore.localEdit
    rw [show (Option.some x.id).isNone = false from rfl, got, okThen]
    unfold RevisionTree.insertLocalEdit
    rw [refused]

theorem Ending.dead {losers : List RevisionId} {o : Outcome FaultyBackend RevisionTree}
    {chain : List Revision} (ending : Ending d s losers o chain) :
    ∀ x ∈ chain, x.deleted = true := by
  induction ending with
  | ended moves ends tree next ih => exact List.forall_mem_cons.mpr ⟨ends.status, ih⟩
  | done | refused | stalled => exact List.forall_mem_nil _

theorem Resolution.ended {document keep : String} {o : Outcome FaultyBackend Nat}
    (resolution : Resolution s document keep o) {n : Nat} (ok : o.1 = .ok n) :
    ∃ d, DocumentId.parse document = .ok d ∧ (s.added o.2 d).length = n ∧
      ∀ x ∈ s.added o.2 d, x.deleted = true := by
  cases resolution with
  | refused => cases ok
  | @run d kept s' last o chain parsed named alike sound live ending told =>
    have extended := ((ending.moves sound).told told).extended
    have own : s.added last d = chain := by
      refine addedChain ?_
      rw [extended.own, alike.backend]
    obtain ⟨result, after⟩ := o
    cases result with
    | error e => cases ok
    | ok t =>
      cases ok
      refine ⟨d, parsed, ?_⟩
      rw [own]
      exact ⟨ending.finished rfl, ending.dead⟩

def liveAmong (leaves : List Revision) : Nat := (leaves.filter (!·.deleted)).length

structure AppliesOnce (s : Datastore FaultyBackend) : Prop where
  once : ∀ steps d, ((s.localRevisions d steps).map (·.parent)).Nodup ∧
    ∀ x ∈ s.localRevisions d steps, ∀ y ∈ s.backend.memory.revisionsOf d, y.parent ≠ x.parent
  applied : ∀ q d named, q.target? = some (d, named) → Applied s d named (s.serve q)
  ended : ∀ document keep n, (s.resolveConflicts document keep).1 = .ok n →
    ∃ d, DocumentId.parse document = .ok d ∧
      (s.added (s.resolveConflicts document keep).2 d).length = n ∧
        ∀ x ∈ s.added (s.resolveConflicts document keep).2 d, x.deleted = true
  refused : ∀ d p, s.backend.memory.HasChild d p → ∀ steps q, q.target? = some (d, some p) →
    ∃ current, ((s.run steps).2.serve q).1 = .error (.conflictingWrite d.text p.text current)
  first : ∀ q d, q.target? = some (d, none) → s.backend.memory.revisionsOf d = [] →
    ∀ a s', s.serve q = (.ok a, s') → ∀ steps, (s'.run steps).2.backend.memory.revisionsOf d ≠ []
  projected : ∀ r, r.isProjected = true →
    (s.serve (.save r)).1 = .error (.projectedWrite r.document.text r.id.text)
  quiet : ∀ step, step.isForeign = false → ∀ document d, DocumentId.parse document = .ok d →
    ∃ before after, (s.leaves document).1 = .ok before ∧
      ((s.step step).2.leaves document).1 = .ok after ∧
      liveAmong after ≤ max 1 (liveAmong before) ∧
      ((s.isConflicted document).1 = .ok false →
        ((s.step step).2.isConflicted document).1 = .ok false)

theorem reachableAppliesOnce (reachable : Reachable s) : s.AppliesOnce := by
  have sound := reachable.sound
  constructor
  case once => exact fun steps d => sound.localOnce d steps
  case applied => exact fun q d named target => sound.servedApplied target
  case ended => exact fun document keep n ok => (sound.resolveConflicts document keep).ended ok
  case refused =>
    intro d p inner steps q target
    obtain ⟨last, stored⟩ := sound.run steps
    obtain ⟨x, there, named, y, child, parent⟩ := inner
    have later := (stored d).subset
    obtain ⟨body, attachments, deleted, served⟩ := servedEdit target
    obtain ⟨current, refused⟩ := last.editInner ⟨x, later there, named, y, later child, parent⟩
      body attachments deleted
    refine ⟨current, ?_⟩
    rw [served]
    exact congrArg (Except.map Reply.revision) refused
  case first =>
    intro q d target bare a s' served steps
    have applied := sound.servedApplied target
    rw [served] at applied
    have after : s'.Sound := by
      have grown := (sound.serve q).sound
      rwa [served] at grown
    cases applied with
    | @stored r x _ own =>
      unfold added at own
      have there : x ∈ s'.backend.memory.revisionsOf d :=
        List.mem_of_mem_drop (own ▸ List.mem_singleton_self x)
      exact List.ne_nil_of_mem (((after.run steps).2 d).subset there)
  case projected =>
    intro r projected
    show ((s.saveRevision r).reply .revision).1 = _
    unfold saveRevision
    rw [if_pos projected]
    rfl
  case quiet =>
    intro step own document d parsed
    have after := sound.step step
    have count := (sound.stepLone own).quiet d
    refine ⟨_, _, sound.answers parsed fun _ _ _ => rfl, after.answers parsed fun _ _ _ => rfl,
      count, ?_⟩
    unfold isConflicted
    rw [sound.answers parsed fun _ _ _ => rfl, after.answers parsed fun _ _ _ => rfl]
    unfold live at count
    unfold RevisionTree.isConflicted
    simp only [Except.ok.injEq, decide_eq_false_iff_not]
    omega

namespace Sample

-- One client has the root, and two edit it.
def race : List Step :=
  [.ask (.force root []), .ask (.update "d" "1-a" .empty), .ask (.update "d" "1-a" .empty),
    .ask (.delete "d" "2-d")]

def projected : Revision := (root.project []).setBody .empty

end Sample

theorem raceAppliesOnce :
    ((Sample.store 2).localRevisions Sample.tracked Sample.race).map (·.parent) = [1, 2] ∧
      (((Sample.store 2).localRevisions Sample.tracked Sample.race).map (·.parent)).Nodup ∧
      ∃ current, (((Sample.store 2).run Sample.race).2.serve (.update "d" "1-a" .empty)).1 =
        .error (.conflictingWrite "d" "1-a" current) := by
  have once := (reachableAppliesOnce (Sample.reachable [])).once Sample.race Sample.tracked
  have refused := (reachableAppliesOnce (Sample.reachable Sample.race)).refused Sample.tracked
    RevisionTree.Sample.root
  have inner : ((Sample.store 2).run Sample.race).2.backend.memory.HasChild Sample.tracked
      RevisionTree.Sample.root := by
    unfold MemoryBackend.HasChild
    decide +kernel
  exact ⟨by decide +kernel, once.1, refused inner [] (.update "d" "1-a" .empty) (by decide +kernel)⟩

/-- The guard on projections comes before the check of the parent. -/
theorem projectedSaveRefused :
    Reachable ((Sample.store 2).run Sample.race).2 ∧ Sample.projected.dirty = true ∧
      ((Sample.store 2).run Sample.race).2.backend.memory.HasChild Sample.tracked
        Sample.projected.id ∧
      ∀ current, (((Sample.store 2).run Sample.race).2.serve (.save Sample.projected)).1 ≠
        .error (.conflictingWrite "d" "1-a" current) := by
  refine ⟨Sample.reachable Sample.race, rfl, ?_, ?_⟩
  · unfold MemoryBackend.HasChild
    decide +kernel
  · have answer : (((Sample.store 2).run Sample.race).2.serve (.save Sample.projected)).1 =
        .error (.projectedWrite "d" "1-a") := rfl
    intro current same
    rw [answer] at same
    cases same

end Datastore
end RevForest
