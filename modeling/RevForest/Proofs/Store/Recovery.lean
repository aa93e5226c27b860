import RevForest.Proofs.Store.Honest
import RevForest.Proofs.Store.Lag

/-! Stores that go on after calls of their backend have failed. -/
namespace RevForest

def Request.Writes : Request → DocumentId → Prop
  | .force r _, d => r.document = d
  | .resolve document _, d => DocumentId.parse document = .ok d
  | q, d => ∃ named, q.target? = some (d, named)

namespace Datastore
variable {β α γ ρ : Type} {v : Backend.View β} {s s' s'' u after : Datastore β} {d : DocumentId}
  {t : RevisionTree} {new : DocumentId → Prop}

inductive Inserts (v : Backend.View β) (s : Datastore β) (d : DocumentId)
    (parts : List Revision → Prop) :
    Except DocumentError (RevisionTree × ρ) × Datastore β → Prop where
  | refused {e : DocumentError} {after : Datastore β} (plain : e.Recoverable)
      (level : s.Level v after) : Inserts v s d parts (.error e, after)
  | stops {part : List Revision} {cause : StoreError} {after : Datastore β} (told : parts part)
      (follows : s.Follows v (fun e => e = d ∧ part ≠ []) after)
      (stored : v.stored after.backend d = v.stored s.backend d ++ part) :
      Inserts v s d parts (.error (.storage cause), after)
  | stores {grown : RevisionTree} {report : ρ} {after : Datastore β}
      (follows : s.Follows v (· = d) after) (current : v.Current after.backend d grown) :
      Inserts v s d parts (.ok (grown, report), after)

theorem Follows.sameBackend (intact : v.Intact s.backend) (sorted : s.cache.Sorted)
    (same : after.backend = s.backend) (cache : after.cache = s.cache) :
    s.Follows v new after :=
  (Follows.refl intact sorted).cached same (cache ▸ sorted) fun _ _ found => .inl (cache ▸ found)

theorem Follows.grown {grown : RevisionTree} {chain : List Revision} (intact : v.Intact s.backend)
    (sorted : s.cache.Sorted) (current : v.Current s.backend d t)
    (grows : RevisionTree.Grows t chain grown) (adds : v.Adds s.backend chain after.backend)
    (ladder : v.Ladder s.backend (chain.map (·.sequence)) after.backend)
    (cache : after.cache = s.cache) :
    s.Follows v (fun e => e = d ∧ chain ≠ []) after ∧
      v.Current after.backend d grown.chooseWinner := by
  obtain ⟨whole, now, others⟩ := intact.extend current grows adds ladder
  refine ⟨⟨whole, cache ▸ sorted, fun e late => ?_⟩, now⟩
  obtain ⟨u, found, stale⟩ := late
  rw [cache] at found
  have old (same : v.stored after.backend e = v.stored s.backend e) : s.Lags v e :=
    ⟨u, found, fun current => stale (current.same same)⟩
  by_cases own : e = d
  · by_cases some : chain = []
    · rw [some] at adds
      exact .inl (old (adds.same e))
    · exact .inr ⟨own, some⟩
  · exact .inl (old (others e own))

theorem inserts {parts : List Revision → Prop} {answer : Except DocumentError (RevisionTree × ρ)}
    (intact : v.Intact s.backend) (sorted : s.cache.Sorted) (current : v.Current s.backend d t)
    (grown : v.Grown s.backend t parts (answer, after.backend)) (cache : after.cache = s.cache) :
    s.Inserts v d parts (answer, after) := by
  generalize same : after.backend = b at grown
  cases grown with
  | refused plain => exact .refused plain (.sameBackend intact sorted same cache)
  | present told =>
    refine .stores (.sameBackend intact sorted same cache) ?_
    rwa [same]
  | stops told grows adds ladder =>
    subst same
    obtain ⟨follows, now⟩ := Follows.grown intact sorted current grows adds ladder cache
    refine .stops told follows (adds.own fun r member => ?_)
    exact (RevisionTree.growsChecked grows r member).1.trans current.document
  | stores grows adds ladder =>
    subst same
    obtain ⟨follows, now⟩ := Follows.grown intact sorted current grows adds ladder cache
    exact .stores (follows.mono fun _ => And.left) now

theorem Inserts.kept {parts : List Revision → Prop} {grown : RevisionTree} {report : ρ}
    (done : s.Inserts v d parts (.ok (grown, report), after)) :
    s.Level v (after.keepTree grown) ∧ v.Current after.backend d grown := by
  cases done with
  | stores follows current =>
    have own := current.document
    subst own
    exact ⟨follows.repaired (.keepTree (.refl follows.intact follows.sorted) current)
      (keptCurrent current), current⟩

variable [Backend β]

theorem insertsChild (laws : v.Durable) (intact : v.Intact s.backend) (sorted : s.cache.Sorted)
    (current : v.Current s.backend d t) {parent : Option Int} (holds : t.Holds parent)
    (digest : ContentDigest) (body : DocumentBody) (attachments : AttachmentMap)
    (deleted : Bool) :
    s.Inserts v d (· = []) (t.insertChild digest commit parent body attachments deleted s) := by
  have grown := laws.insertChild intact current holds digest body attachments deleted
  have seen := commitFollows.insertChild t digest parent body attachments deleted s
  have spared := commitSpares.insertChild t digest parent body attachments deleted s
  rw [← seen] at grown
  exact inserts intact sorted current grown (congrArg (·.2.2) spared)

theorem insertsForeign (laws : v.Durable) (intact : v.Intact s.backend) (sorted : s.cache.Sorted)
    (current : v.Current s.backend d t) (r : Revision) (history : List RevisionId) :
    s.Inserts v d (fun part => ∀ x ∈ part, x.id ∈ history.tail)
      (t.insertForeign commit r history s) := by
  have grown := laws.insertForeign intact current r history
  have seen := commitFollows.insertForeign t r history s
  have spared := commitSpares.insertForeign t r history s
  rw [← seen] at grown
  exact inserts intact sorted current grown (congrArg (·.2.2) spared)

theorem Inserts.settled {parts : List Revision → Prop} {e : DocumentError} (laws : v.Durable)
    (own : t.document = d)
    (failed : s.Inserts v d parts ((.error e : Except DocumentError (RevisionTree × ρ)), after)) :
    s.Follows v (fun e' => e' = d ∧ ∃ cause, e = .storage cause ∧ ∃ part, parts part ∧
      s.Stranded v (after.settle t e) d part) (after.settle t e) := by
  subst own
  cases failed with
  | refused plain level => exact (level.quiet (.settle after t plain)).mono fun _ => False.elim
  | @stops part cause _ told follows stored =>
    refine (Datastore.settled laws follows stored cause).mono ?_
    rintro _ ⟨same, stranded⟩
    exact ⟨same, cause, rfl, part, told, stranded⟩

theorem Inserts.childSettled {e : DocumentError} (laws : v.Durable) (own : t.document = d)
    (failed : s.Inserts v d (· = [])
      ((.error e : Except DocumentError (RevisionTree × ρ)), after)) :
    s.Level v (after.settle t e) := by
  refine (failed.settled laws own).mono ?_
  rintro _ ⟨_, _, _, part, nothing, stranded⟩
  exact stranded.some nothing

theorem editsLevel (laws : v.Durable) (intact : v.Intact s.backend) (sorted : s.cache.Sorted)
    (caughtUp : ¬ s.Lags v d) (parent : Option RevisionId) (body : DocumentBody)
    (attachments : Option AttachmentMap) (deleted : Bool) :
    s.Level v (s.localEdit d parent body attachments deleted).2 := by
  unfold Datastore.localEdit
  have obtained := obtains laws intact sorted d parent.isNone
  generalize s.treeOf d parent.isNone = o at obtained
  cases obtained with
  | fails level => exact level
  | @gives t u level _ current =>
    have current := current caughtUp
    simp only [Outcome.andThen]
    generalize attachments.getD _ = attachments
    have written : u.Inserts v d (· = [])
        (t.insertLocalEdit u.digest commit parent body attachments deleted u) := by
      unfold RevisionTree.insertLocalEdit
      cases named : t.editParent parent with
      | error e =>
        exact .refused (RevisionTree.editParentRecoverable named) (.refl level.intact level.sorted)
      | ok above =>
        have reachable := current.reachable
        have extended :=
          RevisionTree.editParentExtends reachable.wellFormed reachable.crowned named
        exact insertsChild laws level.intact level.sorted current extended.holds u.digest body
          attachments deleted
    generalize t.insertLocalEdit u.digest commit parent body attachments deleted u = o at written
    obtain ⟨answer, after⟩ := o
    cases answer with
    | error e => exact level.trans (written.childSettled laws current.document)
    | ok done =>
      have kept := level.trans written.kept.1
      dsimp only
      split
      · exact kept.quiet (.count _ (by decide))
      · exact kept.quiet (.changed _ (by decide) _ _ _ _ _)

/-- A foreign insert failed after a part of the missing ancestors was stored, and so did the load
that was to repair the tree. -/
def Unrepaired (v : Backend.View β) (s : Datastore β) (r : Revision) (history : List RevisionId) :
    Prop :=
  ∃ cause part s', s.forceInsert r history = (.error (.storage cause), s') ∧
    (∀ x ∈ part, x.id ∈ history.tail) ∧ s.Stranded v s' r.document part

theorem forceFollows (laws : v.Durable) (intact : v.Intact s.backend) (sorted : s.cache.Sorted)
    {r : Revision} (history : List RevisionId) (caughtUp : ¬ s.Lags v r.document) :
    s.Follows v (fun d => d = r.document ∧ s.Unrepaired v r history)
      (s.forceInsert r history).2 := by
  -- The outcome is named first: where the repair fails, it is what `Unrepaired` tells of.
  generalize ran : s.forceInsert r history = result
  have done := ran
  unfold Datastore.forceInsert at done
  dsimp only at done
  split at done
  · rw [← done]
    exact .refl intact sorted
  · have obtained := obtains laws intact sorted r.document true
    generalize s.treeOf r.document true = o at obtained done
    cases obtained with
    | fails level =>
      rw [← done]
      exact level.mono fun _ => False.elim
    | @gives t u level same current =>
      have current := current caughtUp
      have written := insertsForeign laws level.intact level.sorted current r history
      simp only [Outcome.andThen] at done
      generalize inserted : t.insertForeign commit r history u = o at written done
      obtain ⟨answer, after⟩ := o
      have start : s.Follows v (fun d => d = r.document ∧ s.Unrepaired v r history) u :=
        level.mono fun _ => False.elim
      cases answer with
      | error e =>
        rw [← done]
        refine start.trans ((written.settled laws current.document).mono ?_)
        rintro _ ⟨own, cause, rfl, part, named, some, stored, unloaded⟩
        refine ⟨own, cause, part, _, ran.trans done.symm, named, some, ?_, unloaded⟩
        rw [stored, same]
      | ok given =>
        obtain ⟨grown, outcome⟩ := given
        cases outcome with
        | inserted report =>
          rw [← done]
          refine start.trans (.mono ?_ fun _ => False.elim)
          exact written.kept.1.quiet (.changed _ (by decide) _ _ _ _ _)
        | alreadyPresent q =>
          cases RevisionTree.insertForeignOk inserted with
          | present found =>
            rw [← done]
            exact start.quiet ((Quiet.count _ (by decide)).trans (.note _ _ _ _))

theorem tombstonesLevel (laws : v.Durable) (intact : v.Intact s.backend) (sorted : s.cache.Sorted)
    (current : v.Current s.backend d t) (leaves : List RevisionId) :
    s.Level v (s.tombstoneAll t leaves).2 := by
  induction leaves generalizing s t with
  | nil => exact .refl intact sorted
  | cons leaf rest ih =>
    have level : s.Level v s := .refl intact sorted
    have written : s.Inserts v d (· = []) (t.tombstoneLeaf s.digest commit leaf s) := by
      unfold RevisionTree.tombstoneLeaf
      cases t.sequenceOf? leaf.text with
      | none => exact .refused (fun cause same => by cases same) level
      | some q =>
        have ended : (t.conflictingWrite leaf.text).Recoverable := fun cause same => by cases same
        cases found : t.nodes.find? q with
        | none => simpa [found] using .refused ended level
        | some n =>
          simp only [found]
          split
          · have holds : t.Holds (some q) := by
              rintro _ ⟨⟩
              exact ⟨n.revision, congrArg (Option.map Node.revision) found⟩
            exact insertsChild laws intact sorted current holds s.digest _ _ _
          · exact .refused ended level
    unfold Datastore.tombstoneAll
    generalize t.tombstoneLeaf s.digest commit leaf s = o at written
    obtain ⟨answer, after⟩ := o
    cases answer with
    | error e => exact written.childSettled laws current.document
    | ok done =>
      obtain ⟨grown, report⟩ := done
      obtain ⟨kept, now⟩ := written.kept
      have quiet := Quiet.reportChanges (after.keepTree grown) grown report t.isConflicted
      have kept := kept.quiet quiet
      -- The next leaf is ended in the tree that this one has left, which is level again.
      refine kept.trans (ih kept.intact kept.sorted ?_)
      rw [quiet.backend, keepTreeBackend]
      exact now

theorem resolvesLevel (laws : v.Durable) (intact : v.Intact s.backend) (sorted : s.cache.Sorted)
    {document : String} (keep : String)
    (caughtUp : ∀ d, DocumentId.parse document = .ok d → ¬ s.Lags v d) :
    s.Level v (s.resolveConflicts document keep).2 := by
  unfold Datastore.resolveConflicts
  split
  · exact .refl intact sorted
  · rename_i d parsed
    split
    · exact .refl intact sorted
    · have obtained := obtains laws intact sorted d false
      generalize s.treeOf d false = o at obtained
      cases obtained with
      | fails level => exact level
      | @gives t u level _ current =>
        have current := current (caughtUp d parsed)
        simp only [Outcome.andThen]
        split
        · exact level
        · have ended := tombstonesLevel laws level.intact level.sorted current
          refine keepThen (level.trans (ended _)) fun _ w level => ?_
          dsimp only
          split
          · exact level
          · exact level.quiet (.report w _ _)

theorem serves (laws : v.Durable) (intact : v.Intact s.backend) (sorted : s.cache.Sorted)
    {q : Request} (caughtUp : ∀ d, q.Writes d → ¬ s.Lags v d) :
    s.Follows v (fun d => ∃ r history, q = .force r history ∧ d = r.document ∧
      s.Unrepaired v r history) (s.serve q).2 := by
  have level (after : s.Level v (s.serve q).2) : s.Follows v (fun d => ∃ r history,
      q = .force r history ∧ d = r.document ∧ s.Unrepaired v r history) (s.serve q).2 :=
    after.mono fun _ => False.elim
  have edits {d : DocumentId} {parent : Option RevisionId} (named : q.Writes d)
      (body : DocumentBody) (attachments : Option AttachmentMap) (deleted : Bool) :=
    editsLevel laws intact sorted (caughtUp d named) parent body attachments deleted
  by_cases read : q.isRead = true
  · exact (Follows.refl intact sorted).reads laws read
  · cases q with
    | create id fresh body attachments =>
      refine level (Follows.reply ?_ .revision)
      unfold createDocument
      split
      · exact edits ⟨_, rfl⟩ _ _ _
      · split
        · exact .refl intact sorted
        · rename_i parsed
          exact edits ⟨none, by simp [Request.target?, parsed]⟩ _ _ _
    | update document parent body =>
      refine level (Follows.withParent (.refl intact sorted) fun d p parsed named => ?_)
      exact edits ⟨some p, by simp [Request.target?, parsed, named]⟩ _ _ _
    | delete document parent =>
      refine level (Follows.withParent (.refl intact sorted) fun d p parsed named => ?_)
      exact edits ⟨some p, by simp [Request.target?, parsed, named]⟩ _ _ _
    | save r =>
      refine level (Follows.reply ?_ .revision)
      unfold saveRevision
      split
      · exact .refl intact sorted
      · rename_i whole
        split
        · exact (Follows.refl intact sorted).quiet (.note s _ _ _)
        · rename_i edited
          exact edits ⟨some r.id, by simp [Request.target?, whole, edited]⟩ _ _ _
    | force r history =>
      refine (forceFollows laws intact sorted history (caughtUp _ rfl)).mono ?_
      rintro _ ⟨own, unrepaired⟩
      exact ⟨r, history, rfl, own, unrepaired⟩
    | resolve document keep => exact level (resolvesLevel laws intact sorted keep caughtUp)
    | _ => exact absurd rfl read

/-- What can become of a store whose writes meet no tree that is behind. Calls fail as they may, and
others may change the backend as long as they store nothing. -/
inductive Recovers (v : Backend.View β) : Datastore β → Prop where
  | opened {s : Datastore β} (intact : v.Intact s.backend) (bare : s.cache = Dict.empty) :
      Recovers v s
  | serve {s : Datastore β} (before : Recovers v s) (q : Request)
      (caughtUp : ∀ d, q.Writes d → ¬ s.Lags v d) : Recovers v (s.serve q).2
  | moved {s : Datastore β} {b : β} (before : Recovers v s) (idle : v.Adds s.backend [] b) :
      Recovers v { s with backend := b }
  | evict {s : Datastore β} (before : Recovers v s) (keep : DocumentId → Bool) :
      Recovers v { s with cache := s.cache.filter fun d _ => keep d }
  | reopened {s s' : Datastore β} {config : DatastoreConfig} {digest : ContentDigest} {b : β}
      {log log' : Log} (before : Recovers v s)
      (opens : connect config digest s.backend log = (.ok s', b, log')) : Recovers v s'

theorem Recovers.links (laws : v.Durable) (recovers : Recovers v s) :
    v.Intact s.backend ∧ s.cache.Sorted := by
  have bare {s : Datastore β} (empty : s.cache = Dict.empty) : s.cache.Sorted :=
    empty ▸ Dict.sortedEmpty
  induction recovers with
  | opened intact empty => exact ⟨intact, bare empty⟩
  | serve before q caughtUp ih =>
    have served := serves laws ih.1 ih.2 caughtUp
    exact ⟨served.intact, served.sorted⟩
  | moved before idle ih => exact ⟨ih.1.adds idle, ih.2⟩
  | evict before keep ih =>
    exact ⟨ih.1, (Dict.findSublist ih.2 List.filter_sublist).1⟩
  | reopened before opens ih =>
    obtain ⟨same, empty, _⟩ := connectedBackend opens
    refine ⟨?_, bare empty⟩
    rw [same]
    exact ih.1.adds (laws.asks .lastSequence ih.1.usable)

/-- No revision is stored twice. A document of which every question is answered loads into the tree
of what is stored of it, and no load fails but by a call. A tree falls behind by a foreign insert
that stays unrepaired. -/
structure StoresOnce (v : Backend.View β) (s : Datastore β) : Prop where
  apart : ∀ d, ((v.stored s.backend d).map (·.id)).Nodup
  loads : ∀ d, ¬ Backend.Silent s.backend → ∃ found s', s.loadTree d = (.ok found, s') ∧
    (found = none → v.stored s.backend d = []) ∧
      ∀ t, found = some t → t.WellFormed ∧ v.Current s.backend d t
  fails : ∀ d e s', s.loadTree d = (.error e, s') → ∃ cause, e = .storage cause
  strands : ∀ q d, (∀ e, q.Writes e → ¬ s.Lags v e) → (s.serve q).2.Lags v d →
    s.Lags v d ∨ ∃ r history, q = .force r history ∧ d = r.document ∧ s.Unrepaired v r history

theorem storesOnce (laws : v.Durable) (recovers : Recovers v s) : s.StoresOnce v := by
  obtain ⟨intact, sorted⟩ := recovers.links laws
  constructor
  case apart => exact intact.apart
  case loads =>
    intro d answers
    have loaded := loads laws intact d
    generalize s.loadTree d = o at loaded
    cases loaded with
    | fails silent asked => exact absurd silent answers
    | bare asked nothing => exact ⟨none, _, rfl, fun _ => nothing, nofun⟩
    | @builds t _ asked current =>
      refine ⟨some t, _, rfl, nofun, ?_⟩
      rintro _ ⟨⟩
      exact ⟨current.reachable.wellFormed, current⟩
  case fails =>
    intro d e s' failed
    have loaded := loads laws intact d
    rw [failed] at loaded
    cases loaded with
    | fails silent asked => exact ⟨_, rfl⟩
  case strands => exact fun q d caughtUp => (serves laws intact sorted caughtUp).lags d

theorem twiceUnloadable {s : Datastore FaultyBackend} (steady : s.backend.Steady)
    (twice : ¬ ((s.backend.memory.revisionsOf d).map (·.id)).Nodup) :
    ∃ e s', s.loadTree d = (.error e, s') ∧ e.Recoverable := by
  have loaded := loadedTree steady d
  generalize s.loadTree d = o at loaded
  cases loaded with
  | bare nothing =>
    rw [nothing] at twice
    exact absurd .nil twice
  | failed plain told => exact ⟨_, _, rfl, plain⟩
  | built stored built told => exact absurd (List.pairwise_map.mpr built.apart) twice

namespace Sample

def failing : BackendFault := .fail fun _ => .io "scripted"

-- The second revision is not stored, and the second time the tree is not loaded.
def faults : FaultyBackend :=
  ((FaultyBackend.ofMemory .empty).setQueue .persist [.pass, failing]).setQueue .loadTree
    [.pass, failing]

def exposed : Datastore FaultyBackend := { store 2 with backend := faults }

def taking : Request :=
  .force (RevisionTree.Sample.delivered RevisionTree.Sample.child)
    [RevisionTree.Sample.child, RevisionTree.Sample.root]

def stranded : Datastore FaultyBackend := (exposed.serve taking).2

def forgetful (s : Datastore FaultyBackend) : Datastore FaultyBackend :=
  { s with cache := s.cache.filter fun _ _ => false }

-- The tree is dropped before the write is tried again.
def retried : Datastore FaultyBackend := ((forgetful stranded).serve taking).2

-- The write is tried again at once.
def hasty : Datastore FaultyBackend := (stranded.serve taking).2

theorem exposedIntact : FaultyBackend.view.Intact exposed.backend := by
  have blank : MemoryBackend.empty.Blank := ⟨le_rfl, rfl, rfl⟩
  refine .blank ⟨?_, blank.kept.held⟩ fun d => rfl
  intro op f member
  cases op with
  | persist | loadTree =>
    rcases List.mem_pair.mp member with rfl | rfl
    · exact .inl rfl
    · exact .inr ⟨_, rfl⟩
  | _ => cases member

theorem caughtUp {s : Datastore FaultyBackend} (bare : s.cache = Dict.empty) (d : DocumentId) :
    ¬ s.Lags FaultyBackend.view d := by
  rintro ⟨t, found, _⟩
  rw [bare] at found
  cases found

theorem recovers : Recovers FaultyBackend.view retried :=
  .serve (.evict (.serve (.opened exposedIntact rfl) taking fun d _ => caughtUp rfl d)
    fun _ => false) taking fun d _ => caughtUp (congrArg Dict.mk (List.filter_false _)) d

def storedIds (s : Datastore FaultyBackend) : List String :=
  (s.backend.memory.revisionsOf tracked).map (·.id.text)

end Sample

theorem retriedOnce :
    (Sample.exposed.serve Sample.taking).1.isOk = false ∧
      Sample.storedIds Sample.stranded = ["1-a"] ∧
      FaultyBackend.view.Durable ∧ Recovers FaultyBackend.view Sample.retried ∧
      Sample.retried.StoresOnce FaultyBackend.view ∧
      Sample.storedIds Sample.retried = ["1-a", "2-b"] :=
  ⟨by decide +kernel, by decide +kernel, FaultyBackend.durable, Sample.recovers,
    storesOnce FaultyBackend.durable Sample.recovers, by decide +kernel⟩

/-- The tree that is behind does not know the ancestor, so it is stored again, and from then on the
document does not load. -/
theorem hastyStoresTwice :
    FaultyBackend.view.Durable ∧ FaultyBackend.view.Intact Sample.exposed.backend ∧
      Sample.exposed.cache = Dict.empty ∧ Sample.storedIds Sample.hasty = ["1-a", "1-a", "2-b"] ∧
      Sample.hasty.backend.Steady ∧ ∃ e s', e.Recoverable ∧
        (Sample.forgetful Sample.hasty).loadTree Sample.tracked = (.error e, s') := by
  have ids : Sample.storedIds Sample.hasty = ["1-a", "1-a", "2-b"] := by decide +kernel
  have none : ∀ op, (Sample.hasty.backend.queues op).length = 0 := by
    intro op
    cases op <;> decide +kernel
  have silent (op : BackendOperation) : Sample.hasty.backend.queues op = [] :=
    List.eq_nil_of_length_eq_zero (none op)
  have steady : Sample.hasty.backend.Steady := by
    refine ⟨fun op _ => silent op, fun q member => ?_⟩
    rw [silent] at member
    cases member
  obtain ⟨e, s', failed, plain⟩ := twiceUnloadable (s := Sample.forgetful Sample.hasty) steady
    (d := Sample.tracked) fun once => by
      have texts := once.map (fun a b same => RevisionId.ext_text same)
      rw [List.map_map] at texts
      have once : (Sample.storedIds Sample.hasty).Nodup := texts
      rw [ids] at once
      exact absurd once (by decide)
  exact ⟨FaultyBackend.durable, Sample.exposedIntact, rfl, ids, steady, e, s', plain, failed⟩

end Datastore
end RevForest
