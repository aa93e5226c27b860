import RevForest.Proofs.Store.Request

/-! What a store upholds through its requests, on any backend: a fact about the backend and the
count of allocations, and one about each tree that is cached. A store only asks its backend,
but for its commits, and it changes its own trees only; so it is enough that the facts
outlast questions and commits, and that trees are built and grown as they should be. -/
namespace RevForest

inductive Backend.Asks {β : Type} [Backend β] :
    {α : Type} → (β → Except StoreError α × β) → Prop where
  | lastSequence : Asks Backend.lastSequence
  | documentKey (d : DocumentId) : Asks (Backend.documentKey d)
  | loadRevision (d : DocumentId) (id : RevisionId) : Asks (Backend.loadRevision d id)
  | loadTree (d : DocumentId) : Asks (Backend.loadTree d)
  | documentIds : Asks Backend.documentIds

namespace Datastore
variable {β : Type} {α γ : Type} {s s' s'' : Datastore β} {d : DocumentId}
  {P : β → Nat → Prop} {T : β → DocumentId → RevisionTree → Prop}

structure Outcome.Leaves (o : Outcome β α) (P : Datastore β → Prop) (Q : α → Datastore β → Prop) :
    Prop where
  store : P o.2
  answer : ∀ a, o.1 = .ok a → Q a o.2

theorem Outcome.Leaves.andThen {P : Datastore β → Prop} {Q : α → Datastore β → Prop}
    {R : γ → Datastore β → Prop} {o : Outcome β α} {next : α → Datastore β → Outcome β γ}
    (first : o.Leaves P Q) (later : ∀ a s, P s → Q a s → (next a s).Leaves P R) :
    (o.andThen next).Leaves P R := by
  obtain ⟨answer, after⟩ := o
  cases answer with
  | error e => exact ⟨first.store, fun _ impossible => by cases impossible⟩
  | ok a => exact later a after first.store (first.answer a rfl)

theorem Outcome.Leaves.keep {P : Datastore β → Prop} {Q : α → Datastore β → Prop}
    {o : Outcome β α} {next : α → Datastore β → Outcome β γ} (first : o.Leaves P Q)
    (later : ∀ a s, P s → Q a s → P (next a s).2) : P (o.andThen next).2 := by
  obtain ⟨answer, after⟩ := o
  cases answer with
  | error e => exact first.store
  | ok a => exact later a after first.store (first.answer a rfl)

theorem keepThen {P : Datastore β → Prop} {o : Outcome β α}
    {next : α → Datastore β → Outcome β γ} (first : P o.2)
    (later : ∀ a s, P s → P (next a s).2) : P (o.andThen next).2 := by
  obtain ⟨answer, after⟩ := o
  cases answer with
  | error e => exact first
  | ok a => exact later a after first

theorem Outcome.andThenOk {o : Outcome β α} {next : α → Datastore β → Outcome β γ} {c : γ}
    (ok : o.andThen next = (.ok c, s')) : ∃ a u, o = (.ok a, u) ∧ next a u = (.ok c, s') := by
  obtain ⟨answer, after⟩ := o
  cases answer with
  | error e => cases ok
  | ok a => exact ⟨a, after, rfl, ok⟩

theorem callOk {act : β → Except StoreError α × β} {a : α} (ok : s.call act = (.ok a, s')) :
    act s.backend = (.ok a, s'.backend) := by
  unfold call at ok
  generalize act s.backend = asked at ok
  obtain ⟨answer, after⟩ := asked
  cases answer with
  | error e => cases ok
  | ok a =>
    cases ok
    rfl

structure Quiet (s s' : Datastore β) : Prop where
  backend : s'.backend = s.backend
  cache : s'.cache = s.cache
  allocated : s'.metrics.sequencesAllocated = s.metrics.sequencesAllocated

namespace Quiet

theorem refl (s : Datastore β) : s.Quiet s := ⟨rfl, rfl, rfl⟩

theorem trans (first : s.Quiet s') (later : s'.Quiet s'') : s.Quiet s'' :=
  ⟨later.backend.trans first.backend, later.cache.trans first.cache,
    later.allocated.trans first.allocated⟩

theorem count (s : Datastore β) {c : Counter} (other : c ≠ .sequencesAllocated) :
    s.Quiet (s.count c) := by
  refine ⟨rfl, rfl, ?_⟩
  cases c with
  | sequencesAllocated => exact absurd rfl other
  | _ => rfl

theorem report (s : Datastore β) (e : Event) (fields : List (String × String)) :
    s.Quiet (s.report e fields) := ⟨rfl, rfl, rfl⟩

theorem note (s : Datastore β) (severity : Severity) (e : Event)
    (fields : List (String × String)) : s.Quiet (s.note severity e fields) := ⟨rfl, rfl, rfl⟩

theorem reportChanges (s : Datastore β) (t : RevisionTree) (r : InsertReport)
    (wasConflicted : Bool) : s.Quiet (s.reportChanges t r wasConflicted) := by
  refine reportChangesKeeps ?_ ?_ ?_ (refl s) t r wasConflicted
  · exact fun u quiet => quiet.trans (count u (by decide))
  · exact fun u e fields quiet => quiet.trans (report u e fields)
  · exact fun u severity e fields quiet => quiet.trans (note u severity e fields)

theorem changed (s : Datastore β) {c : Counter} (other : c ≠ .sequencesAllocated) (e : Event)
    (fields : List (String × String)) (t : RevisionTree) (r : InsertReport) (wasConflicted : Bool) :
    s.Quiet (((s.count c).report e fields).reportChanges t r wasConflicted) :=
  (count s other).trans ((report _ _ _).trans (reportChanges _ _ _ _))

end Quiet

theorem keepTreeBackend (s : Datastore β) (t : RevisionTree) :
    (s.keepTree t).backend = s.backend := by
  unfold Datastore.keepTree
  split <;> rfl

structure Upholds (P : β → Nat → Prop) (T : β → DocumentId → RevisionTree → Prop)
    (s : Datastore β) : Prop where
  backend : P s.backend s.metrics.sequencesAllocated
  cached : ∀ e ∈ s.cache.entries, T s.backend e.1 e.2

namespace Upholds

theorem quiet (upholds : s.Upholds P T) (quiet : s.Quiet s') : s'.Upholds P T := by
  obtain ⟨backend, cached⟩ := upholds
  rw [← quiet.backend, ← quiet.allocated] at backend
  rw [← quiet.backend, ← quiet.cache] at cached
  exact ⟨backend, cached⟩

theorem cachedTree (upholds : s.Upholds P T) {t : RevisionTree}
    (found : s.cache.find? d = some t) : T s.backend d t := by
  obtain ⟨e, first, rfl⟩ := Option.map_eq_some_iff.mp found
  obtain rfl : e.1 = d := by simpa using List.find?_some first
  exact upholds.cached e (List.mem_of_find?_eq_some first)

theorem withParent (upholds : s.Upholds P T) (document parent : String)
    {write : DocumentId → RevisionId → Outcome β Revision}
    (writes : ∀ d p, (write d p).2.Upholds P T) :
    (s.withParent document parent write).2.Upholds P T := by
  unfold Datastore.withParent
  split
  · exact upholds
  · split
    · exact upholds
    · exact writes _ _

theorem reply {o : Outcome β α} (upholds : o.2.Upholds P T) (wrap : α → Reply) :
    (o.reply wrap).2.Upholds P T := upholds

end Upholds

variable [Backend β]

theorem getCurrent {t : RevisionTree} {document : String} {w : Revision}
    (parsed : DocumentId.parse document = .ok d) (got : s.treeOf d false = (.ok t, s'))
    (current : t.current? = some w) : s.getDocument document = (.ok w, s') := by
  unfold getDocument readTree
  rw [parsed]
  dsimp only
  rw [got]
  unfold Outcome.andThen
  dsimp only
  rw [current]

theorem getOk {document : String} {r : Revision} (ran : s.getDocument document = (.ok r, s')) :
    ∃ d t, DocumentId.parse document = .ok d ∧ s.treeOf d false = (.ok t, s') ∧
      t.current? = some r := by
  unfold getDocument readTree at ran
  split at ran
  · cases ran
  · rename_i d parsed
    obtain ⟨t, u, got, read⟩ := Outcome.andThenOk ran
    dsimp only at read
    split at read
    · cases read
    · rename_i w current
      cases read
      exact ⟨d, t, parsed, got, current⟩

structure Reads (P : β → Nat → Prop) (T : β → DocumentId → RevisionTree → Prop) : Prop where
  asks : ∀ {α : Type} {act : β → Except StoreError α × β} {b : β} {n : Nat}, Backend.Asks act →
    P b n → P (act b).2 n
  remains : ∀ {α : Type} {act : β → Except StoreError α × β} {b : β} {n : Nat} {d : DocumentId}
    {t : RevisionTree}, Backend.Asks act → P b n → T b d t → T (act b).2 d t
  built : ∀ {s s' : Datastore β} {d : DocumentId} {t : RevisionTree},
    P s.backend s.metrics.sequencesAllocated → s.loadTree d = (.ok (some t), s') →
      T s'.backend d t
  bare : ∀ {b : β} {n : Nat} {d : DocumentId} (key : Int), P b n → T b d (.empty d key)
  own : ∀ {b : β} {d : DocumentId} {t : RevisionTree}, T b d t → T b t.document t

/-- Commits keep the facts too, and a tree that has grown is as it should be. -/
structure Writes (P : β → Nat → Prop) (T : β → DocumentId → RevisionTree → Prop) : Prop
    extends Reads P T where
  commits : ∀ {r : Revision} {s : Datastore β}, r.Uncommitted →
    P s.backend s.metrics.sequencesAllocated →
      P (commit r s).2.backend (commit r s).2.metrics.sequencesAllocated
  outlasts : ∀ {r : Revision} {s : Datastore β} {d : DocumentId} {t : RevisionTree}, r.Uncommitted →
    P s.backend s.metrics.sequencesAllocated → T s.backend d t → T (commit r s).2.backend d t
  child : ∀ {s s' : Datastore β} {d : DocumentId} {t grown : RevisionTree} {report : InsertReport}
    {digest : ContentDigest} {parent : Option Int} {body : DocumentBody}
    {attachments : AttachmentMap} {deleted : Bool},
    P s.backend s.metrics.sequencesAllocated → T s.backend d t →
      t.insertChild digest commit parent body attachments deleted s = (.ok (grown, report), s') →
        T s'.backend d grown
  foreign : ∀ {s s' : Datastore β} {d : DocumentId} {t grown : RevisionTree}
    {given : ForeignInsert} {r : Revision} {history : List RevisionId},
    P s.backend s.metrics.sequencesAllocated → T s.backend d t →
      t.insertForeign commit r history s = (.ok (grown, given), s') → T s'.backend d grown

theorem Reads.ofAsks (asks : ∀ {α : Type} {act : β → Except StoreError α × β} {b : β} {n : Nat},
    Backend.Asks act → P b n → P (act b).2 n) : Reads P fun _ _ _ => True where
  asks := asks
  remains _ _ _ := trivial
  built _ _ := trivial
  bare _ _ := trivial
  own _ := trivial

theorem Writes.ofCommits (asks : ∀ {α : Type} {act : β → Except StoreError α × β} {b : β} {n : Nat},
      Backend.Asks act → P b n → P (act b).2 n)
    (commits : ∀ {r : Revision} {s : Datastore β}, r.Uncommitted →
      P s.backend s.metrics.sequencesAllocated →
        P (commit r s).2.backend (commit r s).2.metrics.sequencesAllocated) :
    Writes P fun _ _ _ => True where
  toReads := .ofAsks asks
  commits := commits
  outlasts _ _ _ := trivial
  child _ _ _ := trivial
  foreign _ _ _ := trivial

theorem Writes.and {T' : β → DocumentId → RevisionTree → Prop} (first : Writes P T)
    (second : Writes P T') : Writes P fun b d t => T b d t ∧ T' b d t where
  asks := first.asks
  remains asks backend trees :=
    ⟨first.remains asks backend trees.1, second.remains asks backend trees.2⟩
  built backend loaded := ⟨first.built backend loaded, second.built backend loaded⟩
  bare key backend := ⟨first.bare key backend, second.bare key backend⟩
  own trees := ⟨first.own trees.1, second.own trees.2⟩
  commits := first.commits
  outlasts asked backend trees :=
    ⟨first.outlasts asked backend trees.1, second.outlasts asked backend trees.2⟩
  child backend trees ran := ⟨first.child backend trees.1 ran, second.child backend trees.2 ran⟩
  foreign backend trees ran :=
    ⟨first.foreign backend trees.1 ran, second.foreign backend trees.2 ran⟩

namespace Upholds

theorem cacheTree (upholds : s.Upholds P T) (laws : Reads P T) {t : RevisionTree}
    (tree : T s.backend d t) : (s.cacheTree t).Upholds P T := by
  refine ⟨upholds.backend, ?_⟩
  intro e member
  have inserted := (Dict.dropOthersSublist _ _ _).subset member
  rcases Dict.memInsertEntry inserted with rfl | old
  · exact laws.own tree
  · exact upholds.cached e old

theorem keepTree (upholds : s.Upholds P T) (laws : Reads P T) {t : RevisionTree}
    (tree : T s.backend d t) : (s.keepTree t).Upholds P T := by
  unfold Datastore.keepTree
  split
  · refine ⟨upholds.backend, ?_⟩
    intro e member
    rcases Dict.memInsertEntry member with rfl | old
    · exact laws.own tree
    · exact upholds.cached e old
  · exact upholds

theorem asked (upholds : s.Upholds P T) (laws : Reads P T)
    {act : β → Except StoreError α × β} (asks : Backend.Asks act) :
    (s.call act).2.Upholds P T := by
  have backend := laws.asks asks upholds.backend
  have cached (e : DocumentId × RevisionTree) (member : e ∈ s.cache.entries) :
      T (act s.backend).2 e.1 e.2 := laws.remains asks upholds.backend (upholds.cached e member)
  unfold call
  generalize act s.backend = o at backend cached
  obtain ⟨answer, after⟩ := o
  cases answer with
  | error e => exact ⟨backend, cached⟩
  | ok a => exact ⟨backend, cached⟩

theorem loadAll (upholds : s.Upholds P T) (laws : Reads P T) (d : DocumentId)
    (entries : List TreeEntry) : (Datastore.loadAll d entries s).2.Upholds P T := by
  induction entries generalizing s with
  | nil => exact upholds
  | cons entry rest ih =>
    refine keepThen (upholds.asked laws (.loadRevision d entry.id)) fun found s upholds => ?_
    cases found with
    | none => exact upholds
    | some r => exact keepThen (ih upholds) fun rs s upholds => upholds

theorem loadTree (upholds : s.Upholds P T) (laws : Reads P T) (d : DocumentId) :
    (s.loadTree d).2.Upholds P T := by
  refine keepThen (upholds.asked laws (.loadTree d)) fun entries s upholds => ?_
  split
  · exact upholds
  · refine keepThen (upholds.asked laws (.documentKey d)) fun key s upholds => ?_
    refine keepThen (upholds.loadAll laws d entries) fun revisions s upholds => ?_
    split
    · exact upholds
    · exact upholds.quiet (.note s _ _ _)

theorem loadedTree (upholds : s.Upholds P T) (laws : Reads P T) (d : DocumentId) :
    (s.loadTree d).Leaves (Upholds P T) fun found s' => ∀ t, found = some t → T s'.backend d t := by
  refine ⟨upholds.loadTree laws d, ?_⟩
  rintro _ loaded t rfl
  exact laws.built upholds.backend (Prod.ext loaded rfl)

theorem treeOf (upholds : s.Upholds P T) (laws : Reads P T) (d : DocumentId) (create : Bool) :
    (s.treeOf d create).Leaves (Upholds P T) fun t s' => T s'.backend d t := by
  unfold Datastore.treeOf
  split
  · rename_i t found
    refine ⟨upholds, ?_⟩
    rintro _ ⟨⟩
    exact upholds.cachedTree found
  · refine (upholds.loadedTree laws d).andThen fun found s upholds tree => ?_
    cases found with
    | some t =>
      refine ⟨upholds.cacheTree laws (tree t rfl), ?_⟩
      rintro _ ⟨⟩
      exact tree t rfl
    | none =>
      dsimp only
      split
      · have asked := upholds.asked laws (.documentKey d)
        refine Outcome.Leaves.andThen (Q := fun _ _ => True) ⟨asked, fun _ _ => trivial⟩ ?_
        intro key s upholds _
        have tree : T s.backend d (.empty d key) := laws.bare key upholds.backend
        refine ⟨upholds.cacheTree laws tree, ?_⟩
        rintro _ ⟨⟩
        exact tree
      · refine ⟨upholds, ?_⟩
        rintro _ ⟨⟩
        exact laws.bare _ upholds.backend

theorem reload (upholds : s.Upholds P T) (laws : Reads P T) (t : RevisionTree) :
    (s.reload t).Upholds P T := by
  have loaded := upholds.loadedTree laws t.document
  unfold Datastore.reload
  generalize s.loadTree t.document = o at loaded
  obtain ⟨answer, after⟩ := o
  cases answer with
  | error e => exact loaded.store.quiet (.note after _ _ _)
  | ok found =>
    cases found with
    | none => exact loaded.store.keepTree laws (laws.bare t.key loaded.store.backend)
    | some fresh => exact loaded.store.keepTree laws (loaded.answer _ rfl fresh rfl)

theorem settle (upholds : s.Upholds P T) (laws : Reads P T) (t : RevisionTree)
    (e : DocumentError) : (s.settle t e).Upholds P T := by
  unfold Datastore.settle
  split
  · exact upholds.quiet ((Quiet.count s (by decide)).trans (.note _ _ _ _))
  · exact (upholds.quiet ((Quiet.count s (by decide)).trans (.note _ _ _ _))).reload laws t
  · exact upholds

theorem readTree (upholds : s.Upholds P T) (laws : Reads P T) (document : String)
    (read : DocumentId → RevisionTree → Except DocumentError α) :
    (s.readTree document read).2.Upholds P T := by
  unfold Datastore.readTree
  split
  · exact upholds
  · exact (upholds.treeOf laws _ false).keep fun t s upholds _ => upholds

theorem conflictedAmong (upholds : s.Upholds P T) (laws : Reads P T) (ds : List DocumentId) :
    (Datastore.conflictedAmong ds s).2.Upholds P T := by
  induction ds generalizing s with
  | nil => exact upholds
  | cons d ds ih =>
    refine (upholds.treeOf laws d false).keep fun t s upholds _ => ?_
    exact keepThen (ih upholds) fun found s upholds => upholds

theorem completed (upholds : s.Upholds P T) (laws : Reads P T) (r : Revision) :
    (s.completed r).2.Upholds P T := by
  unfold Datastore.completed
  split
  · exact keepThen (upholds.asked laws (.loadRevision _ _)) fun found s upholds => upholds
  · exact upholds

theorem materialize (upholds : s.Upholds P T) (laws : Reads P T) (r : Revision) :
    (s.materialize r).2.Upholds P T := by
  have done := upholds.completed laws r
  unfold Datastore.materialize
  dsimp only
  split
  · exact done
  · generalize s.completed r = o at done
    obtain ⟨answer, after⟩ := o
    cases answer with
    | ok full => exact done.quiet ((Quiet.count _ (by decide)).trans (.report _ _ _))
    | error e =>
      cases e with
      | documentNotFound d id => exact done.quiet (.note after _ _ _)
      | _ => exact done

theorem commit (laws : Writes P T) :
    (Datastore.commit (β := β)).Keeps Revision.Uncommitted (Upholds P T) := by
  intro r s asked upholds
  refine ⟨laws.commits asked upholds.backend, ?_⟩
  intro e member
  have spared := congrArg (·.2.2) (commitSpares (β := β) r s)
  dsimp only at spared
  rw [spared] at member
  exact laws.outlasts asked upholds.backend (upholds.cached e member)

theorem insertChild (upholds : s.Upholds P T) (laws : Writes P T) {t : RevisionTree}
    (tree : T s.backend d t) (digest : ContentDigest) (parent : Option Int) (body : DocumentBody)
    (attachments : AttachmentMap) (deleted : Bool) :
    Outcome.Leaves (t.insertChild digest Datastore.commit parent body attachments deleted s)
      (Upholds P T) fun done s' => T s'.backend d done.1 := by
  refine ⟨(commit laws).insertChild t digest parent body attachments deleted
    (fun _ => RevisionTree.draftUncommitted) upholds, ?_⟩
  intro done ok
  exact laws.child upholds.backend tree (Prod.ext ok rfl)

theorem localEdit (upholds : s.Upholds P T) (laws : Writes P T) (d : DocumentId)
    (parent : Option RevisionId) (body : DocumentBody) (attachments : Option AttachmentMap)
    (deleted : Bool) : (s.localEdit d parent body attachments deleted).2.Upholds P T := by
  refine (upholds.treeOf laws.toReads d parent.isNone).keep fun t s upholds tree => ?_
  dsimp only
  generalize attachments.getD _ = attachments
  have written : Outcome.Leaves
      (t.insertLocalEdit s.digest Datastore.commit parent body attachments deleted s)
      (Upholds P T) fun done s' => T s'.backend d done.1 := by
    unfold RevisionTree.insertLocalEdit
    split
    · exact ⟨upholds, fun _ impossible => by cases impossible⟩
    · exact upholds.insertChild laws tree s.digest _ body attachments deleted
  generalize t.insertLocalEdit s.digest _ parent body attachments deleted s = o at written
  obtain ⟨answer, after⟩ := o
  cases answer with
  | error e => exact written.store.settle laws.toReads t e
  | ok done =>
    obtain ⟨grown, report⟩ := done
    have kept := written.store.keepTree laws.toReads (written.answer _ rfl)
    dsimp only
    split
    · exact kept.quiet (.count _ (by decide))
    · exact kept.quiet (.changed _ (by decide) _ _ _ _ _)

theorem forceInsert (upholds : s.Upholds P T) (laws : Writes P T) (r : Revision)
    (history : List RevisionId) : (s.forceInsert r history).2.Upholds P T := by
  unfold Datastore.forceInsert
  dsimp only
  split
  · exact upholds
  · refine (upholds.treeOf laws.toReads r.document true).keep fun t s upholds tree => ?_
    have store := (commit laws).insertForeign t r history
      (fun _ _ plan x member => RevisionTree.planUncommitted plan member) upholds
    have grows : ∀ done, (t.insertForeign Datastore.commit r history s).1 = .ok done →
        T (t.insertForeign Datastore.commit r history s).2.backend r.document done.1 :=
      fun done ok => laws.foreign upholds.backend tree (Prod.ext ok rfl)
    generalize t.insertForeign _ r history s = o at store grows
    obtain ⟨answer, after⟩ := o
    cases answer with
    | error e => exact store.settle laws.toReads t e
    | ok done =>
      obtain ⟨grown, result⟩ := done
      cases result with
      | alreadyPresent q => exact store.quiet ((Quiet.count _ (by decide)).trans (.note _ _ _ _))
      | inserted report =>
        exact (store.keepTree laws.toReads (grows _ rfl)).quiet (.changed _ (by decide) _ _ _ _ _)

theorem tombstoneAll (upholds : s.Upholds P T) (laws : Writes P T) {t : RevisionTree}
    (tree : T s.backend d t) (leaves : List RevisionId) :
    (s.tombstoneAll t leaves).2.Upholds P T := by
  induction leaves generalizing s t with
  | nil => exact upholds
  | cons leaf rest ih =>
    have written : Outcome.Leaves (t.tombstoneLeaf s.digest Datastore.commit leaf s)
        (Upholds P T) fun done s' => T s'.backend d done.1 := by
      have refused (e : DocumentError) : Outcome.Leaves (.error e, s) (Upholds P T)
          fun (done : RevisionTree × InsertReport) s' => T s'.backend d done.1 :=
        ⟨upholds, fun _ impossible => by cases impossible⟩
      unfold RevisionTree.tombstoneLeaf
      cases t.sequenceOf? leaf.text with
      | none => exact refused _
      | some q =>
        cases found : t.nodes.find? q with
        | none => simpa [found] using refused _
        | some n =>
          simp only [found]
          split
          · exact upholds.insertChild laws tree s.digest _ _ _ _
          · exact refused _
    unfold Datastore.tombstoneAll
    generalize t.tombstoneLeaf s.digest _ leaf s = o at written
    obtain ⟨answer, after⟩ := o
    cases answer with
    | error e => exact written.store.settle laws.toReads t e
    | ok done =>
      obtain ⟨grown, report⟩ := done
      -- The next leaf is ended in the tree that has grown, so that tree is carried along.
      have quiet := Quiet.reportChanges (after.keepTree grown) grown report t.isConflicted
      have kept := written.store.keepTree laws.toReads (written.answer _ rfl)
      refine ih (kept.quiet quiet) ?_
      rw [quiet.backend, keepTreeBackend]
      exact written.answer _ rfl

theorem resolveConflicts (upholds : s.Upholds P T) (laws : Writes P T) (document keep : String) :
    (s.resolveConflicts document keep).2.Upholds P T := by
  unfold Datastore.resolveConflicts
  split
  · exact upholds
  · split
    · exact upholds
    · refine (upholds.treeOf laws.toReads _ false).keep fun t s upholds tree => ?_
      dsimp only
      split
      · exact upholds
      · refine keepThen (upholds.tombstoneAll laws tree _) fun _ s upholds => ?_
        dsimp only
        split
        · exact upholds
        · exact upholds.quiet (.report s _ _)

theorem serve (upholds : s.Upholds P T) (laws : Writes P T) (q : Request) :
    (s.serve q).2.Upholds P T := by
  have reads := laws.toReads
  cases q with
  | create id fresh body attachments =>
    refine reply ?_ .revision
    unfold createDocument
    split
    · exact upholds.localEdit laws _ _ _ _ _
    · split
      · exact upholds
      · exact upholds.localEdit laws _ _ _ _ _
  | update document parent body =>
    exact upholds.withParent document parent
      fun d p => upholds.localEdit laws d (some p) body none false
  | delete document parent =>
    exact upholds.withParent document parent fun d p => upholds.localEdit laws d (some p) _ _ true
  | save r =>
    refine reply ?_ .revision
    unfold saveRevision
    split
    · exact upholds
    · split
      · exact upholds.quiet (.note s _ _ _)
      · exact upholds.localEdit laws _ _ _ _ _
  | force r history => exact upholds.forceInsert laws r history
  | resolve document keep => exact upholds.resolveConflicts laws document keep
  | current document => exact (upholds.readTree reads document _).reply _
  | revision document id => exact (upholds.readTree reads document _).reply _
  | conflicted document => exact (upholds.readTree reads document _).reply _
  | leaves document => exact (upholds.readTree reads document _).reply _
  | conflicts document => exact (upholds.readTree reads document _).reply _
  | history document id => exact (upholds.readTree reads document _).reply _
  | since document since => exact (upholds.readTree reads document _).reply _
  | conflictedDocuments =>
    exact reply (keepThen (upholds.asked reads .documentIds)
      fun ds s upholds => upholds.conflictedAmong reads ds) _
  | project document fields =>
    exact reply (keepThen (upholds.readTree reads document _) fun r s upholds => upholds) _
  | materialize r => exact upholds.materialize reads r
  | lastSequence => exact upholds.asked reads .lastSequence

end Upholds

inductive Later (others : β → β → Prop) (s : Datastore β) : Datastore β → Prop where
  | now : Later others s s
  | serve {u : Datastore β} (before : Later others s u) (q : Request) :
      Later others s (u.serve q).2
  | moved {u : Datastore β} {b : β} (before : Later others s u) (move : others u.backend b) :
      Later others s { u with backend := b }
  | evict {u : Datastore β} (before : Later others s u) (keep : DocumentId → Bool) :
      Later others s { u with cache := u.cache.filter fun d _ => keep d }
  | opened {u v : Datastore β} {config : DatastoreConfig} {digest : ContentDigest} {b : β}
      {log log' : Log} (before : Later others s u)
      (opens : connect config digest u.backend log = (.ok v, b, log')) : Later others s v

theorem connectedBackend {config : DatastoreConfig} {digest : ContentDigest} {b b' : β}
    {log log' : Log} (opens : connect config digest b log = (.ok s, b', log')) :
    s.backend = (Backend.lastSequence b).2 ∧ s.cache = Dict.empty ∧
      s.metrics.sequencesAllocated = 0 := by
  unfold connect at opens
  split at opens
  · cases opens
  · generalize Backend.lastSequence b = asked at opens
    obtain ⟨answer, after⟩ := asked
    cases answer with
    | error e => cases opens
    | ok last =>
      cases opens
      exact ⟨rfl, rfl, rfl⟩

theorem Upholds.opened {b b' : β} {n : Nat} {config : DatastoreConfig} {digest : ContentDigest}
    {log log' : Log} (laws : Reads P T) (fresh : ∀ {b n}, P b n → P b 0) (backend : P b n)
    (opens : connect config digest b log = (.ok s, b', log')) : s.Upholds P T := by
  obtain ⟨same, cache, none⟩ := connectedBackend opens
  refine ⟨?_, ?_⟩
  · rw [same, none]
    exact fresh (laws.asks .lastSequence backend)
  · rw [cache]
    exact fun e member => by cases member

theorem Upholds.later {others : β → β → Prop} (upholds : s.Upholds P T) (laws : Writes P T)
    (fresh : ∀ {b n}, P b n → P b 0) (moves : ∀ {b b' n}, others b b' → P b n → P b' n)
    (stays : ∀ {b b' n d t}, others b b' → P b n → T b d t → T b' d t)
    (later : s.Later others s') : s'.Upholds P T := by
  induction later with
  | now => exact upholds
  | serve before q ih => exact ih.serve laws q
  | moved before move ih =>
    exact ⟨moves move ih.backend, fun e member => stays move ih.backend (ih.cached e member)⟩
  | evict before keep ih =>
    exact ⟨ih.backend, fun e member => ih.cached e (List.mem_filter.mp member).1⟩
  | opened before opens ih => exact .opened laws.toReads fresh ih.backend opens

end Datastore
end RevForest
