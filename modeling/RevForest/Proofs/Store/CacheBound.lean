import RevForest.Proofs.Store.Run
import RevForest.Proofs.Store.Upheld

/-! How much a store caches. Whatever it is asked and whatever its backend answers, all that it does
to its cache is to put trees there, dropping others beyond the capacity, and to put trees in
place of older ones. So it never has more of them than its settings allow, and one for a
document at most. -/
namespace RevForest.Datastore
variable {β : Type} {α γ : Type} {s s' s'' : Datastore β} {d : DocumentId}

inductive Caches (s : Datastore β) : Datastore β → Prop where
  | start : Caches s s
  | spared {s' s'' : Datastore β} (before : Caches s s') (config : s''.config = s'.config)
      (cache : s''.cache = s'.cache) : Caches s s''
  | fetched {s' : Datastore β} (before : Caches s s') (t : RevisionTree) :
      Caches s (s'.cacheTree t)
  | replaced {s' : Datastore β} (before : Caches s s') (t : RevisionTree) :
      Caches s (s'.keepTree t)

namespace Caches

theorem count (caches : s.Caches s') (c : Counter) : s.Caches (s'.count c) :=
  caches.spared rfl rfl

theorem report (caches : s.Caches s') (e : Event) (fields : List (String × String)) :
    s.Caches (s'.report e fields) := caches.spared rfl rfl

theorem note (caches : s.Caches s') (severity : Severity) (e : Event)
    (fields : List (String × String)) : s.Caches (s'.note severity e fields) :=
  caches.spared rfl rfl

theorem reportChanges (caches : s.Caches s') (t : RevisionTree) (r : InsertReport)
    (wasConflicted : Bool) : s.Caches (s'.reportChanges t r wasConflicted) :=
  reportChangesKeeps (fun _ caches => caches.count _)
    (fun _ e fields caches => caches.report e fields)
    (fun _ severity e fields caches => caches.note severity e fields) caches t r wasConflicted

theorem withParent (document parent : String) {write : DocumentId → RevisionId → Outcome β Revision}
    (writes : ∀ d p, s.Caches (write d p).2) :
    s.Caches (s.withParent document parent write).2 := by
  unfold Datastore.withParent
  split
  · exact .start
  · split
    · exact .start
    · exact writes _ _

theorem reply {o : Outcome β α} (caches : s.Caches o.2) (wrap : α → Reply) :
    s.Caches (o.reply wrap).2 := caches

theorem call (caches : s.Caches s') (act : β → Except StoreError α × β) :
    s.Caches (s'.call act).2 := by
  unfold Datastore.call
  split <;> exact caches.spared rfl rfl

variable [Backend β]

theorem loadAll (caches : s.Caches s') (d : DocumentId) (entries : List TreeEntry) :
    s.Caches (Datastore.loadAll d entries s').2 := by
  induction entries generalizing s' with
  | nil => exact caches
  | cons entry rest ih =>
    refine keepThen (caches.call _) fun found s' caches => ?_
    cases found with
    | none => exact caches
    | some r => exact keepThen (ih caches) fun rs s' caches => caches

theorem loadTree (caches : s.Caches s') (d : DocumentId) : s.Caches (s'.loadTree d).2 := by
  refine keepThen (caches.call _) fun entries s' caches => ?_
  split
  · exact caches
  · refine keepThen (caches.call _) fun key s' caches => ?_
    refine keepThen (caches.loadAll d entries) fun revisions s' caches => ?_
    split
    · exact caches
    · exact caches.note _ _ _

theorem treeOf (caches : s.Caches s') (d : DocumentId) (create : Bool) :
    s.Caches (s'.treeOf d create).2 := by
  unfold Datastore.treeOf
  split
  · exact caches
  · refine keepThen (caches.loadTree d) fun found s' caches => ?_
    cases found with
    | some t => exact caches.fetched t
    | none =>
      dsimp only
      split
      · exact keepThen (caches.call _) fun key s' caches => caches.fetched _
      · exact caches

theorem reload (caches : s.Caches s') (t : RevisionTree) : s.Caches (s'.reload t) := by
  have loaded := caches.loadTree t.document
  unfold Datastore.reload
  generalize s'.loadTree t.document = o at loaded
  obtain ⟨answer, after⟩ := o
  cases answer with
  | error e => exact loaded.note _ _ _
  | ok found =>
    cases found with
    | none => exact loaded.replaced _
    | some fresh => exact loaded.replaced fresh

theorem settle (caches : s.Caches s') (t : RevisionTree) (e : DocumentError) :
    s.Caches (s'.settle t e) := by
  unfold Datastore.settle
  split
  · exact (caches.count _).note _ _ _
  · exact ((caches.count _).note _ _ _).reload t
  · exact caches

theorem readTree (document : String)
    (read : DocumentId → RevisionTree → Except DocumentError α) :
    s.Caches (s.readTree document read).2 := by
  unfold Datastore.readTree
  split
  · exact .start
  · exact keepThen (start.treeOf _ false) fun t s' caches => caches

theorem conflictedAmong (caches : s.Caches s') (ds : List DocumentId) :
    s.Caches (Datastore.conflictedAmong ds s').2 := by
  induction ds generalizing s' with
  | nil => exact caches
  | cons d ds ih =>
    refine keepThen (caches.treeOf d false) fun t s' caches => ?_
    exact keepThen (ih caches) fun found s' caches => caches

theorem completed (r : Revision) : s.Caches (s.completed r).2 := by
  unfold Datastore.completed
  split
  · exact keepThen (start.call _) fun found s' caches => caches
  · exact .start

theorem materialize (r : Revision) : s.Caches (s.materialize r).2 := by
  have done : s.Caches (s.completed r).2 := completed r
  unfold Datastore.materialize
  dsimp only
  split
  · exact done
  · generalize s.completed r = o at done
    obtain ⟨answer, after⟩ := o
    cases answer with
    | ok full => exact (done.count _).report _ _
    | error e =>
      cases e with
      | documentNotFound d id => exact done.note _ _ _
      | _ => exact done

theorem localEdit (d : DocumentId) (parent : Option RevisionId) (body : DocumentBody)
    (attachments : Option AttachmentMap) (deleted : Bool) :
    s.Caches (s.localEdit d parent body attachments deleted).2 := by
  refine keepThen (start.treeOf d parent.isNone) fun t s' caches => ?_
  dsimp only
  generalize attachments.getD _ = attachments
  have spared := (commitSpares.keeps s').insertLocalEdit t s'.digest parent body attachments deleted
    (fun _ _ _ => trivial) rfl
  generalize t.insertLocalEdit s'.digest _ parent body attachments deleted s' = o at spared
  obtain ⟨answer, after⟩ := o
  have caches : s.Caches after :=
    caches.spared (congrArg (·.1) spared) (congrArg (·.2.2) spared)
  cases answer with
  | error e => exact caches.settle t e
  | ok done =>
    obtain ⟨grown, report⟩ := done
    have kept := (caches.replaced grown).count .localEdits
    dsimp only
    split
    · exact kept
    · exact (kept.report _ _).reportChanges _ _ _

theorem forceInsert (r : Revision) (history : List RevisionId) :
    s.Caches (s.forceInsert r history).2 := by
  unfold Datastore.forceInsert
  dsimp only
  split
  · exact .start
  · refine keepThen (start.treeOf r.document true) fun t s' caches => ?_
    have spared := commitSpares.insertForeign t r history s'
    generalize t.insertForeign _ r history s' = o at spared
    obtain ⟨answer, after⟩ := o
    have caches : s.Caches after :=
      caches.spared (congrArg (·.1) spared) (congrArg (·.2.2) spared)
    cases answer with
    | error e => exact caches.settle t e
    | ok done =>
      obtain ⟨grown, result⟩ := done
      cases result with
      | alreadyPresent q => exact (caches.count _).note _ _ _
      | inserted report =>
        exact (((caches.replaced grown).count _).report _ _).reportChanges _ _ _

theorem tombstoneAll (caches : s.Caches s') (t : RevisionTree) (leaves : List RevisionId) :
    s.Caches (s'.tombstoneAll t leaves).2 := by
  induction leaves generalizing s' t with
  | nil => exact caches
  | cons leaf rest ih =>
    have spared := (commitSpares.keeps s').tombstoneLeaf t s'.digest leaf (fun _ _ _ => trivial) rfl
    unfold Datastore.tombstoneAll
    generalize t.tombstoneLeaf s'.digest _ leaf s' = o at spared
    obtain ⟨answer, after⟩ := o
    have caches : s.Caches after :=
      caches.spared (congrArg (·.1) spared) (congrArg (·.2.2) spared)
    cases answer with
    | error e => exact caches.settle t e
    | ok done => exact ih ((caches.replaced done.1).reportChanges _ _ _) _

theorem resolveConflicts (document keep : String) :
    s.Caches (s.resolveConflicts document keep).2 := by
  unfold Datastore.resolveConflicts
  split
  · exact .start
  · split
    · exact .start
    · refine keepThen (start.treeOf _ false) fun t s' caches => ?_
      dsimp only
      split
      · exact caches
      · refine keepThen (caches.tombstoneAll t _) fun _ s' caches => ?_
        dsimp only
        split
        · exact caches
        · exact caches.report _ _

theorem serve (q : Request) : s.Caches (s.serve q).2 := by
  cases q with
  | create id fresh body attachments =>
    refine reply ?_ .revision
    unfold createDocument
    split
    · exact localEdit _ _ _ _ _
    · split
      · exact .start
      · exact localEdit _ _ _ _ _
  | update document parent body =>
    exact withParent document parent fun d p => localEdit d (some p) body none false
  | delete document parent =>
    exact withParent document parent fun d p => localEdit d (some p) _ _ true
  | save r =>
    refine reply ?_ .revision
    unfold saveRevision
    split
    · exact .start
    · split
      · exact start.note _ _ _
      · exact localEdit _ _ _ _ _
  | force r history => exact forceInsert r history
  | resolve document keep => exact resolveConflicts document keep
  | current document => exact (readTree document _).reply _
  | revision document id => exact (readTree document _).reply _
  | conflicted document => exact (readTree document _).reply _
  | leaves document => exact (readTree document _).reply _
  | conflicts document => exact (readTree document _).reply _
  | history document id => exact (readTree document _).reply _
  | since document since => exact (readTree document _).reply _
  | conflictedDocuments =>
    exact reply (keepThen (start.call _) fun ds s' caches => caches.conflictedAmong ds) _
  | project document fields =>
    exact reply (keepThen (readTree document _) fun r s' caches => caches) _
  | materialize r => exact materialize r
  | lastSequence => exact (start.call Backend.lastSequence).reply _

end Caches

structure WithinCapacity (s : Datastore β) : Prop where
  room : 1 ≤ s.config.treeCacheCapacity
  size : s.cache.size ≤ s.config.treeCacheCapacity
  sorted : s.cache.Sorted
  keyed : s.cache.Keyed (·.document)

theorem dropOthersLength (keep : DocumentId) (n : Nat) (es : List (DocumentId × RevisionTree))
    (enough : n + es.countP (·.1 = keep) ≤ es.length) :
    (dropOthers keep n es).length + n = es.length := by
  fun_induction dropOthers keep n es with
  | case1 es => rfl
  | case2 n => cases enough
  | case3 n e es kept ih =>
    rw [List.countP_cons_of_pos (by simpa using kept), List.length_cons] at enough
    rw [List.length_cons, List.length_cons]
    have := ih (by omega)
    omega
  | case4 n e es other ih =>
    rw [List.countP_cons_of_neg (by simpa using other), List.length_cons] at enough
    rw [List.length_cons]
    have := ih (by omega)
    omega

theorem countedOnce {c : Dict DocumentId RevisionTree} (sorted : c.Sorted) (d : DocumentId) :
    c.entries.countP (·.1 = d) ≤ 1 := by
  have once : c.keys.Nodup :=
    List.Pairwise.imp ne_of_irrefl (List.pairwise_map.mpr sorted)
  have counted := List.nodup_iff_count_le_one.mp once d
  rwa [List.count_eq_countP, Dict.keys, List.countP_map] at counted

theorem sizeCacheTree (room : 1 ≤ s.config.treeCacheCapacity) (sorted : s.cache.Sorted)
    (t : RevisionTree) : (s.cacheTree t).cache.size ≤ s.config.treeCacheCapacity := by
  have once := countedOnce (Dict.sortedInsert sorted t.document t) t.document
  unfold cacheTree
  generalize s.cache.insert t.document t = wide at once
  unfold Dict.size
  dsimp only
  have shorter := (Dict.dropOthersSublist t.document
    (wide.entries.length - s.config.treeCacheCapacity) wide.entries).length_le
  by_cases full : wide.entries.length ≤ s.config.treeCacheCapacity
  · exact shorter.trans full
  · have dropped := dropOthersLength t.document
      (wide.entries.length - s.config.treeCacheCapacity) wide.entries (by omega)
    omega

theorem keyedInsert {c : Dict DocumentId RevisionTree} (keyed : c.Keyed (·.document))
    (t : RevisionTree) : (c.insert t.document t).Keyed (·.document) := by
  intro e member
  rcases Dict.memInsertEntry member with rfl | before
  · rfl
  · exact keyed e before

namespace WithinCapacity

theorem spared (within : s.WithinCapacity) (config : s'.config = s.config)
    (cache : s'.cache = s.cache) : s'.WithinCapacity := by
  obtain ⟨room, size, sorted, keyed⟩ := within
  rw [← config] at room size
  rw [← cache] at size sorted keyed
  exact ⟨room, size, sorted, keyed⟩

theorem part {es : List (DocumentId × RevisionTree)} (within : s.WithinCapacity)
    (part : es.Sublist s.cache.entries) : { s with cache := ⟨es⟩ }.WithinCapacity where
  room := within.room
  size := part.length_le.trans within.size
  sorted := List.Pairwise.sublist part within.sorted
  keyed e member := within.keyed e (part.subset member)

theorem fetched (within : s.WithinCapacity) (t : RevisionTree) :
    (s.cacheTree t).WithinCapacity := by
  have wide := Dict.sortedInsert within.sorted t.document t
  have part := Dict.dropOthersSublist t.document
    ((s.cache.insert t.document t).size - s.config.treeCacheCapacity)
    (s.cache.insert t.document t).entries
  exact ⟨within.room, sizeCacheTree within.room within.sorted t, List.Pairwise.sublist part wide,
    fun e member => keyedInsert within.keyed t e (part.subset member)⟩

theorem replaced (within : s.WithinCapacity) (t : RevisionTree) :
    (s.keepTree t).WithinCapacity := by
  unfold keepTree
  split
  · rename_i there
    refine ⟨within.room, ?_, Dict.sortedInsert within.sorted _ _, keyedInsert within.keyed t⟩
    dsimp only
    rw [Dict.sizeInsert within.sorted, if_neg (Option.isSome_iff_ne_none.mp there)]
    exact within.size
  · exact within

theorem caches (within : s.WithinCapacity) (caches : s.Caches s') : s'.WithinCapacity := by
  induction caches with
  | start => exact within
  | spared before config cache ih => exact ih.spared config cache
  | fetched before t ih => exact ih.fetched t
  | replaced before t ih => exact ih.replaced t

theorem once (within : s.WithinCapacity) : (s.cache.values.map (·.document)).Nodup :=
  List.pairwise_map.mpr ((within.keyed.rising within.sorted).imp ne_of_irrefl)

end WithinCapacity

theorem capacityChecked {config : DatastoreConfig} (valid : config.validate = .ok ()) :
    1 ≤ config.treeCacheCapacity := by
  refine Nat.pos_of_ne_zero fun none => ?_
  unfold DatastoreConfig.validate DatastoreConfig.fault? at valid
  rw [if_pos none] at valid
  split_ifs at valid

theorem opensWithin [Backend β] {config : DatastoreConfig} {digest : ContentDigest} {b b' : β}
    {log log' : Log} (opens : connect config digest b log = (.ok s, b', log')) :
    s.WithinCapacity := by
  unfold connect at opens
  split at opens
  · cases opens
  · rename_i valid
    generalize Backend.lastSequence b = asked at opens
    obtain ⟨answer, after⟩ := asked
    cases answer with
    | error e => cases opens
    | ok last =>
      cases opens
      exact ⟨capacityChecked valid, Nat.zero_le _, Dict.sortedEmpty, List.forall_mem_nil _⟩

variable {u : Datastore FaultyBackend}

theorem WithinCapacity.reopened (within : u.WithinCapacity) (config : DatastoreConfig)
    (digest : ContentDigest) : (u.reopened config digest).WithinCapacity := by
  unfold Datastore.reopened
  generalize opens : connect config digest u.backend u.log = o
  obtain ⟨answer, b, log⟩ := o
  cases answer with
  | error e => exact within.spared rfl rfl
  | ok opened => exact opensWithin opens

theorem WithinCapacity.step (within : u.WithinCapacity) (step : Step) :
    (u.step step).2.WithinCapacity := by
  cases step with
  | ask q => exact within.caches (.serve q)
  | failNext => exact within.spared rfl rfl
  | allocations outcomes => exact within.spared rfl rfl
  | evict keep => exact within.part List.filter_sublist
  | renew capacity logLevel => exact within.reopened _ _
  | reopen config digest => exact within.reopened config digest

theorem Reachable.withinCapacity (reachable : Reachable u) : u.WithinCapacity := by
  induction reachable with
  | opened opened =>
    obtain ⟨config, digest, b, log, _, _, ok⟩ := opened
    exact opensWithin (Prod.ext ok rfl)
  | step before step ih => exact ih.step step

end RevForest.Datastore
