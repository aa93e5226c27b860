import RevForest.Proofs.Store.Commit

/-! A store is sound when each tree that it caches is the one that is built from what is
stored of its document. Building a tree again cannot fail then, and to have the tree
of a document changes nothing but the cache and, where it is to be made, its key. -/
namespace RevForest

theorem Dict.dropOthersSublist (keep : DocumentId) (n : Nat)
    (es : List (DocumentId × RevisionTree)) :
    (Datastore.dropOthers keep n es).Sublist es := by
  fun_induction Datastore.dropOthers keep n es with
  | case1 es => exact List.Sublist.refl es
  | case2 => exact List.Sublist.refl []
  | case3 n e es _ ih => exact ih.cons_cons e
  | case4 n e es _ ih => exact ih.cons e

theorem Dict.findSublist {d : Dict DocumentId RevisionTree} (sorted : d.Sorted)
    {es : List (DocumentId × RevisionTree)} (part : es.Sublist d.entries) :
    (⟨es⟩ : Dict DocumentId RevisionTree).Sorted ∧
      ∀ k t, (⟨es⟩ : Dict DocumentId RevisionTree).find? k = some t → d.find? k = some t := by
  have order : (⟨es⟩ : Dict DocumentId RevisionTree).Sorted := List.Pairwise.sublist part sorted
  refine ⟨order, ?_⟩
  intro k t found
  exact (Dict.memIff sorted k t).mp (part.subset ((Dict.memIff order k t).mpr found))

namespace MemoryBackend

def rebuilt (m : MemoryBackend) (d : DocumentId) : Option RevisionTree :=
  if (m.revisionsOf d).isEmpty then none else some (m.tree d)

theorem rebuiltNone {m : MemoryBackend} {d : DocumentId} (none : m.rebuilt d = none) :
    m.revisionsOf d = [] := by
  unfold rebuilt at none
  split at none
  · rename_i bare
    exact List.isEmpty_iff.mp bare
  · cases none

theorem rebuiltSome {m : MemoryBackend} {d : DocumentId} {t : RevisionTree}
    (some : m.rebuilt d = some t) : m.revisionsOf d ≠ [] ∧ t = m.tree d := by
  unfold rebuilt at some
  split at some
  · cases some
  · rename_i stored
    cases some
    exact ⟨fun bare => stored (List.isEmpty_iff.mpr bare), rfl⟩

end MemoryBackend

namespace Datastore

theorem reportChangesKeeps {β : Type} {P : Datastore β → Prop} {s : Datastore β}
    (counts : ∀ u, P u → P (u.count .conflictsDetected))
    (reports : ∀ u e fields, P u → P (u.report e fields))
    (notes : ∀ u severity e fields, P u → P (u.note severity e fields)) (before : P s)
    (t : RevisionTree) (r : InsertReport) (wasConflicted : Bool) :
    P (s.reportChanges t r wasConflicted) := by
  unfold Datastore.reportChanges
  generalize named : (if r.winnerChanged then _ else s) = told
  have winner : P told := by
    rw [← named]
    split
    · split
      · exact reports s _ _ before
      · exact before
    · exact before
  dsimp only
  split
  · exact notes _ _ _ _ (counts _ winner)
  · exact winner

variable {s s' s'' : Datastore FaultyBackend} {d : DocumentId}

structure Told (s s' : Datastore FaultyBackend) : Prop where
  config : s'.config = s.config
  digest : s'.digest = s.digest
  backend : s'.backend = s.backend
  cache : s'.cache = s.cache

structure Alike (s s' : Datastore FaultyBackend) : Prop where
  config : s'.config = s.config
  digest : s'.digest = s.digest
  backend : s'.backend = s.backend

theorem Alike.trans (first : s.Alike s') (later : s'.Alike s'') : s.Alike s'' :=
  ⟨later.config.trans first.config, later.digest.trans first.digest,
    later.backend.trans first.backend⟩

theorem Alike.keepTree (s : Datastore FaultyBackend) (t : RevisionTree) :
    s.Alike (s.keepTree t) := by
  unfold Datastore.keepTree
  split <;> exact ⟨rfl, rfl, rfl⟩

namespace Told

theorem alike (told : s.Told s') : s.Alike s' := ⟨told.config, told.digest, told.backend⟩

theorem refl (s : Datastore FaultyBackend) : s.Told s := ⟨rfl, rfl, rfl, rfl⟩

theorem trans (first : s.Told s') (later : s'.Told s'') : s.Told s'' :=
  ⟨later.config.trans first.config, later.digest.trans first.digest,
    later.backend.trans first.backend, later.cache.trans first.cache⟩

theorem count (s : Datastore FaultyBackend) (c : Counter) : s.Told (s.count c) :=
  ⟨rfl, rfl, rfl, rfl⟩

theorem report (s : Datastore FaultyBackend) (e : Event) (fields : List (String × String)) :
    s.Told (s.report e fields) := ⟨rfl, rfl, rfl, rfl⟩

theorem note (s : Datastore FaultyBackend) (severity : Severity) (e : Event)
    (fields : List (String × String)) : s.Told (s.note severity e fields) := ⟨rfl, rfl, rfl, rfl⟩

theorem reportChanges (s : Datastore FaultyBackend) (t : RevisionTree) (r : InsertReport)
    (wasConflicted : Bool) : s.Told (s.reportChanges t r wasConflicted) := by
  refine reportChangesKeeps ?_ ?_ ?_ (refl s) t r wasConflicted
  · exact fun u told => told.trans (count u _)
  · exact fun u e fields told => told.trans (report u e fields)
  · exact fun u severity e fields told => told.trans (note u severity e fields)

end Told

structure Sound (s : Datastore FaultyBackend) : Prop where
  steady : s.backend.Steady
  kept : s.backend.memory.Kept
  sorted : s.cache.Sorted
  cached : ∀ d t, s.cache.find? d = some t →
    t = s.backend.memory.tree d ∧ s.backend.memory.Knows d

structure SoundBut (s : Datastore FaultyBackend) (d : DocumentId) : Prop where
  steady : s.backend.Steady
  kept : s.backend.memory.Kept
  sorted : s.cache.Sorted
  cached : ∀ e t, s.cache.find? e = some t →
    (e ≠ d → t = s.backend.memory.tree e) ∧ s.backend.memory.Knows e

theorem Sound.but (sound : s.Sound) (d : DocumentId) : s.SoundBut d where
  steady := sound.steady
  kept := sound.kept
  sorted := sound.sorted
  cached e t found := ⟨fun _ => (sound.cached e t found).1, (sound.cached e t found).2⟩

theorem Sound.told (sound : s.Sound) (told : s.Told s') : s'.Sound where
  steady := told.backend ▸ sound.steady
  kept := told.backend ▸ sound.kept
  sorted := told.cache ▸ sound.sorted
  cached d t found := by
    rw [told.cache] at found
    rw [told.backend]
    exact sound.cached d t found

theorem SoundBut.told (but : s.SoundBut d) (told : s.Told s') : s'.SoundBut d where
  steady := told.backend ▸ but.steady
  kept := told.backend ▸ but.kept
  sorted := told.cache ▸ but.sorted
  cached e t found := by
    rw [told.cache] at found
    rw [told.backend]
    exact but.cached e t found

theorem Sound.extended (sound : s.Sound) (steady : s'.backend.Steady) (cache : s'.cache = s.cache)
    {chain : List Revision}
    (extended : s.backend.memory.Extends s'.backend.memory d chain) : s'.SoundBut d where
  steady := steady
  kept := extended.kept
  sorted := cache ▸ sound.sorted
  cached e t found := by
    rw [cache] at found
    obtain ⟨tree, known⟩ := sound.cached e t found
    exact ⟨fun other => tree.trans (extended.otherTree other).symm, extended.knows known⟩

theorem Sound.keyed (sound : s.Sound) (d : DocumentId) :
    { s with backend := s.backend.know d }.Sound where
  steady := sound.steady.memory _
  kept := sound.kept.know d
  sorted := sound.sorted
  cached e t found := by
    obtain ⟨tree, known⟩ := sound.cached e t found
    obtain ⟨after, key⟩ := known.know d
    refine ⟨tree.trans ?_, after⟩
    have memory : (s.backend.know d).memory = s.backend.memory.know d := rfl
    unfold MemoryBackend.tree MemoryBackend.grown
    rw [memory, MemoryBackend.revisionsKnow, key]

theorem knowSame {b : FaultyBackend} (known : b.memory.Knows d) : b.know d = b := by
  unfold FaultyBackend.know
  rw [known.same]

theorem loadAllFound (steady : s.backend.Steady) {rs : List Revision}
    (found : ∀ r ∈ rs, s.backend.memory.loadRevision? d r.id = some r) :
    loadAll d (rs.map TreeEntry.ofRevision) s = (.ok rs, s) := by
  induction rs with
  | nil => rfl
  | cons r rest ih =>
    have loaded : s.call (Backend.loadRevision d (TreeEntry.ofRevision r).id) =
        (.ok (some r), s) := by
      unfold call
      rw [steady.loadRevision]
      exact congrArg (fun found => (Except.ok found, s)) (found r List.mem_cons_self)
    simp only [List.map_cons, loadAll, loaded, Outcome.andThen,
      ih fun x later => found x (List.mem_cons_of_mem _ later)]

theorem kindlyCall {act : FaultyBackend → Except StoreError α × FaultyBackend} {a : α}
    (ran : act s.backend = (.ok a, s.backend)) : s.call act = (.ok a, s) := by
  unfold call
  rw [ran]

theorem okThen {α γ : Type} (a : α) (s : Datastore FaultyBackend)
    (next : α → Datastore FaultyBackend → Outcome FaultyBackend γ) :
    Outcome.andThen (.ok a, s) next = next a s := rfl

def asked (s : Datastore FaultyBackend) (d : DocumentId) : Datastore FaultyBackend :=
  { s with backend := s.backend.know d }

theorem askedRevisions (s : Datastore FaultyBackend) (d e : DocumentId) :
    (s.asked d).backend.memory.revisionsOf e = s.backend.memory.revisionsOf e :=
  MemoryBackend.revisionsKnow s.backend.memory d e

theorem askedKey (steady : s.backend.Steady) (d : DocumentId) :
    s.call (Backend.documentKey d) = (.ok (s.backend.memory.documentKey d).1, s.asked d) := by
  unfold call
  rw [steady.documentKey]
  rfl

theorem loadsApart (steady : s.backend.Steady)
    (apart : (s.backend.memory.revisionsOf d).Pairwise fun a b => a.id ≠ b.id) :
    loadAll d (s.backend.memory.loadTree d) (s.asked d) =
      (.ok (Revision.sortBySequence (s.backend.memory.revisionsOf d)), s.asked d) := by
  have asked : (s.asked d).backend.Steady := steady.memory _
  rw [MemoryBackend.entriesSorted]
  refine loadAllFound asked ?_
  intro r member
  exact (congrArg (List.find? _) (askedRevisions s d d)).trans
    (Revision.findId apart ((sortPerm _).subset member))

theorem loadsBare (steady : s.backend.Steady) (bare : s.backend.memory.revisionsOf d = []) :
    s.loadTree d = (.ok none, s) := by
  unfold Datastore.loadTree
  rw [kindlyCall (steady.loadTree d), okThen, MemoryBackend.entriesSorted, bare, sortSorted .nil]
  rfl

theorem loadsBuilt (steady : s.backend.Steady) (built : s.backend.memory.Built d t)
    (stored : s.backend.memory.revisionsOf d ≠ []) :
    ∃ s', s.loadTree d = (.ok (some t), s') ∧ (s.asked d).Told s' := by
  have entries : (s.backend.memory.loadTree d).isEmpty ≠ true := by
    rw [MemoryBackend.entriesSorted, List.isEmpty_map, ne_eq, List.isEmpty_iff]
    exact fun none => stored (none ▸ (sortPerm _).symm).eq_nil
  unfold Datastore.loadTree
  rw [kindlyCall (steady.loadTree d), okThen, if_neg entries, askedKey steady, okThen,
    loadsApart steady built.apart, okThen, MemoryBackend.ofSorted, built.linked]
  exact ⟨_, rfl, .note _ _ _ _⟩

theorem loadTreeKept (steady : s.backend.Steady) (kept : s.backend.memory.Kept)
    (d : DocumentId) :
    ∃ s', s.loadTree d = (.ok (s.backend.memory.rebuilt d), s') ∧ s.Told s' := by
  unfold MemoryBackend.rebuilt
  by_cases bare : s.backend.memory.revisionsOf d = []
  · rw [bare]
    exact ⟨s, loadsBare steady bare, .refl s⟩
  · have same : s.asked d = s := by
      unfold asked
      rw [knowSame (kept.known bare)]
    have stored : ¬ (s.backend.memory.revisionsOf d).isEmpty = true :=
      fun none => bare (List.isEmpty_iff.mp none)
    have loads := loadsBuilt steady (kept.built bare) bare
    rw [same] at loads
    rwa [if_neg stored]

theorem SoundBut.keepTree (but : s.SoundBut d) :
    (s.keepTree (s.backend.memory.tree d)).Sound := by
  unfold Datastore.keepTree
  rw [but.kept.document d]
  split
  · rename_i inside
    obtain ⟨old, there⟩ := Option.isSome_iff_exists.mp inside
    have known := (but.cached d old there).2
    refine ⟨but.steady, but.kept, Dict.sortedInsert but.sorted _ _, ?_⟩
    intro e t found
    rw [Dict.findInsert] at found
    split at found
    · rename_i same
      cases found
      exact ⟨same ▸ rfl, same ▸ known⟩
    · rename_i other
      obtain ⟨tree, known⟩ := but.cached e t found
      exact ⟨tree other, known⟩
  · rename_i outside
    refine ⟨but.steady, but.kept, but.sorted, ?_⟩
    intro e t found
    have other : e ≠ d := by
      rintro rfl
      exact outside (Option.isSome_iff_exists.mpr ⟨t, found⟩)
    obtain ⟨tree, known⟩ := but.cached e t found
    exact ⟨tree other, known⟩

theorem Sound.cacheTree (sound : s.Sound) (known : s.backend.memory.Knows d) :
    (s.cacheTree (s.backend.memory.tree d)).Sound := by
  unfold Datastore.cacheTree
  rw [sound.kept.document d]
  have wide := Dict.sortedInsert sound.sorted d (s.backend.memory.tree d)
  obtain ⟨sorted, inside⟩ := Dict.findSublist wide (Dict.dropOthersSublist d
    ((s.cache.insert d (s.backend.memory.tree d)).size - s.config.treeCacheCapacity) _)
  refine ⟨sound.steady, sound.kept, sorted, ?_⟩
  intro e t found
  have there := inside e t found
  rw [Dict.findInsert] at there
  split at there
  · rename_i same
    cases there
    exact ⟨same ▸ rfl, same ▸ known⟩
  · exact sound.cached e t there

inductive Fetched (s : Datastore FaultyBackend) (d : DocumentId) (create : Bool) :
    Outcome FaultyBackend RevisionTree → Prop where
  | kept {s' : Datastore FaultyBackend} (sound : s'.Sound) (config : s'.config = s.config)
      (digest : s'.digest = s.digest) (backend : s'.backend = s.backend.know d)
      (known : s'.backend.memory.Knows d)
      (asked : create = true ∨ s.backend.memory.Knows d) :
      Fetched s d create (.ok (s'.backend.memory.tree d), s')
  | detached {s' : Datastore FaultyBackend} (told : s.Told s') (absent : create = false)
      (bare : s.backend.memory.revisionsOf d = []) :
      Fetched s d create (.ok (.empty d detachedKey), s')

theorem Sound.treeOf (sound : s.Sound) (d : DocumentId) (create : Bool) :
    Fetched s d create (s.treeOf d create) := by
  unfold Datastore.treeOf
  cases cached : s.cache.find? d with
  | some t =>
    obtain ⟨rfl, known⟩ := sound.cached d t cached
    exact .kept sound rfl rfl (knowSame known).symm known (.inr known)
  | none =>
    obtain ⟨s', loaded, told⟩ := loadTreeKept sound.steady sound.kept d
    have sound' := sound.told told
    simp only [loaded, Outcome.andThen]
    cases found : s.backend.memory.rebuilt d with
    | some t =>
      obtain ⟨stored, rfl⟩ := MemoryBackend.rebuiltSome found
      have known := sound.kept.known stored
      have same := told.backend.trans (knowSame known).symm
      rw [← told.backend] at known ⊢
      exact .kept (sound'.cacheTree known) told.config told.digest same known
        (.inr (told.backend ▸ known))
    | none =>
      have bare := MemoryBackend.rebuiltNone found
      cases create with
      | false => exact .detached told rfl bare
      | true =>
        have keyed := sound'.keyed d
        have key : s'.call (Backend.documentKey d) =
            (.ok ((s'.backend.know d).memory.keyOf d),
              { s' with backend := s'.backend.know d }) := by
          unfold call
          rw [sound'.steady.documentKey, (s'.backend.memory.knowKnows d).2]
          rfl
        have tree : RevisionTree.empty d ((s'.backend.know d).memory.keyOf d) =
            (s'.backend.know d).memory.tree d := by
          refine (MemoryBackend.treeBare ?_).symm
          have memory : (s'.backend.know d).memory = s'.backend.memory.know d := rfl
          rw [memory, MemoryBackend.revisionsKnow, told.backend, bare]
        simp only [key, tree, if_true]
        have known : (s'.backend.know d).memory.Knows d := (s'.backend.memory.knowKnows d).1
        exact .kept (keyed.cacheTree known) told.config told.digest
          (congrArg (·.know d) told.backend) known (.inl rfl)

theorem SoundBut.reload (but : s.SoundBut d) {t : RevisionTree} (document : t.document = d)
    (key : t.key = s.backend.memory.keyOf d) : (s.reload t).Sound ∧ s.Alike (s.reload t) := by
  obtain ⟨s', loaded, told⟩ := loadTreeKept but.steady but.kept d
  have fresh : s.reload t = s'.keepTree (s'.backend.memory.tree d) := by
    unfold Datastore.reload
    rw [document, loaded]
    cases found : s.backend.memory.rebuilt d with
    | some fresh =>
      obtain ⟨_, rfl⟩ := MemoryBackend.rebuiltSome found
      rw [told.backend]
    | none =>
      rw [key, told.backend, MemoryBackend.treeBare (MemoryBackend.rebuiltNone found)]
  rw [fresh]
  exact ⟨(but.told told).keepTree, told.alike.trans (.keepTree s' _)⟩

theorem SoundBut.settleStorage (but : s.SoundBut d) {t : RevisionTree} (document : t.document = d)
    (key : t.key = s.backend.memory.keyOf d) (cause : StoreError) :
    (s.settle t (.storage cause)).Sound ∧ s.Alike (s.settle t (.storage cause)) := by
  have told := (Told.count s .storageFailures).trans (.note _ .fatal .storageFailure
    [("document_id", t.document.text), ("code", cause.code), ("error", cause.message)])
  obtain ⟨sound, alike⟩ := (but.told told).reload document key
  exact ⟨sound, told.alike.trans alike⟩

theorem settleRecoverable (s : Datastore FaultyBackend) (t : RevisionTree) {e : DocumentError}
    (plain : e.Recoverable) : s.Told (s.settle t e) := by
  unfold settle
  split
  · exact (Told.count s _).trans (.note _ _ _ _)
  · rename_i cause
    exact absurd rfl (plain cause)
  · exact .refl s

end Datastore
end RevForest
