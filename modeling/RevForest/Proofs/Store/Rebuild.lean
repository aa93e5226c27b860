import RevForest.Proofs.Store.Request

/-! The tree of a document built from any memory that was written by its own calls: revisions
may stand under any positive sequences, in any order, whether or not they fit each other.
Where a tree can be built, no id is stored twice, and a chain that is staged for the tree
and stored behind everything else grows the tree that is built next. -/
namespace RevForest

namespace RevisionTree

theorem checkLinkRecoverable {t : RevisionTree} {parentGeneration : Int → Option Nat}
    {r : Revision} {e : DocumentError} (refused : t.checkLink parentGeneration r = .error e) :
    e.Recoverable := by
  have malformed (reason : String) : (t.malformed reason).Recoverable :=
    fun cause same => by cases same
  unfold checkLink at refused
  repeat' split at refused
  all_goals cases refused
  all_goals exact malformed _

theorem bindError {α β : Type} {first : Except DocumentError α} {next : α → Except DocumentError β}
    {e : DocumentError} (failed : (first >>= next) = .error e) :
    first = .error e ∨ ∃ a, next a = .error e := by
  cases first with
  | error bad => exact .inl (congrArg Except.error (Except.error.inj failed))
  | ok a => exact .inr ⟨a, failed⟩

theorem attachAllRecoverable {t : RevisionTree} {rs : List Revision} {e : DocumentError}
    (refused : rs.foldlM attach t = .error e) : e.Recoverable := by
  induction rs generalizing t with
  | nil => cases refused
  | cons r rest ih =>
    rw [List.foldlM_cons] at refused
    rcases bindError refused with here | ⟨u, later⟩
    · rcases bindError here with bad | ⟨_, ⟨⟩⟩
      exact checkLinkRecoverable bad
    · exact ih later

theorem ofRevisionsRecoverable {d : DocumentId} {key : Int} {rs : List Revision}
    {e : DocumentError} (refused : ofRevisions d key rs = .error e) : e.Recoverable := by
  rcases bindError refused with bad | ⟨_, ⟨⟩⟩
  exact attachAllRecoverable bad

end RevisionTree

namespace MemoryBackend
variable {m m' : MemoryBackend} {d : DocumentId} {t : RevisionTree}

inductive Written : MemoryBackend → Prop where
  | empty : Written .empty
  | persist {m m' : MemoryBackend} {r : Revision} (before : Written m)
      (ok : m.persist r = .ok m') : Written m'
  | nextSequence {m : MemoryBackend} (before : Written m) : Written m.nextSequence.2
  | documentKey {m : MemoryBackend} (before : Written m) (d : DocumentId) :
      Written (m.documentKey d).2
  | failNext {m : MemoryBackend} (before : Written m) : Written m.failNextSequence

inductive Turn (m m' : MemoryBackend) : Prop where
  | idle (revisions : m'.revisions = m.revisions) (byDocument : m'.byDocument = m.byDocument)
      (counted : m.counter.highest ≤ m'.counter.highest)
  | filed (r : Revision) (free : m.revisions.find? r.sequence = none)
      (full : r.projection = none) (revisions : m'.revisions = (m.append r).revisions)
      (byDocument : m'.byDocument = (m.append r).byDocument)
      (counted : m.counter.highest ≤ m'.counter.highest)
      (reached : r.sequence ≤ m'.counter.highest)

theorem persistTurn {r : Revision} (ok : m.persist r = .ok m') : m.Turn m' := by
  unfold MemoryBackend.persist at ok
  split at ok
  · cases ok
  · split at ok
    · cases ok
    · rename_i unprojected
      split at ok
      · cases ok
        exact .idle rfl rfl le_rfl
      · rename_i free
        have absent : m.revisions.find? r.sequence = none := by
          simpa [Dict.contains] using free
        have full : r.projection = none := by
          simpa [Revision.isProjected] using unprojected
        split at ok
        · rename_i above
          have observed : m.counter.observe r.sequence = .ok ⟨r.sequence⟩ :=
            if_neg (not_le.mpr above)
          rw [observed] at ok
          cases ok
          exact .filed r absent full rfl rfl above.le le_rfl
        · rename_i below
          cases ok
          exact .filed r absent full rfl rfl le_rfl (not_lt.mp below)

theorem nextTurn (m : MemoryBackend) : m.Turn m.nextSequence.2 := by
  unfold MemoryBackend.nextSequence SequenceCounter.allocate
  split
  · exact .idle rfl rfl le_rfl
  · by_cases room : m.counter.highest < maxSequence
    · simp only [if_pos room]
      exact .idle rfl rfl (Int.le_add_one le_rfl)
    · simp only [if_neg room]
      exact .idle rfl rfl le_rfl

theorem knowTurn (m : MemoryBackend) (d : DocumentId) : m.Turn (m.know d) := by
  rw [knowShape]
  exact .idle rfl rfl le_rfl

theorem Held.turn (held : m.Held) (turn : m.Turn m') : m'.Held := by
  cases turn with
  | idle revisions byDocument counted =>
    have sequences (d : DocumentId) : m'.sequencesOf d = m.sequencesOf d := by
      unfold sequencesOf
      rw [byDocument]
    refine ⟨held.counted.trans counted, ?_, ?_⟩
    · intro q r found
      rw [revisions] at found
      rw [sequences]
      obtain ⟨below, listed⟩ := held.inside q r found
      exact ⟨below.trans counted, listed⟩
    · intro d q listed
      rw [sequences] at listed
      rw [revisions]
      exact held.listed d q listed
  | filed r free full revisions byDocument counted reached =>
    exact held.file free revisions byDocument counted reached

theorem Written.held (written : m.Written) : m.Held := by
  induction written with
  | empty => exact (Blank.kept ⟨le_rfl, rfl, rfl⟩).held
  | persist before ok ih => exact ih.turn (persistTurn ok)
  | @nextSequence m before ih => exact ih.turn m.nextTurn
  | @documentKey m before d ih => exact ih.turn (m.knowTurn d)
  | failNext before ih => exact ih.turn (.idle rfl rfl le_rfl)

theorem Built.grows (built : m.Built d t) :
    ∃ grown, RevisionTree.Grows (.empty d (m.documentKey d).1)
      (Revision.sortBySequence (m.revisionsOf d)) grown ∧ t = grown.chooseWinner :=
  RevisionTree.ofRevisionsIff.mp built.linked

theorem Built.bare (bare : m.revisionsOf d = []) : m.Built d (.empty d (m.documentKey d).1) := by
  refine ⟨by simp [bare], RevisionTree.ofRevisionsIff.mpr ⟨.empty d (m.documentKey d).1, ?_, rfl⟩⟩
  rw [bare, sortSorted .nil]
  exact .nil _

theorem Built.unique {u : RevisionTree} (built : m.Built d t) (other : m.Built d u) : t = u :=
  Except.ok.inj (built.linked.symm.trans other.linked)

theorem Built.know (built : m.Built d t) : (m.know d).Built d t := by
  have key : ((m.know d).documentKey d).1 = (m.documentKey d).1 := by
    obtain ⟨known, same⟩ := m.knowKnows d
    rw [known.asked, same]
  refine ⟨?_, ?_⟩
  · rw [revisionsKnow]
    exact built.apart
  · rw [revisionsKnow, key]
    exact built.linked

theorem ofLoaded {rs : List Revision}
    (ids : rs.map (·.id) = (m.loadTree d).map (·.id))
    (linked : RevisionTree.ofRevisions d (m.documentKey d).1 rs = .ok t) :
    (m.revisionsOf d).Pairwise fun a b => a.id ≠ b.id := by
  obtain ⟨grown, grows, _⟩ := RevisionTree.ofRevisionsIff.mp linked
  have whole := apartSorted ((RevisionTree.growsApart grows).2.imp And.left)
  rw [ids, entriesSorted, List.map_map] at whole
  exact List.pairwise_map.mp (apartSorted (List.pairwise_map.mp whole))

theorem Held.sameSequence (held : m.Held) {a b : Revision} (first : a ∈ m.revisionsOf d)
    (second : b ∈ m.revisionsOf d) (same : a.sequence = b.sequence) : a = b := by
  have found := (held.stored first).1
  rw [same, (held.stored second).1] at found
  exact (Option.some.inj found).symm

theorem Built.wellFormed (built : m.Built d t) : t.WellFormed ∧ t.document = d ∧
    t.key = (m.documentKey d).1 := by
  obtain ⟨grown, grows, rfl⟩ := built.grows
  have identity := RevisionTree.growsKeeps
    (P := fun u => u.document = d ∧ u.key = (m.documentKey d).1) (fun _ => id) grows ⟨rfl, rfl⟩
  exact ⟨RevisionTree.wellFormedChosen (RevisionTree.wellFormedGrows grows
    (RevisionTree.emptyWellFormed d _)), identity⟩

theorem Built.chosen (built : m.Built d t) : t.chooseWinner = t := by
  obtain ⟨grown, grows, rfl⟩ := built.grows
  obtain ⟨_, ⟨⟩, same⟩ := RevisionTree.growsRebuilt grows (.nil grown)
  exact same.symm

theorem sortAppend (held : m'.Held) {chain : List Revision}
    (own : m'.revisionsOf d = m.revisionsOf d ++ chain)
    (rising : chain.Pairwise fun a b => a.sequence < b.sequence)
    (behind : ∀ a ∈ m.revisionsOf d, ∀ b ∈ chain, a.sequence < b.sequence) :
    Revision.sortBySequence (m'.revisionsOf d) =
      Revision.sortBySequence (m.revisionsOf d) ++ chain := by
  have whole : (Revision.sortBySequence (m.revisionsOf d) ++ chain).Pairwise
      fun a b => a.sequence ≤ b.sequence := by
    refine List.pairwise_append.mpr ⟨sortPairwise _, rising.imp le_of_lt, ?_⟩
    intro a first b second
    exact (behind a ((sortPerm _).subset first) b second).le
  have perm : (m'.revisionsOf d).Perm (Revision.sortBySequence (m.revisionsOf d) ++ chain) := by
    rw [own]
    exact (sortPerm _).symm.append_right chain
  refine List.Perm.eq_of_pairwise ?_ (sortPairwise _) whole ((sortPerm _).trans perm)
  intro a b first second before after
  exact held.sameSequence ((sortPerm _).subset first) (perm.symm.subset second)
    (le_antisymm before after)

theorem Files.sorted {rs : List Revision} (files : m.Files rs m') (held : m.Held)
    (own : m'.revisionsOf d = m.revisionsOf d ++ rs) :
    Revision.sortBySequence (m'.revisionsOf d) =
      Revision.sortBySequence (m.revisionsOf d) ++ rs := by
  refine sortAppend (files.held held) own files.rising ?_
  intro a first b second
  exact lt_of_le_of_lt (held.stored first).2.2 (files.above second).1

theorem Built.append (built : m.Built d t) (held : m.Held) {parent : Int} {chain : List Revision}
    {n : Nat}
    (files : m.Files (RevisionTree.placed parent chain (following m.counter.highest n)) m')
    (own : m'.revisionsOf d =
      m.revisionsOf d ++ RevisionTree.placed parent chain (following m.counter.highest n))
    (key : (m'.documentKey d).1 = (m.documentKey d).1) (staged : t.Staged parent chain)
    (length : chain.length = n) :
    ∃ grown, RevisionTree.Grows t
        (RevisionTree.placed parent chain (following m.counter.highest n)) grown ∧
      m'.Built d grown.chooseWinner := by
  obtain ⟨g, grows, rfl⟩ := built.grows
  have unused (q : Int) (above : m.counter.highest < q) : g.get? q = none :=
    RevisionTree.growsAbove grows
      (fun _ member => (held.stored ((sortPerm _).subset member)).2.2) above
  obtain ⟨last, more⟩ :=
    staged.unchosen.grows (RevisionTree.freeFollowing held.counted unused length)
  obtain ⟨after, grown, same⟩ := RevisionTree.growsRebuilt grows more
  have linked := RevisionTree.growsAppend.mpr ⟨g, grows, more⟩
  rw [← files.sorted held own, ← key] at linked
  exact ⟨after, grown, same ▸ .ofGrows linked⟩

end MemoryBackend

namespace Datastore
variable {s s' : Datastore FaultyBackend} {d : DocumentId} {t : RevisionTree}

inductive LoadedAll (s : Datastore FaultyBackend) (d : DocumentId) (entries : List TreeEntry) :
    Outcome FaultyBackend (List Revision) → Prop where
  | lost {e : DocumentError} (plain : e.Recoverable) : LoadedAll s d entries (.error e, s)
  | found {rs : List Revision} (ids : rs.map (·.id) = entries.map (·.id)) :
      LoadedAll s d entries (.ok rs, s)

theorem loadedAll (steady : s.backend.Steady) (d : DocumentId) (entries : List TreeEntry) :
    LoadedAll s d entries (loadAll d entries s) := by
  induction entries with
  | nil => exact .found rfl
  | cons entry rest ih =>
    unfold loadAll
    rw [kindlyCall (steady.loadRevision d entry.id), okThen]
    cases found : s.backend.memory.loadRevision? d entry.id with
    | none => exact .lost fun cause same => by cases same
    | some r =>
      have own : r.id = entry.id := by simpa using List.find?_some found
      dsimp only
      generalize loadAll d rest s = o at ih
      cases ih with
      | lost plain => exact .lost plain
      | found ids => exact .found (by rw [List.map_cons, List.map_cons, own, ids])

inductive Loaded (s : Datastore FaultyBackend) (d : DocumentId) :
    Outcome FaultyBackend (Option RevisionTree) → Prop where
  | bare (bare : s.backend.memory.revisionsOf d = []) : Loaded s d (.ok none, s)
  | failed {e : DocumentError} {s' : Datastore FaultyBackend} (plain : e.Recoverable)
      (told : (s.asked d).Told s') : Loaded s d (.error e, s')
  | built {t : RevisionTree} {s' : Datastore FaultyBackend}
      (stored : s.backend.memory.revisionsOf d ≠ []) (built : s.backend.memory.Built d t)
      (told : (s.asked d).Told s') : Loaded s d (.ok (some t), s')

theorem loadedTree (steady : s.backend.Steady) (d : DocumentId) : Loaded s d (s.loadTree d) := by
  unfold Datastore.loadTree
  rw [kindlyCall (steady.loadTree d), okThen]
  split
  · rename_i none
    rw [List.isEmpty_iff, MemoryBackend.entriesSorted, List.map_eq_nil_iff] at none
    refine .bare (List.Perm.eq_nil ?_)
    exact none ▸ (sortPerm _).symm
  · rename_i some
    have stored : s.backend.memory.revisionsOf d ≠ [] := by
      intro none
      exact some (by rw [MemoryBackend.entriesSorted, none, sortSorted .nil]; rfl)
    rw [askedKey steady, okThen]
    have asked : (s.asked d).backend.Steady := steady.memory _
    have all := loadedAll asked d (s.backend.memory.loadTree d)
    generalize ran : loadAll d (s.backend.memory.loadTree d) (s.asked d) = o at all
    cases all with
    | lost plain => exact .failed plain (.refl _)
    | @found rs ids =>
      rw [okThen]
      cases linked : RevisionTree.ofRevisions d (s.backend.memory.documentKey d).1 rs with
      | error e => exact .failed (RevisionTree.ofRevisionsRecoverable linked) (.refl _)
      | ok t =>
        -- All ids are stored once, so what was loaded is all that is stored.
        have apart := MemoryBackend.ofLoaded ids linked
        rw [loadsApart steady apart] at ran
        cases ran
        rw [MemoryBackend.ofSorted] at linked
        exact .built stored ⟨apart, linked⟩ (.note _ _ _ _)

theorem findKept (keep : DocumentId) (n : Nat) (es : List (DocumentId × RevisionTree)) :
    (⟨dropOthers keep n es⟩ : Dict DocumentId RevisionTree).find? keep =
      (⟨es⟩ : Dict DocumentId RevisionTree).find? keep := by
  fun_induction dropOthers keep n es with
  | case1 es => rfl
  | case2 => rfl
  | case3 n e es own ih => rw [Dict.findCons, Dict.findCons, if_pos own, if_pos own]
  | case4 n e es other ih => rw [ih, Dict.findCons, if_neg other]

theorem foundCached {β : Type} (s : Datastore β) (t : RevisionTree) :
    (s.cacheTree t).cache.find? t.document = some t := by
  unfold Datastore.cacheTree
  dsimp only
  rw [findKept]
  exact (Dict.findInsert _ _ _ _).trans (if_pos rfl)

theorem foundKept {β : Type} {s : Datastore β} {old : RevisionTree}
    (found : s.cache.find? t.document = some old) :
    (s.keepTree t).cache.find? t.document = some t := by
  unfold Datastore.keepTree
  rw [if_pos (show s.cache.contains t.document = true by simp [Dict.contains, found])]
  exact (Dict.findInsert _ _ _ _).trans (if_pos rfl)

theorem reloadBuilt {fresh old : RevisionTree} (steady : s.backend.Steady)
    (built : s.backend.memory.Built t.document fresh) (key : fresh.key = t.key)
    (found : s.cache.find? t.document = some old) :
    (s.reload t).cache.find? t.document = some fresh := by
  obtain ⟨_, own, keyed⟩ := built.wellFormed
  have kept (v : Datastore FaultyBackend) (cache : v.cache = s.cache) :
      (v.keepTree fresh).cache.find? t.document = some fresh := by
    have there : v.cache.find? fresh.document = some old := by rw [cache, own, found]
    exact own ▸ foundKept there
  unfold Datastore.reload
  by_cases bare : s.backend.memory.revisionsOf t.document = []
  · have empty : fresh = .empty t.document t.key := by
      rw [← key, keyed]
      exact built.unique (.bare bare)
    rw [loadsBare steady bare]
    dsimp only
    rw [← empty]
    exact kept s rfl
  · obtain ⟨s', loaded, told⟩ := loadsBuilt steady built bare
    rw [loaded]
    exact kept s' told.cache

theorem settleBuilt {fresh old : RevisionTree} (steady : s.backend.Steady)
    (built : s.backend.memory.Built t.document fresh) (key : fresh.key = t.key)
    (found : s.cache.find? t.document = some old) (cause : StoreError) :
    (s.settle t (.storage cause)).cache.find? t.document = some fresh :=
  reloadBuilt (s := (s.count .storageFailures).note _ _ _) steady built key found

inductive Had (s : Datastore FaultyBackend) (d : DocumentId) :
    Outcome FaultyBackend RevisionTree → Prop where
  | cached {t : RevisionTree} (found : s.cache.find? d = some t) : Had s d (.ok t, s)
  | failed {e : DocumentError} {s' : Datastore FaultyBackend} (plain : e.Recoverable) :
      Had s d (.error e, s')
  | built {t : RevisionTree} {s' : Datastore FaultyBackend} (absent : s.cache.find? d = none)
      (built : s.backend.memory.Built d t) (backend : s'.backend = s.backend.know d)
      (cached : s'.cache.find? d = some t) : Had s d (.ok t, s')

theorem hadTree (steady : s.backend.Steady) (d : DocumentId) : Had s d (s.treeOf d true) := by
  unfold Datastore.treeOf
  cases cached : s.cache.find? d with
  | some t => exact .cached cached
  | none =>
    have loaded := loadedTree steady d
    dsimp only
    generalize s.loadTree d = o at loaded
    cases loaded with
    | failed plain told => exact .failed plain
    | @built t s' stored built told =>
      have own := built.wellFormed.2.1
      exact .built cached built told.backend (own ▸ foundCached s' t)
    | bare bare =>
      rw [okThen]
      dsimp only
      rw [if_pos rfl, askedKey steady, okThen]
      exact .built cached (.bare bare) rfl (foundCached _ (.empty d _))

theorem readCached {α : Type} {document : String} (parsed : DocumentId.parse document = .ok d)
    (read : DocumentId → RevisionTree → Except DocumentError α)
    (found : s.cache.find? d = some t) : (s.readTree document read).1 = read d t := by
  unfold Datastore.readTree Datastore.treeOf
  rw [parsed]
  dsimp only
  rw [found]
  rfl

theorem readHad {α : Type} {document : String} (parsed : DocumentId.parse document = .ok d)
    {read : DocumentId → RevisionTree → Except DocumentError α} (blind : Blind read)
    (steady : s.backend.Steady) (had : s.treeOf d true = (.ok t, s')) :
    (s.readTree document read).1 = read d t := by
  unfold Datastore.readTree
  rw [parsed]
  unfold Datastore.treeOf at had ⊢
  dsimp only
  cases cached : s.cache.find? d with
  | some u =>
    rw [cached] at had
    cases had
    rfl
  | none =>
    rw [cached] at had
    have loaded := loadedTree steady d
    dsimp only at had ⊢
    generalize s.loadTree d = o at had loaded
    cases loaded with
    | failed plain told => cases had
    | built stored built told =>
      cases had
      rfl
    | bare bare =>
      simp only [okThen, if_true, askedKey steady] at had
      cases had
      exact blind d _ _

end Datastore
end RevForest
