import RevForest.Proofs.Tree.Winner

/-! How far the leaves decide the winner. Its rank depends on the ids and the deleted
flags of the leaves alone. Its id does exactly when no other leaf has that rank: ids
whose generations are spelled with and without leading zeros tie, and of leaves that
tie the last by sequence wins, so some order of inserts makes it any of them. -/
namespace RevForest.RevisionTree

def tags (t : RevisionTree) : List (RevisionId × Bool) := t.leaves.map fun r => (r.id, r.deleted)

def winnerId (t : RevisionTree) : Option RevisionId := t.current?.map (·.id)

def SameLeaves (t t' : RevisionTree) : Prop := ∀ tag, tag ∈ t.tags ↔ tag ∈ t'.tags

def Untied (t : RevisionTree) : Prop :=
  ∀ w, t.current? = some w → ∀ s r, t.LeafAt s r → r.rank = w.rank → r.id = w.id

section
variable {document : DocumentId} {key key' : Int} {t t' : RevisionTree}

theorem memTags (sorted : t.nodes.Sorted) (id : RevisionId) (deleted : Bool) :
    (id, deleted) ∈ t.tags ↔ ∃ s r, t.LeafAt s r ∧ r.id = id ∧ r.deleted = deleted := by
  unfold tags
  rw [leavesEntries, List.map_map, List.mem_map]
  constructor
  · intro inside
    obtain ⟨⟨s, r⟩, member, same⟩ := inside
    cases same
    exact ⟨s, r, (memEntries sorted s r).mp member, rfl, rfl⟩
  · intro inside
    obtain ⟨s, r, leaf, rfl, rfl⟩ := inside
    exact ⟨(s, r), (memEntries sorted s r).mpr leaf, rfl⟩

theorem SameLeaves.symm (same : t.SameLeaves t') : t'.SameLeaves t :=
  fun tag => (same tag).symm

theorem SameLeaves.leaf (wf : t.WellFormed) (wf' : t'.WellFormed)
    (same : t.SameLeaves t') {s : Int} {r : Revision} (leaf : t.LeafAt s r) :
    ∃ s' r', t'.LeafAt s' r' ∧ r'.id = r.id ∧ r'.rank = r.rank := by
  have tag := (memTags wf.nodesSorted r.id r.deleted).mpr ⟨s, r, leaf, rfl, rfl⟩
  obtain ⟨s', r', leaf', id, status⟩ := (memTags wf'.nodesSorted _ _).mp ((same _).mp tag)
  exact ⟨s', r', leaf', id, rankOfTag id status⟩

theorem SameLeaves.atLeast (reachable : Reachable document key t)
    (reachable' : Reachable document key' t') (same : t.SameLeaves t') {w : Revision}
    (won : t.current? = some w) : ∃ w', t'.current? = some w' ∧ w.rank ≤ w'.rank := by
  obtain ⟨s, _, best⟩ := reachable.crowned.current won
  obtain ⟨s', r', leaf, _, rank⟩ := same.leaf reachable.wellFormed reachable'.wellFormed best.1
  obtain ⟨w', won'⟩ := reachable'.crowned.someCurrent reachable'.wellFormed leaf
  obtain ⟨k, _, best'⟩ := reachable'.crowned.current won'
  have below := standingRank (best'.2 s' r' leaf)
  rw [rank] at below
  exact ⟨w', won', below⟩

theorem SameLeaves.sameRank (reachable : Reachable document key t)
    (reachable' : Reachable document key' t') (same : t.SameLeaves t') :
    t.current?.map (·.rank) = t'.current?.map (·.rank) := by
  cases won : t.current? with
  | none =>
    cases won' : t'.current? with
    | none => rfl
    | some w' =>
      obtain ⟨w, impossible, _⟩ := same.symm.atLeast reachable' reachable won'
      rw [won] at impossible
      cases impossible
  | some w =>
    obtain ⟨w', won', below⟩ := same.atLeast reachable reachable' won
    obtain ⟨w'', again, above⟩ := same.symm.atLeast reachable' reachable won'
    rw [won] at again
    cases again
    rw [won']
    exact congrArg some (le_antisymm below above)

theorem Untied.decides (reachable : Reachable document key t)
    (reachable' : Reachable document key' t') (untied : t.Untied) (same : t.SameLeaves t') :
    t'.winnerId = t.winnerId := by
  have ranks := same.sameRank reachable reachable'
  unfold winnerId
  cases won : t.current? with
  | none =>
    rw [won] at ranks
    rw [Option.map_eq_none_iff.mp ranks.symm]
  | some w =>
    obtain ⟨w', won', rank⟩ := Option.map_eq_some_iff.mp ((won ▸ ranks).symm)
    obtain ⟨s', _, best'⟩ := reachable'.crowned.current won'
    obtain ⟨s, r, leaf, id, rank'⟩ :=
      same.symm.leaf reachable'.wellFormed reachable.wellFormed best'.1
    have named := untied w won s r leaf (rank'.trans rank)
    rw [won']
    exact congrArg some (id.symm.trans named)

def rooted (t : RevisionTree) (r : Revision) (q : Int) : Revision :=
  { t.adopt r with sequence := q }

theorem planRoot {r : Revision} (full : r.projection = none)
    (own : r.document = t.document) (freeId : t.sequenceOf? r.id.text = none) :
    t.planForeign r [] = .ok (.missing none [t.adopt r]) := by
  refine planForeignIff.mpr ⟨full, own, ⟨rfl, .singleton r.id⟩, ?_⟩
  unfold planOf
  rw [freeId]
  rfl

theorem fitsRoot {r : Revision} {q : Int}
    (freeId : t.sequenceOf? r.id.text = none) (positive : 0 < q) (free : t.get? q = none) :
    t.Fits (t.rooted r q) where
  document := rfl
  positive := positive
  freeSequence := free
  freeId := freeId
  parent child := by
    have low : (t.rooted r q).parent = -1 := rfl
    omega

theorem runRoot {σ : Type} {r : Revision} {q : Int} (commit : Commit σ) (s : σ) {after : σ}
    (full : r.projection = none) (own : r.document = t.document)
    (fits : t.Fits (t.rooted r q)) (given : commit (t.adopt r) s = (.ok (some q), after)) :
    (TreeWrite.foreign r []).run t commit s =
      (.ok (t.link (t.rooted r q)).chooseWinner, after) := by
  have grows : Grows t [t.rooted r q] (t.link (t.rooted r q)) := .cons fits (.nil _)
  have placed := placeChainGrows none grows
  have positive : 0 < q := fits.positive
  have committed : t.commitChain commit noParent [t.adopt r] s = (.ok [t.rooted r q], after) := by
    have same : ({ t.adopt r with parent := noParent } : Revision) = t.adopt r := rfl
    unfold commitChain
    rw [Commit.runNew commit (by rfl), same, given]
    simp [Except.map, Revision.isSequenced, positive, commitChain, rooted]
  unfold TreeWrite.run insertForeign
  simp only [planRoot full own fits.freeId, Option.getD_none, committed, placed]
  rfl

theorem Reachable.root {r : Revision} {q : Int} (reachable : Reachable document key t)
    (full : r.projection = none) (own : r.document = t.document) (fits : t.Fits (t.rooted r q)) :
    Reachable document key (t.link (t.rooted r q)).chooseWinner := by
  have done := runRoot Commit.scripted [.ok (some q)] full own fits rfl
  have log := runRoot Commit.scripted.recorded ([.ok (some q)], []) full own fits rfl
  have answers : (TreeWrite.foreign r []).answers t Commit.scripted [.ok (some q)] =
      [.ok (some q)] := congrArg (fun o => o.2.2) log
  have free : t.FreeAnswer (.ok (some q)) := ⟨fits.positive, fits.freeSequence⟩
  have fresh : t.Fresh [.ok (some q)] := ⟨by simpa using free, by simp [sequenceIn]⟩
  have next := reachable.write (.foreign r []) Commit.scripted [.ok (some q)] (by rwa [answers])
  unfold TreeWrite.after at next
  rw [done] at next
  exact next

def tagAt (t : RevisionTree) (s : Int) : Option (RevisionId × Bool) :=
  (t.get? s).map fun r => (r.id, r.deleted)

structure Lists (t : RevisionTree) (tags : List (RevisionId × Bool)) : Prop where
  bare : ∀ s, t.childrenOf s = []
  node : ∀ s tag, t.tagAt s = some tag ↔ ∃ i : Nat, tags[i]? = some tag ∧ s = i + 1

theorem Lists.free {tags : List (RevisionId × Bool)} (lists : t.Lists tags) :
    t.get? (tags.length + 1) = none := by
  refine Option.eq_none_iff_forall_ne_some.mpr ?_
  intro r found
  obtain ⟨i, here, same⟩ := (lists.node _ _).mp (congrArg (Option.map _) found)
  obtain ⟨inside, _⟩ := List.getElem?_eq_some_iff.mp here
  omega

theorem Lists.freeId {tags : List (RevisionId × Bool)} (wf : t.WellFormed)
    (lists : t.Lists tags) {id : RevisionId} (absent : id ∉ tags.map (·.1)) :
    t.sequenceOf? id.text = none := by
  refine Option.eq_none_iff_forall_ne_some.mpr ?_
  intro s here
  obtain ⟨r, found, text⟩ := (wf.indexed _ s).mp here
  obtain ⟨i, inside, _⟩ := (lists.node s (r.id, r.deleted)).mp (congrArg (Option.map _) found)
  have member := List.mem_map_of_mem (f := (·.1)) (List.mem_of_getElem? inside)
  rw [RevisionId.ext_text text] at member
  exact absent member

theorem snocAt {α : Type} {xs : List α} {x : α} {i : Nat} (other : i ≠ xs.length) :
    (xs ++ [x])[i]? = xs[i]? := by
  rcases lt_or_gt_of_ne other with inside | outside
  · exact List.getElem?_append_left inside
  · rw [List.getElem?_eq_none outside.le, List.getElem?_eq_none]
    simpa using Nat.succ_le_of_lt outside

theorem Lists.snoc {tags : List (RevisionId × Bool)} (lists : t.Lists tags)
    {r : Revision} (fits : t.Fits (t.rooted r (tags.length + 1))) :
    (t.link (t.rooted r (tags.length + 1))).chooseWinner.Lists (tags ++ [(r.id, r.deleted)]) where
  bare s := by
    have low : ¬ 0 < (t.rooted r (tags.length + 1)).parent := by
      have top : (t.rooted r (tags.length + 1)).parent = -1 := rfl
      omega
    rw [childrenChosen, childrenLink fits, if_neg fun both => low both.1]
    exact lists.bare s
  node s tag := by
    have read : (t.link (t.rooted r (tags.length + 1))).chooseWinner.tagAt s =
        if s = tags.length + 1 then some (r.id, r.deleted) else t.tagAt s := by
      unfold tagAt
      rw [getChosen, Option.map_map, getLink, apply_ite (Option.map _)]
      rfl
    rw [read]
    by_cases new : s = tags.length + 1
    · rw [if_pos new, new]
      constructor
      · intro same
        exact ⟨tags.length, by simpa using same, rfl⟩
      · intro some
        obtain ⟨i, here, same⟩ := some
        obtain rfl : i = tags.length := by omega
        simpa using here
    · rw [if_neg new, lists.node]
      have old {i : Nat} (here : s = i + 1) :
          (tags ++ [(r.id, r.deleted)])[i]? = tags[i]? := snocAt (by omega)
      constructor
      · intro some
        obtain ⟨i, here, same⟩ := some
        exact ⟨i, (old same).trans here, same⟩
      · intro some
        obtain ⟨i, here, same⟩ := some
        exact ⟨i, (old same).symm.trans here, same⟩

def bare (document : DocumentId) (tag : RevisionId × Bool) : Revision :=
  { document, id := tag.1, body := .empty, deleted := tag.2 }

theorem rootsReachable (document : DocumentId) (key : Int) {tags : List (RevisionId × Bool)}
    (once : (tags.map (·.1)).Nodup) : ∃ t, Reachable document key t ∧ t.Lists tags := by
  induction tags using List.reverseRecOn with
  | nil => exact ⟨empty document key, .empty, fun s => rfl, by simp [empty, get?, tagAt]⟩
  | append_singleton front tag ih =>
    rw [List.map_append] at once
    obtain ⟨before, _, apart⟩ := List.nodup_append.mp once
    obtain ⟨t, reachable, lists⟩ := ih before
    have absent : tag.1 ∉ front.map (·.1) := by
      intro inside
      exact apart _ inside _ (by simp) rfl
    have fits : t.Fits (t.rooted (bare document tag) (front.length + 1)) :=
      fitsRoot (lists.freeId reachable.wellFormed absent) (by omega) lists.free
    have own : document = t.document := reachable.identity.1.symm
    exact ⟨_, reachable.root rfl own fits, lists.snoc fits⟩

theorem Lists.last {tags : List (RevisionId × Bool)} {s : Int} {r : Revision}
    (lists : t.Lists tags) (found : t.get? s = some r) : s ≤ tags.length := by
  obtain ⟨i, here, same⟩ := (lists.node s _).mp (congrArg (Option.map _) found)
  obtain ⟨inside, _⟩ := List.getElem?_eq_some_iff.mp here
  omega

theorem Lists.memTags {tags : List (RevisionId × Bool)} (wf : t.WellFormed)
    (lists : t.Lists tags) (tag : RevisionId × Bool) : tag ∈ t.tags ↔ tag ∈ tags := by
  rw [RevisionTree.memTags wf.nodesSorted tag.1 tag.2, List.mem_iff_getElem?]
  constructor
  · intro inside
    obtain ⟨s, r, leaf, id, status⟩ := inside
    have read : t.tagAt s = some tag :=
      (congrArg (Option.map _) leaf.1).trans (congrArg some (Prod.ext id status))
    obtain ⟨i, here, _⟩ := (lists.node s tag).mp read
    exact ⟨i, here⟩
  · intro inside
    obtain ⟨i, here⟩ := inside
    have read := (lists.node (i + 1) tag).mpr ⟨i, here, rfl⟩
    obtain ⟨r, found, same⟩ := Option.map_eq_some_iff.mp read
    cases same
    exact ⟨i + 1, r, ⟨found, lists.bare _⟩, rfl, rfl⟩

theorem tagsOnce (wf : t.WellFormed) : (t.tags.map (·.1)).Nodup := by
  unfold tags
  rw [leavesEntries, List.map_map, List.map_map]
  refine List.pairwise_map.mpr ((sortedEntries wf.nodesSorted).imp_of_mem ?_)
  intro a b first second before same
  have here := (memEntries wf.nodesSorted a.1 a.2).mp first
  have there := (memEntries wf.nodesSorted b.1 b.2).mp second
  have := wf.uniqueIds here.1 there.1 same
  omega

theorem Lists.lastBest {front : List (RevisionId × Bool)} {r : Revision}
    (lists : t.Lists (front ++ [(r.id, r.deleted)]))
    (most : ∀ s r', t.LeafAt s r' → r'.rank ≤ r.rank) :
    ∃ x, t.Best (front.length + 1) x ∧ x.id = r.id := by
  have read := (lists.node (front.length + 1) _).mpr ⟨_, List.getElem?_concat_length, rfl⟩
  obtain ⟨x, found, tag⟩ := Option.map_eq_some_iff.mp read
  obtain ⟨id, status⟩ := Prod.mk.inj tag
  refine ⟨x, ⟨⟨found, lists.bare _⟩, ?_⟩, id⟩
  intro s r' leaf
  have below := most s r' leaf
  rw [← rankOfTag id status] at below
  have before := lists.last leaf.1
  rw [List.length_append, List.length_singleton] at before
  rcases below.lt_or_eq with less | equal
  · exact (standingLe _ _).mpr (.inl less)
  · exact (standingLe _ _).mpr (.inr ⟨equal, by exact_mod_cast before⟩)

theorem tieWins (reachable : Reachable document key t) {w r : Revision} {s : Int}
    (won : t.current? = some w) (leaf : t.LeafAt s r) (rank : r.rank = w.rank) :
    ∃ t', Reachable document key t' ∧ t.SameLeaves t' ∧ t'.winnerId = some r.id := by
  -- The same leaves as roots of their own, with the one that ties inserted last.
  have wf := reachable.wellFormed
  have inside := (memTags wf.nodesSorted _ _).mpr ⟨s, r, leaf, rfl, rfl⟩
  have order : t.tags.Perm (t.tags.erase (r.id, r.deleted) ++ [(r.id, r.deleted)]) :=
    (List.perm_cons_erase inside).trans (List.perm_append_singleton _ _).symm
  obtain ⟨t', reachable', lists⟩ := rootsReachable document key
    ((order.map (·.1)).nodup_iff.mp (tagsOnce wf))
  have wf' := reachable'.wellFormed
  have same : t.SameLeaves t' := by
    intro tag
    rw [lists.memTags wf', order.mem_iff]
  obtain ⟨_, _, best⟩ := reachable.crowned.current won
  have most (s' : Int) (r' : Revision) (leaf' : t'.LeafAt s' r') : r'.rank ≤ r.rank := by
    obtain ⟨s'', r'', leaf'', _, rank''⟩ := same.symm.leaf wf' wf leaf'
    have below := standingRank (best.2 s'' r'' leaf'')
    rw [rank'', ← rank] at below
    exact below
  obtain ⟨x, last, id⟩ := lists.lastBest most
  refine ⟨t', reachable', same, ?_⟩
  unfold winnerId
  rw [currentIff.mpr ⟨_, (reachable'.crowned.best _).mpr ⟨x, last⟩, last.1.1⟩]
  exact congrArg some id

theorem winnerDecided (reachable : Reachable document key t) :
    (∀ key' t', Reachable document key' t' → t.SameLeaves t' →
        t'.current?.map (·.rank) = t.current?.map (·.rank)) ∧
      ((∀ key' t', Reachable document key' t' → t.SameLeaves t' → t'.winnerId = t.winnerId) ↔
        t.Untied) := by
  refine ⟨?_, ?_, ?_⟩
  · intro key' t' reachable' same
    exact (same.sameRank reachable reachable').symm
  · intro decided w won s r leaf rank
    obtain ⟨t', reachable', same, wins⟩ := tieWins reachable won leaf rank
    have equal := decided key t' reachable' same
    unfold winnerId at equal wins
    rw [wins, won] at equal
    exact Option.some.inj equal
  · intro untied key' t' reachable' same
    exact untied.decides reachable reachable' same

def Plain (id : RevisionId) : Prop := id.text = toString id.generation ++ "-" ++ id.digest

theorem plainUntied (plain : ∀ r ∈ t.leaves, Plain r.id) (wf : t.WellFormed)
    (crowned : t.Crowned) : t.Untied := by
  intro w won s r leaf rank
  obtain ⟨k, _, best⟩ := crowned.current won
  have here := plain r ((memLeaves wf.nodesSorted r).mpr ⟨s, leaf⟩)
  have there := plain w ((memLeaves wf.nodesSorted w).mpr ⟨k, best.1⟩)
  have level : r.id.generation = w.id.generation := congrArg (fun p => (ofLex (ofLex p).2).1) rank
  have digest : r.id.digest = w.id.digest := congrArg (fun p => (ofLex (ofLex p).2).2) rank
  refine RevisionId.ext_text ?_
  unfold Plain at here there
  rw [here, there, level, digest]

end

theorem forkedDecided :
    Reachable Sample.document 7 Sample.forked ∧
      ∀ key' t', Reachable Sample.document key' t' → Sample.forked.SameLeaves t' →
        t'.winnerId = Sample.forked.winnerId := by
  have plain : ∀ r ∈ Sample.forked.leaves, Plain r.id := by
    unfold Plain
    decide
  have untied := plainUntied plain Sample.forkedReachable.wellFormed Sample.forkedReachable.crowned
  exact ⟨Sample.forkedReachable, (winnerDecided Sample.forkedReachable).2.mpr untied⟩

namespace Sample

def padded : RevisionId := ⟨"01-a", 1, "a", by decide⟩

def arrivals (ids : List RevisionId) : RevisionTree :=
  ids.foldl (fun t id =>
    (TreeWrite.foreign (delivered id) []).after t Commit.scripted [.ok (some (t.size + 1))])
    (.empty document 7)

theorem arrivalsReachable :
    Reachable document 7 (arrivals [root, padded]) ∧
      Reachable document 7 (arrivals [padded, root]) := by
  unfold arrivals
  simp only [List.foldl_cons, List.foldl_nil]
  refine ⟨.write (.write .empty _ _ _ ?_) _ _ _ ?_, .write (.write .empty _ _ _ ?_) _ _ _ ?_⟩ <;>
    decide

end Sample

theorem arrivalOrderMatters :
    Reachable Sample.document 7 (Sample.arrivals [Sample.root, Sample.padded]) ∧
      Reachable Sample.document 7 (Sample.arrivals [Sample.padded, Sample.root]) ∧
      (Sample.arrivals [Sample.root, Sample.padded]).SameLeaves
        (Sample.arrivals [Sample.padded, Sample.root]) ∧
      (Sample.arrivals [Sample.root, Sample.padded]).winnerId = some Sample.padded ∧
      (Sample.arrivals [Sample.padded, Sample.root]).winnerId = some Sample.root := by
  have swapped : (Sample.arrivals [Sample.root, Sample.padded]).tags.Perm
      (Sample.arrivals [Sample.padded, Sample.root]).tags := by decide
  exact ⟨Sample.arrivalsReachable.1, Sample.arrivalsReachable.2, fun tag => swapped.mem_iff,
    by decide, by decide⟩

end RevForest.RevisionTree
