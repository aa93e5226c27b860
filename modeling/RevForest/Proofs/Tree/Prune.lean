import RevForest.Proofs.Tree.Leaves

/-! What is left of a tree once the branches of some live leaves were ended. Each of these
leaves has one child, a tombstone with nothing in it, and no other node has got a child; so
where one live leaf was spared it wins, whatever it ranked before. -/
namespace RevForest.RevisionTree
variable {t u last : RevisionTree} {r p x y : Revision} {s q c : Int}
  {ended more : List RevisionId} {kept leaf : RevisionId}

structure EndedAt (t : RevisionTree) (q : Int) (p : Revision) (c : Int) (x : Revision) : Prop where
  only : t.childrenOf q = [c]
  leaf : t.LeafAt c x
  parent : x.parent = q
  status : x.deleted = true
  content : x.body = .empty ∧ x.attachments = .empty
  generation : x.generation = p.generation + 1

structure Pruned (t last : RevisionTree) (ended : List RevisionId) : Prop where
  nodes : ∀ s x, t.get? s = some x → ∃ flag, last.get? s = some { x with current := flag }
  children : ∀ s x, t.get? s = some x → ¬ (t.ActiveAt s x ∧ x.id ∈ ended) →
    last.childrenOf s = t.childrenOf s
  closed : ∀ q p, t.ActiveAt q p → p.id ∈ ended →
    ∃ c x, t.get? c = none ∧ last.EndedAt q p c x
  new : ∀ s x, t.get? s = none → last.get? s = some x →
    ∃ q p, t.ActiveAt q p ∧ p.id ∈ ended ∧ last.EndedAt q p s x

namespace Pruned

theorem refl (t : RevisionTree) : t.Pruned t [] where
  nodes _ x found := ⟨x.current, found⟩
  children _ _ _ _ := rfl
  closed _ _ _ member := by cases member
  new s x free found := by
    rw [free] at found
    cases found

theorem leafStays (pruned : t.Pruned last ended) (leaf : t.LeafAt s x)
    (spared : ¬ (t.ActiveAt s x ∧ x.id ∈ ended)) :
    ∃ flag, last.LeafAt s { x with current := flag } := by
  obtain ⟨flag, found⟩ := pruned.nodes s x leaf.1
  exact ⟨flag, found, (pruned.children s x leaf.1 spared).trans leaf.2⟩

theorem deadStays (pruned : t.Pruned last ended) (leaf : t.LeafAt s x)
    (dead : x.deleted = true) : ∃ flag, last.LeafAt s { x with current := flag } := by
  refine pruned.leafStays leaf ?_
  intro both
  have live := both.1.2
  rw [dead] at live
  cases live

theorem liveBefore (pruned : t.Pruned last ended) (active : last.ActiveAt s y) :
    ∃ x, t.ActiveAt s x ∧ x.id ∉ ended ∧ y = { x with current := y.current } := by
  obtain ⟨⟨found, bare⟩, live⟩ := active
  cases before : t.get? s with
  | none =>
    obtain ⟨q, p, _, _, tombstone⟩ := pruned.new s y before found
    rw [tombstone.status] at live
    cases live
  | some x =>
    obtain ⟨flag, there⟩ := pruned.nodes s x before
    cases found.symm.trans there
    have spared : ¬ (t.ActiveAt s x ∧ x.id ∈ ended) := by
      rintro ⟨active, member⟩
      obtain ⟨c, z, _, tombstone⟩ := pruned.closed s x active member
      rw [tombstone.only] at bare
      cases bare
    have leaf : t.LeafAt s x := ⟨before, (pruned.children s x before spared).symm.trans bare⟩
    exact ⟨x, ⟨leaf, live⟩, fun member => spared ⟨⟨leaf, live⟩, member⟩, rfl⟩

theorem live (pruned : t.Pruned last ended) {id : RevisionId} :
    last.Live id ↔ t.Live id ∧ id ∉ ended := by
  constructor
  · rintro ⟨q, y, active, rfl⟩
    obtain ⟨x, before, spared, same⟩ := pruned.liveBefore active
    rw [same]
    exact ⟨⟨q, x, before, rfl⟩, spared⟩
  · rintro ⟨⟨q, x, active, rfl⟩, spared⟩
    obtain ⟨flag, leaf⟩ := pruned.leafStays active.1 fun both => spared both.2
    exact ⟨q, _, ⟨leaf, active.2⟩, rfl⟩

theorem endedStays (later : u.Pruned last more) (tombstone : u.EndedAt q p c x)
    (above : u.get? q = some y) : ∃ flag, last.EndedAt q p c { x with current := flag } := by
  obtain ⟨only, leaf, parent, status, content, generation⟩ := tombstone
  have inner : ¬ (u.ActiveAt q y ∧ y.id ∈ more) := by
    rintro ⟨active, _⟩
    have bare := active.1.2
    rw [only] at bare
    cases bare
  obtain ⟨flag, leaf'⟩ := later.deadStays leaf status
  exact ⟨flag, (later.children q y above inner).trans only, leaf', parent, status, content,
    generation⟩

theorem trans (first : t.Pruned u ended) (later : u.Pruned last more) :
    t.Pruned last (ended ++ more) where
  nodes s x found := by
    obtain ⟨_, middle⟩ := first.nodes s x found
    obtain ⟨_, there⟩ := later.nodes s _ middle
    exact ⟨_, there⟩
  children s x found spared := by
    obtain ⟨_, middle⟩ := first.nodes s x found
    rw [later.children s _ middle, first.children s x found]
    · exact fun both => spared ⟨both.1, List.mem_append_left _ both.2⟩
    · rintro ⟨active, member⟩
      obtain ⟨x', before, _⟩ := first.liveBefore active
      cases found.symm.trans before.1.1
      exact spared ⟨before, List.mem_append_right _ member⟩
  closed q p active member := by
    by_cases inside : p.id ∈ ended
    · obtain ⟨c, x, free, tombstone⟩ := first.closed q p active inside
      obtain ⟨_, above⟩ := first.nodes q p active.1.1
      obtain ⟨flag, stays⟩ := later.endedStays tombstone above
      exact ⟨c, _, free, stays⟩
    · obtain ⟨flag, leaf⟩ := first.leafStays active.1 fun both => inside both.2
      have member := (List.mem_append.mp member).resolve_left inside
      obtain ⟨c, x, free, tombstone⟩ := later.closed q _ ⟨leaf, active.2⟩ member
      refine ⟨c, x, Option.eq_none_iff_forall_ne_some.mpr fun z before => ?_, { tombstone with }⟩
      obtain ⟨_, there⟩ := first.nodes c z before
      rw [free] at there
      cases there
  new s x free found := by
    cases middle : u.get? s with
    | some y =>
      obtain ⟨q, p, active, member, tombstone⟩ := first.new s y free middle
      obtain ⟨_, above⟩ := first.nodes q p active.1.1
      obtain ⟨flag, stays⟩ := later.endedStays tombstone above
      cases found.symm.trans stays.leaf.1
      exact ⟨q, p, active, List.mem_append_left _ member, stays⟩
    | none =>
      obtain ⟨q, y, active, member, tombstone⟩ := later.new s x middle found
      obtain ⟨p, before, _, same⟩ := first.liveBefore active
      rw [same] at member tombstone
      exact ⟨q, p, before, List.mem_append_right _ member, { tombstone with }⟩

end Pruned

theorem tombstoneActive {σ : Type} (wf : t.WellFormed) {q : Int} {p : Revision}
    (active : t.ActiveAt q p) (digest : ContentDigest) (commit : Commit σ) (s : σ) :
    t.tombstoneLeaf digest commit p.id s =
      t.insertChild digest commit (some q) .empty .empty true s := by
  have here := (wf.indexed p.id.text q).mpr ⟨p, active.1.1, rfl⟩
  obtain ⟨n, node, rfl⟩ := Option.map_eq_some_iff.mp active.1.1
  have bare : n.children = [] := by
    have none := active.1.2
    unfold childrenOf at none
    rw [node] at none
    exact none
  unfold tombstoneLeaf
  simp only [here, node]
  rw [if_pos]
  simp [bare, active.2]

structure Ends (t : RevisionTree) (leaf : RevisionId) (r : Revision) : Prop where
  fits : t.Fits r
  status : r.deleted = true
  content : r.body = .empty ∧ r.attachments = .empty
  above : ∃ p, t.ActiveAt r.parent p ∧ p.id = leaf

theorem Ends.pruned (ends : t.Ends leaf r) (wf : t.WellFormed) :
    t.Pruned (t.link r).chooseWinner [leaf] := by
  obtain ⟨fits, status, content, above, active, named⟩ := ends
  have child : 0 < r.parent := (wf.own _ _ active.1.1).2.1
  have children (s : Int) : (t.link r).chooseWinner.childrenOf s =
      if s = r.parent then [r.sequence] else t.childrenOf s := by
    rw [childrenChosen, childrenLink fits]
    by_cases here : s = r.parent
    · rw [if_pos ⟨child, here⟩, if_pos here, here, active.1.2]
      rfl
    · rw [if_neg fun both => here both.2, if_neg here]
  have tombstone {x : Revision} (found : (t.link r).chooseWinner.get? r.sequence = some x) :
      (t.link r).chooseWinner.EndedAt r.parent above r.sequence x := by
    obtain ⟨old, before, rfl⟩ := chosenIff.mp found
    rw [getLink, if_pos rfl] at before
    cases before
    obtain ⟨p, parent, next⟩ := fits.parent child
    cases parent.symm.trans active.1.1
    have bare : (t.link r).chooseWinner.childrenOf r.sequence = [] := by
      rw [children, if_neg (fits.parentOther child).symm]
      exact childrenNone fits.freeSequence
    exact ⟨(children _).trans (if_pos rfl), ⟨found, bare⟩, rfl, status, content, next.symm⟩
  refine ⟨?_, ?_, ?_, ?_⟩
  · intro s z found
    have linked : (t.link r).get? s = some z := by
      rwa [getLink, if_neg (fits.other found)]
    exact ⟨_, chosenIff.mpr ⟨z, linked, rfl⟩⟩
  · intro s z found spared
    rw [children, if_neg]
    rintro rfl
    cases found.symm.trans active.1.1
    exact spared ⟨active, List.mem_singleton.mpr named⟩
  · intro q p live member
    obtain rfl :=
      wf.uniqueIds live.1.1 active.1.1 ((List.mem_singleton.mp member).trans named.symm)
    cases live.1.1.symm.trans active.1.1
    have linked : (t.link r).get? r.sequence = some (t.settled r) := by
      rw [getLink, if_pos rfl]
    have found := chosenIff.mpr ⟨_, linked, rfl⟩
    exact ⟨r.sequence, _, fits.freeSequence, tombstone found⟩
  · intro s z free found
    obtain rfl : s = r.sequence := by
      obtain ⟨old, before, _⟩ := chosenIff.mp found
      by_contra other
      rw [getLink, if_neg other, free] at before
      cases before
    exact ⟨r.parent, above, active, List.mem_singleton.mpr named, tombstone found⟩

theorem Ends.live {id : RevisionId} (ends : t.Ends leaf r) (wf : t.WellFormed) :
    (t.link r).chooseWinner.Live id ↔ t.Live id ∧ id ≠ leaf := by
  rw [(ends.pruned wf).live, List.mem_singleton]

structure LeftWith (t last : RevisionTree) (kept : RevisionId) : Prop where
  pruned : t.Pruned last (t.liveIds.filter (· ≠ kept))
  spared : last.liveIds = [kept]
  won : ∃ w, last.current? = some w ∧ w.id = kept ∧ w.deleted = false
  calm : last.isConflicted = false
  dead : ∀ s x, t.LeafAt s x → x.deleted = true →
    ∃ flag, last.LeafAt s { x with current := flag }

theorem Pruned.leftWith (pruned : t.Pruned last (t.liveIds.filter (· ≠ kept))) (wf : t.WellFormed)
    (wf' : last.WellFormed) (crowned : last.Crowned) (live : t.Live kept) :
    t.LeftWith last kept := by
  have only {id : RevisionId} : last.Live id ↔ id = kept := by
    rw [pruned.live, List.mem_filter, memLive wf]
    constructor
    · rintro ⟨before, spared⟩
      simpa [before] using spared
    · rintro rfl
      exact ⟨live, by simp⟩
  have spared : last.liveIds = [kept] := by
    refine List.perm_singleton.mp ((List.perm_ext_iff_of_nodup (liveOnce wf') (by simp)).mpr ?_)
    intro id
    rw [memLive wf', only, List.mem_singleton]
  have one : last.activeLeaves.length = 1 := by
    have length := congrArg List.length spared
    unfold liveIds at length
    rwa [List.length_map] at length
  obtain ⟨q, p, active, _⟩ := only.mpr rfl
  obtain ⟨w, current⟩ := crowned.someCurrent wf' active.1
  obtain ⟨k, _, best⟩ := crowned.current current
  have left := best.live active
  refine ⟨pruned, spared, ⟨w, current, only.mp ⟨k, w, ⟨best.1, left⟩, rfl⟩, left⟩, ?_,
    fun _ _ => pruned.deadStays⟩
  unfold isConflicted
  rw [one]
  rfl

end RevForest.RevisionTree
