import Mathlib.Data.Int.Order.Basic
import Mathlib.Data.List.Nodup
import Mathlib.Data.String.Basic
import Mathlib.Order.RelClasses
import RevForest.Proofs.Tree.Link

/-! The four redundant views of a tree are in step: nodes, index, lists of children
and list of roots. A fitting link keeps them so, and choosing the winner does not
touch them. The generation falls by one along every edge, so the way up from a
node ends at a root. -/
namespace RevForest

theorem RevisionId.bounds (id : RevisionId) :
    0 < id.generation ∧ id.generation ≤ maxGeneration := by
  obtain ⟨text, generation, digest, spelled⟩ := id
  unfold RevisionId.split at spelled
  simp only at spelled
  split at spelled <;> try contradiction
  split at spelled <;> try contradiction
  split at spelled <;> try contradiction
  rename_i inside
  split at spelled <;> try contradiction
  cases spelled
  dsimp only
  omega

namespace RevisionTree

structure WellFormed (t : RevisionTree) : Prop where
  nodesSorted : t.nodes.Sorted
  indexSorted : t.index.Sorted
  own : ∀ s r, t.get? s = some r →
    r.sequence = s ∧ 0 < s ∧ r.document = t.document ∧ r.key = t.key
  indexed : ∀ id s, t.sequenceOf? id = some s ↔ ∃ r, t.get? s = some r ∧ r.id.text = id
  linked : ∀ s r, t.get? s = some r → 0 < r.parent →
    ∃ p, t.get? r.parent = some p ∧ p.generation < maxGeneration ∧
      r.generation = p.generation + 1
  children : ∀ s c, c ∈ t.childrenOf s ↔ t.parentOf c = some s
  childrenOnce : ∀ s, (t.childrenOf s).Nodup
  roots : ∀ s, s ∈ t.roots ↔ ∃ r, t.get? s = some r ∧ r.parent ≤ 0
  rootsOnce : t.roots.Nodup

theorem emptyWellFormed (document : DocumentId) (key : Int) : (empty document key).WellFormed where
  nodesSorted := Dict.sortedEmpty
  indexSorted := Dict.sortedEmpty
  own s r found := by simp [get?, empty] at found
  indexed id s := by simp [sequenceOf?, get?, empty]
  linked s r found := by simp [get?, empty] at found
  children s c := by simp [childrenOf, parentOf, get?, empty]
  childrenOnce s := by simp [childrenOf, empty]
  roots s := by simp [get?, empty]
  rootsOnce := List.nodup_nil

theorem parentOfLink (t : RevisionTree) (r : Revision) (c : Int) :
    (t.link r).parentOf c =
      if c = r.sequence then (if 0 < r.parent then some r.parent else none)
      else t.parentOf c := by
  unfold parentOf
  rw [getLink]
  split
  · by_cases child : 0 < r.parent
    · have high : ¬ r.parent ≤ 0 := by omega
      simp [settled, Revision.isRoot, child, high]
    · have low : r.parent ≤ 0 := by omega
      simp [settled, Revision.isRoot, child, low]
  · rfl

theorem sortedLink {t : RevisionTree} (sorted : t.nodes.Sorted) (r : Revision) :
    (t.link r).nodes.Sorted := by
  rw [linkShape]
  refine Dict.sortedInsert ?_ _ _
  split
  · exact Dict.sortedAdjust sorted _ _
  · exact sorted

theorem Fits.other {t : RevisionTree} {r old : Revision} {s : Int} (fits : t.Fits r)
    (found : t.get? s = some old) : s ≠ r.sequence := by
  intro same
  rw [same, fits.freeSequence] at found
  contradiction

theorem Fits.parentOther {t : RevisionTree} {r : Revision} (fits : t.Fits r)
    (child : 0 < r.parent) : r.parent ≠ r.sequence := by
  obtain ⟨p, found, _⟩ := fits.parent child
  exact fits.other found

theorem Fits.noChild {t : RevisionTree} {r : Revision} (fits : t.Fits r) (wf : t.WellFormed)
    (s : Int) : r.sequence ∉ t.childrenOf s := by
  intro member
  obtain ⟨old, found, _⟩ := parentOfIff.mp ((wf.children s _).mp member)
  exact fits.other found rfl

theorem Fits.noRoot {t : RevisionTree} {r : Revision} (fits : t.Fits r) (wf : t.WellFormed) :
    r.sequence ∉ t.roots := by
  intro member
  obtain ⟨old, found, _⟩ := (wf.roots _).mp member
  exact fits.other found rfl

theorem ownLink {t : RevisionTree} {r x : Revision} {s : Int} (fits : t.Fits r)
    (wf : t.WellFormed) (found : (t.link r).get? s = some x) :
    x.sequence = s ∧ 0 < s ∧ x.document = (t.link r).document ∧ x.key = (t.link r).key := by
  rw [getLink] at found
  split at found
  · rename_i new
    cases found
    exact ⟨new.symm, new ▸ fits.positive, fits.document, rfl⟩
  · exact wf.own s x found

theorem indexedLink {t : RevisionTree} {r : Revision} (fits : t.Fits r) (wf : t.WellFormed)
    (id : String) (s : Int) :
    (t.link r).sequenceOf? id = some s ↔ ∃ x, (t.link r).get? s = some x ∧ x.id.text = id := by
  rw [sequenceLink, getLink]
  by_cases same : id = r.id.text
  · rw [if_pos same]
    constructor
    · intro here
      rw [if_pos (Option.some.inj here).symm]
      exact ⟨t.settled r, rfl, same.symm⟩
    · intro node
      obtain ⟨x, found, text⟩ := node
      split at found
      · rename_i new
        rw [new]
      · have taken := (wf.indexed id s).mpr ⟨x, found, text⟩
        rw [same, fits.freeId] at taken
        contradiction
  · rw [if_neg same, wf.indexed]
    constructor
    · intro node
      obtain ⟨x, found, text⟩ := node
      rw [if_neg (fits.other found)]
      exact ⟨x, found, text⟩
    · intro node
      obtain ⟨x, found, text⟩ := node
      split at found
      · cases found
        exact absurd text.symm same
      · exact ⟨x, found, text⟩

theorem linkedLink {t : RevisionTree} {r x : Revision} {s : Int} (fits : t.Fits r)
    (wf : t.WellFormed) (found : (t.link r).get? s = some x) (child : 0 < x.parent) :
    ∃ p, (t.link r).get? x.parent = some p ∧ p.generation < maxGeneration ∧
      x.generation = p.generation + 1 := by
  rw [getLink] at found
  split at found
  · cases found
    obtain ⟨p, parent, next⟩ := fits.parent child
    have top := r.id.bounds.2
    refine ⟨p, ?_, ?_, next.symm⟩
    · exact (getLink t r r.parent).trans ((if_neg (fits.parentOther child)).trans parent)
    · unfold Revision.generation at next
      unfold Revision.generation
      omega
  · obtain ⟨p, parent, rest⟩ := wf.linked s x found child
    refine ⟨p, ?_, rest⟩
    rw [getLink, if_neg (fits.other parent)]
    exact parent

theorem memChildrenLink {t : RevisionTree} {r : Revision} (fits : t.Fits r) (wf : t.WellFormed)
    (s c : Int) : c ∈ (t.link r).childrenOf s ↔ (t.link r).parentOf c = some s := by
  rw [childrenLink fits, parentOfLink]
  by_cases new : c = r.sequence
  · have absent : c ∉ t.childrenOf s := by
      rw [new]
      exact fits.noChild wf s
    rw [if_pos new]
    by_cases child : 0 < r.parent
    · by_cases here : s = r.parent
      · simp [child, here, new]
      · simp [child, here, Ne.symm here, absent]
    · simp [child, absent]
  · rw [if_neg new, ← wf.children s c]
    split
    · simp [new]
    · rfl

theorem memRootsLink {t : RevisionTree} {r : Revision} (fits : t.Fits r) (wf : t.WellFormed)
    (s : Int) : s ∈ (t.link r).roots ↔ ∃ x, (t.link r).get? s = some x ∧ x.parent ≤ 0 := by
  rw [rootsLink, getLink]
  by_cases new : s = r.sequence
  · have absent : s ∉ t.roots := by
      rw [new]
      exact fits.noRoot wf
    rw [if_pos new]
    by_cases child : 0 < r.parent
    · simp [child, absent, settled]
    · simp [child, new, settled]
      omega
  · rw [if_neg new, ← wf.roots s]
    split
    · rfl
    · simp [new]

theorem wellFormedLink {t : RevisionTree} {r : Revision} (fits : t.Fits r) (wf : t.WellFormed) :
    (t.link r).WellFormed where
  nodesSorted := sortedLink wf.nodesSorted r
  indexSorted := by
    rw [linkShape]
    exact Dict.sortedInsert wf.indexSorted _ _
  own _ _ found := ownLink fits wf found
  indexed := indexedLink fits wf
  linked _ _ found child := linkedLink fits wf found child
  children := memChildrenLink fits wf
  childrenOnce s := by
    rw [childrenLink fits]
    split
    · rw [← List.concat_eq_append]
      exact List.Nodup.concat (fits.noChild wf s) (wf.childrenOnce s)
    · exact wf.childrenOnce s
  roots := memRootsLink fits wf
  rootsOnce := by
    rw [rootsLink]
    split
    · exact wf.rootsOnce
    · rw [← List.concat_eq_append]
      exact List.Nodup.concat (fits.noRoot wf) wf.rootsOnce

theorem wellFormedGrows {t grown : RevisionTree} {chain : List Revision}
    (grows : Grows t chain grown) (wf : t.WellFormed) : grown.WellFormed :=
  growsKeeps wellFormedLink grows wf

theorem getGrows {t grown : RevisionTree} {chain : List Revision} (grows : Grows t chain grown)
    {s : Int} {x : Revision} :
    grown.get? s = some x ↔
      t.get? s = some x ∨ ∃ r ∈ chain, r.sequence = s ∧ t.settled r = x := by
  induction grows with
  | nil => simp
  | @cons t grown r rest fits next ih =>
    have sameKey (y : Revision) : (t.link r).settled y = t.settled y := rfl
    simp only [ih, getLink, sameKey, List.exists_mem_cons_iff]
    by_cases new : s = r.sequence
    · rw [if_pos new, new, fits.freeSequence]
      simp
    · rw [if_neg new]
      simp [Ne.symm new]

theorem growsAbove {d : DocumentId} {key h q : Int} {chain : List Revision} {grown : RevisionTree}
    (grows : Grows (.empty d key) chain grown) (below : ∀ r ∈ chain, r.sequence ≤ h)
    (above : h < q) : grown.get? q = none := by
  refine Option.eq_none_iff_forall_ne_some.mpr ?_
  intro x found
  rcases (getGrows grows).mp found with empty | ⟨r, member, rfl, _⟩
  · cases empty
  · exact absurd (below r member) (not_le.mpr above)

theorem growsApart {t grown : RevisionTree} {chain : List Revision} (grows : Grows t chain grown) :
    (∀ r ∈ chain, t.sequenceOf? r.id.text = none ∧ t.get? r.sequence = none) ∧
      chain.Pairwise fun a b => a.id ≠ b.id ∧ a.sequence ≠ b.sequence := by
  induction grows with
  | nil => exact ⟨by simp, .nil⟩
  | @cons t grown r rest fits next ih =>
    obtain ⟨free, apart⟩ := ih
    have later (x : Revision) (member : x ∈ rest) :
        (t.sequenceOf? x.id.text = none ∧ t.get? x.sequence = none) ∧
          r.id ≠ x.id ∧ r.sequence ≠ x.sequence := by
      obtain ⟨freeId, freeSequence⟩ := free x member
      rw [sequenceLink] at freeId
      rw [getLink] at freeSequence
      split at freeId <;> try contradiction
      rename_i text
      split at freeSequence <;> try contradiction
      rename_i sequence
      exact ⟨⟨freeId, freeSequence⟩, fun same => text (congrArg _ same.symm), Ne.symm sequence⟩
    refine ⟨List.forall_mem_cons.mpr ⟨⟨fits.freeId, fits.freeSequence⟩, ?_⟩, ?_⟩
    · intro x member
      exact (later x member).1
    · exact List.pairwise_cons.mpr ⟨fun x member => (later x member).2, apart⟩

theorem parentOfChosen (t : RevisionTree) (c : Int) :
    t.chooseWinner.parentOf c = t.parentOf c := by
  unfold parentOf
  rw [getChosen, Option.bind_map]
  rfl

theorem sortedCurrent {nodes : Dict Int Node} (sorted : nodes.Sorted) (chosen : Option Int)
    (current : Bool) : (setCurrent nodes chosen current).Sorted := by
  unfold setCurrent
  split
  · exact sorted
  · exact Dict.sortedAdjust sorted _ _

theorem wellFormedChosen {t : RevisionTree} (wf : t.WellFormed) : t.chooseWinner.WellFormed where
  nodesSorted := sortedCurrent (sortedCurrent wf.nodesSorted _ _) _ _
  indexSorted := wf.indexSorted
  own s r found := by
    obtain ⟨old, before, rfl⟩ := chosenIff.mp found
    exact wf.own s old before
  indexed id s := by
    rw [sequenceChosen, wf.indexed]
    constructor
    · intro h
      obtain ⟨old, before, text⟩ := h
      exact ⟨_, chosenIff.mpr ⟨old, before, rfl⟩, text⟩
    · intro h
      obtain ⟨r, found, text⟩ := h
      obtain ⟨old, before, rfl⟩ := chosenIff.mp found
      exact ⟨old, before, text⟩
  linked s r found child := by
    obtain ⟨old, before, rfl⟩ := chosenIff.mp found
    obtain ⟨p, parent, rest⟩ := wf.linked s old before child
    exact ⟨_, chosenIff.mpr ⟨p, parent, rfl⟩, rest⟩
  children s c := by
    rw [childrenChosen, parentOfChosen]
    exact wf.children s c
  childrenOnce s := by
    rw [childrenChosen]
    exact wf.childrenOnce s
  roots s := by
    rw [rootsChosen, wf.roots]
    constructor
    · intro h
      obtain ⟨old, before, top⟩ := h
      exact ⟨_, chosenIff.mpr ⟨old, before, rfl⟩, top⟩
    · intro h
      obtain ⟨r, found, top⟩ := h
      obtain ⟨old, before, rfl⟩ := chosenIff.mp found
      exact ⟨old, before, top⟩
  rootsOnce := wf.rootsOnce

inductive ReachesRoot (t : RevisionTree) : Int → Prop where
  | root {s : Int} {r : Revision} (found : t.get? s = some r) (top : r.parent ≤ 0) :
      ReachesRoot t s
  | up {s p : Int} (edge : t.parentOf s = some p) (next : ReachesRoot t p) : ReachesRoot t s

theorem WellFormed.reachesRoot {t : RevisionTree} (wf : t.WellFormed) {s : Int} {r : Revision}
    (found : t.get? s = some r) : t.ReachesRoot s := by
  -- The generation of the node bounds the number of steps.
  induction steps : r.generation generalizing s r with
  | zero =>
    have positive := r.id.bounds.1
    unfold Revision.generation at steps
    omega
  | succ n ih =>
    by_cases child : 0 < r.parent
    · obtain ⟨p, parent, _, next⟩ := wf.linked s r found child
      exact .up (parentOfIff.mpr ⟨r, found, child, rfl⟩) (ih parent (by omega))
    · exact .root found (not_lt.mp child)

end RevisionTree
end RevForest
