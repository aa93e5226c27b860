import RevForest.Proofs.Tree.Lineage

/-! The ancestors of a revision, as the walk from it meets them in a tree that was built or written
with fresh sequences: each the parent of the one before, one generation lower, up to a root.
They are a history that every tree takes for the revision. A tree where one sequence was
given twice has walks without an end. -/
namespace RevForest
namespace RevisionTree
variable {t : RevisionTree} {s : Int} {id : RevisionId} {met path : List RevisionId} {turns : Nat}

structure Ancestry (t : RevisionTree) (id : RevisionId) (path : List RevisionId) : Prop where
  start : path.head? = some id
  once : path.Nodup
  generations : path.IsChain fun a b => b.generation + 1 = a.generation
  parents : path.IsChain fun a b => ∃ s p, t.sequenceOf? a.text = some s ∧
    t.parentOf s = some p ∧ t.sequenceOf? b.text = some p
  root : ∃ top s, path.getLast? = some top ∧ t.sequenceOf? top.text = some s ∧ s ∈ t.roots

theorem WellFormed.aboveParentOf (wf : t.WellFormed) {a b : RevisionId}
    (above : t.above a = some b) : ∃ s p, t.sequenceOf? a.text = some s ∧
      t.parentOf s = some p ∧ t.sequenceOf? b.text = some p := by
  obtain ⟨s, r, q, found, rfl, child, parent, rfl⟩ := wf.aboveEdge above
  exact ⟨s, r.parent, (wf.indexed _ s).mpr ⟨r, found, rfl⟩,
    parentOfIff.mpr ⟨r, found, child, rfl⟩, (wf.indexed _ _).mpr ⟨q, parent, rfl⟩⟩

theorem WellFormed.topRoot (wf : t.WellFormed) {r : Revision} (found : t.get? s = some r)
    (top : t.above r.id = none) : s ∈ t.roots := by
  refine (wf.roots s).mpr ⟨r, found, not_lt.mp ?_⟩
  intro child
  obtain ⟨p, parent, _⟩ := wf.linked s r found child
  cases top.symm.trans (wf.aboveParent found child parent)

theorem WellFormed.pathAncestry (wf : t.WellFormed) {ids : List RevisionId}
    (path : wf.forest.Path id ids) (inside : t.HasId id) : t.Ancestry id ids where
  start := path.head
  once := path.once
  generations := path.descends.2
  parents := path.climbs.1.imp fun _ _ above => wf.aboveParentOf above
  root := by
    have some : ids ≠ [] := List.ne_nil_of_mem (List.mem_of_mem_head? path.head)
    have last := List.getLast?_eq_some_getLast some
    obtain ⟨s, r, found, own⟩ :=
      followsPath wf.followsForest path inside _ (List.getLast_mem some)
    rw [← own] at last
    exact ⟨r.id, s, last, (wf.indexed _ s).mpr ⟨r, found, rfl⟩,
      wf.topRoot found (path.climbs.2 r.id last)⟩

/-- The walk from a revision ends at its root, and what it met is a history of the revision. -/
theorem reachableAncestry {document : DocumentId} {key : Int}
    (reachable : Reachable document key t) {id : RevisionId}
    (inside : t.contains id.text = true) :
    ∃ s path, t.sequenceOf? id.text = some s ∧ t.Ascends s [] path.length .root path ∧
      path.length ≤ t.size ∧ t.history id.text = .ok path ∧ t.Ancestry id path ∧
      ∀ replica : RevisionTree, replica.validateHistory id path = .ok path := by
  have wf := reachable.wellFormed
  obtain ⟨s, here⟩ : ∃ s, t.sequenceOf? id.text = some s := Option.isSome_iff_exists.mp inside
  obtain ⟨r, found, text⟩ := (wf.indexed _ s).mp here
  obtain rfl := RevisionId.ext_text text
  obtain ⟨path, ascends, short, walked, up⟩ := wf.walkEnds found
  refine ⟨s, path, here, ascends, short, walked, wf.pathAncestry up ⟨s, r, found, rfl⟩, ?_⟩
  intro replica
  exact validateHistoryIff.mpr ⟨up.history.symm, up.descends⟩

-- A branch of four, on which the sequences fall and rise.
namespace Sample

def branch : List RevisionId := [descendant, grandchild, child, root]

end Sample

theorem branchAncestry :
    Reachable Sample.document 7 Sample.tree ∧
      Sample.tree.contains Sample.descendant.text = true ∧
      Sample.tree.Ascends 3 [] 4 .root Sample.branch ∧
      Sample.tree.Ancestry Sample.descendant Sample.branch ∧
      ∀ replica : RevisionTree,
        replica.validateHistory Sample.descendant Sample.branch = .ok Sample.branch := by
  have inside : Sample.tree.contains Sample.descendant.text = true := by decide +kernel
  obtain ⟨s, path, here, ascends, _, walked, ancestry, taken⟩ :=
    reachableAncestry Sample.reachable inside
  have place : Sample.tree.sequenceOf? Sample.descendant.text = some 3 := by decide +kernel
  have whole : Sample.tree.history Sample.descendant.text = .ok Sample.branch := by
    decide +kernel
  cases place.symm.trans here
  cases whole.symm.trans walked
  exact ⟨Sample.reachable, inside, ascends, ancestry, taken⟩

/-- The walk has no bound of its own: it does not leave a node that is its own parent. -/
theorem endlessAtOwnParent (own : t.parentOf s = some s) (stop : Stop) :
    ¬ t.Ascends s met turns stop path := by
  intro ascends
  induction ascends with
  | missing absent =>
    obtain ⟨r, found, _⟩ := parentOfIff.mp own
    cases absent.symm.trans found
  | root found top =>
    obtain ⟨r, here, child, _⟩ := parentOfIff.mp own
    cases here.symm.trans found
    exact (notRootIff _).mpr child top
  | up found child next ih =>
    obtain ⟨r, here, _, same⟩ := parentOfIff.mp own
    cases here.symm.trans found
    exact ih (same.symm ▸ own)

-- A chain whose commits gave one sequence twice has such a node.
example (stop : Stop) : ¬ (Sample.given [5, 5]).Ascends 5 met turns stop path :=
  endlessAtOwnParent (by decide +kernel) stop

end RevisionTree
end RevForest
