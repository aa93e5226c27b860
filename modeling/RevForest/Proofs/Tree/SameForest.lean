import RevForest.Proofs.Tree.Winner

/-! Trees that hold the same forest and differ in their winners and flags only. What
fits one fits the other, and after the winner was chosen again they are one tree: so
it does not matter how often it was chosen on the way. -/
namespace RevForest

def Revision.unflagged (r : Revision) : Revision := { r with current := false }

namespace RevisionTree
variable {t u : RevisionTree}

structure SameForest (t u : RevisionTree) : Prop where
  document : t.document = u.document
  key : t.key = u.key
  index : t.index = u.index
  roots : t.roots = u.roots
  nodes : ∀ s, (t.get? s).map Revision.unflagged = (u.get? s).map Revision.unflagged
  children : ∀ s, t.childrenOf s = u.childrenOf s

theorem SameForest.symm (same : t.SameForest u) : u.SameForest t where
  document := same.document.symm
  key := same.key.symm
  index := same.index.symm
  roots := same.roots.symm
  nodes s := (same.nodes s).symm
  children s := (same.children s).symm

theorem sameForestChosen (t : RevisionTree) : t.SameForest t.chooseWinner where
  document := rfl
  key := rfl
  index := rfl
  roots := rfl
  nodes s := by
    rw [getChosen, Option.map_map]
    rfl
  children s := (childrenChosen t s).symm

namespace SameForest

theorem node (same : t.SameForest u) {s : Int} {r : Revision} (found : t.get? s = some r) :
    ∃ r', u.get? s = some r' ∧ r'.unflagged = r.unflagged := by
  have there := same.nodes s
  rw [found] at there
  exact Option.map_eq_some_iff.mp there.symm

theorem absent (same : t.SameForest u) {s : Int} (missing : t.get? s = none) : u.get? s = none := by
  have there := same.nodes s
  rw [missing] at there
  exact Option.map_eq_none_iff.mp there.symm

theorem sequence (same : t.SameForest u) (id : String) : t.sequenceOf? id = u.sequenceOf? id := by
  unfold sequenceOf?
  rw [same.index]

theorem fits (same : t.SameForest u) {r : Revision} (fits : t.Fits r) : u.Fits r where
  document := fits.document.trans same.document
  positive := fits.positive
  freeSequence := same.absent fits.freeSequence
  freeId := (same.sequence _).symm.trans fits.freeId
  parent child := by
    obtain ⟨p, found, next⟩ := fits.parent child
    obtain ⟨q, there, plain⟩ := same.node found
    have id : q.id = p.id :=
      show q.unflagged.id = p.unflagged.id from congrArg Revision.id plain
    refine ⟨q, there, ?_⟩
    unfold Revision.generation at next ⊢
    rw [id, next]

theorem link (same : t.SameForest u) {r : Revision} (fits : t.Fits r) :
    (t.link r).SameForest (u.link r) where
  document := same.document
  key := same.key
  index := by
    rw [linkShape, linkShape, same.index]
  roots := by
    rw [rootsLink, rootsLink, same.roots]
  nodes s := by
    rw [getLink, getLink]
    split
    · unfold settled
      rw [same.key]
    · exact same.nodes s
  children s := by
    rw [childrenLink fits, childrenLink (same.fits fits), same.children]

theorem grows {grown : RevisionTree} {chain : List Revision} (same : t.SameForest u)
    (grows : Grows t chain grown) : ∃ other, Grows u chain other ∧ grown.SameForest other := by
  induction grows generalizing u with
  | nil => exact ⟨u, .nil u, same⟩
  | cons fits next ih =>
    obtain ⟨other, grows, after⟩ := ih (same.link fits)
    exact ⟨other, .cons (same.fits fits) grows, after⟩

theorem leaf (same : t.SameForest u) {s : Int} {r : Revision} (leaf : t.LeafAt s r) :
    ∃ r', u.LeafAt s r' ∧ r'.unflagged = r.unflagged := by
  obtain ⟨r', found, plain⟩ := same.node leaf.1
  exact ⟨r', ⟨found, (same.children s).symm.trans leaf.2⟩, plain⟩

end SameForest

theorem rankUnflagged {a b : Revision} (plain : a.unflagged = b.unflagged) : a.rank = b.rank :=
  rankOfTag (show a.unflagged.id = b.unflagged.id from congrArg Revision.id plain)
    (show a.unflagged.deleted = b.unflagged.deleted from congrArg Revision.deleted plain)

theorem SameForest.best (same : t.SameForest u) {s : Int} (best : ∃ r, t.Best s r) :
    ∃ r, u.Best s r := by
  obtain ⟨r, leaf, above⟩ := best
  obtain ⟨r', leaf', plain⟩ := same.leaf leaf
  refine ⟨r', leaf', ?_⟩
  intro k x other
  obtain ⟨y, other', plain'⟩ := same.symm.leaf other
  have below := above k y other'
  unfold standing at below ⊢
  rw [rankUnflagged plain, ← rankUnflagged plain']
  exact below

theorem SameForest.bestLeaf (same : t.SameForest u) (sorted : t.nodes.Sorted)
    (sorted' : u.nodes.Sorted) : t.bestLeaf.map (·.1) = u.bestLeaf.map (·.1) := by
  refine Option.ext fun s => ?_
  rw [bestLeafIff sorted, bestLeafIff sorted']
  exact ⟨same.best, same.symm.best⟩

theorem nodeAt (t : RevisionTree) (s : Int) :
    t.nodes.find? s = (t.get? s).map fun r => ⟨r, t.childrenOf s⟩ := by
  unfold get? childrenOf
  cases t.nodes.find? s <;> rfl

theorem flagChosen (flagged : t.Flagged) {s : Int} {r : Revision} (found : t.get? s = some r) :
    t.flagAfter s r = decide (t.bestLeaf.map (·.1) = some s) := by
  unfold flagAfter
  have flag := flagged.flag s r found
  by_cases new : t.bestLeaf.map (·.1) = some s
  · simp [new]
  · by_cases old : t.winner = some s
    · simp [new, old]
    · simpa [new, old] using flag

theorem getChosenFlagged (flagged : t.Flagged) (s : Int) :
    t.chooseWinner.get? s = ((t.get? s).map Revision.unflagged).map fun r =>
      { r with current := decide (t.bestLeaf.map (·.1) = some s) } := by
  rw [getChosen, Option.map_map]
  cases found : t.get? s with
  | none => rfl
  | some r =>
    exact congrArg (fun flag => some { r with current := flag }) (flagChosen flagged found)

theorem SameForest.chosen (same : t.SameForest u) (wf : t.WellFormed) (wf' : u.WellFormed)
    (flagged : t.Flagged) (flagged' : u.Flagged) : t.chooseWinner = u.chooseWinner := by
  have best := same.bestLeaf wf.nodesSorted wf'.nodesSorted
  have nodes : t.chooseWinner.nodes = u.chooseWinner.nodes := by
    refine Dict.extFind (wellFormedChosen wf).nodesSorted (wellFormedChosen wf').nodesSorted ?_
    intro s
    rw [nodeAt, nodeAt, childrenChosen, childrenChosen, same.children, getChosenFlagged flagged,
      getChosenFlagged flagged', same.nodes, best]
  have winner : t.chooseWinner.winner = u.chooseWinner.winner := best
  unfold chooseWinner at nodes winner ⊢
  simp only [RevisionTree.mk.injEq]
  exact ⟨same.document, same.key, nodes, same.index, same.roots, winner⟩

theorem growsChosen {grown : RevisionTree} {chain : List Revision} (wf : t.WellFormed)
    (flagged : t.Flagged) (grows : Grows t chain grown) :
    ∃ after, Grows t.chooseWinner chain after ∧ grown.chooseWinner = after.chooseWinner := by
  obtain ⟨after, grows', same⟩ := (sameForestChosen t).grows grows
  have crowned := crownedChosen wf flagged
  refine ⟨after, grows', same.chosen (wellFormedGrows grows wf) ?_ ?_ ?_⟩
  · exact wellFormedGrows grows' (wellFormedChosen wf)
  · exact growsKeeps flaggedLink grows flagged
  · exact growsKeeps flaggedLink grows' crowned.flagged

theorem growsUnchosen {grown : RevisionTree} {chain : List Revision} (wf : t.WellFormed)
    (flagged : t.Flagged) (grows : Grows t.chooseWinner chain grown) :
    ∃ before, Grows t chain before ∧ grown.chooseWinner = before.chooseWinner := by
  obtain ⟨before, grows', same⟩ := (sameForestChosen t).symm.grows grows
  have crowned := crownedChosen wf flagged
  refine ⟨before, grows', same.chosen ?_ (wellFormedGrows grows' wf) ?_ ?_⟩
  · exact wellFormedGrows grows (wellFormedChosen wf)
  · exact growsKeeps flaggedLink grows crowned.flagged
  · exact growsKeeps flaggedLink grows' flagged

theorem growsRebuilt {d : DocumentId} {key : Int} {stored chain : List Revision}
    {last : RevisionTree} (grows : Grows (.empty d key) stored t) (more : Grows t chain last) :
    ∃ after, Grows t.chooseWinner chain after ∧ last.chooseWinner = after.chooseWinner :=
  growsChosen (wellFormedGrows grows (emptyWellFormed d key))
    (growsKeeps flaggedLink grows (emptyCrowned d key).flagged) more

end RevisionTree
end RevForest
