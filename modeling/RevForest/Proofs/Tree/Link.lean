import RevForest.Proofs.Dict
import RevForest.Tree.Link

/-! What a tree reads after a revision was linked and after the winner was chosen
again. Linking adds one leaf and one entry to the list of a parent or of the
roots. Choosing the winner moves a flag and nothing else. `Fits` is the check of a
revision said on its own, and `Grows` is a chain of fitting revisions. -/
namespace RevForest

theorem sortPairwise (rs : List Revision) :
    (Revision.sortBySequence rs).Pairwise fun a b => a.sequence ≤ b.sequence := by
  have sorted : (Revision.sortBySequence rs).Pairwise fun a b =>
      decide (a.sequence ≤ b.sequence) = true := by
    refine List.pairwise_mergeSort ?_ ?_ rs
    · intro a b c first second
      simp only [decide_eq_true_eq] at *
      omega
    · intro a b
      simp only [Bool.or_eq_true, decide_eq_true_eq]
      omega
  simpa using sorted

theorem sortPerm (rs : List Revision) : (Revision.sortBySequence rs).Perm rs :=
  List.mergeSort_perm rs _

theorem apartSorted {rs : List Revision}
    (apart : (Revision.sortBySequence rs).Pairwise fun a b => a.id ≠ b.id) :
    (rs.map (·.id)).Nodup :=
  ((sortPerm rs).map _).nodup_iff.mp (List.pairwise_map.mpr apart)

theorem sortSorted {rs : List Revision} (sorted : rs.Pairwise fun a b => a.sequence ≤ b.sequence) :
    Revision.sortBySequence rs = rs := by
  refine List.mergeSort_of_pairwise (sorted.imp ?_)
  intro a b before
  simpa using before

namespace RevisionTree

def settled (t : RevisionTree) (r : Revision) : Revision :=
  { r with current := false, key := t.key, dirty := false }

structure Fits (t : RevisionTree) (r : Revision) : Prop where
  document : r.document = t.document
  positive : 0 < r.sequence
  freeSequence : t.get? r.sequence = none
  freeId : t.sequenceOf? r.id.text = none
  parent : 0 < r.parent → ∃ p, t.get? r.parent = some p ∧ p.generation + 1 = r.generation

theorem getNode (t : RevisionTree) (s : Int) :
    t.get? s = none ↔ t.nodes.find? s = none := by
  unfold get?
  simp

theorem isRootIff (r : Revision) : r.isRoot = true ↔ r.parent ≤ 0 := by
  unfold Revision.isRoot
  simp

theorem notRootIff (r : Revision) : ¬ r.isRoot = true ↔ 0 < r.parent := by
  rw [isRootIff]
  omega

theorem parentOfIff {t : RevisionTree} {s p : Int} :
    t.parentOf s = some p ↔ ∃ r, t.get? s = some r ∧ 0 < r.parent ∧ r.parent = p := by
  unfold parentOf
  cases found : t.get? s with
  | none => simp
  | some r =>
    by_cases root : r.isRoot = true
    · have low := (isRootIff r).mp root
      simp [root]
      omega
    · have high := (notRootIff r).mp root
      simp [root, high]

theorem checkedLink {t : RevisionTree} {parentGeneration : Int → Option Nat} {r : Revision}
    (ok : t.checkLink parentGeneration r = .ok ()) :
    r.document = t.document ∧ 0 < r.sequence ∧ t.get? r.sequence = none ∧
      t.sequenceOf? r.id.text = none ∧
      (0 < r.parent → ∃ g, parentGeneration r.parent = some g ∧ g + 1 = r.generation) := by
  unfold checkLink at ok
  split at ok <;> try contradiction
  rename_i document
  split at ok <;> try contradiction
  rename_i sequenced
  split at ok <;> try contradiction
  rename_i sequence
  split at ok <;> try contradiction
  rename_i id
  refine ⟨by simpa using document, by simpa [Revision.isSequenced] using sequenced, ?_, ?_, ?_⟩
  · rw [getNode]
    simpa [Dict.notContains] using sequence
  · simpa [contains, Dict.notContains, sequenceOf?] using id
  · intro child
    rw [if_neg ((notRootIff r).mpr child)] at ok
    split at ok <;> try contradiction
    rename_i g known
    split at ok <;> try contradiction
    rename_i next
    exact ⟨g, known, next⟩

theorem checkLinkOk {t : RevisionTree} {parentGeneration : Int → Option Nat} {r : Revision}
    (document : r.document = t.document) (positive : 0 < r.sequence)
    (freeSequence : t.get? r.sequence = none) (freeId : t.sequenceOf? r.id.text = none)
    (parent : 0 < r.parent → ∃ g, parentGeneration r.parent = some g ∧ g + 1 = r.generation) :
    t.checkLink parentGeneration r = .ok () := by
  have sequence : t.nodes.contains r.sequence = false := by
    rw [Dict.notContains, ← getNode]
    exact freeSequence
  have id : t.contains r.id.text = false := by
    unfold contains
    rw [Dict.notContains]
    exact freeId
  unfold checkLink
  rw [if_neg (by simp [document]), if_neg (by simp [Revision.isSequenced, positive]),
    if_neg (by simp [sequence]), if_neg (by simp [id])]
  by_cases root : r.isRoot = true
  · rw [if_pos root]
  · obtain ⟨g, known, next⟩ := parent ((notRootIff r).mp root)
    rw [if_neg root, known]
    simp [next]

theorem checkLinkIff {t : RevisionTree} {parentGeneration : Int → Option Nat} {r : Revision} :
    t.checkLink parentGeneration r = .ok () ↔
      r.document = t.document ∧ 0 < r.sequence ∧ t.get? r.sequence = none ∧
        t.sequenceOf? r.id.text = none ∧
        (0 < r.parent → ∃ g, parentGeneration r.parent = some g ∧ g + 1 = r.generation) := by
  constructor
  · exact checkedLink
  · intro all
    obtain ⟨document, positive, freeSequence, freeId, parent⟩ := all
    exact checkLinkOk document positive freeSequence freeId parent

theorem generationIff {t : RevisionTree} {s : Int} {g : Nat} :
    t.generation? s = some g ↔ ∃ p, t.get? s = some p ∧ p.generation = g := by
  unfold generation?
  exact Option.map_eq_some_iff

theorem fitsIff {t : RevisionTree} {r : Revision} :
    t.Fits r ↔ t.checkLink t.generation? r = .ok () := by
  rw [checkLinkIff]
  constructor
  · intro fits
    refine ⟨fits.document, fits.positive, fits.freeSequence, fits.freeId, ?_⟩
    intro child
    obtain ⟨p, found, next⟩ := fits.parent child
    exact ⟨p.generation, generationIff.mpr ⟨p, found, rfl⟩, next⟩
  · intro h
    obtain ⟨document, positive, freeSequence, freeId, parent⟩ := h
    refine ⟨document, positive, freeSequence, freeId, ?_⟩
    intro child
    obtain ⟨g, known, next⟩ := parent child
    obtain ⟨p, found, same⟩ := generationIff.mp known
    exact ⟨p, found, by rw [same, next]⟩

theorem attachIff {t u : RevisionTree} {r : Revision} :
    t.attach r = .ok u ↔ t.Fits r ∧ u = t.link r := by
  unfold attach
  rw [fitsIff]
  cases done : t.checkLink t.generation? r with
  | error e => simp [bind, Except.bind]
  | ok _ => simp [bind, Except.bind, eq_comm]

theorem linkShape (t : RevisionTree) (r : Revision) :
    t.link r =
      { t with
        roots := if 0 < r.parent then t.roots else t.roots ++ [r.sequence]
        nodes :=
          (if 0 < r.parent then
            t.nodes.adjust r.parent fun n => { n with children := n.children ++ [r.sequence] }
          else t.nodes).insert r.sequence ⟨t.settled r, []⟩
        index := t.index.insert r.id.text r.sequence } := by
  unfold link settled
  simp only [isRootIff]
  by_cases child : 0 < r.parent
  · have notRoot : ¬ r.parent ≤ 0 := by omega
    simp only [if_pos child, if_neg notRoot]
  · have root : r.parent ≤ 0 := by omega
    simp only [if_neg child, if_pos root]

theorem getLink (t : RevisionTree) (r : Revision) (s : Int) :
    (t.link r).get? s = if s = r.sequence then some (t.settled r) else t.get? s := by
  rw [linkShape]
  unfold get?
  simp only [Dict.findInsert]
  split
  · rfl
  · split
    · rw [Dict.findAdjust]
      split
      · rename_i parent
        rw [parent, Option.map_map]
        rfl
      · rfl
    · rfl

theorem sequenceLink (t : RevisionTree) (r : Revision) (id : String) :
    (t.link r).sequenceOf? id = if id = r.id.text then some r.sequence else t.sequenceOf? id := by
  rw [linkShape]
  exact Dict.findInsert t.index r.id.text r.sequence id

theorem rootsLink (t : RevisionTree) (r : Revision) :
    (t.link r).roots = if 0 < r.parent then t.roots else t.roots ++ [r.sequence] := by
  rw [linkShape]

theorem childrenNone {t : RevisionTree} {s : Int} (absent : t.get? s = none) :
    t.childrenOf s = [] := by
  unfold childrenOf
  rw [(getNode t s).mp absent]
  rfl

theorem childrenLink {t : RevisionTree} {r : Revision} (fits : t.Fits r) (s : Int) :
    (t.link r).childrenOf s =
      if 0 < r.parent ∧ s = r.parent then t.childrenOf s ++ [r.sequence] else t.childrenOf s := by
  have other : 0 < r.parent → r.parent ≠ r.sequence := by
    intro child same
    obtain ⟨p, found, _⟩ := fits.parent child
    rw [same, fits.freeSequence] at found
    contradiction
  by_cases new : s = r.sequence
  · have fresh : t.childrenOf s = [] := childrenNone (new ▸ fits.freeSequence)
    rw [if_neg (fun both => other both.1 (both.2.symm.trans new)), fresh, linkShape]
    unfold childrenOf
    simp only [Dict.findInsert, if_pos new]
    rfl
  · rw [linkShape]
    unfold childrenOf
    simp only [Dict.findInsert, if_neg new]
    by_cases child : 0 < r.parent
    · obtain ⟨p, found, _⟩ := fits.parent child
      obtain ⟨n, node, _⟩ := Option.map_eq_some_iff.mp found
      rw [if_pos child, Dict.findAdjust]
      by_cases here : s = r.parent
      · rw [if_pos here, if_pos ⟨child, here⟩, here, node]
        rfl
      · rw [if_neg here, if_neg (fun both => here both.2)]
    · rw [if_neg child, if_neg (fun both => child both.1)]

@[simp] theorem winnerLink (t : RevisionTree) (r : Revision) : (t.link r).winner = t.winner := rfl

theorem findCurrent (nodes : Dict Int Node) (chosen : Option Int) (current : Bool) (s : Int) :
    (setCurrent nodes chosen current).find? s =
      if chosen = some s then
        (nodes.find? s).map fun n => { n with revision := { n.revision with current } }
      else nodes.find? s := by
  unfold setCurrent
  cases chosen with
  | none => simp
  | some k =>
    rw [Dict.findAdjust]
    by_cases here : s = k
    · simp [here]
    · simp [here, Ne.symm here]

def flagAfter (t : RevisionTree) (s : Int) (r : Revision) : Bool :=
  if t.bestLeaf.map (·.1) = some s then true
  else if t.winner = some s then false
  else r.current

theorem getChosen (t : RevisionTree) (s : Int) :
    t.chooseWinner.get? s = (t.get? s).map fun r => { r with current := t.flagAfter s r } := by
  unfold get? chooseWinner flagAfter
  simp only [findCurrent]
  split <;> split <;> simp [Option.map_map, Function.comp_def]

theorem chosenIff {t : RevisionTree} {s : Int} {r : Revision} :
    t.chooseWinner.get? s = some r ↔
      ∃ old, t.get? s = some old ∧ { old with current := t.flagAfter s old } = r := by
  rw [getChosen, Option.map_eq_some_iff]

theorem childrenChosen (t : RevisionTree) (s : Int) :
    t.chooseWinner.childrenOf s = t.childrenOf s := by
  unfold childrenOf chooseWinner
  simp only [findCurrent]
  split <;> split <;> simp [Option.map_map, Function.comp_def]

@[simp] theorem sequenceChosen (t : RevisionTree) (id : String) :
    t.chooseWinner.sequenceOf? id = t.sequenceOf? id := rfl

@[simp] theorem rootsChosen (t : RevisionTree) : t.chooseWinner.roots = t.roots := rfl

@[simp] theorem winnerChosen (t : RevisionTree) :
    t.chooseWinner.winner = t.bestLeaf.map (·.1) := rfl

inductive Grows : RevisionTree → List Revision → RevisionTree → Prop where
  | nil (t : RevisionTree) : Grows t [] t
  | cons {t grown : RevisionTree} {r : Revision} {rest : List Revision}
      (fits : t.Fits r) (next : Grows (t.link r) rest grown) : Grows t (r :: rest) grown

theorem growsFold {t grown : RevisionTree} {chain : List Revision} (grows : Grows t chain grown) :
    grown = chain.foldl link t := by
  induction grows with
  | nil => rfl
  | cons fits next ih => exact ih

theorem growsAppend {t grown : RevisionTree} {chain rest : List Revision} :
    Grows t (chain ++ rest) grown ↔ ∃ u, Grows t chain u ∧ Grows u rest grown := by
  induction chain generalizing t with
  | nil =>
    constructor
    · exact fun grows => ⟨t, .nil t, grows⟩
    · rintro ⟨_, ⟨⟩, later⟩
      exact later
  | cons r chain ih =>
    constructor
    · rintro (_ | ⟨fits, next⟩)
      obtain ⟨u, first, later⟩ := ih.mp next
      exact ⟨u, .cons fits first, later⟩
    · rintro ⟨u, _ | ⟨fits, first⟩, later⟩
      exact .cons fits (ih.mpr ⟨u, first, later⟩)

theorem growsKeeps {P : RevisionTree → Prop} {t grown : RevisionTree} {chain : List Revision}
    (step : ∀ {t : RevisionTree} {r : Revision}, t.Fits r → P t → P (t.link r))
    (grows : Grows t chain grown) (start : P t) : P grown := by
  induction grows with
  | nil => exact start
  | cons fits next ih => exact ih (step fits start)

theorem attachAllIff {t grown : RevisionTree} {chain : List Revision} :
    chain.foldlM attach t = .ok grown ↔ Grows t chain grown := by
  induction chain generalizing t with
  | nil =>
    constructor
    · intro same
      cases same
      exact .nil _
    · intro grows
      cases grows
      rfl
  | cons r rest ih =>
    rw [List.foldlM_cons]
    constructor
    · intro done
      cases first : t.attach r with
      | error e => simp [first, bind, Except.bind] at done
      | ok u =>
        simp only [first, bind, Except.bind] at done
        obtain ⟨fits, same⟩ := attachIff.mp first
        exact .cons fits (same ▸ ih.mp done)
    · intro grows
      cases grows with
      | cons fits next =>
        rw [attachIff.mpr ⟨fits, rfl⟩]
        exact ih.mpr next

theorem ofRevisionsIff {document : DocumentId} {key : Int} {revisions : List Revision}
    {t : RevisionTree} :
    ofRevisions document key revisions = .ok t ↔
      ∃ grown, Grows (empty document key) (Revision.sortBySequence revisions) grown ∧
        t = grown.chooseWinner := by
  unfold ofRevisions
  simp only [← attachAllIff]
  cases done : (Revision.sortBySequence revisions).foldlM attach (empty document key) with
  | error e => simp [bind, Except.bind]
  | ok grown => simp [bind, Except.bind, eq_comm]

end RevisionTree
end RevForest
