import RevForest.Proofs.Tree.Accepted
import RevForest.Proofs.Tree.Leaves
import RevForest.Proofs.Tree.SameForest

/-! What a local edit does to the winner. The new revision takes the winner's place among
the leaves, one generation above it, and all other leaves were no better than the
winner. So a live revision wins, a deleted one wins over a deleted winner, and else the
best of the leaves that are left wins, whatever branches there are. -/
namespace RevForest.RevisionTree
variable {t grown : RevisionTree} {r x w : Revision} {named : Option RevisionId} {s k : Int}

structure Ranked (t : RevisionTree) : Prop where
  sorted : t.nodes.Sorted
  best : ∀ s, t.winner = some s ↔ ∃ r, t.Best s r

theorem rankedEmpty (document : DocumentId) (key : Int) : (empty document key).Ranked :=
  ⟨Dict.sortedEmpty, (emptyCrowned document key).best⟩

theorem rankedChosen (sorted : t.nodes.Sorted) : t.chooseWinner.Ranked where
  sorted := sortedCurrent (sortedCurrent sorted _ _) _ _
  best s := by rw [bestChosen, winnerChosen, bestLeafIff sorted]

theorem Ranked.current (ranked : t.Ranked) : t.current? = some w ↔ ∃ s, t.Best s w := by
  rw [currentIff]
  constructor
  · rintro ⟨s, won, found⟩
    obtain ⟨b, best⟩ := (ranked.best s).mp won
    cases found.symm.trans best.1.1
    exact ⟨s, best⟩
  · rintro ⟨s, best⟩
    exact ⟨s, (ranked.best s).mpr ⟨w, best⟩, best.1.1⟩

theorem Ranked.bare (ranked : t.Ranked) (none : t.current? = none) : ¬ t.LeafAt s x := by
  intro leaf
  obtain ⟨k, b, best⟩ := someBest ranked.sorted leaf
  rw [ranked.current.mpr ⟨k, best⟩] at none
  cases none

def RivalAt (t : RevisionTree) (s : Int) (r : Revision) : Prop := t.LeafAt s r ∧ t.winner ≠ some s

inductive Place (t : RevisionTree) (named : Option RevisionId) (r : Revision) : Prop where
  | alone (unnamed : named = none) (bare : t.current? = none) (root : r.parent ≤ 0)
      (first : r.generation = 1) : Place t named r
  | below {w : Revision} {s : Int} (won : t.winner = some s) (found : t.get? s = some w)
      (positive : 0 < s) (child : r.parent = s) (next : r.generation = w.generation + 1)
      (licensed : named = some w.id ∨ named = none ∧ w.deleted = true) : Place t named r

namespace Place

theorem leaf (place : t.Place named r) (ranked : t.Ranked) (fits : t.Fits r) :
    (t.link r).LeafAt s x ↔ (s = r.sequence ∧ t.settled r = x) ∨ t.RivalAt s x := by
  rw [leafLink fits]
  refine or_congr_right (and_congr_right fun leaf => ?_)
  cases place with
  | alone _ bare => exact absurd leaf (ranked.bare bare)
  | @below w k won found positive child =>
    rw [won, child]
    simp [positive, eq_comm]

theorem above (place : t.Place named r) (ranked : t.Ranked) (leaf : t.LeafAt s x)
    (better : ∀ w, t.current? = some w → r.deleted = true → w.deleted = true) :
    x.rank < r.rank := by
  cases place with
  | alone _ bare => exact absurd leaf (ranked.bare bare)
  | @below w k won found _ _ next =>
    have status := better w (currentIff.mpr ⟨k, won, found⟩)
    obtain ⟨b, best⟩ := (ranked.best k).mp won
    cases found.symm.trans best.1.1
    refine lt_of_le_of_lt (standingRank (best.2 s x leaf)) ((Revision.outranksIff r w).mp ?_)
    unfold Revision.outranks
    by_cases same : r.deleted = w.deleted
    · simp [same, next]
    · cases new : r.deleted <;> cases old : w.deleted <;> simp_all

theorem best (place : t.Place named r) (ranked : t.Ranked) (fits : t.Fits r)
    (better : ∀ w, t.current? = some w → r.deleted = true → w.deleted = true) :
    (t.link r).Best r.sequence (t.settled r) := by
  refine ⟨(place.leaf ranked fits).mpr (.inl ⟨rfl, rfl⟩), ?_⟩
  intro k x leaf
  rcases (place.leaf ranked fits).mp leaf with ⟨rfl, rfl⟩ | rival
  · exact le_rfl
  · exact (standingLe _ _).mpr (.inl (place.above ranked rival.1 better))

end Place

structure Succession (t : RevisionTree) (named : Option RevisionId) (r : Revision)
    (grown : RevisionTree) : Prop where
  owner : grown.document = t.document
  place : t.Place named r
  new : t.get? r.sequence = none
  node : (grown.get? r.sequence).map Revision.unflagged = some r.unflagged
  others : ∀ s, s ≠ r.sequence →
    (grown.get? s).map Revision.unflagged = (t.get? s).map Revision.unflagged
  child : ∀ s, t.winner = some s → grown.childrenOf s = [r.sequence]
  leaves : ∀ s y, (∃ x, grown.LeafAt s x ∧ x.unflagged = y) ↔
    (s = r.sequence ∧ r.unflagged = y) ∨ ∃ x, t.RivalAt s x ∧ x.unflagged = y
  winner : ∃ s x, grown.winner = some s ∧ grown.Best s x
  live : r.deleted = false → grown.winner = some r.sequence
  ended : (∀ w, t.current? = some w → w.deleted = true) → grown.winner = some r.sequence
  rival : r.deleted = true → (∃ s x, t.RivalAt s x ∧ x.deleted = false) →
    ∃ s x, grown.winner = some s ∧ t.RivalAt s x ∧ x.deleted = false

theorem Place.succeeds (place : t.Place named r) (ranked : t.Ranked) (fits : t.Fits r)
    (settled : t.settled r = r.unflagged) :
    t.Succession named r (t.link r).chooseWinner := by
  have sorted := sortedLink ranked.sorted r
  have chosen (s : Int) := bestLeafIff sorted s
  have wins (better : ∀ w, t.current? = some w → r.deleted = true → w.deleted = true) :
      (t.link r).chooseWinner.winner = some r.sequence :=
    (chosen _).mpr ⟨_, place.best ranked fits better⟩
  have unflagged (s : Int) : ((t.link r).chooseWinner.get? s).map Revision.unflagged =
      ((t.link r).get? s).map Revision.unflagged := ((sameForestChosen (t.link r)).nodes s).symm
  have leaf (s : Int) (y : Revision) :
      (∃ x, (t.link r).chooseWinner.LeafAt s x ∧ x.unflagged = y) ↔
        ∃ x, (t.link r).LeafAt s x ∧ x.unflagged = y := by
    constructor
    · rintro ⟨x, after, rfl⟩
      obtain ⟨old, before, rfl⟩ := leafChosen.mp after
      exact ⟨old, before, rfl⟩
    · rintro ⟨x, before, rfl⟩
      exact ⟨_, leafChosen.mpr ⟨x, before, rfl⟩, rfl⟩
  have newLeaf := (place.leaf ranked fits).mpr (.inl ⟨rfl, rfl⟩)
  constructor
  case owner => rfl
  case place => exact place
  case new => exact fits.freeSequence
  case node =>
    rw [unflagged, getLink, if_pos rfl, settled]
    rfl
  case others =>
    intro s other
    rw [unflagged, getLink, if_neg other]
  case child =>
    intro s won
    obtain ⟨w, best⟩ := (ranked.best s).mp won
    rw [childrenChosen, childrenLink fits, best.1.2]
    cases place with
    | alone _ bare => exact absurd best.1 (ranked.bare bare)
    | below won' _ positive child =>
      cases won.symm.trans won'
      rw [if_pos ⟨child ▸ positive, child.symm⟩]
      rfl
  case leaves =>
    intro s y
    rw [leaf]
    constructor
    · rintro ⟨x, before, rfl⟩
      rcases (place.leaf ranked fits).mp before with ⟨here, rfl⟩ | rival
      · exact .inl ⟨here, by rw [settled]; rfl⟩
      · exact .inr ⟨x, rival, rfl⟩
    · rintro (⟨here, rfl⟩ | ⟨x, rival, rfl⟩)
      · exact ⟨_, (place.leaf ranked fits).mpr (.inl ⟨here, rfl⟩), by rw [settled]; rfl⟩
      · exact ⟨x, (place.leaf ranked fits).mpr (.inr rival), rfl⟩
  case winner =>
    obtain ⟨s, x, best⟩ := someBest sorted newLeaf
    obtain ⟨y, best'⟩ := (bestChosen s).mpr ⟨x, best⟩
    exact ⟨s, y, (chosen s).mpr ⟨x, best⟩, best'⟩
  case live =>
    intro live
    refine wins fun w _ dead => ?_
    rw [live] at dead
    cases dead
  case ended => exact fun ended => wins fun w current _ => ended w current
  case rival =>
    rintro dead ⟨k, y, rival, live⟩
    obtain ⟨s, x, best⟩ := someBest sorted newLeaf
    have alive := best.live ⟨(place.leaf ranked fits).mpr (.inr rival), live⟩
    rcases (place.leaf ranked fits).mp best.1 with ⟨_, rfl⟩ | other
    · exact absurd (dead.symm.trans alive) (by decide)
    · exact ⟨s, x, (chosen s).mpr ⟨x, best⟩, other, alive⟩

variable {digest : ContentDigest} {body : DocumentBody} {attachments : AttachmentMap}
  {deleted : Bool}

theorem draftRoot (ok : t.draft digest none body attachments deleted = .ok r) :
    r.generation = 1 :=
  RevisionId.ofPartsGeneration (draftIff.mp ok).2.1

theorem Extended.place {above : Option Int} (extended : t.Extended named above)
    (positive : ∀ s x, t.get? s = some x → 0 < s)
    (ok : t.draft digest above body attachments deleted = .ok r) (q : Int) :
    t.Place named { r with sequence := q } := by
  obtain ⟨shape, _, next⟩ := draftOk ok
  have parent : r.parent = above.getD noParent := by
    rw [shape]
    rfl
  cases extended with
  | nothing unnamed bare =>
    have first := draftRoot ok
    exact .alone unnamed bare (by rw [parent]; decide) first
  | @winner w s won found ended same =>
    refine .below won found (positive s w found) parent (next w found).symm ?_
    cases named with
    | none => exact .inr ⟨rfl, ended rfl⟩
    | some p => exact .inl (congrArg some (same p rfl).symm)

structure Inserted (t : RevisionTree) (named : Option RevisionId) (body : DocumentBody)
    (attachments : AttachmentMap) (deleted : Bool) (sequence : Int) (grown : RevisionTree)
    (r : Revision) : Prop extends Succession t named r grown where
  sequence : r.sequence = sequence
  document : r.document = t.document
  body : r.body = body
  attachments : r.attachments = attachments
  status : r.deleted = deleted

theorem Ranked.inserted {σ : Type} {commit : Commit σ} {s s' : σ} {report : InsertReport}
    (ranked : t.Ranked) (positive : ∀ s x, t.get? s = some x → 0 < s)
    (extends' : ∀ above, t.editParent named = .ok above → t.Extended named above)
    (ran : t.insertLocalEdit digest commit named body attachments deleted s =
      (.ok (grown, report), s')) :
    ∃ r, t.Inserted named body attachments deleted report.sequence grown r := by
  unfold insertLocalEdit at ran
  cases above : t.editParent named with
  | error e => simp [above] at ran
  | ok parent =>
    simp only [above] at ran
    obtain ⟨draft, x, drafted, committed, placed⟩ := insertChildOk ran
    obtain ⟨fits, rfl, sequence⟩ := placeOk placed
    have shape := (draftOk drafted).1
    have new : draft.sequence = unassigned := by
      rw [shape]
      rfl
    rw [Commit.runNew _ new] at committed
    cases asked : (commit draft s).1 with
    | error e => simp [asked, Except.map] at committed
    | ok given =>
      rw [asked] at committed
      cases committed
      have place := (extends' parent above).place positive drafted (given.getD unassigned)
      have settled : t.settled { draft with sequence := given.getD unassigned } =
          Revision.unflagged { draft with sequence := given.getD unassigned } := by
        rw [shape]
        rfl
      refine ⟨_, { place.succeeds ranked fits settled with
        sequence := sequence.symm, document := fits.document, body := ?_, attachments := ?_,
        status := ?_ }⟩
      all_goals
        rw [shape]
        rfl

theorem editInserted {σ : Type} {commit : Commit σ} {s s' : σ} {report : InsertReport}
    (wf : t.WellFormed) (crowned : t.Crowned)
    (ran : t.insertLocalEdit digest commit named body attachments deleted s =
      (.ok (grown, report), s')) :
    ∃ r, t.Inserted named body attachments deleted report.sequence grown r :=
  Ranked.inserted ⟨wf.nodesSorted, crowned.best⟩ (fun s x found => (wf.own s x found).2.1)
    (fun _ => editParentExtends wf crowned) ran

end RevForest.RevisionTree
