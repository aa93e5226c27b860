import Mathlib.Data.List.Perm.Subperm
import RevForest.Proofs.Tree.Child

/-! The leaves after one more revision: it is a leaf itself and its parent is none any
more. So a deleted child ends one branch, a child of a live leaf takes its place, and
only a live child of an inner or a deleted node, or a live root, opens a branch. -/
namespace RevForest.RevisionTree
variable {t : RevisionTree} {r : Revision}

theorem leafLink (fits : t.Fits r) {s : Int} {x : Revision} :
    (t.link r).LeafAt s x ↔
      (s = r.sequence ∧ t.settled r = x) ∨ (t.LeafAt s x ∧ ¬ (0 < r.parent ∧ s = r.parent)) := by
  unfold LeafAt
  rw [getLink, childrenLink fits]
  by_cases new : s = r.sequence
  · have bare : t.childrenOf s = [] := childrenNone (new ▸ fits.freeSequence)
    have apart : ¬ (0 < r.parent ∧ s = r.parent) := by
      intro both
      exact fits.parentOther both.1 (both.2.symm.trans new)
    rw [if_pos new, if_neg apart, bare, new, fits.freeSequence]
    simp
  · rw [if_neg new]
    by_cases parent : 0 < r.parent ∧ s = r.parent
    · have other := fits.parentOther parent.1
      simp [parent, other]
    · simp [parent, new]

theorem activeLink (fits : t.Fits r) {s : Int} :
    (∃ x, (t.link r).chooseWinner.ActiveAt s x) ↔
      (s = r.sequence ∧ r.deleted = false) ∨
        ((∃ x, t.ActiveAt s x) ∧ ¬ (0 < r.parent ∧ s = r.parent)) := by
  unfold ActiveAt
  constructor
  · rintro ⟨x, leaf, live⟩
    obtain ⟨old, before, rfl⟩ := leafChosen.mp leaf
    rcases (leafLink fits).mp before with ⟨new, rfl⟩ | ⟨inside, apart⟩
    · exact .inl ⟨new, live⟩
    · exact .inr ⟨⟨old, inside, live⟩, apart⟩
  · rintro (⟨new, live⟩ | ⟨⟨x, inside, live⟩, apart⟩)
    · exact ⟨_, leafChosen.mpr ⟨_, (leafLink fits).mpr (.inl ⟨new, rfl⟩), rfl⟩, live⟩
    · exact ⟨_, leafChosen.mpr ⟨_, (leafLink fits).mpr (.inr ⟨inside, apart⟩), rfl⟩, live⟩

def activeSequences (t : RevisionTree) : List Int := t.activeEntries.map (·.1)

theorem lengthActive (t : RevisionTree) : t.activeSequences.length = t.activeLeaves.length := by
  unfold activeSequences
  rw [activeLeavesEntries, List.length_map, List.length_map]

theorem memSequences (wf : t.WellFormed) {s : Int} :
    s ∈ t.activeSequences ↔ ∃ x, t.ActiveAt s x := by
  unfold activeSequences
  rw [List.mem_map]
  constructor
  · rintro ⟨⟨_, x⟩, member, rfl⟩
    exact ⟨x, (memActive wf.nodesSorted _ x).mp member⟩
  · rintro ⟨x, active⟩
    exact ⟨(s, x), (memActive wf.nodesSorted s x).mpr active, rfl⟩

theorem sequencesOnce (wf : t.WellFormed) : t.activeSequences.Nodup :=
  (activeEntriesOnce wf.nodesSorted).imp ne_of_lt

inductive Quiet (t : RevisionTree) (r : Revision) : Prop where
  | tombstone (dead : r.deleted = true) : Quiet t r
  | successor {p : Revision} (child : 0 < r.parent) (active : t.ActiveAt r.parent p) : Quiet t r
  | first (none : ∀ s x, ¬ t.ActiveAt s x) : Quiet t r

theorem quietCount (wf : t.WellFormed) (fits : t.Fits r) (quiet : t.Quiet r) :
    (t.link r).chooseWinner.activeLeaves.length ≤ max 1 t.activeLeaves.length := by
  have wf' := wellFormedChosen (wellFormedLink fits wf)
  have once := sequencesOnce wf'
  have inside {s : Int} (member : s ∈ (t.link r).chooseWinner.activeSequences) :=
    (activeLink fits).mp ((memSequences wf').mp member)
  rw [← lengthActive, ← lengthActive]
  cases quiet with
  | tombstone dead =>
    refine le_max_of_le_right (List.subperm_of_subset once ?_).length_le
    intro s member
    rcases inside member with ⟨_, live⟩ | ⟨old, _⟩
    · rw [dead] at live
      cases live
    · exact (memSequences wf).mpr old
  | @successor p child active =>
    have replaced := (memSequences wf).mpr ⟨p, active⟩
    have subset : (t.link r).chooseWinner.activeSequences ⊆
        r.sequence :: t.activeSequences.erase r.parent := by
      intro s member
      rcases inside member with ⟨rfl, _⟩ | ⟨old, apart⟩
      · exact List.mem_cons_self
      · have other : s ≠ r.parent := fun same => apart ⟨child, same⟩
        exact List.mem_cons_of_mem _ ((List.mem_erase_of_ne other).mpr ((memSequences wf).mpr old))
    have most := (List.subperm_of_subset once subset).length_le
    rw [List.length_cons, List.length_erase_of_mem replaced] at most
    have some := List.length_pos_of_mem replaced
    omega
  | first none =>
    refine le_max_of_le_left ((List.subperm_of_subset once ?_).length_le : _ ≤ [r.sequence].length)
    intro s member
    rcases inside member with ⟨rfl, _⟩ | ⟨⟨x, old⟩, _⟩
    · exact List.mem_singleton_self _
    · exact absurd old (none s x)

theorem Crowned.noActive (crowned : t.Crowned) {w : Revision} {s : Int} (won : t.winner = some s)
    (found : t.get? s = some w) (dead : w.deleted = true) : ∀ k x, ¬ t.ActiveAt k x := by
  intro k x active
  obtain ⟨b, best⟩ := (crowned.best s).mp won
  cases found.symm.trans best.1.1
  have live := best.live active
  rw [dead] at live
  cases live

theorem Extended.quiet (wf : t.WellFormed) (crowned : t.Crowned) {named : Option RevisionId}
    {above : Option Int} (extended : t.Extended named above)
    (below : r.parent = above.getD noParent) : t.Quiet r := by
  cases extended with
  | nothing _ bare =>
    have none := (emptyIff wf.nodesSorted).mp ((crowned.currentNone wf).mp bare)
    refine .first ?_
    intro s x active
    have found := active.1.1
    rw [none s] at found
    cases found
  | @winner w s won found ended same =>
    by_cases dead : w.deleted = true
    · exact .first (crowned.noActive won found dead)
    · obtain ⟨b, best⟩ := (crowned.best s).mp won
      cases found.symm.trans best.1.1
      have parent : r.parent = s := below
      have active : t.ActiveAt r.parent w := ⟨parent ▸ best.1, by simpa using dead⟩
      exact .successor (parent ▸ (wf.own s w found).2.1) active

def Live (t : RevisionTree) (id : RevisionId) : Prop := ∃ q p, t.ActiveAt q p ∧ p.id = id

def liveIds (t : RevisionTree) : List RevisionId := t.activeLeaves.map (·.id)

theorem memLive (wf : t.WellFormed) {id : RevisionId} : id ∈ t.liveIds ↔ t.Live id := by
  unfold liveIds
  rw [activeLeavesEntries, List.map_map, List.mem_map]
  constructor
  · rintro ⟨⟨q, p⟩, member, rfl⟩
    exact ⟨q, p, (memActive wf.nodesSorted q p).mp member, rfl⟩
  · rintro ⟨q, p, active, rfl⟩
    exact ⟨(q, p), (memActive wf.nodesSorted q p).mpr active, rfl⟩

theorem liveOnce (wf : t.WellFormed) : t.liveIds.Nodup := by
  unfold liveIds
  rw [activeLeavesEntries, List.map_map]
  have order := List.pairwise_map.mp (activeEntriesOnce wf.nodesSorted)
  refine List.pairwise_map.mpr (order.imp_of_mem ?_)
  intro a b first second before same
  have here := (memActive wf.nodesSorted a.1 a.2).mp first
  have there := (memActive wf.nodesSorted b.1 b.2).mp second
  exact before.ne (wf.uniqueIds here.1.1 there.1.1 same)

end RevForest.RevisionTree
