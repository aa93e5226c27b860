import Mathlib.Data.Prod.Lex
import RevForest.Proofs.Tree.Reachable

/-! The winner of a tree is the greatest leaf in the order of ranks, and of leaves of
one rank the last by sequence. The flag of being current is moved from the old winner
to the new one only; because a linked revision is never flagged, it stands on the
winner alone in every reachable tree. -/
namespace RevForest

def Revision.rank (r : Revision) : Bool ×ₗ ℕ ×ₗ String :=
  toLex (!r.deleted, toLex (r.generation, r.id.digest))

theorem Revision.outranksIff (a b : Revision) : a.outranks b = true ↔ b.rank < a.rank := by
  unfold outranks rank
  rw [Prod.Lex.toLex_lt_toLex, Prod.Lex.toLex_lt_toLex]
  by_cases status : a.deleted = b.deleted
  · by_cases level : a.generation = b.generation
    · simp [status, level]
    · have other := Ne.symm level
      simp [status, level, other]
  · cases dead : a.deleted <;> cases gone : b.deleted <;> simp [dead, gone] at status ⊢

theorem Revision.rankLe (a b : Revision) :
    a.rank ≤ b.rank ↔
      (a.deleted = false → b.deleted = false) ∧
        (a.deleted = b.deleted → a.generation ≤ b.generation) ∧
        (a.deleted = b.deleted → a.generation = b.generation → a.id.digest ≤ b.id.digest) := by
  unfold rank
  rw [Prod.Lex.toLex_le_toLex, Prod.Lex.toLex_le_toLex]
  cases dead : a.deleted <;> cases gone : b.deleted <;> simp
  all_goals
    constructor
    · intro h
      rcases h with less | ⟨same, below⟩
      · exact ⟨less.le, fun same => absurd same less.ne⟩
      · exact ⟨same.le, fun _ => below⟩
    · intro h
      obtain ⟨most, below⟩ := h
      rcases most.lt_or_eq with less | same
      · exact .inl less
      · exact .inr ⟨same, below same⟩

namespace RevisionTree

theorem rankOfTag {a b : Revision} (id : a.id = b.id) (status : a.deleted = b.deleted) :
    a.rank = b.rank := by
  unfold Revision.rank Revision.generation
  rw [id, status]

def standing (leaf : Int × Revision) : (Bool ×ₗ ℕ ×ₗ String) ×ₗ ℤ := toLex (leaf.2.rank, leaf.1)

theorem standingLe (a b : Int × Revision) :
    standing a ≤ standing b ↔ a.2.rank < b.2.rank ∨ a.2.rank = b.2.rank ∧ a.1 ≤ b.1 :=
  Prod.Lex.toLex_le_toLex

theorem standingRank {a b : Int × Revision} (below : standing a ≤ standing b) :
    a.2.rank ≤ b.2.rank :=
  Prod.Lex.monotone_fst _ _ below

theorem standingSame {a b : Int × Revision} (same : standing a = standing b) : a.1 = b.1 :=
  congrArg (fun p => (ofLex p).2) same

theorem betterStanding {b leaf : Int × Revision} (before : b.1 < leaf.1) :
    ∃ best, better (some b) leaf = some best ∧ (best = b ∨ best = leaf) ∧
      standing b ≤ standing best ∧ standing leaf ≤ standing best := by
  unfold better
  by_cases wins : b.2.outranks leaf.2 = true
  · have less := (Revision.outranksIff b.2 leaf.2).mp wins
    exact ⟨b, if_pos wins, .inl rfl, le_rfl, (standingLe leaf b).mpr (.inl less)⟩
  · refine ⟨leaf, if_neg wins, .inr rfl, (standingLe b leaf).mpr ?_, le_rfl⟩
    rw [Revision.outranksIff, not_lt] at wins
    rcases wins.lt_or_eq with less | same
    · exact .inl less
    · exact .inr ⟨same, before.le⟩

theorem bestOf {leaves : List (Int × Revision)} (sorted : leaves.Pairwise fun a b => a.1 < b.1) :
    (leaves = [] ∧ leaves.foldl better none = none) ∨
      ∃ b ∈ leaves, leaves.foldl better none = some b ∧ ∀ a ∈ leaves, standing a ≤ standing b := by
  -- From the end: the last leaf has the greatest sequence, so it wins every tie.
  induction leaves using List.reverseRecOn with
  | nil => exact .inl ⟨rfl, rfl⟩
  | append_singleton front leaf ih =>
    obtain ⟨order, _, cross⟩ := List.pairwise_append.mp sorted
    rw [List.foldl_append]
    rcases ih order with ⟨rfl, none⟩ | ⟨b, member, some, above⟩
    · rw [none]
      refine .inr ⟨leaf, by simp, rfl, ?_⟩
      intro a only
      rw [List.mem_singleton.mp only]
    · rw [some]
      have before := cross b member leaf (List.mem_singleton_self leaf)
      obtain ⟨best, chosen, which, overOld, overNew⟩ := betterStanding before
      refine .inr ⟨best, ?_, chosen, ?_⟩
      · rcases which with rfl | rfl
        · exact List.mem_append_left _ member
        · simp
      · intro a inside
        rcases List.mem_append.mp inside with old | new
        · exact (above a old).trans overOld
        · rw [List.mem_singleton.mp new]
          exact overNew

def LeafAt (t : RevisionTree) (s : Int) (r : Revision) : Prop :=
  t.get? s = some r ∧ t.childrenOf s = []

def leafEntries (t : RevisionTree) : List (Int × Revision) :=
  (t.nodes.entries.filter (·.2.children.isEmpty)).map fun e => (e.1, e.2.revision)

theorem bestLeafEntries (t : RevisionTree) : t.bestLeaf = t.leafEntries.foldl better none := rfl

theorem leavesEntries (t : RevisionTree) : t.leaves = t.leafEntries.map (·.2) := by
  unfold leaves leafEntries Dict.values
  rw [List.filter_map, List.map_map, List.map_map]
  rfl

theorem sortedEntries {t : RevisionTree} (sorted : t.nodes.Sorted) :
    t.leafEntries.Pairwise fun a b => a.1 < b.1 := by
  unfold leafEntries
  exact List.pairwise_map.mpr (sorted.filter _)

theorem memEntries {t : RevisionTree} (sorted : t.nodes.Sorted) (s : Int) (r : Revision) :
    (s, r) ∈ t.leafEntries ↔ t.LeafAt s r := by
  unfold leafEntries LeafAt get? childrenOf
  rw [List.mem_map]
  constructor
  · intro h
    obtain ⟨⟨k, n⟩, inside, same⟩ := h
    cases same
    obtain ⟨member, empty⟩ := List.mem_filter.mp inside
    rw [(Dict.memIff sorted k n).mp member]
    exact ⟨rfl, List.isEmpty_iff.mp empty⟩
  · intro h
    obtain ⟨found, empty⟩ := h
    obtain ⟨n, node, rfl⟩ := Option.map_eq_some_iff.mp found
    rw [node] at empty
    refine ⟨(s, n), List.mem_filter.mpr ⟨(Dict.memIff sorted s n).mpr node, ?_⟩, rfl⟩
    exact List.isEmpty_iff.mpr empty

theorem memLeaves {t : RevisionTree} (sorted : t.nodes.Sorted) (r : Revision) :
    r ∈ t.leaves ↔ ∃ s, t.LeafAt s r := by
  rw [leavesEntries, List.mem_map]
  constructor
  · intro inside
    obtain ⟨⟨s, _⟩, member, rfl⟩ := inside
    exact ⟨s, (memEntries sorted s _).mp member⟩
  · intro inside
    obtain ⟨s, leaf⟩ := inside
    exact ⟨(s, r), (memEntries sorted s r).mpr leaf, rfl⟩

def Best (t : RevisionTree) (s : Int) (r : Revision) : Prop :=
  t.LeafAt s r ∧ ∀ s' r', t.LeafAt s' r' → standing (s', r') ≤ standing (s, r)

theorem Best.unique {t : RevisionTree} {s s' : Int} {r r' : Revision} (best : t.Best s r)
    (best' : t.Best s' r') : s = s' :=
  standingSame (le_antisymm (best'.2 s r best.1) (best.2 s' r' best'.1))

theorem bestLeafBest {t : RevisionTree} (sorted : t.nodes.Sorted) :
    (t.bestLeaf = none ∧ ∀ s r, ¬ t.LeafAt s r) ∨
      ∃ s r, t.bestLeaf = some (s, r) ∧ t.Best s r := by
  rw [bestLeafEntries]
  rcases bestOf (sortedEntries sorted) with ⟨none, chosen⟩ | ⟨⟨s, r⟩, member, chosen, above⟩
  · refine .inl ⟨chosen, ?_⟩
    intro s r leaf
    have inside := (memEntries sorted s r).mpr leaf
    rw [none] at inside
    cases inside
  · refine .inr ⟨s, r, chosen, (memEntries sorted s r).mp member, ?_⟩
    intro s' r' leaf
    exact above (s', r') ((memEntries sorted s' r').mpr leaf)

theorem bestLeafIff {t : RevisionTree} (sorted : t.nodes.Sorted) (s : Int) :
    t.bestLeaf.map (·.1) = some s ↔ ∃ r, t.Best s r := by
  rcases bestLeafBest sorted with ⟨chosen, bare⟩ | ⟨k, b, chosen, best⟩
  · rw [chosen]
    constructor
    · intro impossible
      cases impossible
    · intro h
      obtain ⟨r, leaf, _⟩ := h
      exact absurd leaf (bare s r)
  · rw [chosen]
    constructor
    · intro same
      cases same
      exact ⟨b, best⟩
    · intro h
      obtain ⟨r, other⟩ := h
      exact congrArg some (best.unique other)

theorem someBest {t : RevisionTree} (sorted : t.nodes.Sorted) {s : Int} {r : Revision}
    (leaf : t.LeafAt s r) : ∃ s r, t.Best s r := by
  rcases bestLeafBest sorted with ⟨_, bare⟩ | ⟨k, b, _, best⟩
  · exact absurd leaf (bare s r)
  · exact ⟨k, b, best⟩

theorem WellFormed.leafBelow {t : RevisionTree} (wf : t.WellFormed) {P : Revision → Prop}
    (down : ∀ {c : Int} {x p : Revision}, t.get? c = some x → 0 < x.parent →
      t.get? x.parent = some p → P p → P x)
    {s : Int} {r : Revision} (found : t.get? s = some r) (start : P r) :
    ∃ k x, t.LeafAt k x ∧ P x := by
  -- Generations go up on the way down, and there is a largest.
  induction left : maxGeneration - r.generation generalizing s r with
  | zero =>
    refine ⟨s, r, ⟨found, List.eq_nil_iff_forall_not_mem.mpr ?_⟩, start⟩
    intro c member
    obtain ⟨child, here, positive, above⟩ := parentOfIff.mp ((wf.children s c).mp member)
    obtain ⟨p, parent, lower, _⟩ := wf.linked c child here positive
    rw [above, found] at parent
    cases parent
    omega
  | succ n ih =>
    cases children : t.childrenOf s with
    | nil => exact ⟨s, r, ⟨found, children⟩, start⟩
    | cons c rest =>
      have member : c ∈ t.childrenOf s := by
        rw [children]
        exact List.mem_cons_self
      obtain ⟨child, here, positive, above⟩ := parentOfIff.mp ((wf.children s c).mp member)
      obtain ⟨p, parent, _, next⟩ := wf.linked c child here positive
      have handed := down here positive parent
      rw [above, found] at parent
      cases parent
      exact ih here (handed start) (by omega)

theorem WellFormed.someLeaf {t : RevisionTree} (wf : t.WellFormed) {s : Int} {r : Revision}
    (found : t.get? s = some r) : ∃ s r, t.LeafAt s r := by
  obtain ⟨k, x, leaf, _⟩ := wf.leafBelow (P := fun _ => True) (fun _ _ _ => id) found trivial
  exact ⟨k, x, leaf⟩

structure Flagged (t : RevisionTree) : Prop where
  flag : ∀ s r, t.get? s = some r → (r.current = true ↔ t.winner = some s)
  inside : ∀ s, t.winner = some s → ∃ r, t.get? s = some r

/-- The tree is at rest: the winner is the leaf of the highest standing. -/
structure Crowned (t : RevisionTree) : Prop where
  flagged : t.Flagged
  best : ∀ s, t.winner = some s ↔ ∃ r, t.Best s r

theorem flaggedLink {t : RevisionTree} {r : Revision} (fits : t.Fits r) (flagged : t.Flagged) :
    (t.link r).Flagged where
  flag s old found := by
    rw [getLink] at found
    split at found
    · rename_i new
      cases found
      simp only [settled, Bool.false_eq_true, winnerLink, false_iff]
      intro won
      obtain ⟨other, inside⟩ := flagged.inside s won
      exact fits.other inside new
    · exact flagged.flag s old found
  inside s won := by
    obtain ⟨old, found⟩ := flagged.inside s won
    refine ⟨old, ?_⟩
    rw [getLink, if_neg (fits.other found)]
    exact found

theorem leafChosen {t : RevisionTree} {s : Int} {r : Revision} :
    t.chooseWinner.LeafAt s r ↔
      ∃ old, t.LeafAt s old ∧ { old with current := t.flagAfter s old } = r := by
  unfold LeafAt
  rw [chosenIff, childrenChosen]
  constructor
  · intro h
    obtain ⟨⟨old, found, same⟩, empty⟩ := h
    exact ⟨old, ⟨found, empty⟩, same⟩
  · intro h
    obtain ⟨old, ⟨found, empty⟩, same⟩ := h
    exact ⟨⟨old, found, same⟩, empty⟩

theorem bestChosen {t : RevisionTree} (s : Int) :
    (∃ r, t.chooseWinner.Best s r) ↔ ∃ r, t.Best s r := by
  constructor
  · intro h
    obtain ⟨r, chosen, above⟩ := h
    obtain ⟨old, leaf, rfl⟩ := leafChosen.mp chosen
    refine ⟨old, leaf, ?_⟩
    intro s' r' other
    exact above s' { r' with current := t.flagAfter s' r' } (leafChosen.mpr ⟨r', other, rfl⟩)
  · intro h
    obtain ⟨old, leaf, above⟩ := h
    refine ⟨_, leafChosen.mpr ⟨old, leaf, rfl⟩, ?_⟩
    intro s' r' chosen
    obtain ⟨before, other, rfl⟩ := leafChosen.mp chosen
    exact above s' before other

theorem crownedChosen {t : RevisionTree} (wf : t.WellFormed) (flagged : t.Flagged) :
    t.chooseWinner.Crowned := by
  have best (s : Int) : t.chooseWinner.winner = some s ↔ ∃ r, t.chooseWinner.Best s r := by
    rw [bestChosen, winnerChosen, bestLeafIff wf.nodesSorted]
  refine ⟨⟨?_, ?_⟩, best⟩
  · intro s r found
    obtain ⟨old, before, rfl⟩ := chosenIff.mp found
    rw [winnerChosen]
    unfold flagAfter
    by_cases new : t.bestLeaf.map (·.1) = some s
    · simp only [new, if_true]
    · simp only [new, iff_false]
      by_cases won : t.winner = some s
      · simp [won]
      · simpa [won] using (flagged.flag s old before).not.mpr won
  · intro s won
    obtain ⟨r, leaf, _⟩ := (best s).mp won
    exact ⟨r, leaf.1⟩

theorem emptyCrowned (document : DocumentId) (key : Int) : (empty document key).Crowned where
  flagged := ⟨fun s r found => by simp [get?, empty] at found, fun s won => by cases won⟩
  best s := by simp [empty, Best, LeafAt, get?]

theorem Reachable.crowned {document : DocumentId} {key : Int} {t : RevisionTree}
    (reachable : Reachable document key t) : t.Crowned :=
  reachable.holds Crowned Flagged (emptyCrowned document key) Crowned.flagged flaggedLink
    crownedChosen

structure Leads (t : RevisionTree) (w : Revision) : Prop where
  live : ∀ s r, t.LeafAt s r → r.deleted = false → w.deleted = false
  generation : ∀ s r, t.LeafAt s r → r.deleted = w.deleted → r.generation ≤ w.generation
  digest : ∀ s r, t.LeafAt s r → r.deleted = w.deleted → r.generation = w.generation →
    r.id.digest ≤ w.id.digest

theorem leadsIff {t : RevisionTree} {w : Revision} :
    t.Leads w ↔ ∀ s r, t.LeafAt s r → r.rank ≤ w.rank := by
  constructor
  · intro leads s r leaf
    exact (Revision.rankLe r w).mpr
      ⟨leads.live s r leaf, leads.generation s r leaf, leads.digest s r leaf⟩
  · intro below
    have all (s : Int) (r : Revision) (leaf : t.LeafAt s r) :=
      (Revision.rankLe r w).mp (below s r leaf)
    exact ⟨fun s r leaf => (all s r leaf).1, fun s r leaf => (all s r leaf).2.1,
      fun s r leaf => (all s r leaf).2.2⟩

theorem currentIff {t : RevisionTree} {w : Revision} :
    t.current? = some w ↔ ∃ s, t.winner = some s ∧ t.get? s = some w := by
  unfold current?
  exact Option.bind_eq_some_iff

theorem Crowned.current {t : RevisionTree} (crowned : t.Crowned) {w : Revision}
    (won : t.current? = some w) : ∃ s, t.winner = some s ∧ t.Best s w := by
  obtain ⟨s, winner, found⟩ := currentIff.mp won
  obtain ⟨r, leaf, above⟩ := (crowned.best s).mp winner
  cases found.symm.trans leaf.1
  exact ⟨s, winner, leaf, above⟩

theorem Crowned.someCurrent {t : RevisionTree} (wf : t.WellFormed) (crowned : t.Crowned) {s : Int}
    {r : Revision} (leaf : t.LeafAt s r) : ∃ w, t.current? = some w := by
  obtain ⟨k, w, best⟩ := someBest wf.nodesSorted leaf
  exact ⟨w, currentIff.mpr ⟨k, (crowned.best k).mpr ⟨w, best⟩, best.1.1⟩⟩

theorem emptyIff {t : RevisionTree} (sorted : t.nodes.Sorted) :
    t.isEmpty = true ↔ ∀ s, t.get? s = none := by
  unfold isEmpty Dict.isEmpty
  rw [List.isEmpty_iff]
  constructor
  · intro bare s
    simp [get?, Dict.find?, bare]
  · intro bare
    refine List.eq_nil_iff_forall_not_mem.mpr ?_
    rintro ⟨s, n⟩ member
    have node := (Dict.memIff sorted s n).mp member
    rw [(getNode t s).mp (bare s)] at node
    cases node

theorem Crowned.currentNone {t : RevisionTree} (wf : t.WellFormed) (crowned : t.Crowned) :
    t.current? = none ↔ t.isEmpty = true := by
  rw [emptyIff wf.nodesSorted]
  constructor
  · intro none s
    refine Option.eq_none_iff_forall_ne_some.mpr ?_
    intro r found
    obtain ⟨_, _, leaf⟩ := wf.someLeaf found
    obtain ⟨w, won⟩ := crowned.someCurrent wf leaf
    rw [won] at none
    cases none
  · intro bare
    refine Option.eq_none_iff_forall_ne_some.mpr ?_
    intro w won
    obtain ⟨s, _, found⟩ := currentIff.mp won
    rw [bare s] at found
    cases found

def ActiveAt (t : RevisionTree) (s : Int) (r : Revision) : Prop :=
  t.LeafAt s r ∧ r.deleted = false

theorem Best.live {t : RevisionTree} {s k : Int} {w r : Revision} (best : t.Best s w)
    (active : t.ActiveAt k r) : w.deleted = false :=
  ((Revision.rankLe r w).mp (standingRank (best.2 k r active.1))).1 active.2

def activeEntries (t : RevisionTree) : List (Int × Revision) :=
  t.leafEntries.filter (!·.2.deleted)

theorem memActive {t : RevisionTree} (sorted : t.nodes.Sorted) (s : Int) (r : Revision) :
    (s, r) ∈ t.activeEntries ↔ t.ActiveAt s r := by
  unfold activeEntries ActiveAt
  rw [List.mem_filter, memEntries sorted, Bool.not_eq_true']

theorem activeEntriesOnce {t : RevisionTree} (sorted : t.nodes.Sorted) :
    (t.activeEntries.map (·.1)).Pairwise (· < ·) := by
  unfold activeEntries
  exact List.pairwise_map.mpr ((sortedEntries sorted).filter _)

theorem activeLeavesEntries (t : RevisionTree) : t.activeLeaves = t.activeEntries.map (·.2) := by
  unfold activeLeaves activeEntries
  rw [leavesEntries, List.filter_map]
  rfl

theorem conflictedIff {t : RevisionTree} (sorted : t.nodes.Sorted) :
    t.isConflicted = true ↔ ∃ s s' r r', s ≠ s' ∧ t.ActiveAt s r ∧ t.ActiveAt s' r' := by
  unfold isConflicted
  rw [decide_eq_true_iff, activeLeavesEntries, List.length_map]
  have order := activeEntriesOnce sorted
  have member := memActive sorted
  generalize t.activeEntries = entries at order member
  constructor
  · intro two
    match entries, two with
    | (s, r) :: (s', r') :: rest, _ =>
      have before : s < s' := (List.pairwise_cons.mp order).1 s' (by simp)
      exact ⟨s, s', r, r', before.ne, (member s r).mp (by simp), (member s' r').mp (by simp)⟩
  · intro h
    obtain ⟨s, s', r, r', other, active, active'⟩ := h
    have first := (member s r).mpr active
    have second := (member s' r').mpr active'
    match entries with
    | [] => cases first
    | [e] =>
      have same := (List.mem_singleton.mp first).trans (List.mem_singleton.mp second).symm
      exact absurd (congrArg Prod.fst same) other
    | _ :: _ :: rest => simp

theorem memConflicts {t : RevisionTree} (wf : t.WellFormed) {r : Revision} :
    r ∈ t.conflicts ↔ ∃ s, t.ActiveAt s r ∧ t.winner ≠ some s := by
  unfold conflicts
  rw [List.mem_filter, activeLeavesEntries, List.mem_map]
  constructor
  · intro h
    obtain ⟨⟨⟨s, _⟩, member, rfl⟩, lost⟩ := h
    have active := (memActive wf.nodesSorted s _).mp member
    have own := (wf.own s _ active.1.1).1
    refine ⟨s, active, ?_⟩
    intro won
    simp [own, won] at lost
  · intro h
    obtain ⟨s, active, lost⟩ := h
    have own := (wf.own s r active.1.1).1
    refine ⟨⟨(s, r), (memActive wf.nodesSorted s r).mpr active, rfl⟩, ?_⟩
    simp [own, Ne.symm lost]

theorem conflictsOnce {t : RevisionTree} (wf : t.WellFormed) :
    (t.conflicts.map (·.sequence)).Nodup := by
  have stored : t.activeEntries.map (·.1) = t.activeLeaves.map (·.sequence) := by
    rw [activeLeavesEntries, List.map_map]
    refine List.map_congr_left ?_
    rintro ⟨s, r⟩ member
    exact (wf.own s r ((memActive wf.nodesSorted s r).mp member).1.1).1.symm
  have order := activeEntriesOnce wf.nodesSorted
  rw [stored] at order
  unfold conflicts
  exact (order.imp ne_of_lt).sublist (List.filter_sublist.map _)

theorem Crowned.conflictsIff {t : RevisionTree} (wf : t.WellFormed) (crowned : t.Crowned) :
    t.conflicts ≠ [] ↔ t.isConflicted = true := by
  rw [conflictedIff wf.nodesSorted]
  constructor
  · intro some
    obtain ⟨r, member⟩ := List.exists_mem_of_ne_nil _ some
    obtain ⟨s, active, lost⟩ := (memConflicts wf).mp member
    -- A live leaf that lost makes the winner a live leaf too.
    obtain ⟨k, w, best⟩ := someBest wf.nodesSorted active.1
    refine ⟨s, k, r, w, ?_, active, best.1, best.live active⟩
    rintro rfl
    exact lost ((crowned.best s).mpr ⟨w, best⟩)
  · intro h
    obtain ⟨s, s', r, r', other, active, active'⟩ := h
    by_cases won : t.winner = some s
    · have lost : t.winner ≠ some s' := by
        intro won'
        exact other (Option.some.inj (won.symm.trans won'))
      exact List.ne_nil_of_mem ((memConflicts wf).mpr ⟨s', active', lost⟩)
    · exact List.ne_nil_of_mem ((memConflicts wf).mpr ⟨s, active, won⟩)

theorem reachableWinner {document : DocumentId} {key : Int} {t : RevisionTree}
    (reachable : Reachable document key t) :
    (t.current? = none ↔ t.isEmpty = true) ∧
      (∀ w, t.current? = some w →
        t.Leads w ∧ ∃ s, t.winner = some s ∧ t.LeafAt s w ∧
          ∀ s' r, t.get? s' = some r → (r.current = true ↔ s' = s)) ∧
      (t.isConflicted = true ↔
        ∃ s s' r r', s ≠ s' ∧ t.ActiveAt s r ∧ t.ActiveAt s' r') ∧
      (∀ r, r ∈ t.conflicts ↔ ∃ s, t.ActiveAt s r ∧ t.winner ≠ some s) ∧
      (t.conflicts.map (·.sequence)).Nodup ∧
      (t.conflicts ≠ [] ↔ t.isConflicted = true) := by
  have wf := reachable.wellFormed
  have crowned := reachable.crowned
  refine ⟨crowned.currentNone wf, ?_, conflictedIff wf.nodesSorted, fun r => memConflicts wf,
    conflictsOnce wf, crowned.conflictsIff wf⟩
  intro w won
  obtain ⟨s, winner, best⟩ := crowned.current won
  refine ⟨leadsIff.mpr fun s' r leaf => standingRank (best.2 s' r leaf), s, winner, best.1, ?_⟩
  intro s' r found
  rw [crowned.flagged.flag s' r found, winner, Option.some.injEq]
  exact eq_comm

namespace Sample

def rival : RevisionId := ⟨"1-z", 1, "z", by decide⟩

def rivals : List RevisionId := [⟨"1-y", 1, "y", by decide⟩, rival]

def forked : RevisionTree :=
  rivals.foldl (fun t id =>
    (TreeWrite.foreign (delivered id) []).after t Commit.scripted [.ok (some (t.size + 10))]) tree

theorem forkedReachable : Reachable document 7 forked := by
  unfold forked rivals
  simp only [List.foldl_cons, List.foldl_nil]
  refine .write (.write reachable _ _ _ ?_) _ _ _ ?_ <;> decide

end Sample

theorem forkedWinner :
    Reachable Sample.document 7 Sample.forked ∧ Sample.forked.conflicts.length = 1 ∧
      Sample.forked.isConflicted = true ∧
      ∃ w, Sample.forked.current? = some w ∧ w.id.text = "1-z" ∧ Sample.forked.Leads w := by
  obtain ⟨_, leads, _, _, _, conflicted⟩ := reachableWinner Sample.forkedReachable
  have one : Sample.forked.conflicts.length = 1 := by decide
  have named : Sample.forked.current?.map (·.id.text) = some "1-z" := by decide
  obtain ⟨w, won, name⟩ := Option.map_eq_some_iff.mp named
  have some : Sample.forked.conflicts ≠ [] := List.ne_nil_of_length_pos (by rw [one]; decide)
  exact ⟨Sample.forkedReachable, one, conflicted.mp some, w, won, name, (leads w won).1⟩

end RevisionTree
end RevForest
