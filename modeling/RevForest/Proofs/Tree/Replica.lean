import Mathlib.Data.Finset.Dedup
import Mathlib.Data.Finset.Order
import RevForest.Proofs.Tree.Walk

/-! A replica that takes over every leaf of a tree, each with its history, in any order.
The tree is a forest of ids of its own, a history is the whole path of its id, and
every node lies on the path of a leaf. So the tree mirrors what it hands out, and the
replica agrees with it. -/
namespace RevForest

def Commit.counting : Commit Int := fun _ q => (.ok (some q), q + 1)

namespace RevisionTree
variable {t : RevisionTree}

theorem WellFormed.underLeaf (wf : t.WellFormed) {s : Int} {r : Revision}
    (found : t.get? s = some r) :
    ∃ k x, t.LeafAt k x ∧ ∀ ids, wf.forest.Path x.id ids → r.id ∈ ids := by
  refine wf.leafBelow (P := fun x => ∀ ids, wf.forest.Path x.id ids → r.id ∈ ids) ?_ found ?_
  · intro c x p here child parent under ids path
    cases path with
    | root top => cases top.symm.trans (wf.aboveParent here child parent)
    | step up next =>
      cases up.symm.trans (wf.aboveParent here child parent)
      exact List.mem_cons_of_mem _ (under _ next)
  · exact fun ids path => List.mem_of_mem_head? path.head

def delivery (t : RevisionTree) (r : Revision) : Except DocumentError Delivery :=
  (t.history r.id.text).map (Delivery.mk r)

theorem allOk {α β ε : Type} {f : α → Except ε β} {xs : List α}
    (each : ∀ x ∈ xs, ∃ y, f x = .ok y) :
    ∃ ys, xs.mapM f = .ok ys ∧ ∀ y, y ∈ ys ↔ ∃ x ∈ xs, f x = .ok y := by
  induction xs with
  | nil => exact ⟨[], rfl, by simp⟩
  | cons x xs ih =>
    obtain ⟨⟨y, done⟩, others⟩ := List.forall_mem_cons.mp each
    obtain ⟨ys, rest, members⟩ := ih others
    refine ⟨y :: ys, ?_, ?_⟩
    · rw [List.mapM_cons, done, rest]
      rfl
    · intro z
      rw [List.mem_cons, members, List.exists_mem_cons_iff, done, Except.ok.injEq, eq_comm]

theorem WellFormed.deliveryOf (wf : t.WellFormed) {s : Int} {r : Revision}
    (found : t.get? s = some r) :
    ∃ d, t.delivery r = .ok d ∧ d.revision = r ∧ wf.forest.Path r.id d.path := by
  obtain ⟨ids, walked, path⟩ := wf.historyPath found
  refine ⟨⟨r, ids⟩, ?_, rfl, ?_⟩
  · unfold delivery
    rw [walked]
    rfl
  · unfold Delivery.path
    rw [path.history]
    exact path

def HandsOut (t : RevisionTree) (ds : List Delivery) : Prop :=
  ∀ d, d ∈ ds ↔ ∃ r ∈ t.leaves, t.delivery r = .ok d

variable {ds : List Delivery}

theorem WellFormed.handedLeaf (wf : t.WellFormed) (hands : t.HandsOut ds) {d : Delivery}
    (member : d ∈ ds) :
    ∃ s, t.LeafAt s d.revision ∧ wf.forest.Path d.revision.id d.path := by
  obtain ⟨r, leaf, handed⟩ := (hands d).mp member
  obtain ⟨s, here⟩ := (memLeaves wf.nodesSorted r).mp leaf
  obtain ⟨_, same, rfl, path⟩ := wf.deliveryOf here.1
  cases same.symm.trans handed
  exact ⟨s, here, path⟩

theorem WellFormed.mirrorsLeaves (wf : t.WellFormed) (hands : t.HandsOut ds) :
    t.Mirrors wf.forest ds where
  ids id := by
    constructor
    · rintro ⟨s, r, found, rfl⟩
      obtain ⟨k, x, leaf, under⟩ := wf.underLeaf found
      obtain ⟨d, handed, _, path⟩ := wf.deliveryOf leaf.1
      have member := (memLeaves wf.nodesSorted x).mpr ⟨k, leaf⟩
      exact ⟨d, (hands d).mpr ⟨x, member, handed⟩, under _ path⟩
    · rintro ⟨d, member, inside⟩
      obtain ⟨k, leaf, path⟩ := wf.handedLeaf hands member
      exact followsPath wf.followsForest path ⟨k, _, leaf.1, rfl⟩ id inside
  follows := wf.followsForest
  leaves s r leaf := by
    obtain ⟨d, handed, rfl, _⟩ := wf.deliveryOf leaf.1
    have member := (memLeaves wf.nodesSorted d.revision).mpr ⟨s, leaf⟩
    exact ⟨d, (hands d).mpr ⟨d.revision, member, handed⟩, rfl, rfl⟩

theorem WellFormed.handsComplete (wf : t.WellFormed) (hands : t.HandsOut ds)
    (full : ∀ r ∈ t.leaves, r.projection = none) (named : ∀ r ∈ t.leaves, r.attachments.Named) :
    ∀ d ∈ ds, d.Complete wf.forest t.document := by
  intro d member
  obtain ⟨s, leaf, path⟩ := wf.handedLeaf hands member
  have inside := (memLeaves wf.nodesSorted d.revision).mpr ⟨s, leaf⟩
  exact ⟨full _ inside, (wf.own s _ leaf.1).2.2.1, path, named _ inside⟩

theorem WellFormed.handsConsistent (wf : t.WellFormed) (hands : t.HandsOut ds) :
    Consistent ds := by
  intro d member e member' same
  obtain ⟨s, leaf, _⟩ := wf.handedLeaf hands member
  obtain ⟨s', leaf', _⟩ := wf.handedLeaf hands member'
  have here := leaf.1
  rw [wf.uniqueIds leaf.1 leaf'.1 same] at here
  rw [Option.some.inj (here.symm.trans leaf'.1)]

theorem roomAbove (t : RevisionTree) : ∃ h : Int, 0 < h ∧ ∀ q, h ≤ q → t.get? q = none := by
  obtain ⟨m, above⟩ := t.nodes.keys.toFinset.exists_le
  refine ⟨max m 0 + 1, by omega, ?_⟩
  intro q high
  refine (getNode t q).mpr (Option.eq_none_iff_forall_ne_some.mpr ?_)
  intro n found
  obtain ⟨e, entry, _⟩ := Option.map_eq_some_iff.mp found
  have member := List.mem_of_find?_eq_some entry
  have key : e.1 = q := by simpa using List.find?_some entry
  have low := above q (List.mem_toFinset.mpr (key ▸ List.mem_map_of_mem member))
  omega

structure Counted (h : Int) (s : Int × List Answer) : Prop where
  start : h ≤ s.1
  given : ∀ a ∈ s.2, ∃ q, a = .ok (some q) ∧ h ≤ q ∧ q < s.1
  once : (s.2.filterMap sequenceIn).Nodup

theorem countingKeeps (h : Int) :
    Commit.counting.recorded.Keeps (fun _ => True) (Counted h) := by
  rintro r ⟨q, log⟩ _ ⟨start, given, once⟩
  let answer : Answer := .ok (some q)
  have last : (log ++ [answer]).filterMap sequenceIn = log.filterMap sequenceIn ++ [q] := by
    rw [List.filterMap_append]
    rfl
  refine ⟨by show h ≤ q + 1; omega, ?_, ?_⟩
  · intro a member
    show ∃ k, a = .ok (some k) ∧ h ≤ k ∧ k < q + 1
    rcases List.mem_append.mp member with old | new
    · obtain ⟨k, same, low, high⟩ := given a old
      exact ⟨k, same, low, by omega⟩
    · exact ⟨q, List.mem_singleton.mp new, start, by omega⟩
  · show ((log ++ [answer]).filterMap sequenceIn).Nodup
    rw [last, ← List.concat_eq_append]
    refine List.Nodup.concat (fun member => ?_) once
    obtain ⟨a, old, same⟩ := List.mem_filterMap.mp member
    obtain ⟨k, rfl, _, high⟩ := given a old
    cases same
    exact lt_irrefl _ high

theorem ingestExists (document : DocumentId) (key : Int) (ds : List Delivery) :
    ∃ errors t, Ingest document key ds errors t := by
  induction ds using List.reverseRecOn with
  | nil => exact ⟨_, _, .none⟩
  | append_singleton ds d ih =>
    obtain ⟨errors, t, before⟩ := ih
    obtain ⟨h, positive, room⟩ := t.roomAbove
    have counted : Counted h (t.insertForeign Commit.counting.recorded d.revision d.history
        (h, [])).2 :=
      (countingKeeps h).insertForeign t d.revision d.history (fun _ _ _ _ _ _ => trivial)
        ⟨le_refl h, by simp, List.nodup_nil⟩
    have fresh : t.Fresh (d.write.answers t Commit.counting h) := by
      refine ⟨?_, counted.once⟩
      intro a member
      obtain ⟨q, rfl, low, _⟩ := counted.given a member
      exact ⟨by omega, room q low⟩
    have assigns : ∀ a ∈ d.write.answers t Commit.counting h, (sequenceIn a).isSome = true := by
      intro a member
      obtain ⟨q, rfl, _⟩ := counted.given a member
      rfl
    exact ⟨_, _, .next before d Commit.counting h fresh assigns⟩

theorem replicaReproduces {document : DocumentId} {key : Int} (reachable : Reachable document key t)
    (full : ∀ r ∈ t.leaves, r.projection = none) (named : ∀ r ∈ t.leaves, r.attachments.Named)
    {order : List Revision} (perm : order.Perm t.leaves) :
    ∃ ds, order.mapM t.delivery = .ok ds ∧ ∀ key',
      (∃ errors replica, Ingest document key' ds errors replica) ∧
        ∀ errors replica, Ingest document key' ds errors replica →
          errors = [] ∧ replica.Agree t := by
  have wf := reachable.wellFormed
  have each : ∀ r ∈ order, ∃ d, t.delivery r = .ok d := by
    intro r member
    obtain ⟨s, leaf⟩ := (memLeaves wf.nodesSorted r).mp (perm.mem_iff.mp member)
    obtain ⟨d, done, _⟩ := wf.deliveryOf leaf.1
    exact ⟨d, done⟩
  obtain ⟨ds, handed, ordered⟩ := allOk each
  have hands : t.HandsOut ds := by
    intro d
    simp only [ordered, perm.mem_iff]
  have complete := wf.handsComplete hands full named
  rw [reachable.identity.1] at complete
  refine ⟨ds, handed, fun key' => ⟨ingestExists document key' ds, ?_⟩⟩
  intro errors replica ingest
  obtain ⟨none, mirrors⟩ := ingestMirrors ingest complete
  exact ⟨none, mirrorsAgree ingest.reachable.wellFormed wf (wf.handsConsistent hands) mirrors
    (wf.mirrorsLeaves hands)⟩

-- A branch of two and a root of generation 3 that is deleted, taken over the other way round.
namespace Sample

def outlying : RevisionId := ⟨"3-z", 3, "z", by decide⟩

def scattered : RevisionTree :=
  taken (taken (.empty document 7) late) ⟨{ delivered outlying with deleted := true }, []⟩

theorem scatteredReachable : Reachable document 7 scattered := by
  obtain ⟨_, one⟩ := ingestTaken .none late (by decide) (by decide)
  obtain ⟨_, two⟩ := ingestTaken one ⟨{ delivered outlying with deleted := true }, []⟩
    (by decide) (by decide)
  exact two.reachable

end Sample

theorem scatteredReproduced :
    Reachable Sample.document 7 Sample.scattered ∧ Sample.scattered.leaves.length = 2 ∧
      ∃ ds, Sample.scattered.leaves.reverse.mapM Sample.scattered.delivery = .ok ds ∧
        ∃ replica, Ingest Sample.document 9 ds [] replica ∧
          replica.Agree Sample.scattered := by
  have named : ∀ r ∈ Sample.scattered.leaves, r.attachments.Named := by
    intro r member
    have bare : ∀ r ∈ Sample.scattered.leaves, r.attachments = .empty := by decide +kernel
    rw [bare r member]
    exact AttachmentMap.emptyNamed
  obtain ⟨ds, handed, reproduced⟩ :=
    replicaReproduces Sample.scatteredReachable (by decide) named (List.reverse_perm _)
  obtain ⟨⟨errors, replica, ingest⟩, same⟩ := reproduced 9
  obtain ⟨rfl, agree⟩ := same errors replica ingest
  exact ⟨Sample.scatteredReachable, by decide, ds, handed, replica, ingest, agree⟩

end RevisionTree
end RevForest
