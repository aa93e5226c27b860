import RevForest.Proofs.Tree.Accepted
import RevForest.Proofs.Tree.Child
import RevForest.Proofs.Tree.Forest
import RevForest.Proofs.Tree.SameForest

/-! Building a tree from its revisions. The revisions are checked and linked one after
the other, but what is accepted can be said of the set: one document, each sequence and
each id once, and every parent there, earlier and one generation lower. The order in
which the revisions come, their flags and their keys leave no trace, so a tree that grew
from nothing under rising sequences is built again from its revisions in any order. -/
namespace RevForest

def Revision.bare (r : Revision) : Revision := { r with current := false, dirty := false, key := 0 }

namespace RevisionTree
variable {document : DocumentId} {key : Int} {t grown : RevisionTree}
  {chain rs rs' : List Revision} {r : Revision}

structure Acceptable (document : DocumentId) (rs : List Revision) : Prop where
  document : ∀ r ∈ rs, r.document = document
  positive : ∀ r ∈ rs, 0 < r.sequence
  sequencesOnce : (rs.map (·.sequence)).Nodup
  idsOnce : (rs.map (·.id)).Nodup
  parents : ∀ r ∈ rs, 0 < r.parent →
    ∃ p ∈ rs, p.sequence = r.parent ∧ p.sequence < r.sequence ∧ p.generation + 1 = r.generation

theorem Acceptable.perm (acceptable : Acceptable document rs) (perm : rs.Perm rs') :
    Acceptable document rs' where
  document r member := acceptable.document r (perm.mem_iff.mpr member)
  positive r member := acceptable.positive r (perm.mem_iff.mpr member)
  sequencesOnce := (perm.map _).nodup_iff.mp acceptable.sequencesOnce
  idsOnce := (perm.map _).nodup_iff.mp acceptable.idsOnce
  parents r member child := by
    obtain ⟨p, parent, rest⟩ := acceptable.parents r (perm.mem_iff.mpr member) child
    exact ⟨p, perm.mem_iff.mp parent, rest⟩

theorem memGrown (grows : Grows (empty document key) chain grown) {s : Int} {x : Revision} :
    grown.get? s = some x ↔
      ∃ r ∈ chain, r.sequence = s ∧ (empty document key).settled r = x := by
  rw [getGrows grows]
  simp [get?, empty]

theorem growsAcceptable (grows : Grows (empty document key) chain grown)
    (order : chain.Pairwise fun a b => a.sequence ≤ b.sequence) : Acceptable document chain := by
  -- Each revision fitted what stood before it in the chain.
  have fitted (r : Revision) (member : r ∈ chain) : ∃ front back u, chain = front ++ r :: back ∧
      Grows (empty document key) front u ∧ u.Fits r := by
    obtain ⟨front, back, rfl⟩ := List.append_of_mem member
    obtain ⟨u, first, later⟩ := growsAppend.mp grows
    cases later with
    | cons fits _ => exact ⟨front, back, u, rfl, first, fits⟩
  have apart := (growsApart grows).2
  refine ⟨?_, ?_, ?_, ?_, ?_⟩
  · intro r member
    obtain ⟨front, _, u, _, first, fits⟩ := fitted r member
    have own : u.document = document :=
      growsKeeps (P := fun t => t.document = document) (fun _ => id) first rfl
    exact fits.document.trans own
  · intro r member
    obtain ⟨_, _, _, _, _, fits⟩ := fitted r member
    exact fits.positive
  · exact List.pairwise_map.mpr (apart.imp And.right)
  · exact List.pairwise_map.mpr (apart.imp And.left)
  · intro r member child
    obtain ⟨front, back, u, rfl, first, fits⟩ := fitted r member
    obtain ⟨_, found, next⟩ := fits.parent child
    obtain ⟨p, before, here, rfl⟩ := (memGrown first).mp found
    have earlier := (List.pairwise_append.mp order).2.2 p before r List.mem_cons_self
    have other := fits.parentOther child
    exact ⟨p, List.mem_append_left _ before, here, by omega, next⟩

theorem acceptableGrows (key : Int) (acceptable : Acceptable document chain)
    (order : chain.Pairwise fun a b => a.sequence < b.sequence) :
    ∃ grown, Grows (empty document key) chain grown := by
  -- From the end: all that the last revision refers to comes before it.
  induction chain using List.reverseRecOn with
  | nil => exact ⟨_, .nil _⟩
  | append_singleton front r ih =>
    obtain ⟨rising, _, cross⟩ := List.pairwise_append.mp order
    have last (x : Revision) (before : x ∈ front) : x.sequence < r.sequence :=
      cross x before r (List.mem_singleton_self r)
    have inside (x : Revision) (before : x ∈ front) : x ∈ front ++ [r] :=
      List.mem_append_left _ before
    have there : r ∈ front ++ [r] := List.mem_append_right _ (List.mem_singleton_self r)
    have parentBefore (x : Revision) (member : x ∈ front ++ [r]) (child : 0 < x.parent) :
        ∃ p ∈ front, p.sequence = x.parent ∧ p.sequence < x.sequence ∧
          p.generation + 1 = x.generation := by
      obtain ⟨p, found, here, earlier, next⟩ := acceptable.parents x member child
      refine ⟨p, ?_, here, earlier, next⟩
      rcases List.mem_append.mp found with before | same
      · exact before
      · rw [List.mem_singleton.mp same] at earlier
        rcases List.mem_append.mp member with before | same
        · exact absurd (last x before) (by omega)
        · rw [List.mem_singleton.mp same] at earlier
          exact absurd earlier (lt_irrefl _)
    have ids := acceptable.idsOnce
    rw [List.map_append] at ids
    obtain ⟨idsOnce, _, freeIds⟩ := List.nodup_append.mp ids
    obtain ⟨u, grows⟩ := ih
      { document := fun x before => acceptable.document x (inside x before)
        positive := fun x before => acceptable.positive x (inside x before)
        sequencesOnce := List.pairwise_map.mpr (rising.imp ne_of_lt)
        idsOnce
        parents := fun x before => parentBefore x (inside x before) } rising
    have own : u.document = document :=
      growsKeeps (P := fun t => t.document = document) (fun _ => id) grows rfl
    have wf := wellFormedGrows grows (emptyWellFormed document key)
    refine ⟨u.link r, growsAppend.mpr ⟨u, grows, .cons ?_ (.nil _)⟩⟩
    refine ⟨(acceptable.document r there).trans own.symm, acceptable.positive r there, ?_, ?_, ?_⟩
    · refine Option.eq_none_iff_forall_ne_some.mpr ?_
      intro x found
      obtain ⟨y, before, same, _⟩ := (memGrown grows).mp found
      exact absurd (last y before) (by omega)
    · refine Option.eq_none_iff_forall_ne_some.mpr ?_
      intro s taken
      obtain ⟨x, found, text⟩ := (wf.indexed _ s).mp taken
      obtain ⟨y, before, _, rfl⟩ := (memGrown grows).mp found
      exact freeIds y.id (List.mem_map_of_mem before) r.id (List.mem_singleton_self _)
        (RevisionId.ext_text text)
    · intro child
      obtain ⟨p, before, here, _, next⟩ := parentBefore r there child
      exact ⟨_, (memGrown grows).mpr ⟨p, before, here, rfl⟩, next⟩

theorem sortRising (once : (rs.map (·.sequence)).Nodup) :
    (Revision.sortBySequence rs).Pairwise fun a b => a.sequence < b.sequence := by
  have apart := List.pairwise_map.mp (((sortPerm rs).map (·.sequence)).nodup_iff.mpr once)
  exact ((sortPairwise rs).and apart).imp fun both => lt_of_le_of_ne both.1 both.2

theorem ofRevisionsAccepts :
    (∃ t, ofRevisions document key rs = .ok t) ↔ Acceptable document rs := by
  constructor
  · rintro ⟨t, ok⟩
    obtain ⟨grown, grows, _⟩ := ofRevisionsIff.mp ok
    exact (growsAcceptable grows (sortPairwise rs)).perm (sortPerm rs)
  · intro acceptable
    obtain ⟨grown, grows⟩ := acceptableGrows key (acceptable.perm (sortPerm rs).symm)
      (sortRising acceptable.sequencesOnce)
    exact ⟨_, ofRevisionsIff.mpr ⟨grown, grows, rfl⟩⟩

theorem fitsBare : t.Fits r.bare ↔ t.Fits r :=
  ⟨fun fits => ⟨fits.document, fits.positive, fits.freeSequence, fits.freeId, fits.parent⟩,
    fun fits => ⟨fits.document, fits.positive, fits.freeSequence, fits.freeId, fits.parent⟩⟩

theorem growsBare : Grows t (chain.map Revision.bare) grown ↔ Grows t chain grown := by
  induction chain generalizing t with
  | nil => rfl
  | cons r rest ih =>
    constructor
    · rintro (_ | ⟨fits, next⟩)
      exact .cons (fitsBare.mp fits) (ih.mp next)
    · rintro (_ | ⟨fits, next⟩)
      exact .cons (fitsBare.mpr fits) (ih.mpr next)

theorem sameRising {xs ys : List Revision} (rising : xs.Pairwise fun a b => a.sequence < b.sequence)
    (rising' : ys.Pairwise fun a b => a.sequence < b.sequence) (same : ∀ x, x ∈ xs ↔ x ∈ ys) :
    xs = ys := by
  have once {zs : List Revision} (sorted : zs.Pairwise fun a b => a.sequence < b.sequence) :
      zs.Nodup := by
    refine sorted.imp ?_
    rintro a _ before rfl
    exact lt_irrefl _ before
  have perm := (List.perm_ext_iff_of_nodup (once rising) (once rising')).mpr same
  refine perm.eq_of_pairwise ?_ rising rising'
  intro a b _ _ before after
  exact absurd before (not_lt.mpr after.le)

theorem risingBare : (chain.map Revision.bare).Pairwise (fun a b => a.sequence < b.sequence) ↔
    chain.Pairwise fun a b => a.sequence < b.sequence :=
  List.pairwise_map

theorem ofRevisionsBare (perm : (rs.map Revision.bare).Perm (rs'.map Revision.bare))
    (ok : ofRevisions document key rs = .ok t) : ofRevisions document key rs' = .ok t := by
  obtain ⟨grown, grows, rfl⟩ := ofRevisionsIff.mp ok
  have once := (ofRevisionsAccepts.mp ⟨_, ok⟩).sequencesOnce
  have once' : (rs'.map (·.sequence)).Nodup := by
    have sequences := perm.map (·.sequence)
    rw [List.map_map, List.map_map] at sequences
    exact sequences.nodup_iff.mp once
  have sorted : (Revision.sortBySequence rs).map Revision.bare =
      (Revision.sortBySequence rs').map Revision.bare := by
    refine sameRising (risingBare.mpr (sortRising once)) (risingBare.mpr (sortRising once')) ?_
    have moved := ((sortPerm rs).map _).trans (perm.trans ((sortPerm rs').symm.map _))
    exact fun _ => moved.mem_iff
  refine ofRevisionsIff.mpr ⟨grown, growsBare.mp ?_, rfl⟩
  rw [← sorted]
  exact growsBare.mpr grows

theorem memRevisions (sorted : t.nodes.Sorted) : r ∈ t.revisions ↔ ∃ s, t.get? s = some r := by
  unfold revisions Dict.values get?
  rw [List.map_map, List.mem_map]
  constructor
  · rintro ⟨⟨s, n⟩, member, rfl⟩
    exact ⟨s, by rw [(Dict.memIff sorted s n).mp member]; rfl⟩
  · rintro ⟨s, found⟩
    obtain ⟨n, node, rfl⟩ := Option.map_eq_some_iff.mp found
    exact ⟨(s, n), (Dict.memIff sorted s n).mpr node, rfl⟩

theorem revisionsBare (grows : Grows (empty document key) chain grown)
    (rising : chain.Pairwise fun a b => a.sequence < b.sequence) :
    grown.chooseWinner.revisions.map Revision.bare = chain.map Revision.bare := by
  have wf := wellFormedChosen (wellFormedGrows grows (emptyWellFormed document key))
  refine sameRising (risingBare.mpr wf.inPlace.rising) (risingBare.mpr rising) ?_
  intro x
  rw [List.mem_map, List.mem_map]
  constructor
  · rintro ⟨y, member, rfl⟩
    obtain ⟨s, found⟩ := (memRevisions wf.nodesSorted).mp member
    obtain ⟨old, before, rfl⟩ := chosenIff.mp found
    obtain ⟨r, linked, _, rfl⟩ := (memGrown grows).mp before
    exact ⟨r, linked, rfl⟩
  · rintro ⟨r, linked, rfl⟩
    have before := (memGrown grows).mpr ⟨r, linked, rfl, rfl⟩
    exact ⟨_, (memRevisions wf.nodesSorted).mpr ⟨_, chosenIff.mpr ⟨_, before, rfl⟩⟩, rfl⟩

structure Grown (document : DocumentId) (key : Int) (given : List Int) (t : RevisionTree)
    (chain : List Revision) (grown : RevisionTree) : Prop where
  grows : Grows (empty document key) chain grown
  chosen : t = grown.chooseWinner
  rising : chain.Pairwise fun a b => a.sequence < b.sequence
  given : ∀ r ∈ chain, r.sequence ∈ given

variable {given more : List Int}

theorem Grown.wellFormed (grew : Grown document key given t chain grown) : t.WellFormed :=
  grew.chosen ▸ wellFormedChosen (wellFormedGrows grew.grows (emptyWellFormed document key))

theorem Grown.rebuilt (grew : Grown document key given t chain grown)
    (perm : rs.Perm t.revisions) : ofRevisions document key rs = .ok t := by
  have linked : ofRevisions document key chain = .ok t := by
    refine ofRevisionsIff.mpr ⟨grown, ?_, grew.chosen⟩
    rw [sortSorted (grew.rising.imp le_of_lt)]
    exact grew.grows
  refine ofRevisionsBare ?_ linked
  rw [← revisionsBare grew.grows grew.rising, ← grew.chosen]
  exact (perm.map _).symm

theorem Grown.free (grew : Grown document key given t chain grown) {q : Int}
    (later : ∀ x ∈ given, x < q) : t.get? q = none := by
  refine Option.eq_none_iff_forall_ne_some.mpr ?_
  intro x found
  rw [grew.chosen] at found
  obtain ⟨old, before, _⟩ := chosenIff.mp found
  obtain ⟨r, linked, rfl, _⟩ := (memGrown grew.grows).mp before
  exact lt_irrefl _ (later _ (grew.given r linked))

inductive Added (t : RevisionTree) (given : List Int) : RevisionTree → Prop where
  | nothing : Added t given t
  | linked {chain : List Revision} {last : RevisionTree} (grows : Grows t chain last)
      (all : chain.map (·.sequence) = given) : Added t given last.chooseWinner

theorem Added.rises {u : RevisionTree} (added : t.Added more u)
    (grew : Grown document key given t chain grown) (order : (given ++ more).Pairwise (· < ·)) :
    ∃ chain grown, Grown document key (given ++ more) u chain grown := by
  obtain ⟨_, rising, cross⟩ := List.pairwise_append.mp order
  cases added with
  | nothing =>
    exact ⟨chain, grown, grew.grows, grew.chosen, grew.rising,
      fun r member => List.mem_append_left _ (grew.given r member)⟩
  | @linked links last grows all =>
    have wf := wellFormedGrows grew.grows (emptyWellFormed document key)
    have flagged := growsKeeps flaggedLink grew.grows (emptyCrowned document key).flagged
    rw [grew.chosen] at grows
    obtain ⟨whole, grows, same⟩ := growsUnchosen wf flagged grows
    have given' (r : Revision) (member : r ∈ links) : r.sequence ∈ more :=
      all ▸ List.mem_map_of_mem member
    refine ⟨chain ++ links, whole, growsAppend.mpr ⟨grown, grew.grows, grows⟩, same, ?_, ?_⟩
    · refine List.pairwise_append.mpr ⟨grew.rising, List.pairwise_map.mp (all ▸ rising), ?_⟩
      intro a before b after
      exact cross _ (grew.given a before) _ (given' b after)
    · intro r member
      rcases List.mem_append.mp member with before | after
      · exact List.mem_append_left _ (grew.given r before)
      · exact List.mem_append_right _ (given' r after)

theorem insertChildAdded {σ : Type} {digest : ContentDigest} {commit : Commit σ}
    {parent : Option Int} {body : DocumentBody} {attachments : AttachmentMap} {deleted : Bool}
    {s s' : σ} {log : List Answer} {report : InsertReport}
    (ok : t.insertChild digest commit.recorded parent body attachments deleted (s, []) =
      (.ok (grown, report), (s', log))) : t.Added (log.filterMap sequenceIn) grown := by
  obtain ⟨draft, x, drafted, committed, placed⟩ := insertChildOk ok
  obtain ⟨fits, rfl, _⟩ := placeOk placed
  have new : draft.sequence = unassigned := by
    rw [(draftOk drafted).1]
    rfl
  obtain ⟨a, answers, outcome⟩ := runRecordedNew commit new s []
  rw [committed] at answers outcome
  rcases outcome with ⟨_, unsequenced⟩ | ⟨q, rfl, _, same⟩
  · have low := unsequenced x rfl
    have high := fits.positive
    simp [Revision.isSequenced] at low
    omega
  · cases same
    cases answers
    exact .linked (.cons fits (.nil _)) rfl

theorem insertForeignAdded {σ : Type} {commit : Commit σ} {r : Revision}
    {history : List RevisionId} {s s' : σ} {log : List Answer} {outcome : ForeignInsert}
    (wf : t.WellFormed) (free : ∀ q ∈ log.filterMap sequenceIn, t.get? q = none)
    (once : (log.filterMap sequenceIn).Nodup)
    (ok : t.insertForeign commit.recorded r history (s, []) = (.ok (grown, outcome), (s', log))) :
    t.Added (log.filterMap sequenceIn) grown := by
  cases insertForeignOk ok with
  | present => exact .nothing
  | @inserted known chain done _ _ _ plan committed placed =>
    obtain ⟨_, _, descends, shape⟩ := planForeignIff.mp plan
    have staged := planStaged wf descends shape.symm
    obtain ⟨answers, given, result⟩ :=
      commitChainRecorded commit t (known.getD noParent) staged.new s []
    rw [committed] at given result
    rcases result with ⟨e, failed, _⟩ | ⟨qs, rfl, length, positive, same⟩
    · cases failed
    · cases same
      cases given
      rw [sequencesIn] at free once ⊢
      obtain ⟨last, grows⟩ := staged.grows ⟨length, positive, free, once⟩
      obtain ⟨rfl, _⟩ := placeChainOk placed
      rw [← growsFold grows]
      exact .linked grows (placedSequences length)

theorem runAdded {σ : Type} (wf : t.WellFormed) (w : TreeWrite) (commit : Commit σ) (s : σ)
    (free : ∀ q ∈ (w.answers t commit s).filterMap sequenceIn, t.get? q = none)
    (once : ((w.answers t commit s).filterMap sequenceIn).Nodup)
    (ok : (w.run t commit s).1 = .ok grown) :
    t.Added ((w.answers t commit s).filterMap sequenceIn) grown := by
  rw [← TreeWrite.runRecorded w t commit s []] at ok
  cases w with
  | edit digest parent body attachments deleted =>
    obtain ⟨report, done⟩ : ∃ report, (t.insertLocalEdit digest commit.recorded parent body
        attachments deleted (s, [])).1 = .ok (grown, report) := mapFstOk ok
    show t.Added ((t.insertLocalEdit digest commit.recorded parent body attachments deleted
      (s, [])).2.2.filterMap sequenceIn) grown
    unfold insertLocalEdit at done ⊢
    cases above : t.editParent parent with
    | error e => simp [above] at done
    | ok p =>
      rw [above] at done
      exact insertChildAdded (Prod.ext done rfl)
  | tombstone digest leaf =>
    obtain ⟨report, done⟩ : ∃ report, (t.tombstoneLeaf digest commit.recorded leaf (s, [])).1 =
        .ok (grown, report) := mapFstOk ok
    obtain ⟨q, _, _, _, _, _, same⟩ := tombstoneLeafOk done
    show t.Added ((t.tombstoneLeaf digest commit.recorded leaf (s, [])).2.2.filterMap
      sequenceIn) grown
    rw [same] at done ⊢
    exact insertChildAdded (Prod.ext done rfl)
  | foreign r history =>
    obtain ⟨outcome, done⟩ : ∃ outcome, (t.insertForeign commit.recorded r history (s, [])).1 =
        .ok (grown, outcome) := mapFstOk ok
    exact insertForeignAdded wf free once (Prod.ext done rfl)

/-- Trees that writes make of an empty one, with all answers that their commits gave. -/
inductive Written (document : DocumentId) (key : Int) : List Answer → RevisionTree → Prop where
  | empty : Written document key [] (.empty document key)
  | write {log : List Answer} {t : RevisionTree} {σ : Type} (before : Written document key log t)
      (w : TreeWrite) (commit : Commit σ) (s : σ) :
      Written document key (log ++ w.answers t commit s) (w.after t commit s)

theorem Written.rises {log : List Answer} (written : Written document key log t)
    (order : (log.filterMap sequenceIn).Pairwise (· < ·)) :
    ∃ chain grown, Grown document key (log.filterMap sequenceIn) t chain grown := by
  induction written with
  | empty => exact ⟨[], _, .nil _, rfl, .nil, by simp⟩
  | @write log t σ before w commit s ih =>
    rw [List.filterMap_append] at order ⊢
    obtain ⟨rising, rising', cross⟩ := List.pairwise_append.mp order
    obtain ⟨chain, grown, grew⟩ := ih rising
    have free (q : Int) (given : q ∈ (w.answers t commit s).filterMap sequenceIn) :
        t.get? q = none := grew.free fun x earlier => cross x earlier q given
    have added : t.Added ((w.answers t commit s).filterMap sequenceIn) (w.after t commit s) := by
      unfold TreeWrite.after
      cases ran : (w.run t commit s).1 with
      | error e => exact .nothing
      | ok u => exact runAdded grew.wellFormed w commit s free (rising'.imp ne_of_lt) ran
    exact added.rises grew order

/-- What is accepted depends on the set alone, and so does the tree that is built; a tree that
grew under rising sequences is built again from its revisions. -/
theorem rebuiltInAnyOrder :
    (∀ (document : DocumentId) (key : Int) (rs : List Revision),
      (∃ t, ofRevisions document key rs = .ok t) ↔ Acceptable document rs) ∧
    (∀ (document : DocumentId) (key : Int) (rs rs' : List Revision),
      (rs.map Revision.bare).Perm (rs'.map Revision.bare) →
      ∀ t, ofRevisions document key rs = .ok t ↔ ofRevisions document key rs' = .ok t) ∧
    ∀ (document : DocumentId) (key : Int) (log : List Answer) (t : RevisionTree),
      Written document key log t → (log.filterMap sequenceIn).Pairwise (· < ·) →
      ∀ rs, rs.Perm t.revisions → ofRevisions t.document t.key rs = .ok t := by
  refine ⟨fun _ _ _ => ofRevisionsAccepts, ?_, ?_⟩
  · intro document key rs rs' perm t
    exact ⟨ofRevisionsBare perm, ofRevisionsBare perm.symm⟩
  · intro document key log t written order rs perm
    obtain ⟨chain, grown, grew⟩ := written.rises order
    have rebuilt := grew.rebuilt perm
    obtain ⟨own, sameKey⟩ := Reachable.identity (.built rebuilt)
    rw [own, sameKey]
    exact rebuilt

namespace Sample

-- A child that comes with its root, a child whose commit fails, and one with a later sequence.
def renewals : List (TreeWrite × List Answer) :=
  [(.foreign (delivered child) [child, root], [.ok (some 2), .ok (some 5)]),
    (.edit (digest "c") (some child) .empty .empty false,
      [.error (.storage (.sequenceAllocation "full"))]),
    (.edit (digest "c") (some child) .empty .empty true, [.ok (some 9)])]

def renewed : RevisionTree :=
  renewals.foldl (fun t call => call.1.after t Commit.scripted call.2) (.empty Sample.document 7)

theorem renewedWritten :
    ∃ log, Written Sample.document 7 log renewed ∧ (log.filterMap sequenceIn).Pairwise (· < ·) := by
  unfold renewed renewals
  simp only [List.foldl_cons, List.foldl_nil]
  refine ⟨_, .write (.write (.write .empty _ _ _) _ _ _) _ _ _, ?_⟩
  decide

def marked (r : Revision) : Revision := { r with current := true, dirty := true, key := 3 }

end Sample

theorem markedRebuilt :
    Sample.renewed.size = 3 ∧
      (∃ log, Written Sample.document 7 log Sample.renewed ∧
        (log.filterMap sequenceIn).Pairwise (· < ·)) ∧
      Acceptable Sample.renewed.document (Sample.renewed.revisions.reverse.map Sample.marked) ∧
      ofRevisions Sample.renewed.document Sample.renewed.key
        (Sample.renewed.revisions.reverse.map Sample.marked) = .ok Sample.renewed := by
  obtain ⟨accepts, anyMarks, anyOrder⟩ := rebuiltInAnyOrder
  obtain ⟨log, written, order⟩ := Sample.renewedWritten
  have plain := anyOrder Sample.document 7 log Sample.renewed written order _
    (List.reverse_perm Sample.renewed.revisions)
  have bare : (Sample.renewed.revisions.reverse.map Sample.marked).map Revision.bare =
      Sample.renewed.revisions.reverse.map Revision.bare := by
    rw [List.map_map]
    rfl
  have rebuilt := (anyMarks _ Sample.renewed.key _ _ (.of_eq bare) _).mpr plain
  exact ⟨by decide, ⟨log, written, order⟩, (accepts _ _ _).mp ⟨_, rebuilt⟩, rebuilt⟩

end RevisionTree
end RevForest
