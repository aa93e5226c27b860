import RevForest.Proofs.Tree.Forest
import RevForest.Proofs.Tree.SameForest

/-! Foreign inserts under commits that may give any sequence. The check that is made after
the commits compares a chain with the tree and not with itself: it passes exactly when
each sequence is positive and free in the tree. A sequence that was given twice passes
too, and then the later revision stands where the earlier one was linked. -/
namespace RevForest

namespace RevisionTree
variable {t : RevisionTree} {parent : Int} {chain : List Revision} {qs : List Int}

def Usable (t : RevisionTree) (a : Answer) : Prop :=
  ∃ q, a = .ok (some q) ∧ 0 < q ∧ t.get? q = none

def Below (t : RevisionTree) (known : Dict Int Nat) (parent : Int) (r : Revision) : Prop :=
  ∃ g, (known.find? parent).or (t.generation? parent) = some g ∧ g + 1 = r.generation

structure Chained (t : RevisionTree) (known : Dict Int Nat) (parent : Int)
    (chain : List Revision) : Prop where
  document : ∀ r ∈ chain, r.document = t.document
  freeIds : ∀ r ∈ chain, t.sequenceOf? r.id.text = none
  steps : chain.IsChain fun a b => a.generation + 1 = b.generation
  above : 0 < parent → ∀ r ∈ chain.head?, t.Below known parent r

theorem Staged.chained (staged : t.Staged parent chain) :
    t.Chained Dict.empty parent chain where
  document := staged.document
  freeIds := staged.freeIds
  steps := staged.steps
  above child r first := by
    obtain ⟨p, found, next⟩ := staged.above child r first
    exact ⟨p.generation, generationIff.mpr ⟨p, found, rfl⟩, next⟩

theorem Chained.rest {known : Dict Int Nat} {r : Revision} {q : Int}
    (chained : t.Chained known parent (r :: chain)) :
    t.Chained (known.insert q r.generation) q chain where
  document x later := chained.document x (List.mem_cons_of_mem _ later)
  freeIds x later := chained.freeIds x (List.mem_cons_of_mem _ later)
  steps := (List.isChain_cons.mp chained.steps).2
  above _ x head := by
    refine ⟨r.generation, ?_, (List.isChain_cons.mp chained.steps).1 x head⟩
    rw [Dict.findInsert, if_pos rfl, Option.some_or]

theorem Chained.checkFirst {known : Dict Int Nat} {r : Revision} {q : Int}
    (chained : t.Chained known parent (r :: chain)) (positive : 0 < q) :
    t.checkLink (fun s => (known.find? s).or (t.generation? s))
      { r with parent, sequence := q } = .ok () ↔ t.get? q = none := by
  rw [checkLinkIff]
  constructor
  · exact fun checked => checked.2.2.1
  · intro free
    exact ⟨chained.document r List.mem_cons_self, positive, free,
      chained.freeIds r List.mem_cons_self, fun child => chained.above child r rfl⟩

theorem bindOk {α : Type} {first : Except DocumentError Unit} {next : Except DocumentError α}
    {a : α} : (first >>= fun _ => next) = .ok a ↔ first = .ok () ∧ next = .ok a := by
  cases first <;> simp [bind, Except.bind]

theorem Chained.checkIff {known : Dict Int Nat} (chained : t.Chained known parent chain)
    (length : qs.length = chain.length) (positive : ∀ q ∈ qs, 0 < q) :
    t.checkChain known (placed parent chain qs) = .ok () ↔ ∀ q ∈ qs, t.get? q = none := by
  induction chain generalizing known parent qs with
  | nil =>
    rw [List.eq_nil_of_length_eq_zero length]
    exact iff_of_true rfl (List.forall_mem_nil _)
  | cons r rest ih =>
    cases qs with
    | nil => cases length
    | cons q qs =>
      obtain ⟨here, later⟩ := List.forall_mem_cons.mp positive
      unfold placed checkChain
      rw [bindOk, chained.checkFirst here, List.forall_mem_cons]
      exact and_congr_right fun _ => ih chained.rest (Nat.succ.inj length) later

theorem sizeLink (sorted : t.nodes.Sorted) (r : Revision) :
    (t.link r).size = t.size + if t.get? r.sequence = none then 1 else 0 := by
  unfold size
  simp only [linkShape, getNode]
  split
  · rw [Dict.sizeInsert (Dict.sortedAdjust sorted _ _), Dict.sizeAdjust, Dict.findAdjust]
    split
    · rename_i same
      simp [same]
    · rfl
  · exact Dict.sizeInsert sorted _ _

theorem sizeBound (sorted : t.nodes.Sorted) (done : List Revision) :
    (done.foldl link t).size ≤ t.size + done.length := by
  induction done generalizing t with
  | nil => simp
  | cons r rest ih =>
    have grown := sizeLink sorted r
    have bound := ih (sortedLink sorted r)
    rw [List.foldl_cons, List.length_cons]
    split at grown <;> omega

theorem absentLink (t : RevisionTree) (r : Revision) (s : Int) :
    (t.link r).get? s = none ↔ s ≠ r.sequence ∧ t.get? s = none := by
  rw [getLink]
  split
  · rename_i same
    simp [same]
  · rename_i other
    simp [other]

theorem sizeFold (sorted : t.nodes.Sorted) (done : List Revision) :
    (done.foldl link t).size = t.size + done.length ↔
      (∀ x ∈ done, t.get? x.sequence = none) ∧ (done.map (·.sequence)).Nodup := by
  induction done generalizing t with
  | nil => simp
  | cons r rest ih =>
    have grown := sizeLink sorted r
    have bound := sizeBound (sortedLink sorted r) rest
    have later := ih (sortedLink sorted r)
    rw [List.foldl_cons, List.length_cons, List.forall_mem_cons, List.map_cons, List.nodup_cons]
    by_cases free : t.get? r.sequence = none
    · rw [if_pos free] at grown
      have count : (rest.foldl link (t.link r)).size = t.size + (rest.length + 1) ↔
          (rest.foldl link (t.link r)).size = (t.link r).size + rest.length := by omega
      have apart : (∀ x ∈ rest, (t.link r).get? x.sequence = none) ↔
          r.sequence ∉ rest.map (·.sequence) ∧ ∀ x ∈ rest, t.get? x.sequence = none := by
        simp only [absentLink, List.mem_map, not_exists, not_and, forall_and, ne_eq]
      rw [count, later, apart, and_iff_right free]
      tauto
    · rw [if_neg free] at grown
      have short : (rest.foldl link (t.link r)).size ≠ t.size + (rest.length + 1) := by omega
      simp [short, free]

def Shows (t : RevisionTree) (x : Revision) : Prop :=
  (t.find? x.id.text).map Revision.unflagged = some (t.settled x)

theorem sequenceSkip {x : Revision} {rest : List Revision} (other : ∀ y ∈ rest, x.id ≠ y.id) :
    (rest.foldl link t).sequenceOf? x.id.text = t.sequenceOf? x.id.text := by
  induction rest generalizing t with
  | nil => rfl
  | cons y rest ih =>
    obtain ⟨first, later⟩ := List.forall_mem_cons.mp other
    have text : x.id.text ≠ y.id.text := fun same => first (RevisionId.ext_text same)
    rw [List.foldl_cons, ih later, sequenceLink, if_neg text]

theorem sequenceFold {done : List Revision} (apart : done.Pairwise fun a b => a.id ≠ b.id)
    {x : Revision} (member : x ∈ done) :
    (done.foldl link t).sequenceOf? x.id.text = some x.sequence := by
  induction done generalizing t with
  | nil => cases member
  | cons r rest ih =>
    obtain ⟨first, later⟩ := List.pairwise_cons.mp apart
    rcases List.mem_cons.mp member with rfl | inside
    · rw [List.foldl_cons, sequenceSkip first, sequenceLink, if_pos rfl]
    · exact ih later inside

theorem nodesApart {u : RevisionTree} {done : List Revision}
    (apart : done.Pairwise fun a b => a.id ≠ b.id)
    (node : ∀ x ∈ done, ∃ y, u.get? x.sequence = some y ∧ y.id = x.id) :
    (done.map (·.sequence)).Nodup := by
  refine List.pairwise_map.mpr (apart.imp_of_mem ?_)
  intro a b first second other same
  obtain ⟨y, here, own⟩ := node a first
  obtain ⟨z, there, name⟩ := node b second
  rw [same, there] at here
  cases here
  exact other (own.symm.trans name)

theorem sizeChosen (t : RevisionTree) : t.chooseWinner.size = t.size := by
  have current (nodes : Dict Int Node) (chosen : Option Int) (flag : Bool) :
      (setCurrent nodes chosen flag).size = nodes.size := by
    unfold setCurrent
    cases chosen with
    | none => rfl
    | some s => exact Dict.sizeAdjust _ _ _
  exact (current _ _ _).trans (current _ _ _)

/-- Each sign that a chain stands in the tree turns on whether a sequence was given twice. -/
structure IntactIff (t after : RevisionTree) (done : List Revision) : Prop where
  wellFormed : after.WellFormed ↔ (done.map (·.sequence)).Nodup
  size : after.size = t.size + done.length ↔ (done.map (·.sequence)).Nodup
  shown : (∀ x ∈ done, after.Shows x) ↔ (done.map (·.sequence)).Nodup

theorem growsShows {grown : RevisionTree} {done : List Revision} (wf : t.WellFormed)
    (grows : Grows t done grown) {x : Revision} (member : x ∈ done) :
    grown.chooseWinner.Shows x := by
  have node : grown.get? x.sequence = some (t.settled x) :=
    (getGrows grows).mpr (.inr ⟨x, member, rfl, rfl⟩)
  have here : grown.sequenceOf? x.id.text = some x.sequence :=
    ((wellFormedGrows grows wf).indexed _ _).mpr ⟨_, node, rfl⟩
  have key : grown.key = t.key :=
    growsKeeps (P := fun u => u.key = t.key) (fun _ => id) grows rfl
  unfold Shows find? settled
  rw [sequenceChosen, here, Option.bind_some, getChosen, node]
  simp [settled, Revision.unflagged, chooseWinner, key]

theorem showsNode {u : RevisionTree} {x : Revision} (shown : u.Shows x)
    (here : u.sequenceOf? x.id.text = some x.sequence) :
    ∃ y, u.get? x.sequence = some y ∧ y.id = x.id := by
  unfold Shows find? at shown
  rw [here, Option.bind_some] at shown
  obtain ⟨y, found, plain⟩ := Option.map_eq_some_iff.mp shown
  exact ⟨y, found, show y.unflagged.id = (u.settled x).id from congrArg Revision.id plain⟩

theorem intactIff {done : List Revision} (wf : t.WellFormed)
    (apart : done.Pairwise fun a b => a.id ≠ b.id)
    (free : ∀ x ∈ done, t.get? x.sequence = none)
    (grows : (done.map (·.sequence)).Nodup → Grows t done (done.foldl link t)) :
    t.IntactIff (done.foldl link t).chooseWinner done where
  wellFormed := by
    constructor
    · intro after
      refine nodesApart (u := (done.foldl link t).chooseWinner) apart ?_
      intro x member
      have here := sequenceFold (t := t) apart member
      obtain ⟨y, found, text⟩ := (after.indexed _ _).mp here
      exact ⟨y, found, RevisionId.ext_text text⟩
    · exact fun once => wellFormedChosen (wellFormedGrows (grows once) wf)
  size := by
    rw [sizeChosen, sizeFold wf.nodesSorted, and_iff_right free]
  shown := by
    constructor
    · intro shown
      refine nodesApart (u := (done.foldl link t).chooseWinner) apart ?_
      intro x member
      exact showsNode (shown x member) (sequenceFold (t := t) apart member)
    · exact fun once x member => growsShows wf (grows once) member

theorem Staged.apart (staged : t.Staged parent chain) : (chain.map (·.id)).Nodup := by
  have rising : chain.IsChain fun a b => a.generation < b.generation :=
    staged.steps.imp fun a b next => by omega
  refine List.pairwise_map.mpr (rising.pairwise.imp ?_)
  intro a b below same
  unfold Revision.generation at below
  rw [same] at below
  exact lt_irrefl _ below

inductive ForeignOutcome (t : RevisionTree) (r : Revision) (history : List RevisionId)
    (answers : List Answer) : RevisionTree → Except DocumentError ForeignInsert → Prop where
  | refused {e : DocumentError} (plan : t.planForeign r history = .error e) :
      ForeignOutcome t r history answers t (.error e)
  | present {q : Int} (plan : t.planForeign r history = .ok (.present q)) :
      ForeignOutcome t r history answers t (.ok (.alreadyPresent q))
  | failed {known : Option Int} {chain : List Revision} {e : DocumentError}
      (plan : t.planForeign r history = .ok (.missing known chain))
      (unusable : ∃ a ∈ answers, ¬ t.Usable a) : ForeignOutcome t r history answers t (.error e)
  | inserted {known : Option Int} {chain : List Revision} {qs : List Int} {after : RevisionTree}
      {report : InsertReport} (plan : t.planForeign r history = .ok (.missing known chain))
      (given : answers = qs.map fun q => .ok (some q)) (length : qs.length = chain.length)
      (usable : ∀ a ∈ answers, t.Usable a)
      (count : report.inserted = (placed (known.getD noParent) chain qs).length)
      (intact : t.IntactIff after (placed (known.getD noParent) chain qs)) :
      ForeignOutcome t r history answers after (.ok (.inserted report))

def left (t : RevisionTree) (result : Except DocumentError (RevisionTree × ForeignInsert)) :
    RevisionTree :=
  match result with
  | .ok (grown, _) => grown
  | .error _ => t

theorem Staged.intactIff (staged : t.Staged parent chain) (wf : t.WellFormed)
    (length : qs.length = chain.length) (positive : ∀ q ∈ qs, 0 < q)
    (free : ∀ q ∈ qs, t.get? q = none) :
    t.IntactIff ((placed parent chain qs).foldl link t).chooseWinner (placed parent chain qs) := by
  have sequences : (placed parent chain qs).map (·.sequence) = qs := placedSequences length
  have ids : (placed parent chain qs).map (·.id) = chain.map (·.id) := placedIds length
  refine RevisionTree.intactIff wf (List.pairwise_map.mp (ids.symm ▸ staged.apart)) ?_ ?_
  · intro x member
    exact free _ (sequences ▸ List.mem_map_of_mem member)
  · intro once
    obtain ⟨grown, grows⟩ := staged.grows ⟨length, positive, free, sequences ▸ once⟩
    rwa [← growsFold grows]

theorem Staged.placeChain (staged : t.Staged parent chain) (wf : t.WellFormed)
    (length : qs.length = chain.length) (positive : ∀ q ∈ qs, 0 < q) (isRoot : Bool) :
    ((∃ e, t.placeChain isRoot (placed parent chain qs) = .error e) ∧ ∃ q ∈ qs, t.get? q ≠ none) ∨
      ∃ after report, t.placeChain isRoot (placed parent chain qs) = .ok (after, report) ∧
        report.inserted = (placed parent chain qs).length ∧ (∀ q ∈ qs, t.get? q = none) ∧
        t.IntactIff after (placed parent chain qs) := by
  have checkIff := staged.chained.checkIff length positive
  unfold RevisionTree.placeChain
  cases checked : t.checkChain Dict.empty (placed parent chain qs) with
  | error e =>
    rw [checked] at checkIff
    refine .inl ⟨⟨e, rfl⟩, ?_⟩
    by_contra free
    push Not at free
    cases checkIff.mpr free
  | ok _ =>
    have free := checkIff.mp checked
    exact .inr ⟨_, _, rfl, rfl, free, staged.intactIff wf length positive free⟩

theorem insertForeignLeft {σ : Type} (wf : t.WellFormed) (commit : Commit σ) (s : σ)
    (r : Revision) (history : List RevisionId) :
    t.ForeignOutcome r history (t.insertForeign commit.recorded r history (s, [])).2.2
      (t.left (t.insertForeign commit.recorded r history (s, [])).1)
      ((t.insertForeign commit.recorded r history (s, [])).1.map Prod.snd) := by
  unfold insertForeign
  cases plan : t.planForeign r history with
  | error e => exact .refused plan
  | ok wanted =>
    cases wanted with
    | present q => exact .present plan
    | missing known chain =>
      obtain ⟨_, _, descends, shape⟩ := planForeignIff.mp plan
      have staged := planStaged wf descends shape.symm
      obtain ⟨answers, log, outcome⟩ :=
        commitChainRecorded commit t (known.getD noParent) staged.new s []
      dsimp only
      generalize t.commitChain commit.recorded (known.getD noParent) chain (s, []) = ran
        at log outcome ⊢
      obtain ⟨result, last, asked⟩ := ran
      dsimp only [List.nil_append] at log outcome
      subst log
      rcases outcome with ⟨e, rfl, a, member, bad⟩ | ⟨qs, rfl, length, positive, rfl⟩
      · refine .failed plan ⟨a, member, ?_⟩
        rintro ⟨q, same, high, _⟩
        exact bad ⟨q, same, high⟩
      · rcases staged.placeChain wf length positive known.isNone with
          ⟨⟨e, refused⟩, q, member, taken⟩ | ⟨after, report, done, count, free, intact⟩
        · simp only [refused]
          refine .failed plan ⟨_, List.mem_map_of_mem member, ?_⟩
          rintro ⟨_, ⟨⟩, _, free⟩
          exact taken free
        · simp only [done]
          refine .inserted plan rfl length ?_ count intact
          intro a given
          obtain ⟨q, member, rfl⟩ := List.mem_map.mp given
          exact ⟨q, rfl, positive q member, free q member⟩

/-- A foreign insert fails and leaves the tree, or finds the revision, or takes the whole chain;
then the tree is right exactly when the commits gave no sequence twice. -/
theorem insertForeignOutcome {σ : Type} (wf : t.WellFormed) (commit : Commit σ) (s : σ)
    (r : Revision) (history : List RevisionId) :
    t.ForeignOutcome r history ((TreeWrite.foreign r history).answers t commit s)
      ((TreeWrite.foreign r history).after t commit s)
      ((t.insertForeign commit r history s).1.map Prod.snd) := by
  have outcome := insertForeignLeft wf commit s r history
  have same : (t.insertForeign commit.recorded r history (s, [])).1 =
      (t.insertForeign commit r history s).1 :=
    congrArg Prod.fst (commit.recordedFollows.insertForeign t r history (s, []))
  have after : t.left (t.insertForeign commit r history s).1 =
      (TreeWrite.foreign r history).after t commit s := by
    unfold left TreeWrite.after TreeWrite.run
    simp only [Prod.map_fst]
    cases (t.insertForeign commit r history s).1 <;> rfl
  rw [same, after] at outcome
  exact outcome

theorem ForeignOutcome.intact {r : Revision} {history : List RevisionId} {answers : List Answer}
    {after : RevisionTree} {report : InsertReport}
    (outcome : t.ForeignOutcome r history answers after (.ok (.inserted report)))
    (once : (answers.filterMap sequenceIn).Nodup) :
    after.WellFormed ∧ after.size = t.size + report.inserted := by
  cases outcome with
  | @inserted known chain qs _ _ plan given length usable count intact =>
    have apart : ((placed (known.getD noParent) chain qs).map (·.sequence)).Nodup := by
      rw [given, sequencesIn] at once
      rwa [placedSequences length]
    exact ⟨intact.wellFormed.mpr apart, count ▸ intact.size.mpr apart⟩

namespace Sample

-- A child that comes with its root, under commits that give these sequences.
def given (qs : List Int) : RevisionTree :=
  (TreeWrite.foreign (delivered child) [child, root]).after (.empty document 7)
    Commit.scripted (qs.map fun q => .ok (some q))

end Sample

theorem laterRootSequenceIntact :
    (Sample.given [5, 2]).WellFormed ∧ (Sample.given [5, 2]).size = 2 := by
  have outcome := insertForeignOutcome (emptyWellFormed Sample.document 7) Commit.scripted
    [.ok (some 5), .ok (some 2)] (Sample.delivered Sample.child) [Sample.child, Sample.root]
  exact outcome.intact (by decide +kernel)

/-- The child is its own parent, and the root is lost. -/
theorem sharedSequenceLosesRoot :
    (∃ report, ((empty Sample.document 7).insertForeign Commit.scripted
        (Sample.delivered Sample.child) [Sample.child, Sample.root]
        [.ok (some 5), .ok (some 5)]).1.map Prod.snd = .ok (.inserted report) ∧
      report.inserted = 2) ∧
      (Sample.given [5, 5]).size = 1 ∧ (Sample.given [5, 5]).parentOf 5 = some 5 ∧
      ((Sample.given [5, 5]).find? Sample.root.text).map (·.id) = some Sample.child ∧
      ¬ (Sample.given [5, 5]).WellFormed := by
  have root : (Sample.given [5, 5]).sequenceOf? "1-a" = some 5 := by decide +kernel
  have node : ((Sample.given [5, 5]).get? 5).map (·.id.text) = some "2-b" := by decide +kernel
  refine ⟨⟨_, rfl, rfl⟩, by decide +kernel, by decide +kernel, by decide +kernel, ?_⟩
  intro wf
  obtain ⟨r, found, text⟩ := (wf.indexed _ _).mp root
  rw [found, Option.map_some, text] at node
  revert node
  decide

end RevisionTree
end RevForest
