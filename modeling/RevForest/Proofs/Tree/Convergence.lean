import RevForest.Proofs.Tree.Forest

/-! Replicas that take over the same deliveries in any order, any number of times,
agree on everything but sequences. What a tree holds after some deliveries is read off
them: its ids are those of their paths, its edges those of the forest, and a leaf has
the content of the delivery that named it. Stubs are always inner nodes. -/
namespace RevForest

structure Delivery where
  revision : Revision
  history : List RevisionId

namespace Delivery

def path (d : Delivery) : List RevisionId := RevisionTree.pathOf d.revision.id d.history

def write (d : Delivery) : TreeWrite := .foreign d.revision d.history

structure Complete (d : Delivery) (f : Forest) (document : DocumentId) : Prop where
  full : d.revision.projection = none
  document : d.revision.document = document
  path : f.Path d.revision.id d.path
  named : d.revision.attachments.Named

end Delivery

namespace RevisionTree
variable {f : Forest} {t grown : RevisionTree} {ds : List Delivery}

structure Mirrors (t : RevisionTree) (f : Forest) (ds : List Delivery) : Prop where
  ids : ∀ id, t.HasId id ↔ ∃ d ∈ ds, id ∈ d.path
  follows : t.Follows f
  leaves : ∀ s r, t.LeafAt s r →
    ∃ d ∈ ds, d.revision.id = r.id ∧ d.revision.content = r.content

theorem emptyMirrors (document : DocumentId) (key : Int) (f : Forest) :
    (empty document key).Mirrors f [] where
  ids id := by simp [HasId, get?, empty]
  follows s r found := by simp [get?, empty] at found
  leaves s r leaf := by simp [LeafAt, get?, empty] at leaf

theorem followsPath {id : RevisionId} {ids : List RevisionId} (follows : t.Follows f)
    (path : f.Path id ids) (here : t.HasId id) : ∀ x ∈ ids, t.HasId x := by
  induction path with
  | root top =>
    intro x member
    rw [List.mem_singleton.mp member]
    exact here
  | step above next ih =>
    intro x member
    rcases List.mem_cons.mp member with rfl | later
    · exact here
    · obtain ⟨s, r, found, rfl⟩ := here
      have up := follows s r found
      rw [above] at up
      unfold parentId at up
      split at up
      · obtain ⟨p, parent, same⟩ := Option.map_eq_some_iff.mp up
        exact ih ⟨_, p, parent, same⟩ x later
      · cases up

theorem Cut.climbs {r : Revision} {path missing rest : List RevisionId} {known : Option Int}
    {chain : List Revision} (wf : t.WellFormed) (cut : t.Cut r path missing rest known chain)
    (up : f.Path r.id path) : t.Climbs f (known.getD noParent) chain := by
  obtain ⟨steps, top⟩ := up.climbs
  refine ⟨?_, cut.steps steps⟩
  intro x first
  have last := cut.first first
  unfold parentId
  split
  · rename_i positive
    obtain ⟨k, above, p, rfl, node, rfl⟩ := cut.known wf positive
    rw [cut.whole] at steps
    obtain ⟨_, _, joint⟩ := List.isChain_append.mp steps
    rw [node]
    exact (joint x.id last p.id rfl).symm
  · rename_i root
    have none : rest = [] := by
      rcases cut.ends with ⟨none, _⟩ | ⟨k, above, s, _, here, rfl⟩
      · exact none
      · obtain ⟨p, node, _⟩ := (wf.indexed k.text s).mp here
        exact absurd (wf.own s p node).2.1 root
    rw [cut.whole, none, List.append_nil] at top
    exact (top x.id last).symm

theorem adoptContent {r : Revision} (named : r.attachments.Named) :
    (t.adopt r).content = r.content := by
  unfold Revision.content adopt
  rw [AttachmentMap.ofRecordsNamed named]

theorem Mirrors.grow {d : Delivery} {missing rest : List RevisionId} {known : Option Int}
    {chain : List Revision} {qs : List Int} (wf : t.WellFormed) (mirrors : t.Mirrors f ds)
    (complete : d.Complete f t.document)
    (cut : t.Cut d.revision d.path missing rest known chain) (length : qs.length = chain.length)
    (grows : Grows t (placed (known.getD noParent) chain qs) grown) :
    grown.Mirrors f (ds ++ [d]) where
  ids id := by
    -- The part of the path that was known is in the tree already.
    have old : id ∈ rest → t.HasId id := by
      intro member
      rcases cut.ends with ⟨rfl, _⟩ | ⟨k, above, s, rfl, here, _⟩
      · cases member
      · obtain ⟨p, node, text⟩ := (wf.indexed k.text s).mp here
        have up := complete.path.suffix cut.whole
        exact followsPath mirrors.follows up ⟨s, p, node, RevisionId.ext_text text⟩ id member
    have both : (∃ x ∈ ds ++ [d], id ∈ x.path) ↔ (∃ x ∈ ds, id ∈ x.path) ∨ id ∈ d.path := by
      simp [or_and_right, exists_or]
    rw [hasIdGrows grows, placedIds length, cut.ids, List.mem_reverse, both, ← mirrors.ids,
      cut.whole, List.mem_append]
    constructor
    · intro inside
      exact inside.imp_right .inl
    · intro inside
      rcases inside with here | new | known
      · exact .inl here
      · exact .inr new
      · exact .inl (old known)
  follows := followsChain wf mirrors.follows (cut.climbs wf complete.path) grows
  leaves s r leaf := by
    rcases leafChain length grows leaf with before | ⟨x, last, id, content⟩
    · obtain ⟨e, member, same⟩ := mirrors.leaves s r before
      exact ⟨e, List.mem_append_left _ member, same⟩
    · rw [cut.chain, List.getLast?_concat, Option.mem_some_iff] at last
      subst last
      rw [adoptContent complete.named] at content
      exact ⟨d, by simp, id, content⟩

theorem Mirrors.present {d : Delivery} (mirrors : t.Mirrors f ds)
    (path : f.Path d.revision.id d.path) (here : t.HasId d.revision.id) :
    t.Mirrors f (ds ++ [d]) where
  ids id := by
    have both : (∃ x ∈ ds ++ [d], id ∈ x.path) ↔ (∃ x ∈ ds, id ∈ x.path) ∨ id ∈ d.path := by
      simp [or_and_right, exists_or]
    rw [both, ← mirrors.ids]
    exact (or_iff_left_of_imp (followsPath mirrors.follows path here id)).symm
  follows := mirrors.follows
  leaves s r leaf := by
    obtain ⟨e, member, same⟩ := mirrors.leaves s r leaf
    exact ⟨e, List.mem_append_left _ member, same⟩

theorem hasIdChosen (id : RevisionId) : t.chooseWinner.HasId id ↔ t.HasId id := by
  unfold HasId
  constructor
  · intro inside
    obtain ⟨s, r, found, same⟩ := inside
    obtain ⟨old, before, rfl⟩ := chosenIff.mp found
    exact ⟨s, old, before, same⟩
  · intro inside
    obtain ⟨s, r, found, same⟩ := inside
    exact ⟨s, _, chosenIff.mpr ⟨r, found, rfl⟩, same⟩

theorem parentIdChosen (parent : Int) : t.chooseWinner.parentId parent = t.parentId parent := by
  unfold parentId
  rw [getChosen, Option.map_map]
  rfl

theorem Mirrors.chosen (mirrors : t.Mirrors f ds) : t.chooseWinner.Mirrors f ds where
  ids id := (hasIdChosen id).trans (mirrors.ids id)
  follows s r found := by
    obtain ⟨old, before, rfl⟩ := chosenIff.mp found
    exact (parentIdChosen old.parent).trans (mirrors.follows s old before)
  leaves s r leaf := by
    obtain ⟨old, before, rfl⟩ := leafChosen.mp leaf
    exact mirrors.leaves s old before

/-- Deliveries taken over one after the other, and the errors of the calls that were rejected.
Each call has a commit of its own, which gives a fresh sequence whenever it is asked. -/
inductive Ingest (document : DocumentId) (key : Int) :
    List Delivery → List DocumentError → RevisionTree → Prop where
  | none : Ingest document key [] [] (empty document key)
  | next {ds : List Delivery} {errors : List DocumentError} {t : RevisionTree} {σ : Type}
      (before : Ingest document key ds errors t) (d : Delivery) (commit : Commit σ) (s : σ)
      (fresh : t.Fresh (d.write.answers t commit s))
      (assigns : ∀ a ∈ d.write.answers t commit s, (sequenceIn a).isSome = true) :
      Ingest document key (ds ++ [d]) (errors ++ d.write.errors t commit s)
        (d.write.after t commit s)

theorem Ingest.reachable {document : DocumentId} {key : Int} {errors : List DocumentError}
    (ingest : Ingest document key ds errors t) : Reachable document key t := by
  induction ingest with
  | none => exact .empty
  | next before d commit s fresh assigns ih => exact .write ih d.write commit s fresh

theorem Mirrors.delivered {σ : Type} {d : Delivery} {commit : Commit σ} {s : σ}
    (wf : t.WellFormed) (mirrors : t.Mirrors f ds) (complete : d.Complete f t.document)
    (fresh : t.Fresh (d.write.answers t commit s))
    (assigns : ∀ a ∈ d.write.answers t commit s, (sequenceIn a).isSome = true) :
    ∃ u, (d.write.run t commit s).1 = .ok u ∧ u.Mirrors f (ds ++ [d]) := by
  have planned : t.planForeign d.revision d.history = .ok (t.planOf d.revision d.path) :=
    planForeignIff.mpr ⟨complete.full, complete.document, complete.path.descends, rfl⟩
  rw [← TreeWrite.runRecorded _ t commit s []]
  have ran (o : Except DocumentError (RevisionTree × ForeignInsert))
      (same : (t.insertForeign commit.recorded d.revision d.history (s, [])).1 = o) :
      (d.write.run t commit.recorded (s, [])).1 = o.map Prod.fst :=
    congrArg (Except.map Prod.fst) same
  rcases insertForeignRecorded wf commit s d.revision d.history fresh with
    ⟨e, _, refused | ⟨e', asked⟩⟩ | ⟨q, present, same⟩ |
      ⟨known, chain, qs, grown, missing, free, grows, same⟩
  · rw [planned] at refused
    cases refused
  · cases assigns _ asked
  · rw [planned, Except.ok.injEq] at present
    obtain ⟨r, found, text⟩ := (wf.indexed _ q).mp (planPresent present)
    have here : t.HasId d.revision.id := ⟨q, r, found, RevisionId.ext_text text⟩
    exact ⟨t, ran _ same, mirrors.present complete.path here⟩
  · rw [planned, Except.ok.injEq] at missing
    obtain ⟨new, rest, cut⟩ := planCut complete.path.head missing
    exact ⟨_, ran _ same, (mirrors.grow wf complete cut free.length grows).chosen⟩

theorem ingestMirrors {document : DocumentId} {key : Int} {errors : List DocumentError}
    (ingest : Ingest document key ds errors t) (complete : ∀ d ∈ ds, d.Complete f document) :
    errors = [] ∧ t.Mirrors f ds := by
  induction ingest with
  | none => exact ⟨rfl, emptyMirrors document key f⟩
  | next before d commit s fresh assigns ih =>
    obtain ⟨rfl, mirrors⟩ := ih fun x member => complete x (List.mem_append_left _ member)
    have last : d.Complete f document := complete d (by simp)
    rw [← before.reachable.identity.1] at last
    obtain ⟨u, ran, after⟩ := mirrors.delivered before.reachable.wellFormed last fresh assigns
    unfold TreeWrite.errors TreeWrite.after
    rw [ran]
    exact ⟨rfl, after⟩

def HasRoot (t : RevisionTree) (id : RevisionId) : Prop :=
  ∃ s ∈ t.roots, ∃ r, t.get? s = some r ∧ r.id = id

def HasLeaf (t : RevisionTree) (id : RevisionId) (content : Bool × DocumentBody × AttachmentMap) :
    Prop :=
  ∃ s r, t.LeafAt s r ∧ r.id = id ∧ r.content = content

/-- The trees differ in sequences, keys and inner content only. -/
structure Agree (t t' : RevisionTree) : Prop where
  ids : ∀ id, t.HasId id ↔ t'.HasId id
  parents : ∀ s s' r r', t.get? s = some r → t'.get? s' = some r' → r.id = r'.id →
    t.parentId r.parent = t'.parentId r'.parent
  roots : ∀ id, t.HasRoot id ↔ t'.HasRoot id
  leaves : ∀ id content, t.HasLeaf id content ↔ t'.HasLeaf id content
  conflicted : t.isConflicted = t'.isConflicted

variable {t' : RevisionTree}

theorem Mirrors.sameDeliveries {ds' : List Delivery} (mirrors : t.Mirrors f ds)
    (same : ∀ d, d ∈ ds ↔ d ∈ ds') : t.Mirrors f ds' where
  ids id := by simpa only [same] using mirrors.ids id
  follows := mirrors.follows
  leaves s r leaf := by simpa only [same] using mirrors.leaves s r leaf

theorem followsRoot (wf : t.WellFormed) (follows : t.Follows f) (id : RevisionId) :
    t.HasRoot id ↔ t.HasId id ∧ f.up id = none := by
  constructor
  · intro root
    obtain ⟨s, member, r, found, rfl⟩ := root
    obtain ⟨x, here, top⟩ := (wf.roots s).mp member
    cases found.symm.trans here
    refine ⟨⟨s, r, found, rfl⟩, ?_⟩
    rw [← follows s r found]
    exact if_neg (not_lt.mpr top)
  · intro both
    obtain ⟨⟨s, r, found, rfl⟩, up⟩ := both
    refine ⟨s, (wf.roots s).mpr ⟨r, found, ?_⟩, r, found, rfl⟩
    rw [← follows s r found] at up
    by_contra child
    obtain ⟨p, parent, _⟩ := wf.linked s r found (not_le.mp child)
    unfold parentId at up
    rw [if_pos (not_le.mp child), parent] at up
    cases up

theorem followsLeaf (wf : t.WellFormed) (follows : t.Follows f) {s : Int} {r : Revision}
    (found : t.get? s = some r) :
    t.LeafAt s r ↔ ∀ id, t.HasId id → f.up id ≠ some r.id := by
  constructor
  · intro leaf id inside above
    obtain ⟨c, x, here, rfl⟩ := inside
    rw [← follows c x here] at above
    unfold parentId at above
    split at above
    · rename_i child
      obtain ⟨p, parent, same⟩ := Option.map_eq_some_iff.mp above
      have edge : t.parentOf c = some s :=
        parentOfIff.mpr ⟨x, here, child, wf.uniqueIds parent found same⟩
      have member := (wf.children s c).mpr edge
      rw [leaf.2] at member
      cases member
    · cases above
  · intro top
    refine ⟨found, List.eq_nil_iff_forall_not_mem.mpr ?_⟩
    intro c member
    obtain ⟨x, here, child, rfl⟩ := parentOfIff.mp ((wf.children s c).mp member)
    refine top x.id ⟨c, x, here, rfl⟩ ?_
    rw [← follows c x here]
    unfold parentId
    rw [if_pos child, found]
    rfl

def Consistent (ds : List Delivery) : Prop :=
  ∀ d ∈ ds, ∀ e ∈ ds, d.revision.id = e.revision.id → d.revision.content = e.revision.content

theorem Mirrors.leaf (wf : t.WellFormed) (wf' : t'.WellFormed) (consistent : Consistent ds)
    (mirrors : t.Mirrors f ds) (mirrors' : t'.Mirrors f ds) {s : Int} {r : Revision}
    (leaf : t.LeafAt s r) : t'.HasLeaf r.id r.content := by
  have ids (id : RevisionId) : t'.HasId id ↔ t.HasId id := by rw [mirrors.ids, mirrors'.ids]
  -- The forest decides which of the ids are leaves, so the id is a leaf of the other tree too.
  obtain ⟨s', r', found, id⟩ := (ids r.id).mpr ⟨s, r, leaf.1, rfl⟩
  have leaf' : t'.LeafAt s' r' := by
    refine (followsLeaf wf' mirrors'.follows found).mpr ?_
    intro c inside
    rw [id]
    exact (followsLeaf wf mirrors.follows leaf.1).mp leaf c ((ids c).mp inside)
  obtain ⟨d, member, named, content⟩ := mirrors.leaves s r leaf
  obtain ⟨e, member', named', content'⟩ := mirrors'.leaves s' r' leaf'
  have one := consistent e member' d member (named'.trans (id.trans named.symm))
  exact ⟨s', r', leaf', id, content'.symm.trans (one.trans content)⟩

theorem Mirrors.conflicted (wf : t.WellFormed) (wf' : t'.WellFormed) (consistent : Consistent ds)
    (mirrors : t.Mirrors f ds) (mirrors' : t'.Mirrors f ds) (conflict : t.isConflicted = true) :
    t'.isConflicted = true := by
  have active {s : Int} {r : Revision} (here : t.ActiveAt s r) :
      ∃ k x, t'.ActiveAt k x ∧ x.id = r.id := by
    obtain ⟨k, x, leaf, id, content⟩ := mirrors.leaf wf wf' consistent mirrors' here.1
    exact ⟨k, x, ⟨leaf, (congrArg Prod.fst content).trans here.2⟩, id⟩
  obtain ⟨s, s', r, r', other, first, second⟩ := (conflictedIff wf.nodesSorted).mp conflict
  obtain ⟨k, x, first', id⟩ := active first
  obtain ⟨k', x', second', id'⟩ := active second
  refine (conflictedIff wf'.nodesSorted).mpr ⟨k, k', x, x', ?_, first', second'⟩
  rintro rfl
  cases first'.1.1.symm.trans second'.1.1
  exact other (wf.uniqueIds first.1.1 second.1.1 (id.symm.trans id'))

theorem mirrorsAgree (wf : t.WellFormed) (wf' : t'.WellFormed) (consistent : Consistent ds)
    (mirrors : t.Mirrors f ds) (mirrors' : t'.Mirrors f ds) : t.Agree t' where
  ids id := by rw [mirrors.ids, mirrors'.ids]
  parents s s' r r' found found' same := by
    rw [mirrors.follows s r found, mirrors'.follows s' r' found', same]
  roots id := by
    rw [followsRoot wf mirrors.follows, followsRoot wf' mirrors'.follows, mirrors.ids, mirrors'.ids]
  leaves id content := by
    constructor
    · intro leaf
      obtain ⟨s, r, here, rfl, rfl⟩ := leaf
      exact mirrors.leaf wf wf' consistent mirrors' here
    · intro leaf
      obtain ⟨s, r, here, rfl, rfl⟩ := leaf
      exact mirrors'.leaf wf' wf consistent mirrors here
  conflicted := Bool.eq_iff_iff.mpr
    ⟨mirrors.conflicted wf wf' consistent mirrors', mirrors'.conflicted wf' wf consistent mirrors⟩

theorem replicasConverge {document : DocumentId} {key key' : Int} {ds' : List Delivery}
    {errors errors' : List DocumentError} (complete : ∀ d ∈ ds, d.Complete f document)
    (consistent : Consistent ds) (same : ∀ d, d ∈ ds ↔ d ∈ ds')
    (ingest : Ingest document key ds errors t) (ingest' : Ingest document key' ds' errors' t') :
    errors = [] ∧ errors' = [] ∧ (∀ id, t.HasId id ↔ ∃ d ∈ ds, id ∈ d.path) ∧ t.Agree t' := by
  have complete' : ∀ d ∈ ds', d.Complete f document := fun d member =>
    complete d ((same d).mpr member)
  obtain ⟨done, mirrors⟩ := ingestMirrors ingest complete
  obtain ⟨done', mirrors'⟩ := ingestMirrors ingest' complete'
  have both := mirrors'.sameDeliveries fun d => (same d).symm
  exact ⟨done, done', mirrors.ids, mirrorsAgree ingest.reachable.wellFormed
    ingest'.reachable.wellFormed consistent mirrors both⟩

namespace Sample

def lineage : Forest where
  up id := if id = child then some root else none
  below id p above := by
    split at above
    · rename_i same
      cases above
      rw [same]
      rfl
    · cases above

def late : Delivery := ⟨delivered child, [child, root]⟩

def early : Delivery := ⟨delivered root, []⟩

def taken (t : RevisionTree) (d : Delivery) : RevisionTree :=
  d.write.after t Commit.scripted [.ok (some (t.size + 1)), .ok (some (t.size + 2))]

theorem deliveriesComplete : ∀ d ∈ [late, early], d.Complete lineage document := by
  intro d member
  rcases List.mem_pair.mp member with rfl | rfl
  · exact ⟨rfl, rfl, .step (by decide) (.root (by decide)), AttachmentMap.emptyNamed⟩
  · exact ⟨rfl, rfl, .root (by decide), AttachmentMap.emptyNamed⟩

theorem ingestTaken {ds : List Delivery} {errors : List DocumentError} {t : RevisionTree}
    (before : Ingest document 7 ds errors t) (d : Delivery)
    (fresh : t.Fresh (d.write.answers t Commit.scripted
      [.ok (some (t.size + 1)), .ok (some (t.size + 2))]))
    (assigns : ∀ a ∈ d.write.answers t Commit.scripted
      [.ok (some (t.size + 1)), .ok (some (t.size + 2))], (sequenceIn a).isSome = true) :
    ∃ errors, Ingest document 7 (ds ++ [d]) errors (taken t d) :=
  ⟨_, .next before d _ _ fresh assigns⟩

def first : RevisionTree := taken (taken (.empty document 7) late) early

def second : RevisionTree := taken (taken (taken (.empty document 7) early) late) late

theorem firstIngest : ∃ errors, Ingest document 7 [late, early] errors first := by
  obtain ⟨_, one⟩ := ingestTaken .none late (by decide) (by decide)
  exact ingestTaken one early (by decide) (by decide)

theorem secondIngest : ∃ errors, Ingest document 7 [early, late, late] errors second := by
  obtain ⟨_, one⟩ := ingestTaken .none early (by decide) (by decide)
  obtain ⟨_, two⟩ := ingestTaken one late (by decide) (by decide)
  exact ingestTaken two late (by decide) (by decide)

end Sample

theorem ordersConverge : Sample.first.Agree Sample.second := by
  obtain ⟨_, first⟩ := Sample.firstIngest
  obtain ⟨_, second⟩ := Sample.secondIngest
  have consistent : Consistent [Sample.late, Sample.early] := by
    intro d member e member' same
    rcases List.mem_pair.mp member with rfl | rfl <;>
      rcases List.mem_pair.mp member' with rfl | rfl <;> rfl
  have same : ∀ d, d ∈ [Sample.late, Sample.early] ↔
      d ∈ [Sample.early, Sample.late, Sample.late] := by
    intro d
    simp [or_comm]
  exact (replicasConverge Sample.deliveriesComplete consistent same first second).2.2.2

end RevisionTree
end RevForest
