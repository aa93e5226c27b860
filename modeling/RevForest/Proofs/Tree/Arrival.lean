import RevForest.Proofs.Tree.Lineage

/-! The content that comes of deliveries, whatever their order. The first delivery that
names an id decides what its node holds: the delivered content if it is of that revision,
and nothing if it names the revision as an ancestor. Then the revision itself comes too
late: it is found in the tree and what came with it is dropped. -/
namespace RevForest

def Revision.rekeyed (r : Revision) : Revision :=
  { r with attachments := .ofRecords r.attachments.toRecords }

theorem Revision.rekeyedNamed {r : Revision} (named : r.attachments.Named) : r.rekeyed = r := by
  unfold rekeyed
  rw [AttachmentMap.ofRecordsNamed named]

namespace Delivery

structure Whole (d : Delivery) (f : Forest) (document : DocumentId) : Prop where
  full : d.revision.projection = none
  document : d.revision.document = document
  path : f.Path d.revision.id d.path

def rekeyed (d : Delivery) : Delivery := { d with revision := d.revision.rekeyed }

theorem Whole.complete {d : Delivery} {f : Forest} {document : DocumentId}
    (whole : d.Whole f document) : d.rekeyed.Complete f document where
  full := whole.full
  document := whole.document
  path := whole.path
  named := AttachmentMap.recordsNamed _

def brings (d : Delivery) (id : RevisionId) : Bool × DocumentBody × AttachmentMap :=
  if id = d.revision.id then d.revision.content else (false, .empty, .empty)

def first? (ds : List Delivery) (id : RevisionId) : Option Delivery :=
  ds.find? fun d => id ∈ d.path

end Delivery

namespace RevisionTree
variable {f : Forest} {t u : RevisionTree} {ds : List Delivery} {d : Delivery}

theorem adoptRekeyed (t : RevisionTree) (r : Revision) : t.adopt r.rekeyed = t.adopt r := by
  unfold adopt Revision.rekeyed
  rw [AttachmentMap.ofRecordsNamed (AttachmentMap.recordsNamed _)]

theorem runRekeyed {σ : Type} (d : Delivery) (t : RevisionTree) (commit : Commit σ) (s : σ) :
    d.rekeyed.write.run t commit s = d.write.run t commit s := by
  have plan : t.planForeign d.revision.rekeyed d.history = t.planForeign d.revision d.history := by
    unfold planForeign
    rw [adoptRekeyed]
    rfl
  unfold Delivery.write TreeWrite.run insertForeign Delivery.rekeyed
  dsimp only
  rw [plan]

theorem Ingest.rekeyed {document : DocumentId} {key : Int} {errors : List DocumentError}
    (ingest : Ingest document key ds errors t) :
    Ingest document key (ds.map Delivery.rekeyed) errors t := by
  induction ingest with
  | none => exact .none
  | @next ds errors t σ before d commit s fresh assigns ih =>
    have same : d.rekeyed.write.answers t commit s = d.write.answers t commit s := by
      unfold TreeWrite.answers
      rw [runRekeyed]
    have next := ih.next d.rekeyed commit s (same ▸ fresh) (same ▸ assigns)
    unfold TreeWrite.errors TreeWrite.after at next ⊢
    rw [runRekeyed] at next
    rw [List.map_append]
    exact next

def Brought (t : RevisionTree) (ds : List Delivery) : Prop :=
  ∀ id d, Delivery.first? ds id = some d →
    ∃ x, t.find? id.text = some x ∧ x.content = d.brings id

theorem firstSnoc (ds : List Delivery) (d : Delivery) (id : RevisionId) :
    Delivery.first? (ds ++ [d]) id =
      (Delivery.first? ds id).or (if id ∈ d.path then some d else none) := by
  unfold Delivery.first?
  rw [List.find?_append]
  by_cases named : id ∈ d.path <;> simp [named]

theorem firstNone {id : RevisionId} (none : Delivery.first? ds id = none) :
    ∀ d ∈ ds, id ∉ d.path := by
  unfold Delivery.first? at none
  simpa using none

theorem TakesOver.brings {k : Nat} {report : InsertReport} {id : RevisionId}
    (took : t.TakesOver u d.revision d.path k report) (head : d.path.head? = some d.revision.id)
    (member : id ∈ d.path.take k) : ∃ x, u.find? id.text = some x ∧ x.content = d.brings id := by
  unfold Delivery.brings
  by_cases own : id = d.revision.id
  · obtain ⟨x, found, content, _⟩ := took.own
    rw [if_pos own, own]
    exact ⟨x, found, content⟩
  · rw [if_neg own]
    refine took.stubs id ?_
    obtain ⟨above, whole⟩ := List.head?_eq_some_iff.mp head
    rw [whole] at member ⊢
    cases k with
    | zero => cases member
    | succ k =>
      rw [List.take_succ_cons] at member ⊢
      exact (List.mem_cons.mp member).resolve_left own

theorem Brought.takesOver {k : Nat} {report : InsertReport} (brought : t.Brought ds)
    (wf : t.WellFormed) (mirrors : t.Mirrors f ds)
    (took : t.TakesOver u d.revision d.path k report) (after : u.Mirrors f (ds ++ [d]))
    (head : d.path.head? = some d.revision.id) : u.Brought (ds ++ [d]) := by
  intro id e first
  rw [firstSnoc] at first
  cases before : Delivery.first? ds id with
  | some old =>
    rw [before, Option.some_or] at first
    cases first
    obtain ⟨x, found, content⟩ := brought id _ before
    obtain ⟨s, here, node⟩ := Option.bind_eq_some_iff.mp found
    obtain ⟨y, same, text⟩ := (wf.indexed id.text s).mp here
    cases node.symm.trans same
    obtain ⟨current, kept⟩ := took.kept s x node
    have there := took.wellFormed.findNode kept
    rw [← text]
    exact ⟨_, there, content⟩
  | none =>
    rw [before, Option.none_or] at first
    split at first
    · rename_i named
      cases first
      have new : ¬ t.HasId id := by
        rw [mirrors.ids]
        rintro ⟨e, member, inside⟩
        exact firstNone before e member inside
      have here := (after.ids id).mpr ⟨d, by simp, named⟩
      exact took.brings head (((took.ids id).mp here).resolve_left new)
    · cases first

theorem Brought.present (brought : t.Brought ds) (mirrors : t.Mirrors f ds)
    (after : t.Mirrors f (ds ++ [d])) : t.Brought (ds ++ [d]) := by
  intro id e first
  rw [firstSnoc] at first
  cases before : Delivery.first? ds id with
  | some old =>
    rw [before, Option.some_or] at first
    exact brought id e (before.trans first)
  | none =>
    -- The whole path is in the tree already, so every id of it was named before.
    rw [before, Option.none_or] at first
    split at first
    · rename_i named
      obtain ⟨e, member, inside⟩ := (mirrors.ids id).mp ((after.ids id).mpr ⟨d, by simp, named⟩)
      exact absurd inside (firstNone before e member)
    · cases first

theorem ingestBrought {document : DocumentId} {key : Int} {errors : List DocumentError}
    (ingest : Ingest document key ds errors t) (complete : ∀ d ∈ ds, d.Complete f document) :
    t.Brought ds := by
  induction ingest with
  | none =>
    intro id d first
    cases first
  | @next ds errors t σ before d commit s fresh assigns ih =>
    have earlier : ∀ d ∈ ds, d.Complete f document := fun d member =>
      complete d (List.mem_append_left _ member)
    have last : d.Complete f document := complete d (by simp)
    have brought := ih earlier
    obtain ⟨_, mirrors⟩ := ingestMirrors before earlier
    obtain ⟨_, after⟩ := ingestMirrors (before.next d commit s fresh assigns) complete
    have wf := before.reachable.wellFormed
    have own := last.document.trans before.reachable.identity.1.symm
    rcases insertForeignTakes wf commit s last.full own last.named last.path.descends fresh
        assigns with ⟨q, _, same⟩ | ⟨u, report, same, took⟩
    · have ran : (d.write.run t commit s).1 = .ok t := congrArg (Except.map Prod.fst) same
      unfold TreeWrite.after at after ⊢
      rw [ran] at after ⊢
      exact brought.present mirrors after
    · have ran : (d.write.run t commit s).1 = .ok u := congrArg (Except.map Prod.fst) same
      unfold TreeWrite.after at after ⊢
      rw [ran] at after ⊢
      exact brought.takesOver wf mirrors took after last.path.head

structure HoldsContent (x r : Revision) : Prop where
  deleted : x.deleted = r.deleted
  body : x.body = r.body
  attachments : x.attachments = .ofRecords r.attachments.toRecords
  named : r.attachments.Named → x.attachments = r.attachments

theorem holdsRekeyed {x r : Revision} (content : x.content = r.rekeyed.content) :
    HoldsContent x r := by
  obtain ⟨deleted, rest⟩ := Prod.mk.inj content
  obtain ⟨body, attachments⟩ := Prod.mk.inj rest
  refine ⟨deleted, body, attachments, ?_⟩
  intro named
  rw [attachments, Revision.rekeyedNamed named]

/-- Every delivered revision is found. It holds what it was delivered with, unless a delivery of
another revision had named it as an ancestor before it came: then it is an empty stub. -/
theorem deliveredContent {document : DocumentId} {key : Int} {errors : List DocumentError}
    (whole : ∀ d ∈ ds, d.Whole f document) (consistent : Consistent ds)
    (ingest : Ingest document key ds errors t) :
    errors = [] ∧ ∀ d ∈ ds, ∃ first x, Delivery.first? ds d.revision.id = some first ∧
      t.find? d.revision.id.text = some x ∧
      (first.revision.id = d.revision.id → HoldsContent x d.revision) ∧
      (first.revision.id ≠ d.revision.id → x.content = (false, .empty, .empty)) := by
  have complete : ∀ d ∈ ds.map Delivery.rekeyed, d.Complete f document := by
    intro d member
    obtain ⟨e, inside, rfl⟩ := List.mem_map.mp member
    exact (whole e inside).complete
  obtain ⟨none, _⟩ := ingestMirrors ingest.rekeyed complete
  refine ⟨none, ?_⟩
  intro d member
  have own : d.revision.id ∈ d.path := List.mem_of_mem_head? (whole d member).path.head
  have named : (Delivery.first? ds d.revision.id).isSome = true :=
    List.find?_isSome.mpr ⟨d, member, decide_eq_true own⟩
  obtain ⟨first, before⟩ := Option.isSome_iff_exists.mp named
  have rekeyed : Delivery.first? (ds.map Delivery.rekeyed) d.revision.id = some first.rekeyed := by
    unfold Delivery.first? at before ⊢
    rw [List.find?_map]
    exact congrArg (Option.map Delivery.rekeyed) before
  obtain ⟨x, found, content⟩ := ingestBrought ingest.rekeyed complete d.revision.id _ rekeyed
  refine ⟨first, x, before, found, ?_, ?_⟩
  · intro same
    have held := content.trans (if_pos same.symm)
    have inside := List.mem_of_find?_eq_some before
    obtain ⟨deleted, rest⟩ := Prod.mk.inj (consistent first inside d member same)
    obtain ⟨body, attachments⟩ := Prod.mk.inj rest
    refine holdsRekeyed (held.trans ?_)
    unfold Revision.content Delivery.rekeyed Revision.rekeyed
    dsimp only
    rw [deleted, body, attachments]
  · intro other
    exact content.trans (if_neg (Ne.symm other))

-- A root with a body, before and after a child that names it.
namespace Sample

def filled : Delivery := ⟨{ delivered root with body := ⟨⟨[("x", .int 1)]⟩⟩ }, []⟩

theorem filledWhole : ∀ d ∈ [filled, late], d.Whole lineage document := by
  intro d member
  rcases List.mem_pair.mp member with rfl | rfl
  · exact ⟨rfl, rfl, .root (by decide)⟩
  · exact ⟨rfl, rfl, .step (by decide) (.root (by decide))⟩

theorem filledConsistent : Consistent [filled, late] := by
  intro d member e member' same
  rcases List.mem_pair.mp member with rfl | rfl <;>
    rcases List.mem_pair.mp member' with rfl | rfl
  · rfl
  · exact absurd same (by decide)
  · exact absurd same (by decide)
  · rfl

end Sample

theorem earlyContentKept :
    ∃ errors t x, Ingest Sample.document 7 [Sample.filled, Sample.late] errors t ∧
      t.find? Sample.root.text = some x ∧ HoldsContent x Sample.filled.revision := by
  obtain ⟨_, one⟩ := Sample.ingestTaken .none Sample.filled (by decide) (by decide)
  obtain ⟨errors, two⟩ := Sample.ingestTaken one Sample.late (by decide) (by decide)
  obtain ⟨_, each⟩ := deliveredContent Sample.filledWhole Sample.filledConsistent two
  obtain ⟨first, x, before, found, own, _⟩ := each Sample.filled (by simp)
  have itself : Delivery.first? [Sample.filled, Sample.late] Sample.root = some Sample.filled := rfl
  cases before.symm.trans itself
  exact ⟨errors, _, x, two, found, own rfl⟩

/-- The same two deliveries the other way round: the body of the root is dropped. -/
theorem lateContentDropped :
    (∀ d ∈ [Sample.late, Sample.filled], d.Whole Sample.lineage Sample.document) ∧
      Consistent [Sample.late, Sample.filled] ∧ Sample.filled.revision.attachments.Named ∧
      ∃ errors t, Ingest Sample.document 7 [Sample.late, Sample.filled] errors t ∧
        ¬ ∃ x, t.find? Sample.filled.revision.id.text = some x ∧
          x.content = Sample.filled.revision.content := by
  have swap : ∀ d, d ∈ [Sample.late, Sample.filled] ↔ d ∈ [Sample.filled, Sample.late] := by
    intro d
    simp [or_comm]
  obtain ⟨_, one⟩ := Sample.ingestTaken .none Sample.late (by decide) (by decide)
  obtain ⟨errors, two⟩ := Sample.ingestTaken one Sample.filled (by decide) (by decide)
  refine ⟨fun d member => Sample.filledWhole d ((swap d).mp member), ?_,
    AttachmentMap.emptyNamed, errors, _, two, ?_⟩
  · intro d member e member'
    exact Sample.filledConsistent d ((swap d).mp member) e ((swap e).mp member')
  · rintro ⟨x, found, same⟩
    have bare : ((Sample.taken (Sample.taken (.empty Sample.document 7) Sample.late)
        Sample.filled).find? Sample.filled.revision.id.text).map (·.body.isEmpty) = some true := by
      decide
    rw [found] at bare
    have body : x.body = Sample.filled.revision.body := (Prod.mk.inj (Prod.mk.inj same).2).1
    change some x.body.isEmpty = some true at bare
    rw [body] at bare
    cases bare

end RevisionTree
end RevForest
