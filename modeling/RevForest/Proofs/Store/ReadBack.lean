import Mathlib.Data.List.Chain
import RevForest.Proofs.Store.Save
import RevForest.Proofs.Tree.Succession

/-! A document is read right after it was created or updated, and the answer is the revision
that was just written. Nothing is asked of the backend: the trees of a store have their
best leaf as winner whatever it loads, and the write leaves its tree in the cache. -/
namespace RevForest

namespace RevisionTree
variable {d : DocumentId} {t grown : RevisionTree}

theorem rankedBuilt {key : Int} {rs : List Revision} (ok : ofRevisions d key rs = .ok t) :
    t.Ranked := by
  obtain ⟨grown, grows, rfl⟩ := ofRevisionsIff.mp ok
  exact rankedChosen (growsKeeps (P := fun t => t.nodes.Sorted) (fun _ sorted => sortedLink sorted _)
    grows Dict.sortedEmpty)

theorem sortedFold (sorted : t.nodes.Sorted) (chain : List Revision) :
    (chain.foldl link t).nodes.Sorted := by
  induction chain generalizing t with
  | nil => exact sorted
  | cons r rest ih => exact ih (sortedLink sorted r)

theorem Vouched.extended {C : Revision → Prop} {named : Option RevisionId} {above : Option Int}
    (vouched : t.Vouched C d) (ok : t.editParent named = .ok above) : t.Extended named above := by
  have won {w : Revision} (current : t.current? = some w) : t.winner = some w.sequence := by
    obtain ⟨s, won, found⟩ := currentIff.mp current
    rw [(vouched.nodes s w found).sequence]
    exact won
  cases named with
  | some p =>
    obtain ⟨w, current, rfl, rfl⟩ := vouched.editParent ok
    refine .winner (won current) (vouched.winner current).1 (fun none => by cases none) ?_
    rintro _ ⟨⟩
    rfl
  | none =>
    unfold RevisionTree.editParent at ok
    split at ok
    · rename_i bare
      cases ok
      exact .nothing rfl bare
    · rename_i w current
      split at ok
      · rename_i dead
        cases ok
        exact .winner (won current) (vouched.winner current).1 (fun _ => dead)
          (fun p impossible => by cases impossible)
      · cases ok
    · contradiction

end RevisionTree

namespace Datastore
variable {β : Type} [Backend β] {s s' u : Datastore β} {d : DocumentId} {r w : Revision}

theorem rankedWrites : Writes (β := β) (fun _ _ => True) fun _ _ t => t.Ranked where
  asks _ _ := trivial
  remains _ _ ranked := ranked
  built _ loaded := by
    obtain ⟨entries, u, _, loaded⟩ := Outcome.andThenOk loaded
    split at loaded
    · cases loaded
    · obtain ⟨key, v, _, loaded⟩ := Outcome.andThenOk loaded
      obtain ⟨rs, w, _, loaded⟩ := Outcome.andThenOk loaded
      split at loaded
      · cases loaded
      · rename_i linked
        cases loaded
        exact RevisionTree.rankedBuilt linked
  bare key _ := RevisionTree.rankedEmpty _ key
  own ranked := ranked
  commits _ _ := trivial
  outlasts _ _ ranked := ranked
  child _ ranked ran := by
    obtain ⟨_, _, _, _, placed⟩ := RevisionTree.insertChildOk ran
    obtain ⟨_, rfl, _⟩ := RevisionTree.placeOk placed
    exact RevisionTree.rankedChosen (RevisionTree.sortedLink ranked.sorted _)
  foreign _ ranked ran := by
    cases RevisionTree.insertForeignOk ran with
    | present found => exact ranked
    | inserted plan committed placed =>
      obtain ⟨rfl, _⟩ := RevisionTree.placeChainOk placed
      exact RevisionTree.rankedChosen (RevisionTree.sortedFold ranked.sorted _)

theorem anyVouches : Backend.Vouches (β := β) (fun _ => True) fun _ _ => True where
  asks _ _ := trivial
  remains _ _ _ := trivial
  loaded _ _ := trivial
  commits _ _ := trivial
  outlasts _ _ _ := trivial
  committed _ _ _ := trivial

abbrev Ordered (s : Datastore β) : Prop :=
  s.Upholds (fun _ _ => True) fun _ d t => t.Vouched (fun _ => True) d ∧ t.Ranked

theorem orderedWrites : Writes (β := β) (fun _ _ => True)
    fun _ d t => t.Vouched (fun _ => True) d ∧ t.Ranked :=
  .and anyVouches.writes rankedWrites

theorem treeCachedNew {t : RevisionTree} (own : t.document = d)
    (got : s.treeOf d true = (.ok t, u)) : u.cache.find? d = some t := by
  unfold treeOf at got
  split at got
  · rename_i found
    cases got
    exact found
  · obtain ⟨found, v, loaded, got⟩ := Outcome.andThenOk got
    split at got
    · cases got
      exact own ▸ foundCached v t
    · obtain ⟨key, v, asked, got⟩ := Outcome.andThenOk got
      cases got
      exact foundCached v _

structure EditRan (s : Datastore β) (d : DocumentId) (named : Option RevisionId)
    (body : DocumentBody) (deleted : Bool) (r : Revision) (s' u : Datastore β)
    (t grown : RevisionTree) : Prop where
  read : s.treeOf d named.isNone = (.ok t, u)
  own : t.document = d
  inserted : ∃ attachments sequence x, t.Inserted named body attachments deleted sequence grown x ∧
    x.unflagged = r.unflagged ∧ grown.get? x.sequence = some r
  kept : s'.treeOf d false = (.ok grown, s')

theorem localEditRan {named : Option RevisionId} {body : DocumentBody}
    {attachments : Option AttachmentMap} {deleted : Bool} (ordered : s.Ordered)
    (ran : s.localEdit d named body attachments deleted = (.ok r, s')) :
    ∃ u t grown, s.EditRan d named body deleted r s' u t grown := by
  obtain ⟨t, u, got, ran⟩ := Outcome.andThenOk ran
  obtain ⟨vouched, ranked⟩ :=
    (ordered.treeOf orderedWrites.toReads d named.isNone).answer t (congrArg Prod.fst got)
  dsimp only at ran
  generalize attachments.getD _ = attachments at ran
  have spared := (commitSpares.keeps u).insertLocalEdit t u.digest named body attachments deleted
    (fun _ _ _ => trivial) rfl
  split at ran
  · cases ran
  · rename_i grown report v inserted
    obtain ⟨x, made⟩ := ranked.inserted (fun q x found => (vouched.nodes q x found).positive)
      (fun _ => vouched.extended) inserted
    rw [inserted] at spared
    split at ran
    · cases ran
    · rename_i y found
      obtain ⟨answer, reported⟩ := Prod.mk.inj ran
      cases answer
      have there : u.cache.find? d = some t := by
        cases named with
        | none => exact treeCachedNew vouched.document got
        | some p =>
          refine (treeCached vouched.document got).resolve_right ?_
          rintro rfl
          cases made.place with
          | alone unnamed => cases unnamed
          | below won => cases won
      have quiet : (v.keepTree grown).Quiet s' := by
        rw [← reported]
        exact .changed _ (by decide) _ _ _ _ _
      refine ⟨u, t, grown, got, vouched.document, ⟨_, _, x, made, ?_, made.sequence ▸ found⟩, ?_⟩
      · have node := made.node
        rw [made.sequence, found] at node
        exact (Option.some.inj node).symm
      · have cached := congrArg (·.2.2) spared
        dsimp only at cached
        exact keptRead (made.owner.trans vouched.document) (cached ▸ there) quiet

namespace EditRan
variable {named : Option RevisionId} {body : DocumentBody} {deleted : Bool} {t grown : RevisionTree}

theorem document (edit : s.EditRan d named body deleted r s' u t grown) : r.document = d := by
  obtain ⟨_, _, x, made, same, _⟩ := edit.inserted
  have document : x.document = r.document :=
    show x.unflagged.document = r.unflagged.document from congrArg Revision.document same
  rw [← document, made.document, edit.own]

theorem readBack (edit : s.EditRan d named body false r s' u t grown) {document : String}
    (parsed : DocumentId.parse document = .ok d) : s'.getDocument document = (.ok r, s') := by
  obtain ⟨_, _, x, made, _, found⟩ := edit.inserted
  have won := made.live made.status
  exact getCurrent parsed edit.kept (RevisionTree.currentIff.mpr ⟨_, won, found⟩)

theorem above {p : RevisionId} (edit : s.EditRan d (some p) body deleted r s' u t grown) :
    ∃ w, t.current? = some w ∧ w.id = p ∧ r.generation = w.generation + 1 := by
  obtain ⟨_, _, x, made, same, _⟩ := edit.inserted
  have id : x.id = r.id := show x.unflagged.id = r.unflagged.id from congrArg Revision.id same
  cases made.place with
  | alone unnamed => cases unnamed
  | @below w k won found _ _ next licensed =>
    refine ⟨w, RevisionTree.currentIff.mpr ⟨k, won, found⟩, ?_, ?_⟩
    · rcases licensed with same | ⟨unnamed, _⟩
      · exact (Option.some.inj same).symm
      · cases unnamed
    · unfold Revision.generation at next ⊢
      rw [← id, next]

end EditRan

theorem createRan {id : Option String} {fresh : DocumentId} {body : DocumentBody}
    {attachments : AttachmentMap} (ordered : s.Ordered)
    (ran : s.createDocument id fresh body attachments = (.ok r, s')) :
    ∃ d u t grown, DocumentId.parse (id.getD fresh.text) = .ok d ∧
      s.EditRan d none body false r s' u t grown := by
  unfold createDocument at ran
  split at ran
  · obtain ⟨u, t, grown, edit⟩ := localEditRan ordered ran
    exact ⟨fresh, u, t, grown, DocumentId.parseText fresh, edit⟩
  · split at ran
    · cases ran
    · rename_i d parsed
      obtain ⟨u, t, grown, edit⟩ := localEditRan ordered ran
      exact ⟨d, u, t, grown, parsed, edit⟩

theorem updateRan {document parent : String} {body : DocumentBody} (ordered : s.Ordered)
    (ran : s.updateDocument document parent body = (.ok r, s')) :
    ∃ d p u t grown, DocumentId.parse document = .ok d ∧ p.text = parent ∧
      s.EditRan d (some p) body false r s' u t grown := by
  unfold updateDocument withParent at ran
  split at ran
  · cases ran
  · rename_i d parsed
    split at ran
    · cases ran
    · rename_i p naming
      obtain ⟨u, t, grown, edit⟩ := localEditRan ordered ran
      exact ⟨d, p, u, t, grown, parsed, RevisionId.textParsed naming, edit⟩

structure ReadsBack (s : Datastore β) : Prop where
  created : ∀ {id fresh body attachments r s'},
    s.createDocument id fresh body attachments = (.ok r, s') →
      s'.getDocument (id.getD fresh.text) = (.ok r, s')
  updated : ∀ {document parent body r s'}, s.updateDocument document parent body = (.ok r, s') →
    s'.getDocument document = (.ok r, s') ∧
      ∃ w u, s.getDocument document = (.ok w, u) ∧ w.id.text = parent ∧
        r.generation = w.generation + 1

theorem Ordered.readsBack (ordered : s.Ordered) : s.ReadsBack where
  created ran := by
    obtain ⟨d, u, t, grown, parsed, edit⟩ := createRan ordered ran
    exact edit.readBack parsed
  updated ran := by
    obtain ⟨d, p, u, t, grown, parsed, rfl, edit⟩ := updateRan ordered ran
    obtain ⟨w, current, same, next⟩ := edit.above
    exact ⟨edit.readBack parsed, w, u, getCurrent parsed edit.read current, by rw [same], next⟩

namespace Sample

def beside : Revision := RevisionTree.Sample.delivered RevisionTree.Sample.rival

end Sample

theorem answered {α σ : Type} {o : Except DocumentError α × σ} (ok : o.1.isOk = true) :
    ∃ a s', o = (.ok a, s') := by
  obtain ⟨answer, after⟩ := o
  cases answer with
  | error e => cases ok
  | ok a => exact ⟨a, after, rfl⟩

end Datastore
end RevForest
