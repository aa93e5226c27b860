import RevForest.Proofs.Store.Upheld
import RevForest.Proofs.Tree.Accepted

/-! Trees whose nodes all stand for revisions that the backend vouches for: it has loaded them, or
a commit of them succeeded. Nothing is asked of the sequences that are given, so a chain may
be committed badly; still every node is found under its own sequence, in its own document,
and a tree that knows any id has a winner. -/
namespace RevForest

def Revision.StandsFor (x y : Revision) : Prop :=
  ∃ key current, x = { y with key, current, dirty := false }

namespace RevisionTree
variable {C C' : Revision → Prop} {d : DocumentId} {t grown : RevisionTree} {r x : Revision} {q : Int}

structure Backed (C : Revision → Prop) (d : DocumentId) (q : Int) (x : Revision) : Prop where
  sequence : x.sequence = q
  positive : 0 < q
  document : x.document = d
  source : ∃ y, C y ∧ x.StandsFor y

structure Stocked (C : Revision → Prop) (d : DocumentId) (t : RevisionTree) : Prop where
  document : t.document = d
  sorted : t.nodes.Sorted
  nodes : ∀ q x, t.get? q = some x → Backed C d q x

structure Linkable (C : Revision → Prop) (d : DocumentId) (r : Revision) : Prop where
  vouched : C r
  document : r.document = d
  positive : 0 < r.sequence

namespace Stocked

theorem empty (C : Revision → Prop) (d : DocumentId) (key : Int) : (empty d key).Stocked C d where
  document := rfl
  sorted := Dict.sortedEmpty
  nodes q x found := by cases found

theorem mono (stocked : t.Stocked C d) (more : ∀ y, C y → C' y) : t.Stocked C' d where
  document := stocked.document
  sorted := stocked.sorted
  nodes q x found := by
    obtain ⟨sequence, positive, document, y, here, same⟩ := stocked.nodes q x found
    exact ⟨sequence, positive, document, y, more y here, same⟩

theorem link (stocked : t.Stocked C d) (linkable : Linkable C d r) : (t.link r).Stocked C d where
  document := stocked.document
  sorted := sortedLink stocked.sorted r
  nodes q x found := by
    rw [getLink] at found
    split at found
    · rename_i new
      cases found
      exact ⟨new.symm, new ▸ linkable.positive, linkable.document, r, linkable.vouched, t.key,
        false, rfl⟩
    · exact stocked.nodes q x found

theorem chosen (stocked : t.Stocked C d) : t.chooseWinner.Stocked C d where
  document := stocked.document
  sorted := sortedCurrent (sortedCurrent stocked.sorted _ _) _ _
  nodes q x found := by
    obtain ⟨old, there, rfl⟩ := chosenIff.mp found
    obtain ⟨sequence, positive, document, y, here, key, _, rfl⟩ := stocked.nodes q old there
    exact ⟨sequence, positive, document, y, here, key, _, rfl⟩

theorem fold {chain : List Revision} (stocked : t.Stocked C d)
    (linkable : ∀ r ∈ chain, Linkable C d r) : (chain.foldl RevisionTree.link t).Stocked C d := by
  induction chain generalizing t with
  | nil => exact stocked
  | cons r rest ih =>
    obtain ⟨here, others⟩ := List.forall_mem_cons.mp linkable
    exact ih (stocked.link here) others

end Stocked

theorem newLeaf (t : RevisionTree) (r : Revision) :
    (t.link r).LeafAt r.sequence (t.settled r) := by
  refine ⟨(getLink t r r.sequence).trans (if_pos rfl), ?_⟩
  rw [linkShape]
  unfold childrenOf
  rw [Dict.findInsert, if_pos rfl]
  rfl

theorem currentChosen (sorted : t.nodes.Sorted) (leaf : t.LeafAt q x) :
    ∃ w, t.chooseWinner.current? = some w := by
  obtain ⟨k, b, best⟩ := someBest sorted leaf
  have chosen := (bestLeafIff sorted k).mpr ⟨b, best⟩
  exact ⟨_, currentIff.mpr ⟨k, chosen, chosenIff.mpr ⟨b, best.1.1, rfl⟩⟩⟩

structure Vouched (C : Revision → Prop) (d : DocumentId) (t : RevisionTree) : Prop
    extends Stocked C d t where
  led : (∃ w, t.current? = some w) ∨ ∀ id, t.sequenceOf? id = none

theorem emptyVouched (C : Revision → Prop) (d : DocumentId) (key : Int) :
    (empty d key).Vouched C d := ⟨.empty C d key, .inr fun _ => rfl⟩

theorem Vouched.mono (vouched : t.Vouched C d) (more : ∀ y, C y → C' y) : t.Vouched C' d :=
  ⟨vouched.toStocked.mono more, vouched.led⟩

theorem Stocked.vouched {chain : List Revision} (stocked : t.Stocked C d)
    (linkable : ∀ r ∈ chain, Linkable C d r) (some : chain ≠ []) :
    (chain.foldl RevisionTree.link t).chooseWinner.Vouched C d := by
  have grown := stocked.fold linkable
  refine ⟨grown.chosen, .inl ?_⟩
  -- What was linked last has no child yet, so there is a leaf to choose.
  obtain ⟨front, last, rfl⟩ := (List.eq_nil_or_concat chain).resolve_left some
  rw [List.concat_eq_append, List.foldl_append] at grown ⊢
  exact currentChosen grown.sorted (newLeaf _ last)

theorem growsChecked {chain : List Revision} (grows : Grows t chain grown) :
    ∀ r ∈ chain, r.document = t.document ∧ 0 < r.sequence := by
  induction grows with
  | nil => simp
  | cons fits next ih => exact List.forall_mem_cons.mpr ⟨⟨fits.document, fits.positive⟩, ih⟩

theorem ofRevisionsVouched {key : Int} {rs : List Revision} (all : ∀ y ∈ rs, C y)
    (some : rs ≠ []) (ok : ofRevisions d key rs = .ok t) : t.Vouched C d := by
  obtain ⟨grown, grows, rfl⟩ := ofRevisionsIff.mp ok
  obtain rfl := growsFold grows
  have perm := sortPerm rs
  refine (Stocked.empty C d key).vouched (fun r member => ?_)
    fun none => some (List.Perm.eq_nil (none ▸ perm.symm))
  obtain ⟨document, positive⟩ := growsChecked grows r member
  exact ⟨all r (perm.subset member), document, positive⟩

end RevisionTree

/-- A backend that goes on vouching for what it has vouched for, in its questions and commits. -/
structure Backend.Vouches {β : Type} [Backend β] (P : β → Prop) (C : β → Revision → Prop) :
    Prop where
  asks : ∀ {α : Type} {act : β → Except StoreError α × β} {b : β}, Asks act → P b → P (act b).2
  remains : ∀ {α : Type} {act : β → Except StoreError α × β} {b : β} {y : Revision}, Asks act →
    P b → C b y → C (act b).2 y
  loaded : ∀ {b b' : β} {d : DocumentId} {id : RevisionId} {y : Revision}, P b →
    Backend.loadRevision d id b = (.ok (some y), b') → C b' y
  commits : ∀ {b : β} {r : Revision}, r.Uncommitted → P b → P (Backend.commit r b).2
  outlasts : ∀ {b : β} {r y : Revision}, r.Uncommitted → P b → C b y → C (Backend.commit r b).2 y
  committed : ∀ {b b' : β} {r y : Revision}, r.Uncommitted → P b →
    Commit.run Backend.commit r b = (.ok y, b') → C b' y

namespace Backend.Vouches
variable {β : Type} [Backend β] {P : β → Prop} {C : β → Revision → Prop} {b b' : β}
  {s s' : Datastore β} {d : DocumentId} {t grown : RevisionTree}

theorem loadAll (laws : Vouches P C) {entries : List TreeEntry} {rs : List Revision}
    (backend : P s.backend) (ok : Datastore.loadAll d entries s = (.ok rs, s')) :
    P s'.backend ∧ (∀ y, C s.backend y → C s'.backend y) ∧ (∀ y ∈ rs, C s'.backend y) ∧
      rs.length = entries.length := by
  induction entries generalizing s rs with
  | nil =>
    cases ok
    exact ⟨backend, fun _ => id, by simp, rfl⟩
  | cons entry rest ih =>
    obtain ⟨found, u, asked, ok⟩ := Datastore.Outcome.andThenOk ok
    have asked := Datastore.callOk asked
    have after := laws.asks (.loadRevision d entry.id) backend
    have keeps (y : Revision) := laws.remains (y := y) (.loadRevision d entry.id) backend
    rw [asked] at after keeps
    cases found with
    | none => cases ok
    | some y =>
      obtain ⟨others, v, later, ok⟩ := Datastore.Outcome.andThenOk ok
      cases ok
      obtain ⟨done, stays, all, length⟩ := ih after later
      refine ⟨done, fun y here => stays y (keeps y here), ?_, congrArg Nat.succ length⟩
      exact List.forall_mem_cons.mpr ⟨stays y (laws.loaded backend asked), all⟩

theorem built (laws : Vouches P C) (backend : P s.backend)
    (ok : s.loadTree d = (.ok (some t), s')) : t.Vouched (C s'.backend) d := by
  obtain ⟨entries, u, asked, ok⟩ := Datastore.Outcome.andThenOk ok
  have backend := laws.asks (.loadTree d) backend
  rw [Datastore.callOk asked] at backend
  split at ok
  · cases ok
  · rename_i some
    obtain ⟨key, v, keyed, ok⟩ := Datastore.Outcome.andThenOk ok
    have backend := laws.asks (.documentKey d) backend
    rw [Datastore.callOk keyed] at backend
    obtain ⟨rs, w, loaded, ok⟩ := Datastore.Outcome.andThenOk ok
    obtain ⟨_, _, all, length⟩ := laws.loadAll backend loaded
    have stored : rs ≠ [] := by
      rintro rfl
      exact some (List.isEmpty_iff.mpr (List.eq_nil_of_length_eq_zero length.symm))
    split at ok
    · cases ok
    · rename_i linked
      cases ok
      exact RevisionTree.ofRevisionsVouched all stored linked

theorem keeps (laws : Vouches P C) (y : Revision) :
    (Backend.commit (β := β)).Keeps Revision.Uncommitted fun b => P b ∧ C b y :=
  fun _ _ asked both => ⟨laws.commits asked both.1, laws.outlasts asked both.1 both.2⟩

theorem committedChain (laws : Vouches P C) (t : RevisionTree) {parent : Int}
    {chain done : List Revision} (asked : ∀ x ∈ chain, ∀ parent, { x with parent }.Uncommitted)
    (backend : P b) (ran : t.commitChain Backend.commit parent chain b = (.ok done, b')) :
    ∀ y ∈ done, C b' y := by
  induction chain generalizing parent b done with
  | nil =>
    cases ran
    simp
  | cons r rest ih =>
    obtain ⟨here, others⟩ := List.forall_mem_cons.mp asked
    unfold RevisionTree.commitChain at ran
    cases first : Commit.run Backend.commit { r with parent } b with
    | mk answer after =>
      rw [first] at ran
      cases answer with
      | error e => cases ran
      | ok x =>
        have vouched := laws.committed (here parent) backend first
        have next : P (Commit.run Backend.commit { r with parent } b).2 :=
          Commit.Keeps.run (Q := Revision.Uncommitted) (fun _ _ => laws.commits) (here parent)
            backend
        rw [first] at next
        dsimp only at ran
        split at ran
        · cases later : t.commitChain Backend.commit x.sequence rest after with
          | mk answer last =>
            rw [later] at ran
            cases answer with
            | error e => cases ran
            | ok found =>
              cases ran
              have kept := (laws.keeps x).commitChain t others x.sequence
                ⟨next, vouched⟩
              rw [later] at kept
              exact List.forall_mem_cons.mpr ⟨kept.2, ih others next later⟩
        · cases ran

theorem insertChild (laws : Vouches P C) (backend : P b) (vouched : t.Vouched (C b) d)
    {digest : ContentDigest} {parent : Option Int} {body : DocumentBody}
    {attachments : AttachmentMap} {deleted : Bool} {report : InsertReport}
    (ran : t.insertChild digest Backend.commit parent body attachments deleted b =
      (.ok (grown, report), b')) : grown.Vouched (C b') d := by
  obtain ⟨r, x, drafted, committed, placed⟩ := RevisionTree.insertChildOk ran
  obtain ⟨fits, rfl, _⟩ := RevisionTree.placeOk placed
  have asked := RevisionTree.draftUncommitted drafted
  have stays (y : Revision) (here : C b y) : C b' y := by
    have kept := (laws.keeps y).run asked ⟨backend, here⟩
    rw [committed] at kept
    exact kept.2
  have linkable : ∀ y ∈ [x], RevisionTree.Linkable (C b') d y := by
    intro y member
    obtain rfl := List.mem_singleton.mp member
    exact ⟨laws.committed asked backend committed, fits.document.trans vouched.document,
      fits.positive⟩
  exact (vouched.toStocked.mono stays).vouched linkable (List.cons_ne_nil _ _)

theorem insertForeign (laws : Vouches P C) (backend : P b) (vouched : t.Vouched (C b) d)
    {r : Revision} {history : List RevisionId} {given : ForeignInsert}
    (ran : t.insertForeign Backend.commit r history b = (.ok (grown, given), b')) :
    grown.Vouched (C b') d := by
  have stays (y : Revision) (here : C b y) : C b' y := by
    have kept := (laws.keeps y).insertForeign t r history
      (fun _ _ plan x member => RevisionTree.planUncommitted plan member) ⟨backend, here⟩
    rw [ran] at kept
    exact kept.2
  cases RevisionTree.insertForeignOk ran with
  | present found => exact vouched
  | @inserted known chain done report _ _ plan committed placed =>
    obtain ⟨rfl, _, checked⟩ := RevisionTree.placeChainOk placed
    have all := laws.committedChain t
      (fun x member => RevisionTree.planUncommitted plan member) backend committed
    refine (vouched.toStocked.mono stays).vouched (fun y member => ?_) ?_
    · obtain ⟨document, positive⟩ := checked y member
      exact ⟨all y member, document.trans vouched.document, positive⟩
    · rintro rfl
      obtain ⟨_, _, descends, shape⟩ := RevisionTree.planForeignIff.mp plan
      obtain ⟨missing, rest, cut⟩ := RevisionTree.planCut descends.1 shape.symm
      have ids := RevisionTree.commitChainIds committed
      simp [cut.chain] at ids

theorem writes (laws : Vouches P C) :
    Datastore.Writes (fun b _ => P b) fun b d t => t.Vouched (C b) d where
  asks asks backend := laws.asks asks backend
  remains asks backend vouched := vouched.mono fun _ here => laws.remains asks backend here
  built backend ok := laws.built backend ok
  bare key _ := RevisionTree.emptyVouched _ _ key
  own vouched := vouched.document ▸ vouched
  commits {r s} asked backend := by
    rw [Datastore.commitBackend]
    exact laws.commits asked backend
  outlasts {r s _ _} asked backend vouched := by
    rw [Datastore.commitBackend]
    exact vouched.mono fun y here => laws.outlasts asked backend here
  child {s s' d t grown report digest parent body attachments deleted} backend vouched ran := by
    have seen := Datastore.commitFollows.insertChild t digest parent body attachments deleted s
    rw [ran] at seen
    exact laws.insertChild backend vouched seen.symm
  foreign {s s' d t grown given r history} backend vouched ran := by
    have seen := Datastore.commitFollows.insertForeign t r history s
    rw [ran] at seen
    exact laws.insertForeign backend vouched seen.symm

end Backend.Vouches
end RevForest
