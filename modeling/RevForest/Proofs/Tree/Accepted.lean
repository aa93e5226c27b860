import RevForest.Proofs.Tree.Reachable

/-! Writes that succeeded. Whatever the commit did, the chain that it gave back has the ids
that it was asked for and passed the check of the tree, and the revision that a foreign
insert was about is found under the sequence that is answered. -/
namespace RevForest

theorem Commit.runKeeps {σ α : Type} {commit : Commit σ} {r x : Revision} {s s' : σ}
    {f : Revision → α} (spared : ∀ r q, f { r with sequence := q } = f r)
    (ran : commit.run r s = (.ok x, s')) : f x = f r := by
  unfold Commit.run at ran
  generalize commit r s = asked at ran
  obtain ⟨answer, after⟩ := asked
  cases answer with
  | error e => cases ran
  | ok given =>
    cases given with
    | none =>
      cases ran
      rfl
    | some q =>
      cases ran
      unfold Revision.initializeSequence
      split
      · exact spared r q
      · rfl

namespace RevisionTree
variable {σ : Type} {commit : Commit σ} {t grown : RevisionTree} {s s' : σ}

theorem commitChainKeeps {α : Type} {f : Revision → α}
    (spared : ∀ r q k, f { r with sequence := q, parent := k } = f r) {parent : Int}
    {chain done : List Revision} (ran : t.commitChain commit parent chain s = (.ok done, s')) :
    done.map f = chain.map f := by
  induction chain generalizing parent s done with
  | nil =>
    cases ran
    rfl
  | cons r rest ih =>
    unfold commitChain at ran
    cases first : commit.run { r with parent } s with
    | mk answer after =>
      cases answer with
      | error e => simp [first] at ran
      | ok x =>
        simp only [first] at ran
        split at ran
        · cases later : t.commitChain commit x.sequence rest after with
          | mk answer last =>
            cases answer with
            | error e => simp [later] at ran
            | ok others =>
              rw [later] at ran
              cases ran
              have same : f x = f { r with parent } :=
                Commit.runKeeps (fun r q => spared r q r.parent) first
              rw [List.map_cons, List.map_cons, ih later, same]
              exact congrArg (· :: _) (spared r r.sequence parent)
        · cases ran

theorem commitChainIds {parent : Int} {chain done : List Revision}
    (ran : t.commitChain commit parent chain s = (.ok done, s')) :
    done.map (·.id) = chain.map (·.id) :=
  commitChainKeeps (fun _ _ _ => rfl) ran

theorem placeOk {isRoot : Bool} {r : Revision} {report : InsertReport}
    (ok : t.place isRoot r = .ok (grown, report)) :
    t.Fits r ∧ grown = (t.link r).chooseWinner ∧ report.sequence = r.sequence := by
  unfold place at ok
  cases attached : t.attach r with
  | error e => simp [attached, bind, Except.bind] at ok
  | ok linked =>
    obtain ⟨fits, rfl⟩ := attachIff.mp attached
    simp only [attached, bind, Except.bind, Except.ok.injEq, Prod.mk.injEq] at ok
    obtain ⟨rfl, rfl⟩ := ok
    exact ⟨fits, rfl, rfl⟩

theorem checkChainOk {known : Dict Int Nat} {chain : List Revision}
    (ok : t.checkChain known chain = .ok ()) :
    ∀ r ∈ chain, r.document = t.document ∧ 0 < r.sequence := by
  induction chain generalizing known with
  | nil => simp
  | cons r rest ih =>
    unfold checkChain at ok
    cases first : t.checkLink (fun q => (known.find? q).or (t.generation? q)) r with
    | error e => simp [first, bind, Except.bind] at ok
    | ok _ =>
      simp only [first, bind, Except.bind] at ok
      obtain ⟨document, positive, _⟩ := checkedLink first
      exact List.forall_mem_cons.mpr ⟨⟨document, positive⟩, ih ok⟩

theorem placeChainOk {isRoot : Bool} {chain : List Revision} {report : InsertReport}
    (ok : t.placeChain isRoot chain = .ok (grown, report)) :
    grown = (chain.foldl link t).chooseWinner ∧
      report.sequence = ((chain.getLast?).map (·.sequence)).getD noParent ∧
      ∀ r ∈ chain, r.document = t.document ∧ 0 < r.sequence := by
  unfold placeChain at ok
  cases checked : t.checkChain Dict.empty chain with
  | error e => simp [checked, bind, Except.bind] at ok
  | ok _ =>
    simp only [checked, bind, Except.bind, Except.ok.injEq, Prod.mk.injEq] at ok
    obtain ⟨rfl, rfl⟩ := ok
    exact ⟨rfl, rfl, checkChainOk checked⟩

theorem insertChildOk {digest : ContentDigest} {parent : Option Int} {body : DocumentBody}
    {attachments : AttachmentMap} {deleted : Bool} {report : InsertReport}
    (ran : t.insertChild digest commit parent body attachments deleted s =
      (.ok (grown, report), s')) :
    ∃ r x, t.draft digest parent body attachments deleted = .ok r ∧
      commit.run r s = (.ok x, s') ∧ t.place parent.isNone x = .ok (grown, report) := by
  unfold insertChild at ran
  cases drafted : t.draft digest parent body attachments deleted with
  | error e => simp [drafted] at ran
  | ok r =>
    cases committed : commit.run r s with
    | mk answer after =>
      cases answer with
      | error e => simp [drafted, committed] at ran
      | ok x =>
        simp only [drafted, committed, Prod.mk.injEq] at ran
        obtain ⟨placed, rfl⟩ := ran
        exact ⟨r, x, rfl, committed, placed⟩

inductive TookOver (t : RevisionTree) (commit : Commit σ) (r : Revision)
    (history : List RevisionId) (s : σ) : RevisionTree → ForeignInsert → σ → Prop where
  | present {q : Int} (found : t.sequenceOf? r.id.text = some q) :
      TookOver t commit r history s t (.alreadyPresent q) s
  | inserted {known : Option Int} {chain done : List Revision} {report : InsertReport}
      {grown : RevisionTree} {s' : σ}
      (plan : t.planForeign r history = .ok (.missing known chain))
      (committed : t.commitChain commit (known.getD noParent) chain s = (.ok done, s'))
      (placed : t.placeChain known.isNone done = .ok (grown, report)) :
      TookOver t commit r history s grown (.inserted report) s'

theorem insertForeignOk {r : Revision} {history : List RevisionId} {given : ForeignInsert}
    (ran : t.insertForeign commit r history s = (.ok (grown, given), s')) :
    TookOver t commit r history s grown given s' := by
  unfold insertForeign at ran
  cases plan : t.planForeign r history with
  | error e => simp [plan] at ran
  | ok wanted =>
    cases wanted with
    | present q =>
      obtain ⟨_, _, _, shape⟩ := planForeignIff.mp plan
      rw [plan] at ran
      cases ran
      exact .present (planPresent shape.symm)
    | missing known chain =>
      cases committed : t.commitChain commit (known.getD noParent) chain s with
      | mk answer after =>
        cases answer with
        | error e => simp [plan, committed] at ran
        | ok done =>
          simp only [plan, committed] at ran
          cases placed : t.placeChain known.isNone done with
          | error e => simp [placed, Except.map] at ran
          | ok both =>
            rw [placed] at ran
            cases ran
            exact .inserted plan committed placed

theorem documentFold (chain : List Revision) (t : RevisionTree) :
    (chain.foldl link t).document = t.document := by
  induction chain generalizing t with
  | nil => rfl
  | cons r rest ih => exact ih (t.link r)

theorem takenLast {r : Revision} {history : List RevisionId} {known : Option Int}
    {chain done : List Revision} {report : InsertReport}
    (plan : t.planForeign r history = .ok (.missing known chain))
    (committed : t.commitChain commit (known.getD noParent) chain s = (.ok done, s'))
    (placed : t.placeChain known.isNone done = .ok (grown, report)) :
    ∃ (front : RevisionTree) (x : Revision), front.document = t.document ∧
      grown = (front.link x).chooseWinner ∧ report.sequence = x.sequence ∧ x.id = r.id ∧
      x.attachments = .ofRecords r.attachments.toRecords := by
  obtain ⟨_, _, descends, shape⟩ := planForeignIff.mp plan
  obtain ⟨missing, rest, cut⟩ := planCut descends.1 shape.symm
  have kept : done.map (fun x => (x.id, x.attachments)) =
      chain.map fun x => (x.id, x.attachments) :=
    commitChainKeeps (fun _ _ _ => rfl) committed
  rw [cut.chain, List.map_append] at kept
  obtain ⟨front, last, rfl, _, same⟩ := List.map_eq_append_iff.mp kept
  obtain ⟨x, rfl, both⟩ := List.map_eq_singleton_iff.mp same
  obtain ⟨id, attachments⟩ := Prod.mk.inj both
  obtain ⟨rfl, sequence, _⟩ := placeChainOk placed
  rw [List.getLast?_concat] at sequence
  rw [List.foldl_append]
  exact ⟨front.foldl link t, x, documentFold front t, rfl, sequence, id, attachments⟩

theorem insertForeignFinds {r : Revision} {history : List RevisionId} {given : ForeignInsert}
    (ran : t.insertForeign commit r history s = (.ok (grown, given), s')) :
    grown.sequenceOf? r.id.text = some given.sequence := by
  cases insertForeignOk ran with
  | present found => exact found
  | @inserted known chain done report _ _ plan committed placed =>
    obtain ⟨front, x, _, rfl, sequence, id, _⟩ := takenLast plan committed placed
    have text : r.id.text = x.id.text := congrArg RevisionId.text id.symm
    show _ = some report.sequence
    rw [sequence, text, sequenceChosen]
    exact (sequenceLink _ _ _).trans (if_pos rfl)

theorem insertForeignAdopts {r : Revision} {history : List RevisionId} {report : InsertReport}
    (ran : t.insertForeign commit r history s = (.ok (grown, .inserted report), s')) :
    grown.document = t.document ∧ ∃ x, grown.get? report.sequence = some x ∧ x.id = r.id ∧
      x.attachments = .ofRecords r.attachments.toRecords := by
  cases insertForeignOk ran with
  | inserted plan committed placed =>
    obtain ⟨front, x, owner, rfl, sequence, id, attachments⟩ := takenLast plan committed placed
    have node : (front.link x).get? x.sequence = some (front.settled x) :=
      (getLink front x x.sequence).trans (if_pos rfl)
    rw [sequence]
    exact ⟨owner, _, chosenIff.mpr ⟨_, node, rfl⟩, id, attachments⟩

/-- Trees that writes can make when nothing is known of the answers of their commits. -/
inductive Made (document : DocumentId) (key : Int) : RevisionTree → Prop where
  | empty : Made document key (empty document key)
  | built {revisions : List Revision} {t : RevisionTree}
      (ok : ofRevisions document key revisions = .ok t) : Made document key t
  | write {t : RevisionTree} {σ : Type} (before : Made document key t) (w : TreeWrite)
      (commit : Commit σ) (s : σ) : Made document key (w.after t commit s)

theorem writeLinks (w : TreeWrite) (t : RevisionTree) (commit : Commit σ) (s : σ) :
    w.after t commit s = t ∨
      ∃ chain : List Revision, w.after t commit s = (chain.foldl link t).chooseWinner := by
  unfold TreeWrite.after
  cases ran : (w.run t commit s).1 with
  | error e => exact .inl rfl
  | ok u =>
    cases w with
    | edit digest parent body attachments deleted =>
      obtain ⟨report, done⟩ : ∃ report,
          (t.insertLocalEdit digest commit parent body attachments deleted s).1 =
            .ok (u, report) := mapFstOk ran
      unfold insertLocalEdit at done
      cases above : t.editParent parent with
      | error e => simp [above] at done
      | ok p =>
        rw [above] at done
        obtain ⟨_, r, _, _, _, shape⟩ := insertChildGrows (Prod.ext done rfl)
        exact .inr ⟨[r], shape⟩
    | tombstone digest leaf =>
      obtain ⟨report, done⟩ : ∃ report,
          (t.tombstoneLeaf digest commit leaf s).1 = .ok (u, report) := mapFstOk ran
      obtain ⟨q, _, _, _, _, _, same⟩ := tombstoneLeafOk done
      rw [same] at done
      obtain ⟨_, r, _, _, _, shape⟩ := insertChildGrows (Prod.ext done rfl)
      exact .inr ⟨[r], shape⟩
    | foreign r history =>
      obtain ⟨given, done⟩ : ∃ given,
          (t.insertForeign commit r history s).1 = .ok (u, given) := mapFstOk ran
      obtain ⟨s', whole⟩ : ∃ s', t.insertForeign commit r history s = (.ok (u, given), s') :=
        ⟨_, Prod.ext done rfl⟩
      cases insertForeignOk whole with
      | present found => exact .inl rfl
      | inserted plan committed placed => exact .inr ⟨_, (placeChainOk placed).1⟩

structure InPlace (t : RevisionTree) : Prop where
  sorted : t.nodes.Sorted
  own : ∀ s r, t.get? s = some r → r.sequence = s

theorem WellFormed.inPlace (wf : t.WellFormed) : t.InPlace :=
  ⟨wf.nodesSorted, fun s r found => (wf.own s r found).1⟩

theorem InPlace.link (inPlace : t.InPlace) (r : Revision) : (t.link r).InPlace where
  sorted := sortedLink inPlace.sorted r
  own s x found := by
    rw [getLink] at found
    split at found
    · rename_i here
      cases found
      exact here.symm
    · exact inPlace.own s x found

theorem InPlace.links (inPlace : t.InPlace) (chain : List Revision) :
    (chain.foldl RevisionTree.link t).InPlace := by
  induction chain generalizing t with
  | nil => exact inPlace
  | cons r rest ih => exact ih (inPlace.link r)

theorem InPlace.chosen (inPlace : t.InPlace) : t.chooseWinner.InPlace where
  sorted := sortedCurrent (sortedCurrent inPlace.sorted _ _) _ _
  own s r found := by
    obtain ⟨old, before, rfl⟩ := chosenIff.mp found
    exact inPlace.own s old before

theorem Made.inPlace {document : DocumentId} {key : Int} (made : Made document key t) :
    t.InPlace := by
  induction made with
  | empty => exact (emptyWellFormed document key).inPlace
  | built ok => exact (Reachable.built ok).wellFormed.inPlace
  | write before w commit s ih =>
    rcases writeLinks w _ commit s with same | ⟨chain, same⟩
    · rw [same]
      exact ih
    · rw [same]
      exact (ih.links chain).chosen

theorem InPlace.keyed (inPlace : t.InPlace) : t.nodes.Keyed (·.revision.sequence) := by
  refine (Dict.keyedIff inPlace.sorted).mpr fun s n node => inPlace.own s n.revision ?_
  unfold get?
  rw [node]
  rfl

theorem InPlace.rising (inPlace : t.InPlace) :
    t.revisions.Pairwise fun a b => a.sequence < b.sequence :=
  List.pairwise_map.mpr (inPlace.keyed.rising inPlace.sorted)

end RevisionTree
end RevForest
