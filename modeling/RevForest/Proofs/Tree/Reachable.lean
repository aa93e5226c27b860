import RevForest.Proofs.Tree.Foreign

/-! Trees that writes can make. A run starts from an empty tree or from one built of
stored revisions; each of its writes is asked with a digest and a commit of its own,
and may be rejected. The answers of the commit in a call are those of the recorded
commit. Every reachable tree is well formed. -/
namespace RevForest

inductive TreeWrite where
  | edit (digest : ContentDigest) (parent : Option RevisionId) (body : DocumentBody)
      (attachments : AttachmentMap) (deleted : Bool)
  | tombstone (digest : ContentDigest) (leaf : RevisionId)
  | foreign (revision : Revision) (history : List RevisionId)

namespace TreeWrite
variable {σ : Type}

def run (w : TreeWrite) (t : RevisionTree) (commit : Commit σ) (s : σ) :
    Except DocumentError RevisionTree × σ :=
  match w with
  | .edit digest parent body attachments deleted =>
    (t.insertLocalEdit digest commit parent body attachments deleted s).map
      (Except.map Prod.fst) id
  | .tombstone digest leaf => (t.tombstoneLeaf digest commit leaf s).map (Except.map Prod.fst) id
  | .foreign r history => (t.insertForeign commit r history s).map (Except.map Prod.fst) id

def after (w : TreeWrite) (t : RevisionTree) (commit : Commit σ) (s : σ) : RevisionTree :=
  match (w.run t commit s).1 with
  | .ok grown => grown
  | .error _ => t

def errors (w : TreeWrite) (t : RevisionTree) (commit : Commit σ) (s : σ) : List DocumentError :=
  match (w.run t commit s).1 with
  | .ok _ => []
  | .error e => [e]

def answers (w : TreeWrite) (t : RevisionTree) (commit : Commit σ) (s : σ) : List Answer :=
  (w.run t commit.recorded (s, [])).2.2

theorem runRecorded (w : TreeWrite) (t : RevisionTree) (commit : Commit σ) (s : σ)
    (log : List Answer) : (w.run t commit.recorded (s, log)).1 = (w.run t commit s).1 := by
  have follows := commit.recordedFollows
  cases w with
  | edit digest parent body attachments deleted =>
    exact congrArg (fun o => Except.map Prod.fst o.1)
      (follows.insertLocalEdit t digest parent body attachments deleted (s, log))
  | tombstone digest leaf =>
    exact congrArg (fun o => Except.map Prod.fst o.1) (follows.tombstoneLeaf t digest leaf (s, log))
  | foreign r history =>
    exact congrArg (fun o => Except.map Prod.fst o.1) (follows.insertForeign t r history (s, log))

end TreeWrite

namespace RevisionTree

inductive Reachable (document : DocumentId) (key : Int) : RevisionTree → Prop where
  | empty : Reachable document key (empty document key)
  | built {revisions : List Revision} {t : RevisionTree}
      (ok : ofRevisions document key revisions = .ok t) : Reachable document key t
  | write {t : RevisionTree} {σ : Type} (before : Reachable document key t) (w : TreeWrite)
      (commit : Commit σ) (s : σ) (fresh : t.Fresh (w.answers t commit s)) :
      Reachable document key (w.after t commit s)

theorem insertChildGrows {σ : Type} {t grown : RevisionTree} {digest : ContentDigest}
    {commit : Commit σ} {parent : Option Int} {body : DocumentBody} {attachments : AttachmentMap}
    {deleted : Bool} {s after : σ} {report : InsertReport}
    (ok : t.insertChild digest commit parent body attachments deleted s =
      (.ok (grown, report), after)) :
    ∃ draft r, t.draft digest parent body attachments deleted = .ok draft ∧
      commit.run draft s = (.ok r, after) ∧ t.Fits r ∧ grown = (t.link r).chooseWinner := by
  unfold insertChild at ok
  cases drafted : t.draft digest parent body attachments deleted with
  | error e => simp [drafted] at ok
  | ok draft =>
    simp only [drafted] at ok
    cases run : commit.run draft s with
    | mk outcome rest =>
      cases outcome with
      | error e => simp [run] at ok
      | ok r =>
        simp only [run, Prod.mk.injEq] at ok
        obtain ⟨placed, rfl⟩ := ok
        unfold place at placed
        cases attached : t.attach r with
        | error e => simp [attached, bind, Except.bind] at placed
        | ok linked =>
          obtain ⟨fits, rfl⟩ := attachIff.mp attached
          simp only [attached, bind, Except.bind, Except.ok.injEq, Prod.mk.injEq] at placed
          exact ⟨draft, r, rfl, run, fits, placed.1.symm⟩

theorem tombstoneLeafOk {σ : Type} {t : RevisionTree} {digest : ContentDigest} {commit : Commit σ}
    {leaf : RevisionId} {s : σ} {done : RevisionTree × InsertReport}
    (ok : (t.tombstoneLeaf digest commit leaf s).1 = .ok done) :
    ∃ q r, t.sequenceOf? leaf.text = some q ∧ t.get? q = some r ∧ t.childrenOf q = [] ∧
      r.deleted = false ∧
      t.tombstoneLeaf digest commit leaf s =
        t.insertChild digest commit (some q) .empty .empty true s := by
  unfold tombstoneLeaf at ok ⊢
  cases found : t.sequenceOf? leaf.text with
  | none => simp [found] at ok
  | some q =>
    cases node : t.nodes.find? q with
    | none => simp [found, node] at ok
    | some n =>
      simp only [found, node] at ok ⊢
      by_cases active : (n.children.isEmpty && !n.revision.deleted) = true
      · rw [if_pos active]
        simp only [Bool.and_eq_true, List.isEmpty_iff, Bool.not_eq_true'] at active
        refine ⟨q, n.revision, rfl, ?_, ?_, active.2, rfl⟩
        · unfold get?
          rw [node]
          rfl
        · unfold childrenOf
          rw [node]
          exact active.1
      · simp [active] at ok

theorem mapFstOk {α β : Type} {o : Except DocumentError (α × β)} {a : α}
    (ok : o.map Prod.fst = .ok a) : ∃ b, o = .ok (a, b) := by
  cases o with
  | error e => cases ok
  | ok both =>
    cases ok
    exact ⟨both.2, rfl⟩

theorem runGrows {σ : Type} {t u : RevisionTree} (wf : t.WellFormed) (w : TreeWrite)
    (commit : Commit σ) (s : σ) (fresh : t.Fresh (w.answers t commit s))
    (ok : (w.run t commit s).1 = .ok u) :
    u = t ∨ ∃ chain grown, Grows t chain grown ∧ u = grown.chooseWinner := by
  have one {r : Revision} (fits : t.Fits r) : Grows t [r] (t.link r) := .cons fits (.nil _)
  cases w with
  | edit digest parent body attachments deleted =>
    obtain ⟨report, done⟩ : ∃ report,
        (t.insertLocalEdit digest commit parent body attachments deleted s).1 =
          .ok (u, report) := mapFstOk ok
    unfold insertLocalEdit at done
    cases above : t.editParent parent with
    | error e => simp [above] at done
    | ok p =>
      rw [above] at done
      obtain ⟨_, r, _, _, fits, shape⟩ := insertChildGrows (Prod.ext done rfl)
      exact .inr ⟨[r], t.link r, one fits, shape⟩
  | tombstone digest leaf =>
    obtain ⟨report, done⟩ : ∃ report,
        (t.tombstoneLeaf digest commit leaf s).1 = .ok (u, report) := mapFstOk ok
    obtain ⟨q, _, _, _, _, _, same⟩ := tombstoneLeafOk done
    rw [same] at done
    obtain ⟨_, r, _, _, fits, shape⟩ := insertChildGrows (Prod.ext done rfl)
    exact .inr ⟨[r], t.link r, one fits, shape⟩
  | foreign r history =>
    rw [← TreeWrite.runRecorded _ t commit s []] at ok
    obtain ⟨outcome, done⟩ : ∃ outcome,
        (t.insertForeign commit.recorded r history (s, [])).1 = .ok (u, outcome) := mapFstOk ok
    rcases insertForeignRecorded wf commit s r history fresh with
      ⟨e, failed, _⟩ | ⟨q, _, same⟩ | ⟨known, chain, qs, grown, _, _, grows, same⟩
    · rw [failed] at done
      cases done
    · rw [same] at done
      cases done
      exact .inl rfl
    · rw [same] at done
      cases done
      exact .inr ⟨_, grown, grows, rfl⟩

theorem writeGrows {σ : Type} {t : RevisionTree} (wf : t.WellFormed) (w : TreeWrite)
    (commit : Commit σ) (s : σ) (fresh : t.Fresh (w.answers t commit s)) :
    w.after t commit s = t ∨
      ∃ chain grown, Grows t chain grown ∧ w.after t commit s = grown.chooseWinner := by
  unfold TreeWrite.after
  cases ran : (w.run t commit s).1 with
  | error e => exact .inl rfl
  | ok u => exact runGrows wf w commit s fresh ran

theorem Reachable.wellFormed {document : DocumentId} {key : Int} {t : RevisionTree}
    (reachable : Reachable document key t) : t.WellFormed := by
  induction reachable with
  | empty => exact emptyWellFormed document key
  | built ok =>
    obtain ⟨grown, grows, rfl⟩ := ofRevisionsIff.mp ok
    exact wellFormedChosen (wellFormedGrows grows (emptyWellFormed document key))
  | write before w commit s fresh ih =>
    rcases writeGrows ih w commit s fresh with same | ⟨chain, grown, grows, same⟩
    · rw [same]
      exact ih
    · rw [same]
      exact wellFormedChosen (wellFormedGrows grows ih)

/-- A property of trees at rest that a weaker one, kept by every fitting link, gives back when
the winner is chosen. -/
theorem Reachable.holds (Rest Growing : RevisionTree → Prop) {document : DocumentId} {key : Int}
    {t : RevisionTree} (start : Rest (RevisionTree.empty document key))
    (loosen : ∀ {t}, Rest t → Growing t)
    (link : ∀ {t r}, t.Fits r → Growing t → Growing (t.link r))
    (choose : ∀ {t}, t.WellFormed → Growing t → Rest t.chooseWinner)
    (reachable : Reachable document key t) : Rest t := by
  induction reachable with
  | empty => exact start
  | built ok =>
    obtain ⟨grown, grows, rfl⟩ := ofRevisionsIff.mp ok
    exact choose (wellFormedGrows grows (emptyWellFormed document key))
      (growsKeeps link grows (loosen start))
  | write before w commit s fresh ih =>
    have wf := before.wellFormed
    rcases writeGrows wf w commit s fresh with same | ⟨chain, grown, grows, same⟩
    · rw [same]
      exact ih
    · rw [same]
      exact choose (wellFormedGrows grows wf) (growsKeeps link grows (loosen ih))

theorem Reachable.identity {document : DocumentId} {key : Int} {t : RevisionTree}
    (reachable : Reachable document key t) : t.document = document ∧ t.key = key :=
  reachable.holds (fun t => t.document = document ∧ t.key = key)
    (fun t => t.document = document ∧ t.key = key) ⟨rfl, rfl⟩ id (fun _ => id) (fun _ => id)

theorem WellFormed.uniqueIds {t : RevisionTree} (wf : t.WellFormed) {s s' : Int} {r r' : Revision}
    (found : t.get? s = some r) (found' : t.get? s' = some r') (same : r.id = r'.id) : s = s' := by
  have first := (wf.indexed r.id.text s).mpr ⟨r, found, rfl⟩
  have second := (wf.indexed r.id.text s').mpr ⟨r', found', congrArg _ same.symm⟩
  exact Option.some.inj (first.symm.trans second)

theorem reachableViewsAgree {document : DocumentId} {key : Int} {t : RevisionTree}
    (reachable : Reachable document key t) :
    t.document = document ∧ t.key = key ∧ t.WellFormed ∧
      (∀ s s' r r', t.get? s = some r → t.get? s' = some r' → r.id = r'.id → s = s') ∧
      ∀ s r, t.get? s = some r → t.ReachesRoot s := by
  have wf := reachable.wellFormed
  obtain ⟨own, key⟩ := reachable.identity
  exact ⟨own, key, wf, fun s s' r r' found found' same => wf.uniqueIds found found' same,
    fun s r found => wf.reachesRoot found⟩

-- A chain of two whose second commit fails, the same chain with a sequence that falls, an edit of
-- its end, and the end of that branch.
namespace Sample

def document : DocumentId := ⟨"d", by decide⟩

def root : RevisionId := ⟨"1-a", 1, "a", by decide⟩

def child : RevisionId := ⟨"2-b", 2, "b", by decide⟩

def grandchild : RevisionId := ⟨"3-c", 3, "c", by decide⟩

def digest (d : String) : ContentDigest := fun _ _ _ _ => d

def delivered (id : RevisionId) : Revision := { document, id, body := .empty }

def calls : List (TreeWrite × List Answer) :=
  [(.foreign (delivered child) [child, root],
      [.ok (some 5), .error (.storage (.sequenceAllocation "full"))]),
    (.foreign (delivered child) [child, root], [.ok (some 5), .ok (some 2)]),
    (.edit (digest "c") (some child) .empty .empty false, [.ok (some 9)]),
    (.tombstone (digest "d") grandchild, [.ok (some 3)])]

def tree : RevisionTree :=
  calls.foldl (fun t call => call.1.after t Commit.scripted call.2) (.empty document 7)

theorem reachable : Reachable document 7 tree := by
  unfold tree calls
  simp only [List.foldl_cons, List.foldl_nil]
  refine .write (.write (.write (.write .empty _ _ _ ?_) _ _ _ ?_) _ _ _ ?_) _ _ _ ?_ <;> decide

end Sample

theorem sampleViewsAgree :
    Reachable Sample.document 7 Sample.tree ∧ Sample.tree.size = 4 ∧ Sample.tree.WellFormed ∧
      Sample.tree.ReachesRoot 3 := by
  obtain ⟨_, _, wf, _, up⟩ := reachableViewsAgree Sample.reachable
  refine ⟨Sample.reachable, by decide, wf, ?_⟩
  obtain ⟨r, found⟩ := Option.isSome_iff_exists.mp (by decide : (Sample.tree.get? 3).isSome = true)
  exact up 3 r found

end RevisionTree
end RevForest
