import Mathlib.Data.List.Basic
import RevForest.Proofs.Tree.WellFormed
import RevForest.Tree.Insert

/-! Commits as the writes of a tree use them. A recorded commit answers like the one
it records, so what it was asked and what it answered in one call can be stated of
the call itself. A chain that was committed is determined by the sequences that
were given for it; when they are fresh, the chain grows the tree, and the check made
after the commits cannot fail. -/
namespace RevForest

abbrev Answer := Except DocumentError (Option Int)

def Commit.recorded {σ : Type} (commit : Commit σ) : Commit (σ × List Answer) := fun r s =>
  ((commit r s.1).1, ((commit r s.1).2, s.2 ++ [(commit r s.1).1]))

def Commit.scripted : Commit (List Answer) := fun _ script =>
  match script with
  | [] => (.ok none, [])
  | a :: rest => (a, rest)

/-- One commit answers like another on the part of its state that the other has. -/
def Commit.Follows {σ τ : Type} (commit : Commit τ) (other : Commit σ) (view : τ → σ) : Prop :=
  ∀ r s, Prod.map id view (commit r s) = other r (view s)

theorem Commit.recordedFollows {σ : Type} (commit : Commit σ) :
    commit.recorded.Follows commit Prod.fst := fun _ _ => rfl

theorem Commit.Follows.run {σ τ : Type} {commit : Commit τ} {other : Commit σ} {view : τ → σ}
    (follows : commit.Follows other view) (r : Revision) (s : τ) :
    Prod.map id view (commit.run r s) = other.run r (view s) := by
  unfold Commit.run
  rw [← follows r s]
  obtain ⟨answer, after⟩ := commit r s
  cases answer with
  | error e => rfl
  | ok given => cases given <;> rfl

theorem Commit.runNew {σ : Type} (commit : Commit σ) {r : Revision} (new : r.sequence = unassigned)
    (s : σ) :
    commit.run r s =
      ((commit r s).1.map fun given => { r with sequence := given.getD unassigned },
        (commit r s).2) := by
  unfold Commit.run
  obtain ⟨answer, after⟩ := commit r s
  cases answer with
  | error e => rfl
  | ok given =>
    cases given with
    | none =>
      simp only [Except.map, Option.getD_none]
      rw [← new]
    | some q =>
      have assigned : r.initializeSequence q = ({ r with sequence := q }, true) := if_pos new
      simp only [assigned]
      rfl

namespace Commit.Follows
variable {σ τ : Type} {commit : Commit τ} {other : Commit σ} {view : τ → σ}

theorem commitChain (follows : commit.Follows other view) (t : RevisionTree)
    (chain : List Revision) (parent : Int) (s : τ) :
    Prod.map id view (t.commitChain commit parent chain s) =
      t.commitChain other parent chain (view s) := by
  induction chain generalizing parent s with
  | nil => rfl
  | cons r rest ih =>
    unfold RevisionTree.commitChain
    rw [← follows.run]
    obtain ⟨outcome, after⟩ := commit.run { r with parent } s
    cases outcome with
    | error e => rfl
    | ok done =>
      simp only [Prod.map, id]
      split
      · rw [← ih]
        obtain ⟨later, last⟩ := t.commitChain commit done.sequence rest after
        cases later <;> rfl
      · rfl

theorem insertChild (follows : commit.Follows other view) (t : RevisionTree)
    (digest : ContentDigest) (parent : Option Int) (body : DocumentBody)
    (attachments : AttachmentMap) (deleted : Bool) (s : τ) :
    Prod.map id view (t.insertChild digest commit parent body attachments deleted s) =
      t.insertChild digest other parent body attachments deleted (view s) := by
  unfold RevisionTree.insertChild
  cases t.draft digest parent body attachments deleted with
  | error e => rfl
  | ok r =>
    simp only
    rw [← follows.run]
    obtain ⟨outcome, after⟩ := commit.run r s
    cases outcome <;> rfl

theorem insertLocalEdit (follows : commit.Follows other view) (t : RevisionTree)
    (digest : ContentDigest) (parent : Option RevisionId) (body : DocumentBody)
    (attachments : AttachmentMap) (deleted : Bool) (s : τ) :
    Prod.map id view (t.insertLocalEdit digest commit parent body attachments deleted s) =
      t.insertLocalEdit digest other parent body attachments deleted (view s) := by
  unfold RevisionTree.insertLocalEdit
  cases t.editParent parent with
  | error e => rfl
  | ok above => exact follows.insertChild t digest above body attachments deleted s

theorem tombstoneLeaf (follows : commit.Follows other view) (t : RevisionTree)
    (digest : ContentDigest) (leaf : RevisionId) (s : τ) :
    Prod.map id view (t.tombstoneLeaf digest commit leaf s) =
      t.tombstoneLeaf digest other leaf (view s) := by
  unfold RevisionTree.tombstoneLeaf
  cases t.sequenceOf? leaf.text with
  | none => rfl
  | some sequence =>
    dsimp only
    rw [apply_ite (Prod.map id view), follows.insertChild]
    rfl

theorem insertForeign (follows : commit.Follows other view) (t : RevisionTree) (r : Revision)
    (history : List RevisionId) (s : τ) :
    Prod.map id view (t.insertForeign commit r history s) =
      t.insertForeign other r history (view s) := by
  unfold RevisionTree.insertForeign
  cases t.planForeign r history with
  | error e => rfl
  | ok plan =>
    cases plan with
    | present sequence => rfl
    | missing known chain =>
      simp only
      rw [← follows.commitChain]
      obtain ⟨outcome, after⟩ := t.commitChain commit (known.getD noParent) chain s
      cases outcome <;> rfl

end Commit.Follows

def Commit.Keeps {σ : Type} (commit : Commit σ) (Q : Revision → Prop) (P : σ → Prop) : Prop :=
  ∀ r s, Q r → P s → P (commit r s).2

namespace Commit.Keeps
variable {σ : Type} {commit : Commit σ} {Q : Revision → Prop} {P : σ → Prop} {s : σ}

theorem run (keeps : commit.Keeps Q P) {r : Revision} (asked : Q r) (before : P s) :
    P (commit.run r s).2 := by
  have after := keeps r s asked before
  unfold Commit.run
  generalize commit r s = ran at after ⊢
  obtain ⟨answer, last⟩ := ran
  cases answer with
  | error e => exact after
  | ok given => cases given <;> exact after

theorem commitChain (keeps : commit.Keeps Q P) (t : RevisionTree) {chain : List Revision}
    (asked : ∀ r ∈ chain, ∀ parent, Q { r with parent }) (parent : Int) (before : P s) :
    P (t.commitChain commit parent chain s).2 := by
  induction chain generalizing parent s with
  | nil => exact before
  | cons r rest ih =>
    obtain ⟨here, others⟩ := List.forall_mem_cons.mp asked
    have first := keeps.run (here parent) before
    unfold RevisionTree.commitChain
    generalize commit.run { r with parent } s = ran at first ⊢
    obtain ⟨outcome, after⟩ := ran
    cases outcome with
    | error e => exact first
    | ok done =>
      dsimp only
      split
      · have later := ih others done.sequence first
        generalize t.commitChain commit done.sequence rest after = ran at later ⊢
        obtain ⟨outcome, last⟩ := ran
        cases outcome <;> exact later
      · exact first

theorem insertChild (keeps : commit.Keeps Q P) (t : RevisionTree) (digest : ContentDigest)
    (parent : Option Int) (body : DocumentBody) (attachments : AttachmentMap) (deleted : Bool)
    (asked : ∀ r, t.draft digest parent body attachments deleted = .ok r → Q r) (before : P s) :
    P (t.insertChild digest commit parent body attachments deleted s).2 := by
  unfold RevisionTree.insertChild
  cases drafted : t.draft digest parent body attachments deleted with
  | error e => exact before
  | ok r =>
    have after := keeps.run (asked r drafted) before
    dsimp only
    generalize commit.run r s = ran at after ⊢
    obtain ⟨outcome, last⟩ := ran
    cases outcome <;> exact after

theorem insertLocalEdit (keeps : commit.Keeps Q P) (t : RevisionTree) (digest : ContentDigest)
    (parent : Option RevisionId) (body : DocumentBody) (attachments : AttachmentMap)
    (deleted : Bool)
    (asked : ∀ above r, t.draft digest above body attachments deleted = .ok r → Q r)
    (before : P s) :
    P (t.insertLocalEdit digest commit parent body attachments deleted s).2 := by
  unfold RevisionTree.insertLocalEdit
  cases t.editParent parent with
  | error e => exact before
  | ok above =>
    exact keeps.insertChild t digest above body attachments deleted (asked above) before

theorem tombstoneLeaf (keeps : commit.Keeps Q P) (t : RevisionTree) (digest : ContentDigest)
    (leaf : RevisionId) (asked : ∀ above r, t.draft digest above .empty .empty true = .ok r → Q r)
    (before : P s) : P (t.tombstoneLeaf digest commit leaf s).2 := by
  unfold RevisionTree.tombstoneLeaf
  cases t.sequenceOf? leaf.text with
  | none => exact before
  | some sequence =>
    cases found : t.nodes.find? sequence with
    | none => simpa [found] using before
    | some n =>
      simp only [found]
      split
      · exact keeps.insertChild t digest _ _ _ _ (asked _) before
      · exact before

theorem insertForeign (keeps : commit.Keeps Q P) (t : RevisionTree) (r : Revision)
    (history : List RevisionId)
    (asked : ∀ known chain, t.planForeign r history = .ok (.missing known chain) →
      ∀ x ∈ chain, ∀ parent, Q { x with parent }) (before : P s) :
    P (t.insertForeign commit r history s).2 := by
  unfold RevisionTree.insertForeign
  cases plan : t.planForeign r history with
  | error e => exact before
  | ok wanted =>
    cases wanted with
    | present sequence => exact before
    | missing known chain =>
      have after := keeps.commitChain t (asked known chain plan) (known.getD noParent) before
      dsimp only
      generalize t.commitChain commit (known.getD noParent) chain s = ran at after ⊢
      obtain ⟨outcome, last⟩ := ran
      cases outcome <;> exact after

end Commit.Keeps

def Commit.Spares {σ τ : Type} (commit : Commit σ) (part : σ → τ) : Prop :=
  ∀ r s, part (commit r s).2 = part s

namespace Commit.Spares
variable {σ τ : Type} {commit : Commit σ} {part : σ → τ}

theorem keeps (spares : commit.Spares part) (s : σ) :
    commit.Keeps (fun _ => True) (fun s' => part s' = part s) :=
  fun r s' _ same => (spares r s').trans same

theorem insertChild (spares : commit.Spares part) (t : RevisionTree) (digest : ContentDigest)
    (parent : Option Int) (body : DocumentBody) (attachments : AttachmentMap) (deleted : Bool)
    (s : σ) :
    part (t.insertChild digest commit parent body attachments deleted s).2 = part s :=
  (spares.keeps s).insertChild t digest parent body attachments deleted (fun _ _ => trivial) rfl

theorem insertForeign (spares : commit.Spares part) (t : RevisionTree) (r : Revision)
    (history : List RevisionId) (s : σ) :
    part (t.insertForeign commit r history s).2 = part s :=
  (spares.keeps s).insertForeign t r history (fun _ _ _ _ _ _ => trivial) rfl

end Commit.Spares

namespace RevisionTree

def placed (parent : Int) : List Revision → List Int → List Revision
  | r :: rest, q :: qs => { r with parent, sequence := q } :: placed q rest qs
  | _, _ => []

theorem memPlaced {x : Revision} {parent : Int} {chain : List Revision} {qs : List Int}
    (member : x ∈ placed parent chain qs) :
    ∃ r ∈ chain, ∃ above q, x = { r with parent := above, sequence := q } := by
  induction chain generalizing parent qs with
  | nil => cases member
  | cons r rest ih =>
    cases qs with
    | nil => cases member
    | cons q qs =>
      rcases List.mem_cons.mp member with rfl | later
      · exact ⟨r, List.mem_cons_self, parent, q, rfl⟩
      · obtain ⟨y, inside, above, p, shape⟩ := ih later
        exact ⟨y, List.mem_cons_of_mem _ inside, above, p, shape⟩

def Gives (a : Answer) : Prop := ∃ q, a = .ok (some q) ∧ 0 < q

theorem runRecordedNew {σ : Type} (commit : Commit σ) {r : Revision}
    (new : r.sequence = unassigned) (s : σ) (log : List Answer) :
    ∃ a, (commit.recorded.run r (s, log)).2.2 = log ++ [a] ∧
      ((¬ Gives a ∧ ∀ x, (commit.recorded.run r (s, log)).1 = .ok x → x.isSequenced = false) ∨
        ∃ q, a = .ok (some q) ∧ 0 < q ∧
          (commit.recorded.run r (s, log)).1 = .ok { r with sequence := q }) := by
  rw [Commit.runNew _ new]
  unfold Commit.recorded
  refine ⟨(commit r s).1, rfl, ?_⟩
  cases asked : (commit r s).1 with
  | error e =>
    refine .inl ⟨?_, by simp [Except.map]⟩
    intro gives
    obtain ⟨q, same, _⟩ := gives
    cases same
  | ok given =>
    by_cases gives : Gives (.ok given)
    · obtain ⟨q, same, positive⟩ := gives
      cases same
      exact .inr ⟨q, rfl, positive, rfl⟩
    · refine .inl ⟨gives, ?_⟩
      intro x same
      cases same
      cases given with
      | none => rfl
      | some q =>
        have low : ¬ 0 < q := fun positive => gives ⟨q, rfl, positive⟩
        simp [Revision.isSequenced, low]

theorem commitChainRecorded {σ : Type} (commit : Commit σ) (t : RevisionTree)
    {chain : List Revision} (parent : Int) (free : ∀ r ∈ chain, r.sequence = unassigned)
    (s : σ) (log : List Answer) :
    ∃ answers, (t.commitChain commit.recorded parent chain (s, log)).2.2 = log ++ answers ∧
      ((∃ e, (t.commitChain commit.recorded parent chain (s, log)).1 = .error e ∧
          ∃ a ∈ answers, ¬ Gives a) ∨
        ∃ qs : List Int, answers = qs.map (fun q => .ok (some q)) ∧ qs.length = chain.length ∧
          (∀ q ∈ qs, 0 < q) ∧
          (t.commitChain commit.recorded parent chain (s, log)).1 =
            .ok (placed parent chain qs)) := by
  -- Each revision goes below the sequence that was given for the one before it.
  induction chain generalizing parent s log with
  | nil => exact ⟨[], (List.append_nil _).symm, .inr ⟨[], rfl, rfl, by simp, rfl⟩⟩
  | cons r rest ih =>
    have new : ({ r with parent } : Revision).sequence = unassigned := free r List.mem_cons_self
    obtain ⟨a, grown, outcome⟩ := runRecordedNew commit new s log
    unfold commitChain
    generalize commit.recorded.run { r with parent } (s, log) = ran at grown outcome ⊢
    obtain ⟨result, s', log'⟩ := ran
    dsimp only at grown outcome
    subst grown
    rcases outcome with ⟨bad, unsequenced⟩ | ⟨q, rfl, positive, rfl⟩
    · refine ⟨[a], ?_⟩
      cases result with
      | error e => exact ⟨rfl, .inl ⟨e, rfl, a, List.mem_singleton_self a, bad⟩⟩
      | ok x =>
        have low : ¬ x.isSequenced = true := by simp [unsequenced x rfl]
        dsimp only
        rw [if_neg low]
        exact ⟨rfl, .inl ⟨_, rfl, a, List.mem_singleton_self a, bad⟩⟩
    · have sequenced : ({ r with parent, sequence := q } : Revision).isSequenced = true := by
        simpa [Revision.isSequenced] using positive
      obtain ⟨answers, more, result⟩ :=
        ih q (fun x member => free x (List.mem_cons_of_mem _ member)) s' (log ++ [.ok (some q)])
      refine ⟨.ok (some q) :: answers, ?_⟩
      rw [List.append_assoc] at more
      simp only [sequenced, if_true]
      generalize t.commitChain commit.recorded q rest (s', log ++ [.ok (some q)]) = later
        at more result ⊢
      obtain ⟨outcome, last⟩ := later
      dsimp only at more result
      rcases result with ⟨e, rfl, b, member, bad⟩ | ⟨qs, rfl, length, all, rfl⟩
      · exact ⟨more, .inl ⟨e, rfl, b, List.mem_cons_of_mem _ member, bad⟩⟩
      · refine ⟨more, .inr ⟨q :: qs, rfl, congrArg Nat.succ length, ?_, rfl⟩⟩
        exact List.forall_mem_cons.mpr ⟨positive, all⟩

end RevisionTree
end RevForest
