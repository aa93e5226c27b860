import RevForest.Proofs.Identifier
import RevForest.Proofs.Tree.Winner

/-! A new child of a node. The draft of a local write is refused before anything is
committed; once it is made, a free positive sequence is all that it needs to fit, so
the check after the commit cannot fail. A local edit extends the winner or nothing. -/
namespace RevForest

def DocumentError.Recoverable (e : DocumentError) : Prop := ∀ cause, e ≠ .storage cause

theorem RevisionId.parseRecoverable {text : String} {e : DocumentError}
    (refused : parse text = .error e) : e.Recoverable := by
  unfold parse at refused
  split at refused
  · cases refused
  · cases refused
    intro cause
    simp

theorem DocumentId.parseRecoverable {text : String} {e : DocumentError}
    (refused : parse text = .error e) : e.Recoverable := by
  unfold parse at refused
  split at refused
  · cases refused
  · cases refused
    intro cause
    simp

namespace RevisionTree
variable {t : RevisionTree} {digest : ContentDigest} {parent : Option Int} {body : DocumentBody}
  {attachments : AttachmentMap} {deleted : Bool}

def child (t : RevisionTree) (parent : Option Int) (body : DocumentBody)
    (attachments : AttachmentMap) (deleted : Bool) (id : RevisionId) : Revision :=
  { document := t.document, id, body, attachments, key := t.key, parent := parent.getD noParent,
    deleted }

def named (t : RevisionTree) (digest : ContentDigest) (parent : Option Int) (body : DocumentBody)
    (attachments : AttachmentMap) (deleted : Bool) (generation : Nat) :
    Except DocumentError Revision := do
  let id ← RevisionId.ofParts generation
    (digest ((parent.bind t.get?).map (·.id)) deleted body attachments)
  if t.contains id.text then .error (t.malformed s!"revision {id.text} already exists")
  else .ok (t.child parent body attachments deleted id)

theorem draftNamed (t : RevisionTree) (digest : ContentDigest) (parent : Option Int)
    (body : DocumentBody) (attachments : AttachmentMap) (deleted : Bool) :
    t.draft digest parent body attachments deleted =
      match parent.bind t.get? with
      | none => t.named digest parent body attachments deleted 1
      | some p =>
        if p.generation < maxGeneration then
          t.named digest parent body attachments deleted (p.generation + 1)
        else .error (t.malformed s!"revision {p.id.text} is at the maximum generation") := by
  unfold draft named child
  cases parent.bind t.get? with
  | none => rfl
  | some p =>
    dsimp only
    split <;> rfl

def aboveId (t : RevisionTree) (parent : Option Int) : Option RevisionId :=
  (parent.bind t.get?).map (·.id)

theorem namedIff {generation : Nat} {r : Revision} :
    t.named digest parent body attachments deleted generation = .ok r ↔
      RevisionId.ofParts generation (digest (t.aboveId parent) deleted body attachments) =
          .ok r.id ∧
        t.sequenceOf? r.id.text = none ∧ r = t.child parent body attachments deleted r.id := by
  unfold named aboveId
  cases parts : RevisionId.ofParts generation
      (digest ((parent.bind t.get?).map (·.id)) deleted body attachments) with
  | error e => simp [bind, Except.bind]
  | ok id =>
    simp only [bind, Except.bind]
    split
    · rename_i taken
      refine iff_of_false (fun ok => nomatch ok) ?_
      rintro ⟨same, free, _⟩
      cases same
      have absent : t.contains r.id.text = false := (Dict.notContains _ _).mpr free
      rw [absent] at taken
      cases taken
    · rename_i free
      constructor
      · intro ok
        cases ok
        exact ⟨rfl, (Dict.notContains _ _).mp (Bool.eq_false_of_not_eq_true free), rfl⟩
      · rintro ⟨same, _, shape⟩
        cases same
        exact congrArg Except.ok shape.symm

theorem namedRecoverable {generation : Nat} {e : DocumentError}
    (refused : t.named digest parent body attachments deleted generation = .error e) :
    e.Recoverable := by
  unfold named at refused
  simp only [bind, Except.bind] at refused
  split at refused
  · rename_i bad
    cases refused
    exact RevisionId.parseRecoverable bad
  · split at refused
    · cases refused
      exact fun cause same => by cases same
    · cases refused

def nextGeneration (above : Option RevisionId) : Nat := (above.map (·.generation + 1)).getD 1

theorem draftIff {r : Revision} :
    t.draft digest parent body attachments deleted = .ok r ↔
      (∀ id ∈ t.aboveId parent, id.generation < maxGeneration) ∧
        RevisionId.ofParts (nextGeneration (t.aboveId parent))
            (digest (t.aboveId parent) deleted body attachments) = .ok r.id ∧
        t.sequenceOf? r.id.text = none ∧ r = t.child parent body attachments deleted r.id := by
  rw [draftNamed]
  cases above : parent.bind t.get? with
  | none =>
    have none' : t.aboveId parent = none := by
      unfold aboveId
      rw [above]
      rfl
    rw [namedIff, none']
    simp [nextGeneration]
  | some p =>
    have some' : t.aboveId parent = some p.id := by
      unfold aboveId
      rw [above]
      rfl
    dsimp only
    split
    · rename_i room
      rw [namedIff, some']
      refine (and_iff_right ?_).symm
      intro id same
      cases same
      exact room
    · rename_i full
      refine iff_of_false (fun ok => nomatch ok) ?_
      rintro ⟨room, _⟩
      exact full (room p.id some')

theorem draftOk {r : Revision}
    (ok : t.draft digest parent body attachments deleted = .ok r) :
    r = t.child parent body attachments deleted r.id ∧ t.sequenceOf? r.id.text = none ∧
      ∀ p, parent.bind t.get? = some p → p.generation + 1 = r.generation := by
  obtain ⟨_, parts, free, shape⟩ := draftIff.mp ok
  refine ⟨shape, free, ?_⟩
  intro p found
  have generation := RevisionId.ofPartsGeneration parts
  unfold aboveId at generation
  rw [found] at generation
  exact generation.symm

theorem draftElsewhere {t' : RevisionTree} {digest' : ContentDigest} {parent' : Option Int}
    {body' : DocumentBody} {attachments' : AttachmentMap} {r : Revision}
    (ok : t.draft digest parent body attachments deleted = .ok r)
    (above : t.aboveId parent = t'.aboveId parent')
    (agree : digest (t.aboveId parent) deleted body attachments =
      digest' (t.aboveId parent) deleted body' attachments')
    (free : t'.sequenceOf? r.id.text = none) :
    t'.draft digest' parent' body' attachments' deleted =
      .ok (t'.child parent' body' attachments' deleted r.id) := by
  obtain ⟨room, parts, _, _⟩ := draftIff.mp ok
  rw [agree, above] at parts
  exact draftIff.mpr ⟨above ▸ room, parts, free, rfl⟩

theorem draftRecoverable {e : DocumentError}
    (refused : t.draft digest parent body attachments deleted = .error e) : e.Recoverable := by
  rw [draftNamed] at refused
  split at refused
  · exact namedRecoverable refused
  · split at refused
    · exact namedRecoverable refused
    · cases refused
      exact fun cause same => by cases same

theorem editParentRecoverable {named : Option RevisionId} {e : DocumentError}
    (refused : t.editParent named = .error e) : e.Recoverable := by
  intro cause same
  subst same
  unfold editParent at refused
  split at refused
  · cases refused
  · split at refused <;> cases refused
  · split at refused
    · cases refused
    · split at refused
      · cases refused
      · split at refused <;> cases refused

def Holds (t : RevisionTree) (parent : Option Int) : Prop :=
  ∀ s, parent = some s → ∃ p, t.get? s = some p

theorem draftFits {r : Revision} {q : Int}
    (ok : t.draft digest parent body attachments deleted = .ok r) (holds : t.Holds parent)
    (positive : 0 < q) (free : t.get? q = none) : t.Fits { r with sequence := q } := by
  obtain ⟨shape, freeId, next⟩ := draftOk ok
  refine ⟨by rw [shape]; rfl, positive, free, freeId, ?_⟩
  intro low
  cases parent with
  | none =>
    rw [shape] at low
    cases low
  | some s =>
    obtain ⟨p, found⟩ := holds s rfl
    have above : r.parent = s := by
      rw [shape]
      rfl
    exact ⟨p, above ▸ found, next p found⟩

def childReport (t : RevisionTree) (isRoot : Bool) (r : Revision) : InsertReport :=
  ⟨r.sequence, 1, isRoot, t.winner, (t.link r).chooseWinner.winner⟩

theorem placeFits {r : Revision} (fits : t.Fits r) (isRoot : Bool) :
    t.place isRoot r = .ok ((t.link r).chooseWinner, t.childReport isRoot r) := by
  unfold place
  rw [attachIff.mpr ⟨fits, rfl⟩]
  rfl

inductive Extended (t : RevisionTree) (named : Option RevisionId) : Option Int → Prop where
  | nothing (unnamed : named = none) (bare : t.current? = none) : Extended t named none
  | winner {w : Revision} {s : Int} (won : t.winner = some s) (found : t.get? s = some w)
      (ended : named = none → w.deleted = true) (same : ∀ p, named = some p → w.id = p) :
      Extended t named (some s)

theorem editParentExtends (wf : t.WellFormed) (crowned : t.Crowned) {named : Option RevisionId}
    {above : Option Int} (ok : t.editParent named = .ok above) : t.Extended named above := by
  have winner {w : Revision} (current : t.current? = some w) :
      t.winner = some w.sequence ∧ t.get? w.sequence = some w := by
    obtain ⟨s, won, found⟩ := currentIff.mp current
    rw [(wf.own s w found).1]
    exact ⟨won, found⟩
  unfold editParent at ok
  split at ok
  · rename_i bare
    cases ok
    exact .nothing rfl bare
  · rename_i w current
    split at ok <;> try contradiction
    rename_i dead
    cases ok
    obtain ⟨won, found⟩ := winner current
    exact .winner won found (fun _ => dead) (fun p named => by cases named)
  · rename_i p
    split at ok <;> try contradiction
    rename_i inside
    split at ok
    · rename_i bare
      -- A tree without a winner is empty, so it holds no node to be named.
      have none := (emptyIff wf.nodesSorted).mp ((crowned.currentNone wf).mp bare)
      have here : ∃ s, t.sequenceOf? p.text = some s := by
        refine Option.ne_none_iff_exists'.mp ?_
        simpa [contains, Dict.contains, sequenceOf?] using inside
      obtain ⟨s, here⟩ := here
      obtain ⟨r, found, _⟩ := (wf.indexed _ _).mp here
      rw [none s] at found
      cases found
    · rename_i w current
      split at ok <;> try contradiction
      rename_i same
      cases ok
      obtain ⟨won, found⟩ := winner current
      refine .winner won found (fun named => by cases named) ?_
      intro q named
      cases named
      exact same

theorem Extended.holds {named : Option RevisionId} {above : Option Int}
    (extended : t.Extended named above) : t.Holds above := by
  intro s same
  cases extended with
  | nothing => cases same
  | winner won found ended named =>
    cases same
    exact ⟨_, found⟩

end RevisionTree
end RevForest
