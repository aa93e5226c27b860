import RevForest.Proofs.Attachment
import RevForest.Proofs.Tree.Winner

/-! A tree that takes over a forest of revision ids. A node follows the forest when its
parent carries the id that the forest has above it. A chain that climbs the forest,
linked below the right node, leaves every node following, and of its revisions only
the last can be a leaf. -/
namespace RevForest

def Revision.content (r : Revision) : Bool × DocumentBody × AttachmentMap :=
  (r.deleted, r.body, r.attachments)

structure Forest where
  up : RevisionId → Option RevisionId
  below : ∀ id p, up id = some p → p.generation + 1 = id.generation

inductive Forest.Path (f : Forest) : RevisionId → List RevisionId → Prop where
  | root {id : RevisionId} (top : f.up id = none) : Path f id [id]
  | step {id p : RevisionId} {rest : List RevisionId} (above : f.up id = some p)
      (next : Path f p rest) : Path f id (id :: rest)

theorem Forest.Path.head {f : Forest} {id : RevisionId} {ids : List RevisionId}
    (path : f.Path id ids) : ids.head? = some id := by
  cases path <;> rfl

theorem Forest.Path.climbs {f : Forest} {id : RevisionId} {ids : List RevisionId}
    (path : f.Path id ids) :
    (ids.IsChain fun a b => f.up a = some b) ∧ ∀ last ∈ ids.getLast?, f.up last = none := by
  induction path with
  | root top =>
    refine ⟨.singleton _, ?_⟩
    intro last same
    cases same
    exact top
  | step above next ih =>
    obtain ⟨chain, top⟩ := ih
    have head := next.head
    refine ⟨List.isChain_cons.mpr ⟨?_, chain⟩, ?_⟩
    · intro b same
      rw [head] at same
      cases same
      exact above
    · have some : ¬ _ = [] := List.ne_nil_of_mem (List.mem_of_mem_head? head)
      rw [List.getLast?_cons_of_ne_nil some]
      exact top

theorem Forest.Path.descends {f : Forest} {id : RevisionId} {ids : List RevisionId}
    (path : f.Path id ids) : RevisionTree.Descends id ids :=
  ⟨path.head, path.climbs.1.imp fun a b above => f.below a b above⟩

theorem Forest.Path.history {f : Forest} {id : RevisionId} {ids : List RevisionId}
    (path : f.Path id ids) : RevisionTree.pathOf id ids = ids :=
  if_neg (List.ne_nil_of_mem (List.mem_of_mem_head? path.head))

theorem Forest.Path.suffix {f : Forest} {id k : RevisionId} {front above ids : List RevisionId}
    (path : f.Path id ids) (cut : ids = front ++ k :: above) : f.Path k (k :: above) := by
  induction path generalizing front with
  | root top =>
    cases front with
    | nil =>
      cases cut
      exact .root top
    | cons a front =>
      have none := (List.cons.inj cut).2
      exact absurd none.symm (by simp)
  | step above next ih =>
    cases front with
    | nil =>
      cases cut
      exact .step above next
    | cons a front => exact ih (List.cons.inj cut).2

namespace RevisionTree

def HasId (t : RevisionTree) (id : RevisionId) : Prop := ∃ s r, t.get? s = some r ∧ r.id = id

def parentId (t : RevisionTree) (parent : Int) : Option RevisionId :=
  if 0 < parent then (t.get? parent).map (·.id) else none

def Follows (t : RevisionTree) (f : Forest) : Prop :=
  ∀ s r, t.get? s = some r → t.parentId r.parent = f.up r.id

variable {f : Forest} {t grown : RevisionTree}

theorem hasIdLink {r : Revision} (fits : t.Fits r) (id : RevisionId) :
    (t.link r).HasId id ↔ t.HasId id ∨ r.id = id := by
  unfold HasId
  constructor
  · intro inside
    obtain ⟨s, x, found, same⟩ := inside
    rw [getLink] at found
    split at found
    · cases found
      exact .inr same
    · exact .inl ⟨s, x, found, same⟩
  · intro inside
    rcases inside with ⟨s, x, found, same⟩ | same
    · refine ⟨s, x, ?_, same⟩
      rw [getLink, if_neg (fits.other found)]
      exact found
    · refine ⟨r.sequence, t.settled r, ?_, same⟩
      rw [getLink, if_pos rfl]

theorem hasIdGrows {chain : List Revision} (grows : Grows t chain grown) (id : RevisionId) :
    grown.HasId id ↔ t.HasId id ∨ id ∈ chain.map (·.id) := by
  induction grows with
  | nil => simp
  | cons fits next ih =>
    rw [ih, hasIdLink fits, List.map_cons, List.mem_cons, or_assoc, eq_comm (a := id)]

theorem parentIdLink {r : Revision} {parent : Int} (fits : t.Fits r)
    (inside : 0 < parent → ∃ p, t.get? parent = some p) :
    (t.link r).parentId parent = t.parentId parent := by
  unfold parentId
  split
  · rename_i child
    obtain ⟨p, found⟩ := inside child
    rw [getLink, if_neg (fits.other found)]
  · rfl

theorem followsLink {r : Revision} (wf : t.WellFormed) (fits : t.Fits r) (follows : t.Follows f)
    (joint : t.parentId r.parent = f.up r.id) : (t.link r).Follows f := by
  intro s x found
  rw [getLink] at found
  split at found
  · cases found
    refine (parentIdLink fits ?_).trans joint
    intro child
    obtain ⟨p, parent, _⟩ := fits.parent child
    exact ⟨p, parent⟩
  · refine (parentIdLink fits ?_).trans (follows s x found)
    intro child
    obtain ⟨p, parent, _⟩ := wf.linked s x found child
    exact ⟨p, parent⟩

structure Climbs (t : RevisionTree) (f : Forest) (parent : Int) (chain : List Revision) : Prop where
  first : ∀ r ∈ chain.head?, t.parentId parent = f.up r.id
  steps : chain.IsChain fun a b => f.up b.id = some a.id

theorem Climbs.rest {parent q : Int} {r : Revision} {rest : List Revision}
    (climbs : t.Climbs f parent (r :: rest)) (positive : 0 < q) :
    (t.link { r with parent, sequence := q }).Climbs f q rest where
  first x head := by
    have above := (List.isChain_cons.mp climbs.steps).1 x head
    unfold parentId
    rw [if_pos positive, getLink, if_pos rfl]
    exact above.symm
  steps := (List.isChain_cons.mp climbs.steps).2

theorem followsChain {parent : Int} {chain : List Revision} {qs : List Int} (wf : t.WellFormed)
    (follows : t.Follows f) (climbs : t.Climbs f parent chain)
    (grows : Grows t (placed parent chain qs) grown) : grown.Follows f := by
  induction chain generalizing t parent qs with
  | nil =>
    cases grows
    exact follows
  | cons r rest ih =>
    cases qs with
    | nil =>
      cases grows
      exact follows
    | cons q qs =>
      cases grows with
      | cons fits next =>
        have joint : t.parentId parent = f.up r.id := climbs.first r rfl
        exact ih (wellFormedLink fits wf) (followsLink wf fits follows joint)
          (climbs.rest fits.positive) next

theorem placedMap {α : Type} {f : Revision → α} {parent : Int} {chain : List Revision}
    {qs : List Int} (bare : ∀ r parent sequence, f { r with parent, sequence } = f r)
    (length : qs.length = chain.length) : (placed parent chain qs).map f = chain.map f := by
  induction chain generalizing parent qs with
  | nil => rfl
  | cons r rest ih =>
    cases qs with
    | nil => cases length
    | cons q qs =>
      unfold placed
      rw [List.map_cons, List.map_cons, bare, ih (Nat.succ.inj length)]

theorem placedIds {parent : Int} {chain : List Revision} {qs : List Int}
    (length : qs.length = chain.length) :
    (placed parent chain qs).map (·.id) = chain.map (·.id) :=
  placedMap (fun _ _ _ => rfl) length

theorem placedSequences (length : qs.length = chain.length) :
    (placed parent chain qs).map (·.sequence) = qs := by
  induction chain generalizing parent qs with
  | nil => exact (List.eq_nil_of_length_eq_zero length).symm
  | cons r rest ih =>
    cases qs with
    | nil => cases length
    | cons q qs => exact congrArg (q :: ·) (ih (Nat.succ.inj length))

theorem innerLink {r : Revision} {s : Int} (fits : t.Fits r) (inner : t.childrenOf s ≠ []) :
    (t.link r).childrenOf s ≠ [] := by
  rw [childrenLink fits]
  split
  · simp
  · exact inner

theorem innerGrows {chain : List Revision} {s : Int} (grows : Grows t chain grown)
    (inner : t.childrenOf s ≠ []) : grown.childrenOf s ≠ [] :=
  growsKeeps (P := fun t => t.childrenOf s ≠ []) innerLink grows inner

theorem innerChain {parent : Int} {r : Revision} {rest : List Revision} {q : Int} {qs : List Int}
    (positive : 0 < parent) (grows : Grows t (placed parent (r :: rest) (q :: qs)) grown) :
    grown.childrenOf parent ≠ [] := by
  cases grows with
  | cons fits next =>
    refine innerGrows next ?_
    rw [childrenLink fits, if_pos ⟨positive, rfl⟩]
    simp

theorem leafChain {parent s : Int} {chain : List Revision} {qs : List Int} {r : Revision}
    (length : qs.length = chain.length) (grows : Grows t (placed parent chain qs) grown)
    (leaf : grown.LeafAt s r) :
    t.LeafAt s r ∨ ∃ x ∈ chain.getLast?, x.id = r.id ∧ x.content = r.content := by
  induction chain generalizing t parent qs with
  | nil =>
    cases grows
    exact .inl leaf
  | cons x rest ih =>
    cases qs with
    | nil => cases length
    | cons q qs =>
      cases grows with
      | cons fits next =>
        -- A stub is no leaf: the next revision of the chain is linked below it.
        have shorter := Nat.succ.inj length
        rcases ih shorter next with ⟨found, empty⟩ | ⟨last, member, same⟩
        · rw [getLink] at found
          split at found
          · rename_i new
            cases found
            cases rest with
            | nil => exact .inr ⟨x, rfl, rfl, rfl⟩
            | cons y rest =>
              cases qs with
              | nil => cases shorter
              | cons q' qs =>
                have inner := innerChain fits.positive next
                rw [new] at leaf
                exact absurd leaf.2 inner
          · refine .inl ⟨found, ?_⟩
            by_contra inner
            exact innerLink fits inner empty
        · have some : rest ≠ [] := List.ne_nil_of_mem (List.mem_of_mem_getLast? member)
          refine .inr ⟨last, ?_, same⟩
          rw [List.getLast?_cons_of_ne_nil some]
          exact member

end RevisionTree
end RevForest
