import Mathlib.Data.List.Perm.Subperm
import RevForest.Proofs.Tree.Convergence

/-! The walk from a revision to its root as it runs, with no bound of its own: from a node to its
parent, until it stands at a root or at a sequence that no node has. A well-formed tree is
a forest of ids, and every turn stays on the path of the revision in it. So the walk ends
at a root, with the whole path met, and as no id comes twice it makes no more turns than
there are nodes: the bounded walk collects the same. -/
namespace RevForest

theorem Forest.Path.once {f : Forest} {id : RevisionId} {ids : List RevisionId}
    (path : f.Path id ids) : ids.Nodup := by
  have falling : ids.IsChain fun a b => b.generation < a.generation :=
    path.descends.2.imp fun a b next => by omega
  refine falling.pairwise.imp ?_
  rintro a _ lower rfl
  exact lt_irrefl _ lower

namespace RevisionTree
variable {t : RevisionTree} {s : Int} {met path : List RevisionId} {turns : Nat}

theorem WellFormed.findNode (wf : t.WellFormed) {s : Int} {r : Revision}
    (found : t.get? s = some r) : t.find? r.id.text = some r := by
  unfold find?
  rw [(wf.indexed r.id.text s).mpr ⟨r, found, rfl⟩]
  exact found

def above (t : RevisionTree) (id : RevisionId) : Option RevisionId :=
  (t.find? id.text).bind fun r => t.parentId r.parent

theorem WellFormed.aboveNode (wf : t.WellFormed) {s : Int} {r : Revision}
    (found : t.get? s = some r) : t.above r.id = t.parentId r.parent := by
  unfold above
  rw [wf.findNode found]
  rfl

theorem WellFormed.aboveParent (wf : t.WellFormed) {s : Int} {r p : Revision}
    (found : t.get? s = some r) (child : 0 < r.parent) (parent : t.get? r.parent = some p) :
    t.above r.id = some p.id := by
  rw [wf.aboveNode found]
  unfold parentId
  rw [if_pos child, parent]
  rfl

theorem WellFormed.aboveEdge (wf : t.WellFormed) {id p : RevisionId}
    (above : t.above id = some p) :
    ∃ s r q, t.get? s = some r ∧ r.id = id ∧ 0 < r.parent ∧ t.get? r.parent = some q ∧
      q.id = p := by
  obtain ⟨r, found, up⟩ := Option.bind_eq_some_iff.mp above
  obtain ⟨s, here, node⟩ := Option.bind_eq_some_iff.mp found
  obtain ⟨x, same, text⟩ := (wf.indexed _ _).mp here
  cases node.symm.trans same
  unfold parentId at up
  split at up
  · rename_i child
    obtain ⟨q, parent, own⟩ := Option.map_eq_some_iff.mp up
    exact ⟨s, r, q, node, RevisionId.ext_text text, child, parent, own⟩
  · cases up

theorem WellFormed.aboveLower (wf : t.WellFormed) {id p : RevisionId}
    (above : t.above id = some p) : p.generation + 1 = id.generation := by
  obtain ⟨s, r, q, node, rfl, child, parent, rfl⟩ := wf.aboveEdge above
  obtain ⟨_, same, _, next⟩ := wf.linked s r node child
  cases parent.symm.trans same
  exact next.symm

def WellFormed.forest (wf : t.WellFormed) : Forest := ⟨t.above, fun _ _ => wf.aboveLower⟩

theorem WellFormed.followsForest (wf : t.WellFormed) : t.Follows wf.forest :=
  fun _ _ found => (wf.aboveNode found).symm

inductive Stop where
  | root
  | missing
  deriving DecidableEq, Repr

/-- A walk that stands at a sequence, with some ids met, makes so many turns more; when it stops it
has met all of the path. -/
inductive Ascends (t : RevisionTree) :
    Int → List RevisionId → Nat → Stop → List RevisionId → Prop where
  | missing {s : Int} {met : List RevisionId} (absent : t.get? s = none) :
      Ascends t s met 0 .missing met
  | root {s : Int} {met : List RevisionId} {r : Revision} (found : t.get? s = some r)
      (top : r.isRoot = true) : Ascends t s met 1 .root (met ++ [r.id])
  | up {s : Int} {met path : List RevisionId} {r : Revision} {turns : Nat} {stop : Stop}
      (found : t.get? s = some r) (child : ¬ r.isRoot = true)
      (next : Ascends t r.parent (met ++ [r.id]) turns stop path) :
      Ascends t s met (turns + 1) stop path

theorem walkNode {s : Int} {r : Revision} (found : t.get? s = some r) (steps : Nat) :
    t.walk (steps + 1) s = r.id :: if r.isRoot then [] else t.walk steps r.parent := by
  rw [walk, found]

theorem Ascends.walked {stop : Stop} (ascends : t.Ascends s met turns stop path) {steps : Nat}
    (enough : turns ≤ steps) : met ++ t.walk steps s = path := by
  induction ascends generalizing steps with
  | missing absent => cases steps <;> simp [walk, absent]
  | root found top =>
    cases steps with
    | zero => cases enough
    | succ n => rw [walkNode found, if_pos top]
  | @up s met path r turns stop found child next ih =>
    cases steps with
    | zero => cases enough
    | succ n =>
      rw [walkNode found, if_neg child, ← ih (Nat.le_of_succ_le_succ enough), List.append_assoc]
      rfl

theorem Ascends.length {stop : Stop} (ascends : t.Ascends s met turns stop path) :
    path.length = met.length + turns := by
  induction ascends with
  | missing absent => rfl
  | root found top => rw [List.length_append, List.length_singleton]
  | up found child next ih =>
    rw [List.length_append, List.length_singleton] at ih
    omega

theorem ReachesRoot.ascends (up : t.ReachesRoot s) (met : List RevisionId) :
    ∃ turns path, t.Ascends s met turns .root path := by
  induction up generalizing met with
  | root found top => exact ⟨1, _, .root found ((isRootIff _).mpr top)⟩
  | up edge next ih =>
    obtain ⟨r, found, child, rfl⟩ := parentOfIff.mp edge
    obtain ⟨turns, path, rest⟩ := ih (met ++ [r.id])
    exact ⟨turns + 1, path, .up found ((notRootIff r).mpr child) rest⟩

/-- The walk from `id` stands at the node of `r`: with the path of this node the ids that it has met
are the path of `id`. -/
structure Stands (wf : t.WellFormed) (id : RevisionId) (met : List RevisionId) (s : Int)
    (r : Revision) : Prop where
  found : t.get? s = some r
  joins : ∀ ids, wf.forest.Path r.id ids → wf.forest.Path id (met ++ ids)

variable {wf : t.WellFormed} {id : RevisionId} {r : Revision}

theorem Stands.start (wf : t.WellFormed) (found : t.get? s = some r) :
    Stands wf r.id [] s r := ⟨found, fun _ path => path⟩

theorem Stands.up (stands : Stands wf id met s r) (child : ¬ r.isRoot = true) :
    ∃ p, Stands wf id (met ++ [r.id]) r.parent p := by
  have positive := (notRootIff r).mp child
  obtain ⟨p, parent, _⟩ := wf.linked s r stands.found positive
  refine ⟨p, parent, ?_⟩
  intro ids path
  rw [List.append_assoc]
  exact stands.joins _ (.step (wf.aboveParent stands.found positive parent) path)

theorem Stands.top (stands : Stands wf id met s r) (top : r.isRoot = true) :
    wf.forest.Path id (met ++ [r.id]) := by
  have low := (isRootIff r).mp top
  refine stands.joins _ (.root ?_)
  exact (wf.aboveNode stands.found).trans (if_neg (not_lt.mpr low))

theorem Ascends.whole {stop : Stop} (ascends : t.Ascends s met turns stop path)
    (stands : Stands wf id met s r) : stop = .root ∧ wf.forest.Path id path := by
  induction ascends generalizing r with
  | missing absent => cases stands.found.symm.trans absent
  | root found top =>
    cases stands.found.symm.trans found
    exact ⟨rfl, stands.top top⟩
  | up found child next ih =>
    cases stands.found.symm.trans found
    obtain ⟨_, above⟩ := stands.up child
    exact ih above

theorem memIds (sorted : t.nodes.Sorted) {id : RevisionId} :
    id ∈ t.revisions.map (·.id) ↔ t.HasId id := by
  unfold revisions Dict.values HasId get?
  rw [List.map_map, List.map_map, List.mem_map]
  constructor
  · rintro ⟨⟨s, n⟩, member, rfl⟩
    exact ⟨s, n.revision, by rw [(Dict.memIff sorted s n).mp member]; rfl, rfl⟩
  · rintro ⟨s, r, found, rfl⟩
    obtain ⟨n, node, rfl⟩ := Option.map_eq_some_iff.mp found
    exact ⟨(s, n), (Dict.memIff sorted s n).mpr node, rfl⟩

theorem WellFormed.pathShort (wf : t.WellFormed) {id : RevisionId} {ids : List RevisionId}
    (path : wf.forest.Path id ids) (inside : t.HasId id) : ids.length ≤ t.size := by
  have subset : ids ⊆ t.revisions.map (·.id) := fun x member =>
    (memIds wf.nodesSorted).mpr (followsPath wf.followsForest path inside x member)
  have short := (List.subperm_of_subset path.once subset).length_le
  unfold revisions Dict.values at short
  rw [List.length_map, List.length_map, List.length_map] at short
  exact short

theorem WellFormed.walkEnds (wf : t.WellFormed) (found : t.get? s = some r) :
    ∃ path, t.Ascends s [] path.length .root path ∧ path.length ≤ t.size ∧
      t.history r.id.text = .ok path ∧ wf.forest.Path r.id path := by
  -- The generations that fall on the way up give the walk an end; what each turn keeps says which.
  obtain ⟨turns, path, ascends⟩ := (wf.reachesRoot found).ascends []
  obtain ⟨_, up⟩ := ascends.whole (.start wf found)
  have length : path.length = turns := ascends.length.trans (Nat.zero_add turns)
  have short := wf.pathShort up ⟨s, r, found, rfl⟩
  refine ⟨path, length ▸ ascends, short, ?_, up⟩
  unfold history
  rw [(wf.indexed r.id.text s).mpr ⟨r, found, rfl⟩]
  exact congrArg Except.ok (ascends.walked (length ▸ short))

theorem WellFormed.historyPath (wf : t.WellFormed) (found : t.get? s = some r) :
    ∃ ids, t.history r.id.text = .ok ids ∧ wf.forest.Path r.id ids := by
  obtain ⟨ids, _, _, walked, path⟩ := wf.walkEnds found
  exact ⟨ids, walked, path⟩

end RevisionTree
end RevForest
