import RevForest.Tree.Basic
/-!
Adding revisions to a tree. A revision is checked before it is linked, and the winner is chosen
again after it; a tree is also built from all its revisions at once.
-/
namespace RevForest

def Revision.outranks (a b : Revision) : Bool :=
  if a.deleted ≠ b.deleted then b.deleted
  else if a.generation ≠ b.generation then b.generation < a.generation
  else decide (b.id.digest < a.id.digest)

namespace RevisionTree

def checkLink (t : RevisionTree) (parentGeneration : Int → Option Nat) (r : Revision) :
    Except DocumentError Unit :=
  if r.document ≠ t.document then
    .error (t.malformed s!"revision {r.id.text} belongs to document '{r.document.text}'")
  else if !r.isSequenced then .error (t.malformed s!"revision {r.id.text} has no sequence")
  else if t.nodes.contains r.sequence then
    .error (t.malformed s!"sequence {r.sequence} is already in the tree")
  else if t.contains r.id.text then
    .error (t.malformed s!"revision {r.id.text} is already in the tree")
  else if r.isRoot then .ok ()
  else
    match parentGeneration r.parent with
    | none =>
      .error (t.malformed s!"revision {r.id.text} references unknown parent sequence {r.parent}")
    | some g =>
      if g + 1 = r.generation then .ok ()
      else .error (t.malformed
        s!"revision {r.id.text} has generation {r.generation} but its parent has generation {g}")

def link (t : RevisionTree) (r : Revision) : RevisionTree :=
  let r := { r with current := false, key := t.key, dirty := false }
  let roots := if r.isRoot then t.roots ++ [r.sequence] else t.roots
  let nodes :=
    if r.isRoot then t.nodes
    else t.nodes.adjust r.parent fun n => { n with children := n.children ++ [r.sequence] }
  { t with
    roots
    nodes := nodes.insert r.sequence ⟨r, []⟩
    index := t.index.insert r.id.text r.sequence }

def better (best : Option (Int × Revision)) (leaf : Int × Revision) : Option (Int × Revision) :=
  match best with
  | none => some leaf
  | some b => if b.2.outranks leaf.2 then some b else some leaf

def bestLeaf (t : RevisionTree) : Option (Int × Revision) :=
  ((t.nodes.entries.filter (·.2.children.isEmpty)).map fun e => (e.1, e.2.revision)).foldl
    better none

def setCurrent (nodes : Dict Int Node) (sequence : Option Int) (current : Bool) : Dict Int Node :=
  match sequence with
  | none => nodes
  | some s => nodes.adjust s fun n => { n with revision := { n.revision with current } }

def chooseWinner (t : RevisionTree) : RevisionTree :=
  let winner := t.bestLeaf.map (·.1)
  { t with nodes := setCurrent (setCurrent t.nodes t.winner false) winner true, winner }

def attach (t : RevisionTree) (r : Revision) : Except DocumentError RevisionTree := do
  t.checkLink t.generation? r
  .ok (t.link r)

def ofRevisions (document : DocumentId) (key : Int) (revisions : List Revision) :
    Except DocumentError RevisionTree := do
  let t ← (Revision.sortBySequence revisions).foldlM attach (empty document key)
  .ok t.chooseWinner

end RevisionTree
end RevForest
