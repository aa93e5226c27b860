import RevForest.Revision
import RevForest.Sequence
/-!
The revisions of one document: a forest whose nodes are keyed by sequence, because replicas may
create a document independently. The winner is chosen among all leaves: one that is not deleted
before one that is, then the higher generation, then the greater digest.
-/
namespace RevForest

structure Node where
  revision : Revision
  children : List Int
  deriving Repr

structure RevisionTree where
  document : DocumentId
  key : Int
  nodes : Dict Int Node
  index : Dict String Int
  roots : List Int
  winner : Option Int
  deriving Repr

namespace RevisionTree

def empty (document : DocumentId) (key : Int) : RevisionTree :=
  { document, key, nodes := Dict.empty, index := Dict.empty, roots := [], winner := none }

def size (t : RevisionTree) : Nat := t.nodes.size

def isEmpty (t : RevisionTree) : Bool := t.nodes.isEmpty

def get? (t : RevisionTree) (sequence : Int) : Option Revision :=
  (t.nodes.find? sequence).map (·.revision)

def sequenceOf? (t : RevisionTree) (id : String) : Option Int := t.index.find? id

def find? (t : RevisionTree) (id : String) : Option Revision := (t.sequenceOf? id).bind t.get?

def contains (t : RevisionTree) (id : String) : Bool := t.index.contains id

def generation? (t : RevisionTree) (sequence : Int) : Option Nat :=
  (t.get? sequence).map (·.generation)

def parentOf (t : RevisionTree) (sequence : Int) : Option Int :=
  (t.get? sequence).bind fun r => if r.isRoot then none else some r.parent

def childrenOf (t : RevisionTree) (sequence : Int) : List Int :=
  ((t.nodes.find? sequence).map (·.children)).getD []

def revisions (t : RevisionTree) : List Revision := t.nodes.values.map (·.revision)

/-- Revisions from the sequence after `since` on; after the largest there is none to go on to, and
the largest itself is given. -/
def since (t : RevisionTree) (since : Int) : List Revision :=
  let first := if since < maxSequence then since + 1 else maxSequence
  (t.nodes.entries.filter fun e => first ≤ e.1).map (·.2.revision)

def leaves (t : RevisionTree) : List Revision :=
  (t.nodes.values.filter (·.children.isEmpty)).map (·.revision)

def activeLeaves (t : RevisionTree) : List Revision := t.leaves.filter (!·.deleted)

def current? (t : RevisionTree) : Option Revision := t.winner.bind t.get?

def isConflicted (t : RevisionTree) : Bool := 2 ≤ t.activeLeaves.length

def conflicts (t : RevisionTree) : List Revision :=
  t.activeLeaves.filter fun r => !decide (some r.sequence = t.winner)

def walk (t : RevisionTree) : Nat → Int → List RevisionId
  | 0, _ => []
  | steps + 1, sequence =>
    match t.get? sequence with
    | none => []
    | some r => r.id :: if r.isRoot then [] else t.walk steps r.parent

/-- The ids from a revision to its root; no path is longer than the tree has nodes. -/
def history (t : RevisionTree) (id : String) : Except DocumentError (List RevisionId) :=
  match t.sequenceOf? id with
  | none => .error (.documentNotFound t.document.text (some id))
  | some sequence => .ok (t.walk t.size sequence)

def malformed (t : RevisionTree) (reason : String) : DocumentError :=
  .malformedRevisionTree t.document.text reason

def noRevision : String := "<none>"

def conflictingWrite (t : RevisionTree) (attempted : String) : DocumentError :=
  .conflictingWrite t.document.text attempted ((t.current?.map (·.id.text)).getD noRevision)

end RevisionTree
end RevForest
