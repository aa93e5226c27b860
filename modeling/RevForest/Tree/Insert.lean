import RevForest.Tree.Link
/-!
Writing to a tree. The tree allocates no sequences: a commit is asked for one per new revision, and
may store the revision, fail, or assign nothing. A write answers either an error, and then the
tree is as it was, or the new tree and a report.
-/
namespace RevForest

/-- Asked for the sequence of a new revision; it may change a state of its own either way. -/
abbrev Commit (σ : Type) := Revision → σ → Except DocumentError (Option Int) × σ

def Commit.run {σ : Type} (commit : Commit σ) (r : Revision) (s : σ) :
    Except DocumentError Revision × σ :=
  match commit r s with
  | (.error e, s) => (.error e, s)
  | (.ok none, s) => (.ok r, s)
  | (.ok (some sequence), s) => (.ok (r.initializeSequence sequence).1, s)

structure InsertReport where
  sequence : Int
  inserted : Nat
  createdRoot : Bool
  previousWinner : Option Int
  winner : Option Int
  deriving DecidableEq, Repr

def InsertReport.winnerChanged (r : InsertReport) : Bool := decide (r.previousWinner ≠ r.winner)

inductive ForeignInsert where
  | alreadyPresent (sequence : Int)
  | inserted (report : InsertReport)
  deriving DecidableEq, Repr

def ForeignInsert.sequence : ForeignInsert → Int
  | .alreadyPresent sequence => sequence
  | .inserted report => report.sequence

namespace RevisionTree

/-- The node that a local edit extends. Without a parent that is no node in an empty tree and the
winner where it is deleted; with one it is the winner, if it is the one named. -/
def editParent (t : RevisionTree) (parent : Option RevisionId) :
    Except DocumentError (Option Int) :=
  match parent, t.current? with
  | none, none => .ok none
  | none, some w =>
    if w.deleted then .ok (some w.sequence) else .error (t.conflictingWrite noRevision)
  | some p, current =>
    if !t.contains p.text then .error (.documentNotFound t.document.text (some p.text))
    else match current with
      | none => .ok none
      | some w => if w.id = p then .ok (some w.sequence) else .error (t.conflictingWrite p.text)

def draft (t : RevisionTree) (digest : ContentDigest) (parent : Option Int) (body : DocumentBody)
    (attachments : AttachmentMap) (deleted : Bool) : Except DocumentError Revision := do
  let above := parent.bind t.get?
  let generation ← match above with
    | none => .ok 1
    | some p =>
      if p.generation < maxGeneration then .ok (p.generation + 1)
      else .error (t.malformed s!"revision {p.id.text} is at the maximum generation")
  let id ← RevisionId.ofParts generation (digest (above.map (·.id)) deleted body attachments)
  if t.contains id.text then .error (t.malformed s!"revision {id.text} already exists")
  else
    .ok { document := t.document, id, body, attachments, key := t.key,
          parent := parent.getD noParent, deleted }

def place (t : RevisionTree) (isRoot : Bool) (r : Revision) :
    Except DocumentError (RevisionTree × InsertReport) := do
  let linked ← t.attach r
  let grown := linked.chooseWinner
  .ok (grown, ⟨r.sequence, 1, isRoot, t.winner, grown.winner⟩)

def insertChild {σ : Type} (t : RevisionTree) (digest : ContentDigest) (commit : Commit σ)
    (parent : Option Int) (body : DocumentBody) (attachments : AttachmentMap) (deleted : Bool)
    (s : σ) : Except DocumentError (RevisionTree × InsertReport) × σ :=
  match t.draft digest parent body attachments deleted with
  | .error e => (.error e, s)
  | .ok r =>
    match commit.run r s with
    | (.error e, s) => (.error e, s)
    | (.ok r, s) => (t.place parent.isNone r, s)

def insertLocalEdit {σ : Type} (t : RevisionTree) (digest : ContentDigest) (commit : Commit σ)
    (parent : Option RevisionId) (body : DocumentBody) (attachments : AttachmentMap)
    (deleted : Bool) (s : σ) : Except DocumentError (RevisionTree × InsertReport) × σ :=
  match t.editParent parent with
  | .error e => (.error e, s)
  | .ok above => t.insertChild digest commit above body attachments deleted s

def tombstoneLeaf {σ : Type} (t : RevisionTree) (digest : ContentDigest) (commit : Commit σ)
    (leaf : RevisionId) (s : σ) : Except DocumentError (RevisionTree × InsertReport) × σ :=
  match t.sequenceOf? leaf.text with
  | none => (.error (.documentNotFound t.document.text (some leaf.text)), s)
  | some sequence =>
    let active := match t.nodes.find? sequence with
      | none => false
      | some n => n.children.isEmpty && !n.revision.deleted
    if active then t.insertChild digest commit (some sequence) .empty .empty true s
    else (.error (t.conflictingWrite leaf.text), s)

def brokenPair? : List RevisionId → Option (RevisionId × RevisionId)
  | a :: b :: rest =>
    if b.generation + 1 = a.generation then brokenPair? (b :: rest) else some (a, b)
  | _ => none

def validateHistory (t : RevisionTree) (id : RevisionId) (history : List RevisionId) :
    Except DocumentError (List RevisionId) :=
  match history with
  | [] => .ok [id]
  | first :: _ =>
    if first ≠ id then
      .error (t.malformed s!"history starts with {first.text} instead of {id.text}")
    else match brokenPair? history with
      | some (child, parent) =>
        .error (t.malformed <|
          s!"{parent.text} cannot be the parent of {child.text}: " ++
            "generations must be consecutive")
      | none => .ok history

def splitKnown (t : RevisionTree) : List RevisionId → List RevisionId × Option Int
  | [] => ([], none)
  | id :: rest =>
    match t.sequenceOf? id.text with
    | some sequence => ([], some sequence)
    | none =>
      let (missing, known) := t.splitKnown rest
      (id :: missing, known)

/-- Stands for an ancestor whose content did not come. -/
def stub (t : RevisionTree) (id : RevisionId) : Revision :=
  { document := t.document, id, body := .empty, key := t.key }

def adopt (t : RevisionTree) (r : Revision) : Revision :=
  { document := t.document, id := r.id, body := r.body,
    attachments := .ofRecords r.attachments.toRecords, key := t.key, deleted := r.deleted }

def commitChain {σ : Type} (t : RevisionTree) (commit : Commit σ) (parent : Int) :
    List Revision → σ → Except DocumentError (List Revision) × σ
  | [], s => (.ok [], s)
  | r :: rest, s =>
    match commit.run { r with parent } s with
    | (.error e, s) => (.error e, s)
    | (.ok r, s) =>
      if r.isSequenced then
        match commitChain t commit r.sequence rest s with
        | (.error e, s) => (.error e, s)
        | (.ok rest, s) => (.ok (r :: rest), s)
      else (.error (t.malformed s!"revision {r.id.text} was not assigned a sequence"), s)

def checkChain (t : RevisionTree) (known : Dict Int Nat) :
    List Revision → Except DocumentError Unit
  | [] => .ok ()
  | r :: rest => do
    t.checkLink (fun sequence => (known.find? sequence).or (t.generation? sequence)) r
    t.checkChain (known.insert r.sequence r.generation) rest

def placeChain (t : RevisionTree) (isRoot : Bool) (chain : List Revision) :
    Except DocumentError (RevisionTree × InsertReport) := do
  t.checkChain Dict.empty chain
  let grown := (chain.foldl link t).chooseWinner
  let sequence := ((chain.getLast?).map (·.sequence)).getD noParent
  .ok (grown, ⟨sequence, chain.length, isRoot, t.winner, grown.winner⟩)

inductive ForeignPlan where
  | present (sequence : Int)
  | missing (known : Option Int) (chain : List Revision)

def planForeign (t : RevisionTree) (r : Revision) (history : List RevisionId) :
    Except DocumentError ForeignPlan :=
  if r.isProjected then .error (.projectedWrite r.document.text r.id.text)
  else if r.document ≠ t.document then
    .error (t.malformed s!"revision belongs to document '{r.document.text}'")
  else do
    let path ← t.validateHistory r.id history
    match t.sequenceOf? r.id.text with
    | some sequence => .ok (.present sequence)
    | none =>
      let (missing, known) := t.splitKnown path.tail
      .ok (.missing known (missing.reverse.map t.stub ++ [t.adopt r]))

def insertForeign {σ : Type} (t : RevisionTree) (commit : Commit σ) (r : Revision)
    (history : List RevisionId) (s : σ) :
    Except DocumentError (RevisionTree × ForeignInsert) × σ :=
  match t.planForeign r history with
  | .error e => (.error e, s)
  | .ok (.present sequence) => (.ok (t, .alreadyPresent sequence), s)
  | .ok (.missing known chain) =>
    match t.commitChain commit (known.getD noParent) chain s with
    | (.error e, s) => (.error e, s)
    | (.ok chain, s) =>
      ((t.placeChain known.isNone chain).map fun (grown, report) => (grown, .inserted report), s)

end RevisionTree
end RevForest
