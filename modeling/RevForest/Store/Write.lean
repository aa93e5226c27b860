import RevForest.Store.Datastore
/-!
Writes of a store. A write works on the tree of its document; each new revision is given the next
sequence and persisted before it enters the tree. After a storage failure the tree is built again
from what is stored.
-/
namespace RevForest.Datastore
variable {β : Type} [Backend β]

def commit : Commit (Datastore β) := fun r s =>
  (s.call Backend.nextSequence).andThen fun sequence s =>
    let s := s.count .sequencesAllocated
    (s.call (Backend.persist (r.initializeSequence sequence).1)).andThen fun _ s =>
      (.ok (some sequence), s)

/-- Builds the cached tree of a document again; if that fails too, it stays as it was. -/
def reload (s : Datastore β) (t : RevisionTree) : Datastore β :=
  match s.loadTree t.document with
  | (.ok (some fresh), s) => s.keepTree fresh
  | (.ok none, s) => s.keepTree (RevisionTree.empty t.document t.key)
  | (.error e, s) =>
    s.note .error .storageFailure
      [("document_id", t.document.text), ("stage", "reload"), ("error", e.message)]

def settle (s : Datastore β) (t : RevisionTree) : DocumentError → Datastore β
  | .conflictingWrite _ attempted current =>
    (s.count .conflictingWrites).note .warn .conflictingWriteRejected
      [("document_id", t.document.text), ("attempted", attempted), ("current", current)]
  | .storage cause =>
    ((s.count .storageFailures).note .fatal .storageFailure
      [("document_id", t.document.text), ("code", cause.code), ("error", cause.message)]).reload t
  | _ => s

def reportChanges (s : Datastore β) (t : RevisionTree) (r : InsertReport) (wasConflicted : Bool) :
    Datastore β :=
  let s :=
    if r.winnerChanged then
      match t.current? with
      | some w => s.report .winnerChanged [("document_id", t.document.text), ("winner", w.id.text)]
      | none => s
    else s
  if t.isConflicted && !wasConflicted then
    (s.count .conflictsDetected).note .warn .conflictDetected
      [("document_id", t.document.text), ("leaves", toString t.activeLeaves.length)]
  else s

def localEdit (s : Datastore β) (document : DocumentId) (parent : Option RevisionId)
    (body : DocumentBody) (attachments : Option AttachmentMap) (deleted : Bool) :
    Outcome β Revision :=
  (s.treeOf document parent.isNone).andThen fun t s =>
    let carried := match parent.bind fun p => t.find? p.text with
      | some r => AttachmentMap.ofRecords r.attachments.toRecords
      | none => .empty
    match t.insertLocalEdit s.digest commit parent body (attachments.getD carried) deleted s with
    | (.error e, s) => (.error e, s.settle t e)
    | (.ok (grown, report), s) =>
      let s := (s.keepTree grown).count .localEdits
      match grown.get? report.sequence with
      | none =>
        (.error (.malformedRevisionTree document.text
          s!"sequence {report.sequence} missing after insert"), s)
      | some r =>
        let s := s.report .revisionInserted
          [("document_id", document.text), ("revision_id", r.id.text),
            ("sequence", toString report.sequence), ("deleted", toString deleted)]
        (.ok r, s.reportChanges grown report t.isConflicted)

def createDocument (s : Datastore β) (id : Option String) (fresh : DocumentId)
    (body : DocumentBody) (attachments : AttachmentMap) : Outcome β Revision :=
  match id with
  | none => s.localEdit fresh none body (some attachments) false
  | some text =>
    match DocumentId.parse text with
    | .error e => (.error e, s)
    | .ok document => s.localEdit document none body (some attachments) false

def withParent (s : Datastore β) (document parent : String)
    (write : DocumentId → RevisionId → Outcome β Revision) : Outcome β Revision :=
  match DocumentId.parse document with
  | .error e => (.error e, s)
  | .ok d =>
    match RevisionId.parse parent with
    | .error e => (.error e, s)
    | .ok p => write d p

def updateDocument (s : Datastore β) (document parent : String) (body : DocumentBody) :
    Outcome β Revision :=
  s.withParent document parent fun d p => s.localEdit d (some p) body none false

def deleteDocument (s : Datastore β) (document parent : String) : Outcome β Revision :=
  s.withParent document parent fun d p => s.localEdit d (some p) .empty (some .empty) true

def saveRevision (s : Datastore β) (r : Revision) : Outcome β Revision :=
  if r.isProjected then (.error (.projectedWrite r.document.text r.id.text), s)
  else if !r.dirty then
    (.ok r, s.note .trace .noopSave
      [("document_id", r.document.text), ("revision_id", r.id.text)])
  else
    s.localEdit r.document (some r.id) r.body (some (.ofRecords r.attachments.toRecords)) r.deleted

def forceInsert (s : Datastore β) (r : Revision) (history : List RevisionId) :
    Outcome β ForeignInsert :=
  let limit := s.config.maxRevisionHistory
  if limit < history.length then
    (.error (.malformedRevisionTree r.document.text
      s!"history of {history.length} revisions exceeds the limit of {limit}"), s)
  else
    (s.treeOf r.document true).andThen fun t s =>
      match t.insertForeign commit r history s with
      | (.error e, s) => (.error e, s.settle t e)
      | (.ok (_, .alreadyPresent sequence), s) =>
        (.ok (.alreadyPresent sequence),
          (s.count .duplicateForeignInserts).note .trace .foreignRevisionSkipped
            [("document_id", r.document.text), ("revision_id", r.id.text),
              ("sequence", toString sequence)])
      | (.ok (grown, .inserted report), s) =>
        let s := ((s.keepTree grown).count .foreignInserts).report .foreignRevisionInserted
          [("document_id", r.document.text), ("revision_id", r.id.text),
            ("inserted", toString report.inserted), ("new_root", toString report.createdRoot)]
        (.ok (.inserted report), s.reportChanges grown report t.isConflicted)

def tombstoneAll (s : Datastore β) (t : RevisionTree) : List RevisionId → Outcome β RevisionTree
  | [] => (.ok t, s)
  | leaf :: rest =>
    match t.tombstoneLeaf s.digest commit leaf s with
    | (.error e, s) => (.error e, s.settle t e)
    | (.ok (grown, report), s) =>
      ((s.keepTree grown).reportChanges grown report t.isConflicted).tombstoneAll grown rest

def resolveConflicts (s : Datastore β) (document keep : String) : Outcome β Nat :=
  match DocumentId.parse document with
  | .error e => (.error e, s)
  | .ok d =>
    match RevisionId.parse keep with
    | .error e => (.error e, s)
    | .ok kept =>
      (s.treeOf d false).andThen fun t s =>
        let active := t.activeLeaves.map (·.id)
        if !active.contains kept then (.error (t.conflictingWrite kept.text), s)
        else
          let losers := active.filter (· ≠ kept)
          (s.tombstoneAll t losers).andThen fun _ s =>
            let s :=
              if losers.isEmpty then s
              else s.report .conflictsResolved
                [("document_id", d.text), ("kept", kept.text),
                  ("tombstoned", toString losers.length)]
            (.ok losers.length, s)

end RevForest.Datastore
