import RevForest.ContentDigest
/-!
One revision of a document. Its identity never changes; its body and attachments may be edited,
which marks it dirty, and its sequence is assigned once. A parent is told by its sequence within
the document. A projection is a revision that shows some fields of its body; it is completed from a
source of full revisions before it is edited.
-/
namespace RevForest

def unassigned : Int := -1

def noParent : Int := -1

structure Revision where
  document : DocumentId
  id : RevisionId
  body : DocumentBody
  attachments : AttachmentMap := AttachmentMap.empty
  key : Int := 0
  sequence : Int := unassigned
  parent : Int := noParent
  deleted : Bool := false
  current : Bool := false
  dirty : Bool := false
  projection : Option (List String) := none
  deriving Repr

namespace Revision

def generation (r : Revision) : Nat := r.id.generation

def isSequenced (r : Revision) : Bool := 0 < r.sequence

def isRoot (r : Revision) : Bool := r.parent ≤ 0

def isProjected (r : Revision) : Bool := r.projection.isSome

def setBody (r : Revision) (body : DocumentBody) : Revision := { r with body, dirty := true }

def setAttachments (r : Revision) (entries : Dict String Attachment) : Revision :=
  { r with attachments := .ofDict entries, dirty := true }

def editAttachments (r : Revision) (e : AttachmentEdit) : Revision × Option Attachment :=
  let done := r.attachments.edit e
  ({ r with attachments := done.map, dirty := r.dirty || done.changed }, done.previous)

def initializeSequence (r : Revision) (sequence : Int) : Revision × Bool :=
  if r.sequence = unassigned then ({ r with sequence }, true) else (r, false)

def fullMap (r : Revision) : Dict String Json :=
  let named := (r.body.fields.insert "_id" (.text r.document.text)).insert "_rev" (.text r.id.text)
  if r.deleted then named.insert "_deleted" (.bool true) else named

def documentJson (r : Revision) : String := (Json.ofDict r.fullMap).render

def samePlace (a b : Revision) : Bool := decide (a.document = b.document)

def places (rs : List Revision) : Nat := (rs.map (·.document)).eraseDups.length

def compareSequence (a b : Revision) : Ordering := compare a.sequence b.sequence

def sortBySequence (rs : List Revision) : List Revision :=
  rs.mergeSort fun a b => decide (a.sequence ≤ b.sequence)

def display (r : Revision) : String :=
  "\x7b id: " ++ r.document.text ++ ", rev: " ++ r.id.text ++ ", seq: " ++ toString r.sequence ++
    ", parent: " ++ toString r.parent ++ ", current: " ++ toString r.current ++ ", deleted: " ++
    toString r.deleted ++ " \x7d"

def inspect (r : Revision) : String :=
  let kind := match r.projection with
    | none => "Full"
    | some fields => "Projected \x7b fields: " ++ Quoted.list fields ++ " \x7d"
  "Revision \x7b document_id: " ++ Quoted.text r.document.text ++ ", revision_id: " ++
    Quoted.text r.id.text ++ ", sequence: " ++ toString r.sequence ++ ", parent_sequence: " ++
    toString r.parent ++ ", current: " ++ toString r.current ++ ", deleted: " ++
    toString r.deleted ++ ", kind: " ++ kind ++ " \x7d"

def project (full : Revision) (fields : List String) : Revision :=
  { full with
    body := full.body.project fields
    attachments := .ofRecords full.attachments.toRecords
    dirty := false
    projection := some fields }

def projectionOf (document : DocumentId) (id : RevisionId) (deleted : Bool) (body : DocumentBody)
    (attachments : AttachmentMap) : Revision :=
  { document, id, body, attachments, deleted, projection := some body.fields.keys }

abbrev Source := DocumentId → RevisionId → Except DocumentError (Option Revision)

def mutableCopy (r : Revision) (source : Source) : Except DocumentError Revision :=
  if r.isProjected then do
    match ← source r.document r.id with
    | some full =>
      if full.isProjected then
        .error (.malformedRevisionTree r.document.text "document source returned a projection")
      else .ok full
    | none => .error (.documentNotFound r.document.text (some r.id.text))
  else .ok r

end Revision
end RevForest
