import RevForest.Attachment
import RevForest.Body
import RevForest.Identifier
import RevForest.Sha256
import RevForest.Text.Hex
/-!
Digests of content. A new revision's id carries the digest of its parent's id, its deleted flag,
its body and its attachments, so the same edit of the same parent has the same id everywhere.
-/
namespace RevForest

abbrev ContentDigest := Option RevisionId → Bool → DocumentBody → AttachmentMap → String

namespace ContentDigest

def littleEndian64 (n : Nat) : List UInt8 :=
  (List.range 8).map fun i => UInt8.ofNat (n >>> (8 * i))

/-- Bytes after their length, so that adjacent parts cannot run together. -/
def framed (bytes : List UInt8) : List UInt8 := littleEndian64 bytes.length ++ bytes

def framedText (s : String) : List UInt8 := framed s.toByteArray.data.toList

def attachmentInput (a : Attachment) : List UInt8 :=
  framedText a.name ++ framedText a.digest ++ littleEndian64 a.revpos

/-- What is hashed. A missing parent counts as an empty text, which is no revision id. -/
def inputOf (parent : Option RevisionId) (deleted : Bool) (body : DocumentBody)
    (records : List Attachment) : List UInt8 :=
  framedText ((parent.map RevisionId.text).getD "") ++ [if deleted then 1 else 0] ++
    framedText body.text ++ records.flatMap attachmentInput

def input (parent : Option RevisionId) (deleted : Bool) (body : DocumentBody)
    (attachments : AttachmentMap) : List UInt8 :=
  inputOf parent deleted body attachments.toRecords

def minLength : Nat := 8

def maxLength : Nat := 64

def defaultLength : Nat := 32

def clamp (length : Nat) : Nat := max minLength (min length maxLength)

def walked (walk : AttachmentMap.Walk) (length : Nat) : ContentDigest :=
  fun parent deleted body attachments =>
    let hex := Hex.encode (Sha256.hash (inputOf parent deleted body (walk.records attachments)))
    String.ofList (hex.toList.take (clamp length))

def sha256 (length : Nat) : ContentDigest := walked .byKey length

def ofField (name default : String) : ContentDigest := fun _ _ body _ =>
  match body.get? name with
  | some (.text s) => s
  | _ => default

end ContentDigest
end RevForest
