import RevForest.Error
import RevForest.Json.Wire
import RevForest.Json.Printer
/-!
The user content of a revision: a JSON object without the keys that name metadata. Its text is
compact with sorted keys, so it does not depend on the order in which members were given.
-/
namespace RevForest

structure DocumentBody where
  fields : Dict String Json
  deriving Repr, Inhabited

def Json.kind : Json → String
  | .null => "null"
  | .bool _ => "a boolean"
  | .int _ => "a number"
  | .double _ => "a number"
  | .text _ => "a string"
  | .array _ => "an array"
  | .object _ => "an object"

def Json.unreadable : String := "unreadable JSON at line 1 column 1"

namespace DocumentBody

def reservedKeys : List String := ["_id", "_rev", "_deleted", "_attachments"]

def empty : DocumentBody := ⟨Dict.empty⟩

def ofDict (fields : Dict String Json) : Except DocumentError DocumentBody :=
  match fields.keys.find? (reservedKeys.contains ·) with
  | some key => .error (.invalidBody s!"reserved key '{key}' is not allowed in a body")
  | none => .ok ⟨fields⟩

def ofJson : Json → Except DocumentError DocumentBody
  | .object members => ofDict ⟨members⟩
  | v => .error (.invalidBody s!"expected a JSON object, got {v.kind}")

def ofBytes (bytes : ByteArray) : Except DocumentError DocumentBody :=
  match Json.ofBytes? bytes with
  | none => .error (.invalidBody Json.unreadable)
  | some v => ofJson v

def project (b : DocumentBody) (names : List String) : DocumentBody :=
  ⟨b.fields.filter fun key _ => names.contains key⟩

def get? (b : DocumentBody) (key : String) : Option Json := b.fields.find? key

def isEmpty (b : DocumentBody) : Bool := b.fields.isEmpty

def json (b : DocumentBody) : Json := .ofDict b.fields

def text (b : DocumentBody) : String := b.json.render

def bytes (b : DocumentBody) : ByteArray := b.text.toByteArray

def same (a b : DocumentBody) : Bool := a.json.same b.json

end DocumentBody
end RevForest
