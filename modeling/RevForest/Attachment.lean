import RevForest.Json.Record
import RevForest.Json.Printer
import RevForest.Text.Quoted
/-!
Attachment metadata and the map of a revision's attachments. A hash map promises no order of its
entries; here they are listed in the order of their keys. An edit says whether it changed the map,
which is what an observer of the map is told.
-/
namespace RevForest

structure Attachment where
  name : String
  contentType : String
  length : Nat
  digest : String
  revpos : Nat
  encoding : Option String
  deriving DecidableEq, Repr

namespace Attachment

def fieldNames : List String := ["name", "content_type", "length", "digest", "revpos", "encoding"]

def ofWire? (w : Wire) : Option Attachment := do
  match ← w.fields? fieldNames with
  | [name, contentType, length, digest, revpos, encoding] => do
    let name ← required name Wire.asString?
    let contentType ← required contentType Wire.asString?
    let length ← required length (Wire.asNat? word64)
    let digest ← required digest Wire.asString?
    let revpos ← required revpos (Wire.asNat? word64)
    let encoding ← defaulted encoding Wire.asOptionalString? none
    some { name, contentType, length, digest, revpos, encoding }
  | _ => none

def json (a : Attachment) : Json :=
  .object <|
    [("name", .text a.name), ("content_type", .text a.contentType), ("length", .int a.length),
      ("digest", .text a.digest), ("revpos", .int a.revpos)] ++
    match a.encoding with
    | none => []
    | some e => [("encoding", .text e)]

def inspect (a : Attachment) : String :=
  let encoding := match a.encoding with
    | none => "None"
    | some e => "Some(" ++ Quoted.text e ++ ")"
  "Attachment \x7b name: " ++ Quoted.text a.name ++ ", content_type: " ++
    Quoted.text a.contentType ++ ", length: " ++ toString a.length ++ ", digest: " ++
    Quoted.text a.digest ++ ", revpos: " ++ toString a.revpos ++ ", encoding: " ++ encoding ++
    " \x7d"

end Attachment

structure AttachmentMap where
  entries : Dict String Attachment
  deriving DecidableEq, Repr

inductive AttachmentEdit where
  | put (attachment : Attachment)
  | remove (name : String)
  | clear
  | retain (keep : Attachment → Bool)

namespace AttachmentMap

def empty : AttachmentMap := ⟨Dict.empty⟩

instance : Inhabited AttachmentMap := ⟨empty⟩

def ofRecords (records : List Attachment) : AttachmentMap :=
  ⟨Dict.ofList (records.map fun a => (a.name, a))⟩

def ofDict (entries : Dict String Attachment) : AttachmentMap := ⟨entries⟩

def get? (m : AttachmentMap) (name : String) : Option Attachment := m.entries.find? name

def contains (m : AttachmentMap) (name : String) : Bool := m.entries.contains name

def size (m : AttachmentMap) : Nat := m.entries.size

def isEmpty (m : AttachmentMap) : Bool := m.entries.isEmpty

def byName (a b : Attachment) : Bool := !decide (b.name < a.name)

/-- All attachments in the order of their own names. A hash map promises no order of its entries,
so among attachments of one own name, which can stand under different keys, the order is arbitrary
and need not be the same for equal maps. Here they come in the order of their keys; any other order
is that of a `Walk`. -/
def toRecords (m : AttachmentMap) : List Attachment := m.entries.values.mergeSort byName

structure Walk where
  order : AttachmentMap → List Attachment
  perm : ∀ m, (order m).Perm m.entries.values

def Walk.byKey : Walk := ⟨fun m => m.entries.values, fun _ => .refl _⟩

def Walk.records (walk : Walk) (m : AttachmentMap) : List Attachment :=
  (walk.order m).mergeSort byName

structure Edited where
  map : AttachmentMap
  previous : Option Attachment
  changed : Bool

def edit (m : AttachmentMap) : AttachmentEdit → Edited
  | .put a => ⟨⟨m.entries.insert a.name a⟩, m.get? a.name, true⟩
  | .remove name => ⟨⟨m.entries.erase name⟩, m.get? name, m.contains name⟩
  | .clear => ⟨empty, none, !m.isEmpty⟩
  | .retain keep =>
    let kept : AttachmentMap := ⟨m.entries.filter fun _ a => keep a⟩
    ⟨kept, none, decide (kept.size ≠ m.size)⟩

def inspect (m : AttachmentMap) (observed : Bool) : String :=
  let shown := m.entries.entries.map fun (key, a) => Quoted.text key ++ ": " ++ a.inspect
  "AttachmentMap \x7b entries: \x7b" ++ String.intercalate ", " shown ++ "\x7d, observed: " ++
    toString observed ++ " \x7d"

end AttachmentMap

structure ObservedAttachments where
  map : AttachmentMap
  observed : Bool
  calls : Nat

namespace ObservedAttachments

def ofMap (m : AttachmentMap) : ObservedAttachments := ⟨m, false, 0⟩

def subscribe (o : ObservedAttachments) : ObservedAttachments := { o with observed := true }

def unsubscribe (o : ObservedAttachments) : ObservedAttachments := { o with observed := false }

def copy (o : ObservedAttachments) : ObservedAttachments := { o with observed := false }

def edit (o : ObservedAttachments) (e : AttachmentEdit) :
    ObservedAttachments × Option Attachment :=
  let r := o.map.edit e
  ({ o with map := r.map, calls := o.calls + (o.observed && r.changed).toNat }, r.previous)

end ObservedAttachments
end RevForest
