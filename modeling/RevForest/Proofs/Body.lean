import RevForest.Proofs.ContentDigest
import RevForest.Proofs.Json.Equality
import RevForest.Proofs.Tree.Child

/-! Equal bodies and their bytes. Members stand in the order of their keys, so what equal bodies
can still differ in are the signs of zeros: their bytes are the same exactly when these are. Edits
with the same bytes that are otherwise the same have one id in all trees, in whatever order their
attachments are walked, if those of one name are hashed alike. -/
namespace RevForest

namespace DocumentBody
variable {a b : DocumentBody}

def unsigned (b : DocumentBody) : DocumentBody := ⟨⟨Json.unsignedMembers b.fields.entries⟩⟩

theorem ext_entries (same : a.fields.entries = b.fields.entries) : a = b :=
  congrArg (fun entries => (⟨⟨entries⟩⟩ : DocumentBody)) same

theorem sameIff : a.same b = true ↔ a.unsigned = b.unsigned := by
  constructor
  · intro same
    exact ext_entries ((Json.sameMembersIff _ _).mp same)
  · intro same
    have entries := congrArg (fun body : DocumentBody => body.fields.entries) same
    exact (Json.sameMembersIff _ _).mpr entries

theorem bytesIff (same : a.same b = true) : a.bytes = b.bytes ↔ a = b := by
  constructor
  · intro bytes
    have json : a.json = b.json := Json.renderCancel same (String.toByteArray_inj.mp bytes)
    exact ext_entries (Json.object.inj json)
  · rintro rfl
    rfl

/-- Of equal bodies the bytes are the same exactly when no zero has a sign in one of them only.
With the same bytes and otherwise the same, edits in two trees below one revision have one id,
unless the other tree has that revision already. Each side may walk the attachments in an order of
its own, if those of one name are hashed alike. -/
theorem equalBodies (same : a.same b = true) :
    (a.bytes = b.bytes ↔ a = b) ∧ (a.unsigned = a → b.unsigned = b → a.bytes = b.bytes) ∧
      (a.bytes = b.bytes → ∀ (walk walk' : AttachmentMap.Walk) (length : Nat)
        (t t' : RevisionTree) (parent parent' : Option Int) (attachments : AttachmentMap)
        (deleted : Bool) (r : Revision),
        ContentDigest.Alike attachments →
        t.aboveId parent = t'.aboveId parent' →
        t.draft (ContentDigest.walked walk length) parent a attachments deleted = .ok r →
        t'.contains r.id.text = false →
        ∃ r', t'.draft (ContentDigest.walked walk' length) parent' b attachments deleted = .ok r' ∧
          r'.id = r.id) := by
  refine ⟨bytesIff same, fun plain plain' => ?_, ?_⟩
  · have identical : a = b := by rw [← plain, sameIff.mp same, plain']
    rw [identical]
  · intro bytes walk walk' length t t' parent parent' attachments deleted r alike above drafted free
    have agree := ContentDigest.walkedAlike alike bytes walk walk' length (t.aboveId parent) deleted
    have absent : t'.sequenceOf? r.id.text = none := (Dict.notContains _ _).mp free
    exact ⟨_, RevisionTree.draftElsewhere drafted above agree absent, rfl⟩

namespace Sample

def body (members : List (String × Json)) : DocumentBody := ⟨Dict.ofList members⟩

def zero (negative : Bool) : Json := .double ⟨negative, 0⟩

def pair : AttachmentMap :=
  .ofRecords [ContentDigest.Sample.single "x" "d", ContentDigest.Sample.single "y" "e"]

def backwards : AttachmentMap.Walk :=
  ⟨fun m => m.entries.values.reverse, fun _ => List.reverse_perm _⟩

def tree : RevisionTree := .empty ⟨"doc", by decide⟩ 1

theorem pairNamed : pair.Named := AttachmentMap.recordsNamed _

theorem drafted : ∃ r, tree.draft (ContentDigest.walked .byKey 8) none
    (body [("b", zero false), ("a", .array [.int 1])]) pair false = .ok r := by
  have records : AttachmentMap.Walk.byKey.records pair =
      [ContentDigest.Sample.single "x" "d", ContentDigest.Sample.single "y" "e"] :=
    AttachmentMap.namedRecords pairNamed
  have valid : (RevisionId.ofParts 1 (ContentDigest.walked .byKey 8 none false
      (body [("b", zero false), ("a", .array [.int 1])]) pair)).isOk = true := by
    unfold ContentDigest.walked
    rw [records]
    decide +kernel
  cases parts : RevisionId.ofParts 1 _ with
  | error e =>
    rw [parts] at valid
    cases valid
  | ok id =>
    exact ⟨tree.child none _ pair false id,
      RevisionTree.draftIff.mpr ⟨fun _ above => (nomatch above), parts, rfl, rfl⟩⟩

end Sample

theorem sampleBytesEqual :
    (Sample.body [("b", Sample.zero false), ("a", .array [.int 1])]).same
        (Sample.body [("a", .array [.int 1]), ("b", Sample.zero false)]) = true ∧
      (Sample.body [("b", Sample.zero false), ("a", .array [.int 1])]).bytes =
        (Sample.body [("a", .array [.int 1]), ("b", Sample.zero false)]).bytes ∧
      ∃ r r', Sample.tree.draft (ContentDigest.walked .byKey 8) none
          (Sample.body [("b", Sample.zero false), ("a", .array [.int 1])]) Sample.pair false =
            .ok r ∧
        Sample.tree.draft (ContentDigest.walked Sample.backwards 8) none
          (Sample.body [("a", .array [.int 1]), ("b", Sample.zero false)]) Sample.pair false =
            .ok r' ∧ r'.id = r.id := by
  have same : (Sample.body [("b", Sample.zero false), ("a", .array [.int 1])]).same
      (Sample.body [("a", .array [.int 1]), ("b", Sample.zero false)]) = true := by decide
  have bytes := (equalBodies same).2.1 rfl rfl
  obtain ⟨r, drafted⟩ := Sample.drafted
  obtain ⟨r', drafted', id⟩ := (equalBodies same).2.2 bytes .byKey Sample.backwards 8 Sample.tree
    Sample.tree none none Sample.pair false r (ContentDigest.namedAlike Sample.pairNamed) rfl drafted
    rfl
  exact ⟨same, bytes, r, r', drafted, drafted', id⟩

theorem zeroSignWritten :
    (Sample.body [("x", Sample.zero false)]).same (Sample.body [("x", Sample.zero true)]) = true ∧
      (Sample.body [("x", Sample.zero false)]).bytes ≠
        (Sample.body [("x", Sample.zero true)]).bytes := by
  decide

end DocumentBody
end RevForest
