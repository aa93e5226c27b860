import RevForest.Keys.KeyData
import RevForest.Proofs.Json.Reader
import RevForest.Proofs.Text.Hex

/-! A key that may be stored is read back from its text, whatever its bytes and its version. -/
namespace RevForest.KeyData

def members (k : KeyData) : List (String × Json × Wire) :=
  [("dpk", .text (Hex.encode k.encryptedKey), .text (Wire.units (Hex.encode k.encryptedKey))),
    ("salt", .text (Hex.encode k.salt), .text (Wire.units (Hex.encode k.salt))),
    ("iv", .text (Hex.encode k.iv), .text (Wire.units (Hex.encode k.iv))),
    ("iterations", .int k.iterations,
      .number ⟨false, (Nat.toDigits 10 k.iterations).map Digits.value, none, none⟩),
    ("version", .text k.version, .text (Wire.units k.version))]

theorem countRead {n : Nat} (positive : 0 < n) : Wire.Reads (Json.write (.int n))
    (.number ⟨false, (Nat.toDigits 10 n).map Digits.value, none, none⟩) := by
  have digits : (n : Int).repr.toList = Nat.toDigits 10 n := by
    rw [show (n : Int).repr = Nat.repr n from rfl, Nat.repr_eq_ofList_toDigits,
      String.toList_ofList]
  rw [Json.write, digits]
  exact Wire.readsNumber positive

theorem membersRead {k : KeyData} (positive : 0 < k.iterations) :
    ∀ m ∈ k.members, Wire.Reads (Json.write m.2.1) m.2.2 := by
  unfold members
  simp only [List.forall_mem_cons]
  exact ⟨Wire.readsText _, Wire.readsText _, Wire.readsText _, countRead positive,
    Wire.readsText _, List.forall_mem_nil _⟩

theorem membersFound (k : KeyData) :
    (Wire.object (k.members.map fun m => (Wire.units m.1, m.2.2))).fields? fieldNames =
      some (k.members.map fun m => some m.2.2) := by
  have distinct : ((k.members.map fun m => (m.1, m.2.2)).map Prod.fst).Nodup :=
    show fieldNames.Nodup by decide
  have fields := Wire.fieldsInOrder distinct
  rwa [List.map_map, List.map_map, List.map_map] at fields

theorem storedRead {k : KeyData} (positive : 0 < k.iterations) (word : k.iterations < word32) :
    (Wire.ofString? k.json.render).bind Stored.ofWire? =
      some ⟨Hex.encode k.encryptedKey, Hex.encode k.salt, Hex.encode k.iv, k.iterations,
        k.version⟩ := by
  have filled : k.members ≠ [] := List.cons_ne_nil _ _
  have read := Wire.readRendered filled (membersRead positive)
  have count := Wire.natRead word (show word32 ≤ word64 by decide)
  rw [show k.json = .object (k.members.map fun m => (m.1, m.2.1)) from rfl, read,
    Option.bind_some]
  unfold Stored.ofWire?
  rw [membersFound]
  simp only [members, List.map_cons, List.map_nil, required, Wire.asString?, Wire.stringUnits,
    count, Option.bind_eq_bind, Option.bind_some]

theorem readStored {k : KeyData} (valid : k.Valid) (key : String) :
    ofText key k.json.render = .ok k := by
  obtain ⟨sound, word⟩ := valid
  have positive : 0 < k.iterations := by
    refine Nat.pos_of_ne_zero fun none => ?_
    unfold fault? at sound
    simp only [none, if_true] at sound
    repeat' split at sound
    all_goals contradiction
  have decoded (field : String) (bytes : List UInt8) :
      decodeField key field (Hex.encode bytes) = .ok bytes := by
    rw [decodeField, Hex.decodeEncode]
  have made : make k.encryptedKey k.salt k.iv k.iterations k.version = .ok k := by
    unfold make
    dsimp only
    rw [sound]
  unfold ofText
  rw [storedRead positive word]
  simp only [decoded, bind, Except.bind, made]

end RevForest.KeyData
