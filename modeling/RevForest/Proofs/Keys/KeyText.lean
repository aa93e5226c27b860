import RevForest.Proofs.Dict
import RevForest.Proofs.Json.LetterCase
import RevForest.Proofs.Keys.KeyData

/-! What any text reads as. It is a key within its bounds, or it is corrupt and the fault says of
which name; and the letter case of the digits in it makes no difference, be they the digits of the
bytes or those of an escape. -/
namespace RevForest

namespace Hex

structure SameByte (a b : UInt8) : Prop where
  value : value? a = value? b
  other : value? a = none → a = b

theorem SameDigit.bytes {c d : Char} (same : SameDigit c d) :
    List.Forall₂ SameByte (String.utf8EncodeChar c) (String.utf8EncodeChar d) := by
  have letter : ∀ p ∈ letters, ∃ a b, String.utf8EncodeChar p.1 = [a] ∧
      String.utf8EncodeChar p.2 = [b] ∧ value? a = value? b ∧ (value? a).isSome := by
    simp only [letters, List.forall_mem_cons]
    exact ⟨⟨_, _, rfl, rfl, rfl, rfl⟩, ⟨_, _, rfl, rfl, rfl, rfl⟩, ⟨_, _, rfl, rfl, rfl, rfl⟩,
      ⟨_, _, rfl, rfl, rfl, rfl⟩, ⟨_, _, rfl, rfl, rfl, rfl⟩, ⟨_, _, rfl, rfl, rfl, rfl⟩,
      List.forall_mem_nil _⟩
  rcases same with rfl | lower | upper
  · exact List.forall₂_same.mpr fun _ _ => ⟨rfl, fun _ => rfl⟩
  · obtain ⟨a, b, first, second, value, digit⟩ := letter _ lower
    rw [first, second]
    exact .cons ⟨value, fun none => absurd digit (by rw [none]; decide)⟩ .nil
  · obtain ⟨b, a, second, first, value, digit⟩ := letter _ upper
    rw [first, second]
    exact .cons ⟨value.symm, fun none => absurd digit (by rw [value, none]; decide)⟩ .nil

theorem decodePairsSame (position : Nat) {xs ys : List UInt8} (same : List.Forall₂ SameByte xs ys) :
    decodePairs position xs = decodePairs position ys := by
  induction position, xs using decodePairs.induct generalizing ys with
  | case1 position a b rest x y low high ih =>
    obtain _ | ⟨first, _ | ⟨second, later⟩⟩ := same
    rw [decodePairs, decodePairs, ← first.value, ← second.value, high, low]
    simp only [ih later]
  | case2 position a b rest none =>
    obtain _ | ⟨first, _ | ⟨second, later⟩⟩ := same
    obtain rfl := first.other none
    rw [decodePairs, decodePairs, none]
  | case3 position a b rest x none high =>
    obtain _ | ⟨first, _ | ⟨second, later⟩⟩ := same
    obtain rfl := second.other none
    rw [decodePairs, decodePairs, ← first.value, high, none]
  | case4 xs position short =>
    obtain _ | ⟨first, _ | ⟨second, later⟩⟩ := same
    · rfl
    · rfl
    · exact (short _ _ _ rfl).elim

theorem decodeRecased {s t : String} (recased : Recased s.toList t.toList) :
    decode s = decode t := by
  have same : List.Forall₂ SameByte s.toByteArray.data.toList t.toByteArray.data.toList := by
    rw [← s.ofList_toList, ← t.ofList_toList, bytesOfCharacters, bytesOfCharacters]
    exact List.rel_flatMap recased fun _ _ => SameDigit.bytes
  unfold decode decodeBytes
  rw [same.length_eq, decodePairsSame 0 same]

end Hex

namespace KeyData
variable {key name content content' : String} {v w : Wire} {k : KeyData}

structure WithinBounds (k : KeyData) : Prop where
  encryptedKey : k.encryptedKey ≠ []
  salt : k.salt ≠ []
  iv : k.iv.length = 16
  iterations : 1 ≤ k.iterations ∧ k.iterations < word32

theorem faultless : k.fault? = none ↔
    k.encryptedKey ≠ [] ∧ k.salt ≠ [] ∧ k.iv.length = 16 ∧ 1 ≤ k.iterations := by
  unfold fault?
  rw [Nat.one_le_iff_ne_zero]
  simp only [List.isEmpty_iff, ivLength]
  split_ifs <;> simp_all

theorem validWithin : k.Valid ↔ k.WithinBounds := by
  rw [Valid, faultless]
  refine ⟨fun ⟨⟨encryptedKey, salt, iv, positive⟩, word⟩ => ?_, fun within => ?_⟩
  · exact ⟨encryptedKey, salt, iv, positive, word⟩
  · exact ⟨⟨within.encryptedKey, within.salt, within.iv, within.iterations.1⟩, within.iterations.2⟩

theorem decodeFieldTells (key field value : String) :
    (∃ bytes, decodeField key field value = .ok bytes) ∨
      ∃ reason, decodeField key field value = .error (.corrupt key reason) := by
  unfold decodeField
  cases Hex.decode value with
  | ok bytes => exact .inl ⟨bytes, rfl⟩
  | error f => exact .inr ⟨_, rfl⟩

theorem wordRead {field : Option Wire} {n : Nat}
    (read : required field (Wire.asNat? word32) = some n) : n < word32 := by
  obtain ⟨w, _, read⟩ := Option.bind_eq_some_iff.mp read
  unfold Wire.asNat? at read
  split at read
  · split at read
    · split at read
      · cases read
        assumption
      · cases read
    · cases read
  · cases read

theorem storedWord {stored : Stored} (read : Stored.ofWire? w = some stored) :
    stored.iterations < word32 := by
  obtain ⟨fields, _, read⟩ := Option.bind_eq_some_iff.mp read
  split at read
  · obtain ⟨dpk, _, read⟩ := Option.bind_eq_some_iff.mp read
    obtain ⟨salt, _, read⟩ := Option.bind_eq_some_iff.mp read
    obtain ⟨iv, _, read⟩ := Option.bind_eq_some_iff.mp read
    obtain ⟨iterations, count, read⟩ := Option.bind_eq_some_iff.mp read
    obtain ⟨version, _, read⟩ := Option.bind_eq_some_iff.mp read
    cases read
    exact wordRead count
  · cases read

theorem makeTells (encryptedKey salt iv : List UInt8) {iterations : Nat}
    (word : iterations < word32) (version : String) :
    (∃ k, make encryptedKey salt iv iterations version = .ok k ∧ k.WithinBounds) ∨
      ∃ fault, make encryptedKey salt iv iterations version = .error fault := by
  unfold make
  dsimp only
  cases sound : fault? { encryptedKey, salt, iv, iterations, version } with
  | none => exact .inl ⟨_, rfl, validWithin.mp ⟨sound, word⟩⟩
  | some reason => exact .inr ⟨_, rfl⟩

theorem ofTextTells (key content : String) :
    (∃ k, ofText key content = .ok k ∧ k.WithinBounds) ∨
      ∃ reason, ofText key content = .error (.corrupt key reason) := by
  unfold ofText
  cases read : (Wire.ofString? content).bind Stored.ofWire? with
  | none => exact .inr ⟨_, rfl⟩
  | some stored =>
    obtain ⟨w, _, read⟩ := Option.bind_eq_some_iff.mp read
    dsimp only
    obtain ⟨encryptedKey, first⟩ | ⟨reason, first⟩ := decodeFieldTells key "dpk" stored.dpk
    swap
    · exact .inr ⟨reason, by rw [first]; rfl⟩
    obtain ⟨salt, second⟩ | ⟨reason, second⟩ := decodeFieldTells key "salt" stored.salt
    swap
    · exact .inr ⟨reason, by rw [first, second]; rfl⟩
    obtain ⟨iv, third⟩ | ⟨reason, third⟩ := decodeFieldTells key "iv" stored.iv
    swap
    · exact .inr ⟨reason, by rw [first, second, third]; rfl⟩
    rw [first, second, third]
    simp only [bind, Except.bind]
    obtain ⟨k, made, within⟩ | ⟨fault, made⟩ :=
      makeTells encryptedKey salt iv (storedWord read) stored.version
    · exact .inl ⟨k, by rw [made], within⟩
    · exact .inr ⟨fault.message, by rw [made]⟩

def byteFields : List String := ["dpk", "salt", "iv"]

def blank : Wire → Wire
  | .text _ => .text []
  | w => w

def strip (name : String) (w : Wire) : Wire := if name ∈ byteFields then blank w else w

def stripMember (m : List Nat × Wire) : Wire :=
  (Wire.string? m.1).elim m.2 fun name => strip name m.2

def beside : Wire → Wire
  | .object members => .object (members.map fun m => (m.1, stripMember m))
  | .array items => .array (List.zipWith strip fieldNames items ++ items.drop fieldNames.length)
  | w => w

/-- Two contents that differ in the case of letters at most, and of these only where they are
digits. -/
structure SameButCase (content content' : String) : Prop where
  recased : Hex.Recased content.toList content'.toList
  beside : (Wire.ofString? content).map beside = (Wire.ofString? content').map beside

structure Near (name : String) (v w : Wire) : Prop where
  alike : Wire.Alike v w
  beside : strip name v = strip name w

theorem Near.equal (near : Near name v w) (other : name ∉ byteFields) : v = w := by
  have beside := near.beside
  rwa [strip, strip, if_neg other, if_neg other] at beside

abbrev SameBytes : Option String → Option String → Prop :=
  Option.Rel fun s t => Hex.decode s = Hex.decode t

theorem alikeDecoded (alike : Wire.Alike v w) :
    SameBytes (Wire.asString? v) (Wire.asString? w) := by
  cases alike with
  | same =>
    cases Wire.asString? v with
    | none => exact .none
    | some s => exact .some rfl
  | @text us vs units =>
    have recased := Wire.stringRecased units
    show SameBytes (Wire.string? us) (Wire.string? vs)
    generalize Wire.string? us = first at recased ⊢
    generalize Wire.string? vs = second at recased ⊢
    cases recased with
    | none => exact .none
    | some recased => exact .some (Hex.decodeRecased recased)
  | array => exact .none
  | object => exact .none

inductive FieldsNear : List String → List (Option Wire) → List (Option Wire) → Prop where
  | nil : FieldsNear [] [] []
  | cons {name : String} {f g : Option Wire} {names : List String} {fs gs : List (Option Wire)}
      (field : Option.Rel (Near name) f g) (rest : FieldsNear names fs gs) :
      FieldsNear (name :: names) (f :: fs) (g :: gs)

theorem foundNear {found found' : Dict String Wire}
    (near : ∀ name, Option.Rel (Near name) (found.find? name) (found'.find? name))
    (names : List String) : FieldsNear names (names.map found.find?) (names.map found'.find?) := by
  induction names with
  | nil => exact .nil
  | cons name names ih => exact .cons (near name) ih

theorem itemsNear {names : List String} {vs ws : List Wire} (alike : List.Forall₂ Wire.Alike vs ws)
    (beside : List.zipWith strip names vs = List.zipWith strip names ws)
    (fits : vs.length ≤ names.length) :
    FieldsNear names (vs.map some ++ List.replicate (names.length - vs.length) none)
      (ws.map some ++ List.replicate (names.length - ws.length) none) := by
  induction names generalizing vs ws with
  | nil =>
    cases alike with
    | nil => exact .nil
    | cons => cases fits
  | cons name names ih =>
    cases alike with
    | nil => exact .cons .none (ih .nil rfl (Nat.zero_le _))
    | @cons v w vs ws first later =>
      obtain ⟨head, tail⟩ := List.cons.inj beside
      rw [List.length_cons, List.length_cons, List.length_cons, Nat.add_sub_add_right,
        Nat.add_sub_add_right]
      exact .cons (.some ⟨first, head⟩) (ih later tail (Nat.le_of_succ_le_succ fits))

structure MemberNear (m n : List Nat × Wire) : Prop where
  key : m.1 = n.1
  alike : Wire.Alike m.2 n.2
  beside : stripMember m = stripMember n

theorem membersNear {ms ns : List (List Nat × Wire)}
    (values : List.Forall₂ Wire.Alike (ms.map (·.2)) (ns.map (·.2)))
    (beside : (ms.map fun m => (m.1, stripMember m)) = ns.map fun n => (n.1, stripMember n)) :
    List.Forall₂ MemberNear ms ns := by
  induction ms generalizing ns with
  | nil =>
    cases ns with
    | nil => exact .nil
    | cons => cases beside
  | cons m ms ih =>
    cases ns with
    | nil => cases beside
    | cons n ns =>
      obtain ⟨head, tail⟩ := List.cons.inj beside
      obtain ⟨first, later⟩ := List.forall₂_cons.mp values
      obtain ⟨key, value⟩ := Prod.mk.inj head
      exact .cons ⟨key, first, value⟩ (ih later tail)

theorem namedNear {ms ns : List (List Nat × Wire)} (names : List String)
    (members : List.Forall₂ MemberNear ms ns) :
    Option.Rel (fun found found' : Dict String Wire =>
        ∀ name, Option.Rel (Near name) (found.find? name) (found'.find? name))
      (Wire.named? names ms) (Wire.named? names ns) := by
  induction members with
  | nil => exact .some fun _ => .none
  | @cons m n ms ns head tail ih =>
    obtain ⟨us, v⟩ := m
    obtain ⟨_, w⟩ := n
    obtain ⟨rfl, alike, beside⟩ := head
    rw [Wire.named?, Wire.named?]
    rw [stripMember, stripMember] at beside
    cases spelled : Wire.string? us with
    | none => exact .none
    | some key =>
      rw [spelled] at beside
      have near : Near key v w := ⟨alike, beside⟩
      simp only [Option.bind_eq_bind, Option.bind_some]
      refine Wire.relBind ih fun found found' same => ?_
      split
      · have here := same key
        unfold Dict.contains
        generalize earlier : found.find? key = first at here ⊢
        generalize earlier' : found'.find? key = second at here ⊢
        cases here with
        -- A name that comes again is refused on both sides.
        | some => exact .none
        | none =>
          refine .some fun name => ?_
          rw [Dict.findInsert, Dict.findInsert]
          split
          · rename_i this
            exact this ▸ .some near
          · exact same name
      · exact .some same

theorem fieldsNear (alike : Wire.Alike v w) (different : v ≠ w) (same : beside v = beside w) :
    Option.Rel (FieldsNear fieldNames) (v.fields? fieldNames) (w.fields? fieldNames) := by
  cases alike with
  | same => exact absurd rfl different
  | text => exact .none
  | @array vs ws items =>
    have lengths : (List.zipWith strip fieldNames vs).length =
        (List.zipWith strip fieldNames ws).length := by
      rw [List.length_zipWith, List.length_zipWith, items.length_eq]
    have stripped := (List.append_inj (Wire.array.inj same) lengths).1
    by_cases fits : vs.length ≤ fieldNames.length
    · have fits' : ws.length ≤ fieldNames.length := items.length_eq ▸ fits
      simp only [Wire.fields?, if_pos fits, if_pos fits']
      exact .some (itemsNear items stripped fits)
    · have exceeds : ¬ ws.length ≤ fieldNames.length := items.length_eq ▸ fits
      simp only [Wire.fields?, if_neg fits, if_neg exceeds]
      exact .none
  | object keys values =>
    exact Wire.relBind (namedNear fieldNames (membersNear values (Wire.object.inj same)))
      fun found found' near => .some (foundNear near fieldNames)

structure Stored.Agree (s t : Stored) : Prop where
  dpk : Hex.decode s.dpk = Hex.decode t.dpk
  salt : Hex.decode s.salt = Hex.decode t.salt
  iv : Hex.decode s.iv = Hex.decode t.iv
  iterations : s.iterations = t.iterations
  version : s.version = t.version

theorem bytesNear {f g : Option Wire} (near : Option.Rel (Near name) f g) :
    SameBytes (required f Wire.asString?) (required g Wire.asString?) :=
  Wire.relBind near fun _ _ near => alikeDecoded near.alike

theorem otherNear {f g : Option Wire} (near : Option.Rel (Near name) f g)
    (other : name ∉ byteFields) : f = g := by
  cases near with
  | none => rfl
  | some near => rw [near.equal other]

theorem relSelf {α : Type} (x : Option α) : Option.Rel Eq x x := by
  cases x with
  | none => exact .none
  | some a => exact .some rfl

theorem storedNear (alike : Wire.Alike v w) (different : v ≠ w) (same : beside v = beside w) :
    Option.Rel Stored.Agree (Stored.ofWire? v) (Stored.ofWire? w) := by
  refine Wire.relBind (fieldsNear alike different same) fun fs gs near => ?_
  unfold fieldNames at near
  obtain _ | ⟨dpk, _ | ⟨salt, _ | ⟨iv, _ | ⟨iterations, _ | ⟨version, _ | _⟩⟩⟩⟩⟩ := near
  -- The last two are not bytes, so nothing of them was left out of the comparison.
  obtain rfl := otherNear iterations (by decide)
  obtain rfl := otherNear version (by decide)
  refine Wire.relBind (bytesNear dpk) fun _ _ dpk => ?_
  refine Wire.relBind (bytesNear salt) fun _ _ salt => ?_
  refine Wire.relBind (bytesNear iv) fun _ _ iv => ?_
  refine Wire.relBind (relSelf _) fun _ _ iterations => ?_
  refine Wire.relBind (relSelf _) fun _ _ version => ?_
  exact .some ⟨dpk, salt, iv, iterations, version⟩

theorem ofTextAgrees (key : String)
    (agree : Option.Rel Stored.Agree ((Wire.ofString? content).bind Stored.ofWire?)
      ((Wire.ofString? content').bind Stored.ofWire?)) :
    ofText key content = ofText key content' := by
  unfold ofText
  generalize (Wire.ofString? content).bind Stored.ofWire? = first at agree ⊢
  generalize (Wire.ofString? content').bind Stored.ofWire? = second at agree ⊢
  cases agree with
  | none => rfl
  | some agree =>
    simp only [decodeField, agree.dpk, agree.salt, agree.iv, agree.iterations, agree.version]

theorem ofTextCase (same : SameButCase content content') (key : String) :
    ofText key content = ofText key content' := by
  obtain ⟨recased, beside⟩ := same
  cases read : Wire.ofString? content with
  | none =>
    rw [read] at beside
    have read' := Option.map_eq_none_iff.mp beside.symm
    unfold ofText
    rw [read, read']
  | some w =>
    rw [read] at beside
    obtain ⟨w', read', beside⟩ := Option.map_eq_some_iff.mp beside.symm
    by_cases equal : w = w'
    · unfold ofText
      rw [read, read', equal]
    · have alike := Wire.ofCharsRecased recased read read'
      have agree := storedNear alike equal beside.symm
      refine ofTextAgrees key ?_
      rwa [read, read', Option.bind_some, Option.bind_some]

def respelled (k : KeyData) (dpk salt iv : String) : List (String × Json × Wire) :=
  [("dpk", .text dpk, .text (Wire.units dpk)), ("salt", .text salt, .text (Wire.units salt)),
    ("iv", .text iv, .text (Wire.units iv)),
    ("iterations", .int k.iterations,
      .number ⟨false, (Nat.toDigits 10 k.iterations).map Digits.value, none, none⟩),
    ("version", .text k.version, .text (Wire.units k.version))]

def respelledText (k : KeyData) (dpk salt iv : String) : String :=
  (Json.object ((k.respelled dpk salt iv).map fun m => (m.1, m.2.1))).render

theorem respelledRead (positive : 0 < k.iterations) (dpk salt iv : String) :
    Wire.ofString? (k.respelledText dpk salt iv) =
      some (.object ((k.respelled dpk salt iv).map fun m => (Wire.units m.1, m.2.2))) := by
  have filled : k.respelled dpk salt iv ≠ [] := List.cons_ne_nil _ _
  refine Wire.readRendered filled ?_
  unfold respelled
  simp only [List.forall_mem_cons]
  exact ⟨Wire.readsText _, Wire.readsText _, Wire.readsText _, countRead positive,
    Wire.readsText _, List.forall_mem_nil _⟩

theorem stripText (bytes : name ∈ byteFields) (us : List Nat) :
    strip name (.text us) = .text [] := if_pos bytes

theorem respelledBeside (positive : 0 < k.iterations) (dpk salt iv : String) :
    (Wire.ofString? k.json.render).map beside =
      (Wire.ofString? (k.respelledText dpk salt iv)).map beside := by
  have stored := respelledRead positive (Hex.encode k.encryptedKey) (Hex.encode k.salt)
    (Hex.encode k.iv)
  rw [show k.json.render = k.respelledText (Hex.encode k.encryptedKey) (Hex.encode k.salt)
    (Hex.encode k.iv) from rfl, stored, respelledRead positive dpk salt iv]
  have dpkStripped := stripText (show "dpk" ∈ byteFields by decide)
  have saltStripped := stripText (show "salt" ∈ byteFields by decide)
  have ivStripped := stripText (show "iv" ∈ byteFields by decide)
  unfold respelled
  simp only [Option.map_some, beside, List.map_cons, List.map_nil, stripMember, Wire.stringUnits,
    Option.elim_some, dpkStripped, saltStripped, ivStripped]

/-- What is stored for a key reads back as the key, any other text is a key within its bounds or
corrupt under the name it was asked for, and the case of digits is all the same. -/
theorem storedTextReads (key : String) :
    (∀ k : KeyData, k.WithinBounds → ofText key k.json.render = .ok k) ∧
      (∀ content, (∃ k, ofText key content = .ok k ∧ k.WithinBounds) ∨
        ∃ reason, ofText key content = .error (.corrupt key reason)) ∧
      ∀ content content', SameButCase content content' →
        ofText key content = ofText key content' := by
  refine ⟨fun k within => ?_, ofTextTells key, fun content content' same => ?_⟩
  · exact readStored (validWithin.mpr within) key
  · exact ofTextCase same key

def sampleKey : KeyData := ⟨[0xab, 0x0c], [0xd0], List.replicate 16 0xe, 10000, "Ab"⟩

def sampleRecased : String :=
  sampleKey.respelledText "Ab0C" "D0" "0e0E0e0E0e0E0e0E0e0E0e0E0e0E0e0E"

theorem sampleStoredTextReads :
    sampleKey.WithinBounds ∧ SameButCase sampleKey.json.render sampleRecased ∧
      ofText "dpk-a" sampleKey.json.render = .ok sampleKey ∧
      ofText "dpk-a" sampleRecased = .ok sampleKey := by
  have within : sampleKey.WithinBounds := ⟨by decide, by decide, by decide, by decide⟩
  have same : SameButCase sampleKey.json.render sampleRecased :=
    ⟨by decide +kernel, respelledBeside (by decide) _ _ _⟩
  obtain ⟨stored, _, recased⟩ := storedTextReads "dpk-a"
  exact ⟨within, same, stored _ within, (recased _ _ same).symm.trans (stored _ within)⟩

end KeyData
end RevForest
