import RevForest.Body
import RevForest.Proofs.Json.Equality
import RevForest.Proofs.Json.RoundTrip

/-! What bodies are made of and written as. None of the ways to make a body lets a reserved key in,
so a body is read back from its own bytes. What is no object without reserved keys is refused. -/
namespace RevForest

namespace Wire

theorem membersKey {depth : Nat} {ms : List (List Nat × Wire)} {entries : List (String × Json)}
    (denoted : members? depth ms = some entries) {m : List Nat × Wire} (member : m ∈ ms)
    {key : String} (spelled : string? m.1 = some key) : key ∈ entries.map Prod.fst := by
  induction ms generalizing entries with
  | nil => cases member
  | cons head rest ih =>
    obtain ⟨k, w⟩ := head
    simp only [members?, Option.bind_eq_bind, Option.bind_eq_some_iff] at denoted
    obtain ⟨first, firstSpelled, v, _, others, later, same⟩ := denoted
    cases same
    rcases List.mem_cons.mp member with rfl | member
    · cases firstSpelled.symm.trans spelled
      exact List.mem_cons_self
    · exact List.mem_cons_of_mem _ (ih later member)

theorem objectDenoted {depth : Nat} {w : Wire} {members : List (String × Json)}
    (denoted : w.value? depth = some (.object members)) :
    ∃ inner ms entries, w = .object ms ∧ members? inner ms = some entries ∧
      (Dict.ofList entries).entries = members := by
  cases w with
  | object ms =>
    cases depth with
    | zero => cases denoted
    | succ depth =>
      obtain ⟨entries, found, same⟩ := Option.map_eq_some_iff.mp denoted
      exact ⟨depth, ms, entries, rfl, found, Json.object.inj same⟩
  | null => cases denoted
  | bool b => cases denoted
  | number n => cases Json.numberFits denoted 0
  | text us =>
    obtain ⟨s, _, same⟩ := Option.map_eq_some_iff.mp denoted
    cases same
  | array ws =>
    cases depth with
    | zero => cases denoted
    | succ depth =>
      obtain ⟨vs, _, same⟩ := Option.map_eq_some_iff.mp denoted
      cases same

end Wire

namespace DocumentBody

theorem ofDictIff {fields : Dict String Json} {b : DocumentBody} :
    ofDict fields = .ok b ↔ b.fields = fields ∧ ∀ key ∈ reservedKeys, fields.find? key = none := by
  have free : fields.keys.find? (reservedKeys.contains ·) = none ↔
      ∀ key ∈ reservedKeys, fields.find? key = none := by
    rw [List.find?_eq_none]
    simp only [Dict.findNoneIff, List.contains_iff_mem]
    exact ⟨fun apart key reserved there => apart key there reserved,
      fun apart key there reserved => apart key reserved there⟩
  rw [← free]
  unfold ofDict
  cases fields.keys.find? (reservedKeys.contains ·) with
  | none =>
    constructor
    · intro made
      cases made
      exact ⟨rfl, rfl⟩
    · rintro ⟨rfl, _⟩
      rfl
  | some key =>
    constructor
    · intro made
      cases made
    · rintro ⟨_, none⟩
      cases none

theorem ofDictRefused {fields : Dict String Json} {e : DocumentError}
    (refused : ofDict fields = .error e) : ∃ reason, e = .invalidBody reason := by
  unfold ofDict at refused
  split at refused
  · cases refused
    exact ⟨_, rfl⟩
  · cases refused

theorem ofJsonIff {v : Json} {b : DocumentBody} :
    ofJson v = .ok b ↔ v = b.json ∧ ∀ key ∈ reservedKeys, b.get? key = none := by
  constructor
  · intro made
    cases v with
    | object members =>
      obtain ⟨fields, free⟩ := ofDictIff.mp made
      unfold get? json
      rw [fields]
      exact ⟨rfl, free⟩
    | _ => cases made
  · rintro ⟨rfl, free⟩
    exact ofDictIff.mpr ⟨rfl, free⟩

theorem ofJsonRefused {v : Json} {e : DocumentError} (refused : ofJson v = .error e) :
    ∃ reason, e = .invalidBody reason := by
  cases v with
  | object members => exact ofDictRefused refused
  | _ => cases refused; exact ⟨_, rfl⟩

variable {bytes : ByteArray} {b : DocumentBody}

theorem ofBytesIff : ofBytes bytes = .ok b ↔
    Json.ofBytes? bytes = some b.json ∧ ∀ key ∈ reservedKeys, b.get? key = none := by
  unfold ofBytes
  cases Json.ofBytes? bytes with
  | none =>
    constructor
    · intro made
      cases made
    · rintro ⟨none, _⟩
      cases none
  | some v => exact ofJsonIff.trans (and_congr_left' (Option.some_inj.symm))

theorem ofBytesRefused {e : DocumentError} (refused : ofBytes bytes = .error e) :
    ∃ reason, e = .invalidBody reason := by
  unfold ofBytes at refused
  split at refused
  · cases refused
    exact ⟨_, rfl⟩
  · exact ofJsonRefused refused

theorem reservedRefused {s : String} {w : Wire} (text : String.fromUTF8? bytes = some s)
    (read : Wire.ofString? s = some w)
    (bad : ∀ members, w = .object members →
      ∃ m ∈ members, ∃ key ∈ reservedKeys, Wire.string? m.1 = some key) :
    ∃ reason, ofBytes bytes = .error (.invalidBody reason) := by
  cases made : ofBytes bytes with
  | error e =>
    obtain ⟨reason, rfl⟩ := ofBytesRefused made
    exact ⟨reason, rfl⟩
  | ok b =>
    obtain ⟨denoted, free⟩ := ofBytesIff.mp made
    simp only [Json.ofBytes?, Json.ofString?, text, read, Option.bind_eq_bind,
      Option.bind_some] at denoted
    obtain ⟨inner, members, entries, rfl, found, same⟩ := Wire.objectDenoted denoted
    obtain ⟨m, member, key, reserved, spelled⟩ := bad members rfl
    have fields : Dict.ofList entries = b.fields := congrArg Dict.mk same
    have there := Dict.keyOfList (Wire.membersKey found member spelled)
    rw [fields] at there
    exact absurd (free key reserved) there

theorem ofBytesFits (made : ofBytes bytes = .ok b) : Json.Fits Json.depthLimit b.json := by
  have denoted := (ofBytesIff.mp made).1
  obtain ⟨s, _, denoted⟩ := Option.bind_eq_some_iff.mp denoted
  obtain ⟨w, _, denoted⟩ := Option.bind_eq_some_iff.mp denoted
  exact Json.valueFits denoted

inductive Made : DocumentBody → Prop where
  | empty : Made .empty
  | ofDict {fields : Dict String Json} {b : DocumentBody} (sorted : fields.Sorted)
      (made : ofDict fields = .ok b) : Made b
  | ofJson {v : Json} {b : DocumentBody} (canonical : v.Canonical)
      (made : ofJson v = .ok b) : Made b
  | ofBytes {bytes : ByteArray} {b : DocumentBody} (made : ofBytes bytes = .ok b) : Made b
  | project {b : DocumentBody} (made : Made b) (names : List String) : Made (b.project names)

structure Plain (b : DocumentBody) : Prop where
  sorted : b.fields.Sorted
  free : ∀ key ∈ reservedKeys, b.get? key = none

theorem Plain.project (plain : b.Plain) (names : List String) : (b.project names).Plain := by
  refine ⟨plain.sorted.filter _, fun key reserved => ?_⟩
  have free : b.fields.find? key = none := plain.free key reserved
  rw [get?, DocumentBody.project, Dict.findChosen, free, ite_self]

theorem Made.plain (made : b.Made) : b.Plain := by
  induction made with
  | empty => exact ⟨Dict.sortedEmpty, fun _ _ => rfl⟩
  | ofDict sorted made =>
    obtain ⟨rfl, free⟩ := ofDictIff.mp made
    exact ⟨sorted, free⟩
  | ofJson canonical made =>
    obtain ⟨rfl, free⟩ := ofJsonIff.mp made
    cases canonical with
    | object sorted _ => exact ⟨sorted, free⟩
  | ofBytes made =>
    have fits := ofBytesFits made
    cases fits with
    | object sorted _ => exact ⟨sorted, (ofBytesIff.mp made).2⟩
  | project _ names plain => exact plain.project names

theorem bytesRead (b : DocumentBody) : Json.ofBytes? b.bytes = Json.ofString? b.text := by
  have whole : String.fromUTF8? b.text.toByteArray = some b.text := dif_pos b.text.isValidUTF8
  rw [Json.ofBytes?, bytes, whole]
  rfl

-- Keys out of order, both 64-bit limits, a member given twice and a negative zero.
def sampleText : String := " \x7b\"z\":[1.5,-0.0,\x7b\"c\":18446744073709551615\x7d]," ++
  "\"a\":0, \"a\" : -9223372036854775808\x7d"

/-- Bytes are a body exactly when they denote an object without reserved keys, and are refused as
no body otherwise. What a body is written as is read back as the same body with the same bytes, if
the binary64 numbers in it are read back from their texts. -/
theorem bytesReadBack (bytes : ByteArray) :
    (∀ b, ofBytes bytes = .ok b ↔
      Json.ofBytes? bytes = some b.json ∧ ∀ key ∈ reservedKeys, b.get? key = none) ∧
    (∀ b, ofBytes bytes = .ok b → (∀ d ∈ b.json.doubles, d.ReadsBack) →
      ∃ again, ofBytes b.bytes = .ok again ∧ again = b ∧ again.same b = true ∧
        again.bytes = b.bytes) ∧
    (∀ s w, String.fromUTF8? bytes = some s → Wire.ofString? s = some w →
      (∀ members, w = .object members →
        ∃ m ∈ members, ∃ key ∈ reservedKeys, Wire.string? m.1 = some key) →
      ∃ reason, ofBytes bytes = .error (.invalidBody reason)) ∧
    ∀ e, ofBytes bytes = .error e → ∃ reason, e = .invalidBody reason := by
  refine ⟨fun b => ofBytesIff, fun b made back => ?_, fun s w => reservedRefused,
    fun e => ofBytesRefused⟩
  have read := Json.readsBack (ofBytesFits made) back
  have again : ofBytes b.bytes = .ok b :=
    ofBytesIff.mpr ⟨(bytesRead b).trans read, (ofBytesIff.mp made).2⟩
  exact ⟨b, again, rfl, (Json.sameIff _ _).mpr rfl, rfl⟩

theorem sampleReadsBack :
    (∃ b, ofBytes sampleText.toByteArray = .ok b ∧
      b.json.doubles = [⟨false, 3 * Nat.pow 2 1073⟩, ⟨true, 0⟩] ∧
      ∃ again, ofBytes b.bytes = .ok again ∧ again = b ∧ again.same b = true ∧
        again.bytes = b.bytes) ∧
    ∃ reason, ofBytes "\x7b\"n\":1,\"_rev\":2\x7d".toByteArray = .error (.invalidBody reason) := by
  have held : (ofBytes sampleText.toByteArray).toOption.map (·.json.doubles) =
      some [⟨false, 3 * Nat.pow 2 1073⟩, ⟨true, 0⟩] := by decide +kernel
  have back : ∀ d ∈ [(⟨false, 3 * Nat.pow 2 1073⟩ : Double), ⟨true, 0⟩], d.ReadsBack := by
    decide +kernel
  have refused : (ofBytes "\x7b\"n\":1,\"_rev\":2\x7d".toByteArray).toOption.isNone = true := by
    decide +kernel
  constructor
  · cases made : ofBytes sampleText.toByteArray with
    | error e =>
      rw [made] at held
      cases held
    | ok b =>
      rw [made] at held
      have doubles : b.json.doubles = _ := Option.some.inj held
      exact ⟨b, rfl, doubles, (bytesReadBack _).2.1 b made (doubles ▸ back)⟩
  · cases made : ofBytes "\x7b\"n\":1,\"_rev\":2\x7d".toByteArray with
    | error e =>
      obtain ⟨reason, rfl⟩ := (bytesReadBack _).2.2.2 e made
      exact ⟨reason, rfl⟩
    | ok b =>
      rw [made] at refused
      cases refused

end DocumentBody
end RevForest
