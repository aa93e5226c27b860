import RevForest.Error
import RevForest.Json.Record
/-!
Identifiers of documents and revisions. Both are texts that carry the proof of their form, so an
identifier is determined by its text. A revision id is `<generation>-<digest>`; the generation may
have leading zeros, the digest may hold further dashes.
-/
namespace RevForest

def maxGeneration : Nat := 0xffffffffffffffff

def isControl (c : Char) : Bool := c.toNat < 0x20 || (0x7F ≤ c.toNat && c.toNat < 0xA0)

def startsWith (s start : String) : Bool := start.toList.isPrefixOf s.toList

def DocumentId.fault? (text : String) : Option String :=
  if text = "" then some "document id is empty"
  else if text.toList.any isControl then some "document id contains control characters"
  else if startsWith text "_" && !startsWith text "_design/" && !startsWith text "_local/" then
    some "document id may not start with '_'"
  else none

structure DocumentId where
  text : String
  valid : DocumentId.fault? text = none

namespace DocumentId

theorem ext_text {a b : DocumentId} (h : a.text = b.text) : a = b := by
  cases a; cases b; cases h; rfl

instance : DecidableEq DocumentId := fun a b =>
  if h : a.text = b.text then isTrue (ext_text h) else isFalse fun e => h (congrArg text e)

instance : Repr DocumentId := ⟨fun d n => reprPrec d.text n⟩

instance : LT DocumentId := ⟨fun a b => a.text < b.text⟩

instance : DecidableLT DocumentId := fun a b => inferInstanceAs (Decidable (a.text < b.text))

def parse (text : String) : Except DocumentError DocumentId :=
  match h : fault? text with
  | none => .ok ⟨text, h⟩
  | some reason => .error (.invalidIdentifier text reason)

def ofWire? (w : Wire) : Option DocumentId := w.asString?.bind fun s => (parse s).toOption

def hexDigits : Nat → Nat → List Char
  | 0, _ => []
  | count + 1, n => (n % 16).digitChar :: hexDigits count (n / 16)

theorem digitChar_plain : ∀ n < 16, isControl n.digitChar = false ∧ n.digitChar ≠ '_' := by decide

theorem hexDigits_plain (count n : Nat) :
    ∀ c ∈ hexDigits count n, isControl c = false ∧ c ≠ '_' := by
  induction count generalizing n with
  | zero => simp [hexDigits]
  | succ count ih =>
    intro c hc
    rcases List.mem_cons.1 hc with rfl | hc
    · exact digitChar_plain _ (Nat.mod_lt _ (by decide))
    · exact ih _ c hc

theorem fault?_hexDigits (count n : Nat) :
    fault? (String.ofList (hexDigits (count + 1) n)) = none := by
  have plain := hexDigits_plain (count + 1) n
  have quiet : (hexDigits (count + 1) n).any isControl = false := by
    simpa using fun c hc => (plain c hc).1
  have first : (n % 16).digitChar ≠ '_' := (plain _ (by simp [hexDigits])).2
  simp [fault?, startsWith, quiet]
  simp [hexDigits, Ne.symm first]

def generated (bits : Nat) : DocumentId :=
  ⟨String.ofList (hexDigits 32 bits), fault?_hexDigits 31 bits⟩

end DocumentId

def RevisionId.split (text : String) : Except String (Nat × String) :=
  let front := text.toList.takeWhile (· ≠ '-')
  match text.toList.dropWhile (· ≠ '-') with
  | [] => .error "revision id has no '-' separator"
  | _ :: digest =>
    if front.isEmpty || !front.all Digits.isDigit then
      .error "revision generation is not numeric"
    else
      let generation := Digits.number (front.map Digits.value)
      if generation = 0 ∨ maxGeneration < generation then
        .error "revision generation must be a positive integer"
      else if digest.isEmpty then .error "revision digest is empty"
      else .ok (generation, String.ofList digest)

structure RevisionId where
  text : String
  generation : Nat
  digest : String
  spelled : RevisionId.split text = .ok (generation, digest)

namespace RevisionId

theorem ext_text {a b : RevisionId} (h : a.text = b.text) : a = b := by
  obtain ⟨s, g, d, ha⟩ := a
  obtain ⟨t, k, e, hb⟩ := b
  cases h
  have same := ha.symm.trans hb
  cases same
  rfl

instance : DecidableEq RevisionId := fun a b =>
  if h : a.text = b.text then isTrue (ext_text h) else isFalse fun e => h (congrArg text e)

instance : Repr RevisionId := ⟨fun r n => reprPrec r.text n⟩

def parse (text : String) : Except DocumentError RevisionId :=
  match h : split text with
  | .ok (generation, digest) => .ok ⟨text, generation, digest, h⟩
  | .error reason => .error (.invalidIdentifier text reason)

def ofWire? (w : Wire) : Option RevisionId := w.asString?.bind fun s => (parse s).toOption

def ofParts (generation : Nat) (digest : String) : Except DocumentError RevisionId :=
  parse (toString generation ++ "-" ++ digest)

end RevisionId
end RevForest
