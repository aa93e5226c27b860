import Mathlib.Data.Nat.Digits.Defs
import Mathlib.Data.String.Basic
import Mathlib.Order.RelClasses
import RevForest.Identifier

/-! Ids are parsed from their own texts, and document ids are in the order of these. A revision
id is read off exactly the texts of its grammar, and one that is put together of a generation and a
digest has these two for its parts. -/
namespace RevForest

theorem Digits.numberOfChars (cs : List Char) :
    Digits.number (cs.map Digits.value) = Nat.ofDigitChars 10 cs 0 := by
  unfold Digits.number
  rw [List.foldl_map]
  exact Nat.ofDigitChars_eq_foldl.symm

theorem Digits.numberSpelled (n : Nat) :
    Digits.number ((toString n).toList.map Digits.value) = n := by
  rw [Nat.toString_eq_ofList_toDigits, String.toList_ofList, Digits.numberOfChars]
  exact Nat.ofDigitChars_ten_toDigits

theorem Digits.isDigitSame (c : Char) : Digits.isDigit c = c.isDigit := by
  simp [Digits.isDigit, Char.isDigit, Char.le_def]

instance DocumentId.totalOrder : IsStrictTotalOrder DocumentId (· < ·) where
  irrefl a := lt_irrefl a.text
  trans a b c := lt_trans (a := a.text) (b := b.text) (c := c.text)
  trichotomous _ _ notBefore notAfter :=
    DocumentId.ext_text (le_antisymm (not_lt.mp notAfter) (not_lt.mp notBefore))

theorem DocumentId.parseText (d : DocumentId) : parse d.text = .ok d := by
  unfold parse
  split
  · rfl
  · rename_i reason bad
    rw [d.valid] at bad
    cases bad

namespace RevisionId

theorem parseText (id : RevisionId) : parse id.text = .ok id := by
  unfold parse
  split
  · exact congrArg Except.ok (ext_text rfl)
  · rename_i reason bad
    rw [id.spelled] at bad
    cases bad

theorem textParsed {text : String} {id : RevisionId} (parsed : parse text = .ok id) :
    id.text = text := by
  unfold parse at parsed
  split at parsed
  · cases parsed
    rfl
  · cases parsed

theorem splitGeneration {text digest : String} {generation : Nat}
    (spelled : split text = .ok (generation, digest)) :
    generation = Digits.number ((text.toList.takeWhile (· ≠ '-')).map Digits.value) := by
  unfold split at spelled
  simp only at spelled
  split at spelled <;> try contradiction
  split at spelled <;> try contradiction
  split at spelled <;> try contradiction
  split at spelled <;> try contradiction
  cases spelled
  rfl

theorem noDash (n : Nat) : ∀ c ∈ (toString n).toList, c ≠ '-' := by
  intro c member same
  rw [Nat.toString_eq_ofList_toDigits, String.toList_ofList] at member
  have digit := Nat.isDigit_of_mem_toDigits (by decide) (by decide) member
  rw [same] at digit
  exact absurd digit (by decide)

theorem ofPartsGeneration {generation : Nat} {digest : String} {id : RevisionId}
    (ok : ofParts generation digest = .ok id) : id.generation = generation := by
  have text : id.text = toString generation ++ "-" ++ digest := by
    unfold ofParts parse at ok
    split at ok
    · cases ok
      rfl
    · cases ok
  have front : id.text.toList.takeWhile (· ≠ '-') = (toString generation).toList := by
    rw [text, String.toList_append, String.toList_append, List.append_assoc,
      List.takeWhile_append_of_pos fun c member => by simpa using noDash generation c member]
    simp
  rw [splitGeneration id.spelled, front, Digits.numberSpelled]

/-- The grammar of a revision id: decimal digits, a dash, and the digest behind it. The value of
the digits is the generation, and zeros before it do not count. -/
structure Spells (text : String) (digits : List Char) (generation : Nat) (digest : String) :
    Prop where
  text : text = String.ofList digits ++ "-" ++ digest
  numeric : digits ≠ [] ∧ ∀ c ∈ digits, c.isDigit = true
  value : Nat.ofDigitChars 10 digits 0 = generation
  positive : 1 ≤ generation
  bounded : generation ≤ maxGeneration
  filled : digest ≠ ""

variable {text digest : String} {digits : List Char} {generation : Nat}

theorem digitsNoDash (numeric : ∀ c ∈ digits, c.isDigit = true) :
    ∀ c ∈ digits, decide (c ≠ '-') = true := by
  intro c member
  refine decide_eq_true ?_
  rintro rfl
  exact absurd (numeric '-' member) (by decide)

theorem Spells.parts (spells : Spells text digits generation digest) :
    text.toList.takeWhile (· ≠ '-') = digits ∧
      text.toList.dropWhile (· ≠ '-') = '-' :: digest.toList := by
  have dashes := digitsNoDash spells.numeric.2
  have chars : text.toList = digits ++ '-' :: digest.toList := by
    rw [spells.text, String.toList_append, String.toList_append, String.toList_ofList,
      List.append_assoc]
    rfl
  rw [chars, List.takeWhile_append_of_pos dashes, List.dropWhile_append_of_pos dashes]
  simp

theorem Spells.split (spells : Spells text digits generation digest) :
    split text = .ok (generation, digest) := by
  obtain ⟨front, back⟩ := spells.parts
  have some : digits.isEmpty = false := List.isEmpty_eq_false_iff.mpr spells.numeric.1
  have numeric : digits.all Digits.isDigit = true := by
    refine List.all_eq_true.mpr fun c member => ?_
    rw [Digits.isDigitSame]
    exact spells.numeric.2 c member
  have filled : digest.toList.isEmpty = false :=
    List.isEmpty_eq_false_iff.mpr fun none => spells.filled (String.toList_injective none)
  have inside : ¬ (generation = 0 ∨ maxGeneration < generation) := by
    have positive := spells.positive
    have bounded := spells.bounded
    omega
  unfold RevisionId.split
  simp only [front, back, some, numeric, Digits.numberOfChars, spells.value, if_neg inside, filled,
    String.ofList_toList]
  rfl

theorem splitSpells (ok : split text = .ok (generation, digest)) :
    Spells text (text.toList.takeWhile (· ≠ '-')) generation digest := by
  have whole := List.takeWhile_append_dropWhile (p := fun c => decide (c ≠ '-')) (l := text.toList)
  have stops := List.head?_dropWhile_not (fun c => decide (c ≠ '-')) text.toList
  unfold RevisionId.split at ok
  simp only [Digits.numberOfChars] at ok
  generalize text.toList.takeWhile _ = front at ok whole ⊢
  split at ok
  · cases ok
  · rename_i c rest back
    rw [back] at whole stops
    obtain rfl : c = '-' := by simpa using stops
    split at ok
    · cases ok
    · rename_i numeric
      split at ok
      · cases ok
      · rename_i inside
        split at ok
        · cases ok
        · rename_i filled
          cases ok
          simp only [Bool.or_eq_true, Bool.not_eq_true', not_or, Bool.not_eq_true,
            Bool.not_eq_false, List.isEmpty_eq_false_iff, List.all_eq_true,
            Digits.isDigitSame] at numeric
          refine ⟨?_, numeric, rfl, by omega, by omega, ?_⟩
          · refine String.toList_injective ?_
            simp only [← whole, String.toList_append, String.toList_ofList, List.append_assoc]
            rfl
          · intro none
            have empty := congrArg String.toList none
            rw [String.toList_ofList] at empty
            exact filled (List.isEmpty_iff.mpr empty)

theorem Spells.parsed (spells : Spells text digits generation digest) :
    parse text = .ok ⟨text, generation, digest, spells.split⟩ :=
  parseText ⟨text, generation, digest, spells.split⟩

theorem parseFails
    (unspelled : ∀ digits generation digest, ¬ Spells text digits generation digest) :
    ∃ reason, parse text = .error (.invalidIdentifier text reason) := by
  unfold parse
  split
  · rename_i ok
    exact absurd (splitSpells ok) (unspelled _ _ _)
  · exact ⟨_, rfl⟩

theorem partsSpell (positive : 1 ≤ generation) (bounded : generation ≤ maxGeneration)
    (filled : digest ≠ "") :
    Spells (toString generation ++ "-" ++ digest) (Nat.toDigits 10 generation) generation
      digest where
  text := by rw [Nat.toString_eq_ofList_toDigits]
  numeric := ⟨Nat.toDigits_ne_nil, fun _ member =>
    Nat.isDigit_of_mem_toDigits (by decide) (by decide) member⟩
  value := Nat.ofDigitChars_ten_toDigits
  positive := positive
  bounded := bounded
  filled := filled

theorem ofPartsDigest {id : RevisionId} (ok : ofParts generation digest = .ok id) :
    id.digest = digest := by
  have back := (splitSpells id.spelled).parts.2
  rw [textParsed ok, String.toList_append, String.toList_append, List.append_assoc,
    List.dropWhile_append_of_pos fun c member => decide_eq_true (noDash generation c member)]
    at back
  exact String.toList_injective (List.cons.inj back).2.symm

theorem parsesItsGrammar :
    (∀ text id, parse text = .ok id →
      id.text = text ∧ ∃ digits, Spells text digits id.generation id.digest) ∧
    (∀ text digits generation digest, Spells text digits generation digest →
      ∃ id, parse text = .ok id ∧ id.generation = generation ∧ id.digest = digest) ∧
    (∀ text, (∀ digits generation digest, ¬ Spells text digits generation digest) →
      ∃ reason, parse text = .error (.invalidIdentifier text reason)) ∧
    (∀ generation digest, 1 ≤ generation → generation ≤ maxGeneration → digest ≠ "" →
      ∃ id, ofParts generation digest = .ok id ∧ id.generation = generation ∧
        id.digest = digest) ∧
    (∀ generation digest generation' digest' id id', ofParts generation digest = .ok id →
      ofParts generation' digest' = .ok id' → (generation, digest) ≠ (generation', digest') →
        id ≠ id') := by
  refine ⟨?_, ?_, fun text => parseFails, ?_, ?_⟩
  · intro text id ok
    obtain rfl := textParsed ok
    exact ⟨rfl, _, splitSpells id.spelled⟩
  · intro text digits generation digest spells
    exact ⟨_, spells.parsed, rfl, rfl⟩
  · intro generation digest positive bounded filled
    exact ⟨_, (partsSpell positive bounded filled).parsed, rfl, rfl⟩
  · rintro generation digest generation' digest' id _ made made' other rfl
    refine other (Prod.ext ?_ ?_)
    · exact (ofPartsGeneration made).symm.trans (ofPartsGeneration made')
    · exact (ofPartsDigest made).symm.trans (ofPartsDigest made')

theorem sampleSpelled : Spells "007-é-x" ['0', '0', '7'] 7 "é-x" where
  text := by decide
  numeric := ⟨by decide, List.all_eq_true.mp rfl⟩
  value := rfl
  positive := by decide
  bounded := by decide
  filled := by decide

theorem sampleUnspelled (digits : List Char) (generation : Nat) (digest : String) :
    ¬ Spells "+1-a" digits generation digest := by
  intro spells
  have front : ['+', '1'] = digits := spells.parts.1
  subst front
  exact absurd (spells.numeric.2 '+' List.mem_cons_self) (by decide)

theorem sampleGrammar :
    (∃ id, parse "007-é-x" = .ok id ∧ id.generation = 7 ∧ id.digest = "é-x") ∧
      (∃ reason, parse "+1-a" = .error (.invalidIdentifier "+1-a" reason)) ∧
      ∃ id id', ofParts maxGeneration "-" = .ok id ∧ ofParts maxGeneration "--" = .ok id' ∧
        id ≠ id' := by
  obtain ⟨_, accepts, refuses, makes, apart⟩ := parsesItsGrammar
  obtain ⟨id, made, _⟩ := makes maxGeneration "-" (by decide) (by decide) (by decide)
  obtain ⟨id', made', _⟩ := makes maxGeneration "--" (by decide) (by decide) (by decide)
  exact ⟨accepts _ _ _ _ sampleSpelled, refuses _ sampleUnspelled, id, id', made, made',
    apart _ _ _ _ _ _ made made' (by decide)⟩

end RevisionId
end RevForest
