import RevForest.Proofs.Json.Reader

/-! A value that was read is written as a text that reads back as it. The text of a number may stand
before whatever does not go on with it, so it is read inside arrays and objects as it is alone. -/
namespace RevForest

namespace Wire

def Ends (rest : List Char) : Prop :=
  ∀ c ∈ rest.head?, Digits.isDigit c = false ∧ c ≠ '.' ∧ c ≠ 'e' ∧ c ≠ 'E'

theorem endsNil : Ends [] := by
  intro c none
  cases none

theorem endsCons {c : Char} (other : Digits.isDigit c = false ∧ c ≠ '.' ∧ c ≠ 'e' ∧ c ≠ 'E')
    (rest : List Char) : Ends (c :: rest) := fun _ same => Option.some.inj same ▸ other

variable {cs more rest : List Char}

theorem leadingEnds (ends : Ends rest) (cs : List Char) :
    Digits.leading (cs ++ rest) = ((Digits.leading cs).1, (Digits.leading cs).2 ++ rest) := by
  induction cs with
  | nil =>
    cases rest with
    | nil => rfl
    | cons c more => simp [Digits.leading, (ends c rfl).1]
  | cons c cs ih =>
    rw [List.cons_append, Digits.leading, Digits.leading]
    split
    · rw [ih]
    · rfl

theorem readDigitsEnds (ends : Ends rest) {ds : List Nat} (read : readDigits cs = some (ds, more)) :
    readDigits (cs ++ rest) = some (ds, more ++ rest) := by
  unfold readDigits at read ⊢
  rw [leadingEnds ends]
  generalize Digits.leading cs = found at read ⊢
  obtain ⟨ds', more'⟩ := found
  cases ds' with
  | nil => cases read
  | cons d later => cases read; rfl

theorem readWholeEnds (ends : Ends rest) {ds : List Nat} (read : readWhole cs = some (ds, more)) :
    readWhole (cs ++ rest) = some (ds, more ++ rest) := by
  unfold readWhole at read
  split at read
  · cases read
    rfl
  · rename_i other
    have digits := readDigitsEnds ends read
    cases cs with
    | nil => cases read
    | cons c cs =>
      have noZero : c ≠ '0' := fun same => other cs (same ▸ rfl)
      unfold readWhole
      split
      · rename_i same
        exact absurd (List.cons.inj same).1 noZero
      · exact digits

theorem readFractionEnds (ends : Ends rest) {fraction : Option (List Nat)}
    (read : readFraction cs = some (fraction, more)) :
    readFraction (cs ++ rest) = some (fraction, more ++ rest) := by
  unfold readFraction at read
  split at read
  · rename_i cs
    cases digits : readDigits cs with
    | none =>
      rw [digits] at read
      cases read
    | some found =>
      rw [digits] at read
      cases read
      rw [List.cons_append, readFraction, readDigitsEnds ends digits]
      rfl
  · rename_i other
    cases read
    unfold readFraction
    split
    · rename_i point
      cases cs with
      | nil => exact absurd rfl (ends '.' (by rw [← List.nil_append rest, point]; rfl)).2.1
      | cons c cs => exact absurd (congrArg (· :: cs) (List.cons.inj point).1) (other cs)
    · rfl

theorem readSignAppend {c : Char} (cs rest : List Char) :
    readSign (c :: cs ++ rest) = ((readSign (c :: cs)).1, (readSign (c :: cs)).2 ++ rest) := by
  by_cases plus : c = '+'
  · subst plus
    rfl
  · by_cases minus : c = '-'
    · subst minus
      rfl
    · have plain (cs : List Char) : readSign (c :: cs) = (false, c :: cs) := by
        unfold readSign
        split
        · rename_i same
          exact absurd (List.cons.inj same).1 plus
        · rename_i same
          exact absurd (List.cons.inj same).1 minus
        · rfl
      rw [List.cons_append, plain, plain]
      rfl

theorem readExponentEnds (ends : Ends rest) {exponent : Option (Bool × List Nat)}
    (read : readExponent cs = some (exponent, more)) :
    readExponent (cs ++ rest) = some (exponent, more ++ rest) := by
  cases cs with
  | nil =>
    cases read
    cases rest with
    | nil => rfl
    | cons c later =>
      obtain ⟨_, _, noSmall, noLarge⟩ := ends c rfl
      rw [List.nil_append, readExponent, if_neg (not_or.mpr ⟨noSmall, noLarge⟩)]
  | cons c cs =>
    rw [List.cons_append, readExponent]
    rw [readExponent] at read
    by_cases mark : c = 'e' ∨ c = 'E'
    · rw [if_pos mark] at read ⊢
      cases cs with
      | nil => cases read
      | cons d cs =>
        rw [readSignAppend]
        generalize readSign (d :: cs) = signed at read ⊢
        obtain ⟨negative, cs⟩ := signed
        cases digits : readDigits cs with
        | none =>
          simp only [digits] at read
          cases read
        | some found =>
          simp only [digits] at read
          cases read
          simp only [readDigitsEnds ends digits]
          rfl
    · rw [if_neg mark] at read ⊢
      cases read
      rfl

def readMagnitude (negative : Bool) (cs : List Char) : Option (NumberText × List Char) := do
  let (whole, cs) ← readWhole cs
  let (fraction, cs) ← readFraction cs
  let (exponent, cs) ← readExponent cs
  some (⟨negative, whole, fraction, exponent⟩, cs)

theorem readNumberMinus (cs : List Char) : readNumber ('-' :: cs) = readMagnitude true cs := rfl

theorem readNumberPlain (noSign : ∀ later, cs ≠ '-' :: later) :
    readNumber cs = readMagnitude false cs := by
  unfold readNumber
  split
  rename_i negative cs' signed
  split at signed
  · exact absurd rfl (noSign _)
  · cases signed
    rfl

theorem readMagnitudeEnds (ends : Ends rest) {negative : Bool} {n : NumberText}
    (read : readMagnitude negative cs = some (n, more)) :
    readMagnitude negative (cs ++ rest) = some (n, more ++ rest) := by
  simp only [readMagnitude, Option.bind_eq_bind, Option.bind_eq_some_iff] at read ⊢
  obtain ⟨_, whole, _, fraction, _, exponent, same⟩ := read
  cases same
  exact ⟨_, readWholeEnds ends whole, _, readFractionEnds ends fraction, _,
    readExponentEnds ends exponent, rfl⟩

theorem readNumberEnds (ends : Ends rest) {n : NumberText} (read : readNumber cs = some (n, more)) :
    readNumber (cs ++ rest) = some (n, more ++ rest) := by
  cases cs with
  | nil => cases read
  | cons c cs =>
    by_cases minus : c = '-'
    · subst minus
      exact readMagnitudeEnds ends read
    · have noSign (cs later : List Char) : c :: cs ≠ '-' :: later := fun same =>
        minus (List.cons.inj same).1
      rw [readNumberPlain (noSign cs)] at read
      rw [List.cons_append, readNumberPlain (noSign (cs ++ rest))]
      exact readMagnitudeEnds ends read

theorem numberStarts {n : NumberText} (read : readNumber cs = some (n, more)) :
    ∃ c later, cs = c :: later ∧ (c = '-' ∨ Digits.isDigit c = true) := by
  cases cs with
  | nil => cases read
  | cons c cs =>
    refine ⟨c, cs, rfl, ?_⟩
    by_cases minus : c = '-'
    · exact .inl minus
    · right
      rw [readNumberPlain fun later same => minus (List.cons.inj same).1] at read
      simp only [readMagnitude, Option.bind_eq_bind, Option.bind_eq_some_iff] at read
      obtain ⟨_, whole, _⟩ := read
      unfold readWhole at whole
      split at whole
      · rename_i same
        rw [(List.cons.inj same).1]
        rfl
      · by_contra noDigit
        rw [readDigits, Digits.leading, if_neg noDigit] at whole
        cases whole

theorem skipAppend {c : Char} (found : skipBlanks cs = c :: more) (rest : List Char) :
    skipBlanks (cs ++ rest) = c :: (more ++ rest) := by
  unfold skipBlanks at found ⊢
  induction cs with
  | nil => cases found
  | cons d cs ih =>
    rw [List.cons_append]
    by_cases blank : isBlank d = true
    · rw [List.dropWhile_cons_of_pos blank] at found ⊢
      exact ih found
    · rw [List.dropWhile_cons_of_neg blank] at found ⊢
      cases found
      rfl

theorem readItemsSkips (fuel : Nat) {cs ds : List Char} (same : skipBlanks cs = skipBlanks ds) :
    readItems fuel cs = readItems fuel ds := by
  cases fuel with
  | zero => rfl
  | succ fuel => rw [readItems, readItems, readValueSkips fuel same]

structure Spells (cs : List Char) (w : Wire) : Prop where
  starts : ∃ c more, skipBlanks cs = c :: more ∧ c ≠ ']'
  reads : ∃ blanks : List Char, (∀ c ∈ blanks, isBlank c = true) ∧
    ∀ fuel rest, Ends rest → 2 * cs.length ≤ fuel →
      readValue fuel (cs ++ rest) = some (w, blanks ++ rest)

theorem spellsExactly {c : Char} {w : Wire} (dark : isBlank c = false) (noEnd : c ≠ ']')
    (reads : ∀ fuel rest, Ends rest → 2 * (c :: cs).length ≤ fuel + 1 →
      readValue (fuel + 1) (c :: cs ++ rest) = some (w, rest)) : Spells (c :: cs) w := by
  refine ⟨⟨c, cs, skipNone dark cs, noEnd⟩, [], List.forall_mem_nil _, ?_⟩
  intro fuel rest ends enough
  obtain ⟨fuel, rfl⟩ : ∃ k, fuel = k + 1 := by
    rw [List.length_cons] at enough
    exact ⟨fuel - 1, by omega⟩
  exact reads fuel rest ends enough

theorem readValueNumber {c : Char} (opened : skipBlanks cs = c :: more)
    (number : c = '-' ∨ Digits.isDigit c = true) (fuel : Nat) :
    readValue (fuel + 1) cs =
      (readNumber (c :: more)).map fun read => (.number read.1, read.2) := by
  have no {e : Char} {later : List Char} (same : c :: more = e :: later)
      (other : e ≠ '-' ∧ Digits.isDigit e = false) : False := by
    cases same
    rcases number with minus | digit
    · exact other.1 minus
    · rw [other.2] at digit
      cases digit
  rw [readValue, opened]
  split
  all_goals first
    | exact (no ‹_› (by decide)).elim
    | skip
  cases readNumber (c :: more) <;> rfl

theorem numberRead {fuel : Nat} {n : NumberText}
    (read : readValue fuel cs = some (.number n, more)) :
    readNumber (skipBlanks cs) = some (n, more) := by
  cases fuel with
  | zero => cases read
  | succ fuel =>
    rw [readValue] at read
    split at read
    · cases read
    · cases read
    · cases read
    · simp only [Option.bind_eq_bind, Option.bind_eq_some_iff] at read
      obtain ⟨_, _, same⟩ := read
      cases same
    · split at read
      · cases read
      · simp only [Option.bind_eq_bind, Option.bind_eq_some_iff] at read
        obtain ⟨_, _, same⟩ := read
        cases same
    · split at read
      · cases read
      · simp only [Option.bind_eq_bind, Option.bind_eq_some_iff] at read
        obtain ⟨_, _, same⟩ := read
        cases same
    · simp only [Option.bind_eq_bind, Option.bind_eq_some_iff] at read
      obtain ⟨_, found, same⟩ := read
      cases same
      exact found

theorem spellsNumber {n : NumberText} (read : readNumber (skipBlanks cs) = some (n, more))
    (blank : skipBlanks more = []) : Spells cs (.number n) := by
  obtain ⟨c, later, opened, number⟩ := numberStarts read
  have noEnd : c ≠ ']' := by
    rintro rfl
    rcases number with same | digit
    · cases same
    · cases digit
  refine ⟨⟨c, later, opened, noEnd⟩, more, List.dropWhile_eq_nil_iff.mp blank, ?_⟩
  intro fuel rest ends enough
  obtain ⟨fuel, rfl⟩ : ∃ k, fuel = k + 1 := by
    refine ⟨fuel - 1, ?_⟩
    have filled : 0 < cs.length := by
      refine List.length_pos_of_ne_nil ?_
      rintro rfl
      cases opened
    omega
  rw [opened] at read
  rw [readValueNumber (skipAppend opened rest) number, ← List.cons_append,
    readNumberEnds ends read, Option.map_some]

theorem leadingAll {ds : List Char} (digits : ∀ c ∈ ds, c.isDigit = true) :
    Digits.leading ds = (ds.map Digits.value, []) := by
  have found := leadingDigits digits (c := ',') rfl []
  rw [leadingEnds (endsCons (by decide) [])] at found
  refine Prod.ext (Prod.ext_iff.mp found).1 ?_
  exact List.append_cancel_right (Prod.ext_iff.mp found).2

def numberOf (n : Int) : NumberText :=
  ⟨decide (n < 0), (Nat.toDigits 10 n.natAbs).map Digits.value, none, none⟩

theorem readMagnitudeDigits (negative : Bool) (n : Nat) :
    readMagnitude negative (Nat.toDigits 10 n) =
      some (⟨negative, (Nat.toDigits 10 n).map Digits.value, none, none⟩, []) := by
  have whole : readWhole (Nat.toDigits 10 n) =
      some ((Nat.toDigits 10 n).map Digits.value, []) := by
    rcases Nat.eq_zero_or_pos n with rfl | positive
    · rfl
    · have leading := leadingAll fun d (member : d ∈ Nat.toDigits 10 n) =>
        Nat.isDigit_of_mem_toDigits (by decide) (by decide) member
      obtain ⟨d, ds, front, noZero⟩ := firstDigit positive
      rw [front] at leading ⊢
      unfold readWhole
      split
      · rename_i same
        exact absurd (List.cons.inj same).1 noZero
      · rw [readDigits, leading]
        rfl
  simp only [readMagnitude, whole, Option.bind_eq_bind, Option.bind_some, readFraction,
    readExponent]

theorem readInt (n : Int) : readNumber n.repr.toList = some (numberOf n, []) := by
  cases n with
  | ofNat n =>
    have text : (Int.ofNat n).repr.toList = Nat.toDigits 10 n := by
      rw [show (Int.ofNat n).repr = Nat.repr n from rfl, Nat.repr_eq_ofList_toDigits,
        String.toList_ofList]
    have noSign : ∀ later, Nat.toDigits 10 n ≠ '-' :: later := by
      intro later same
      have member : '-' ∈ Nat.toDigits 10 n := same ▸ List.mem_cons_self
      exact absurd (Nat.isDigit_of_mem_toDigits (by decide) (by decide) member) (by decide)
    rw [text, readNumberPlain noSign, readMagnitudeDigits]
    rfl
  | negSucc n =>
    have text : (Int.negSucc n).repr.toList = '-' :: Nat.toDigits 10 (n + 1) := by
      rw [show (Int.negSucc n).repr = "-" ++ Nat.repr (n + 1) from rfl, String.toList_append,
        Nat.repr_eq_ofList_toDigits, String.toList_ofList, String.toList_ofList]
      rfl
    have negative : decide (Int.negSucc n < 0) = true := decide_eq_true (Int.negSucc_lt_zero n)
    rw [text, readNumberMinus, readMagnitudeDigits, numberOf, negative]
    rfl

theorem digitsSpelled (n : Nat) :
    Digits.number ((Nat.toDigits 10 n).map Digits.value) = n := by
  have spelled := Digits.numberSpelled n
  rwa [Nat.toString_eq_ofList_toDigits, String.toList_ofList] at spelled

theorem spellsNull : Spells ['n', 'u', 'l', 'l'] .null :=
  spellsExactly rfl (by decide) fun _ _ _ _ => rfl

theorem spellsTrue : Spells ['t', 'r', 'u', 'e'] (.bool true) :=
  spellsExactly rfl (by decide) fun _ _ _ _ => rfl

theorem spellsFalse : Spells ['f', 'a', 'l', 's', 'e'] (.bool false) :=
  spellsExactly rfl (by decide) fun _ _ _ _ => rfl

theorem spellsText (s : String) : Spells (Json.writeText s) (.text (units s)) := by
  show Spells ('"' :: (s.toList.flatMap Json.escape ++ ['"'])) _
  refine spellsExactly rfl (by decide) fun fuel rest _ _ => ?_
  rw [readValue, List.cons_append, skipNone rfl, List.append_assoc]
  simp only [List.cons_append, List.nil_append, readWritten, Option.bind_eq_bind, Option.bind_some]

theorem spellsInt (n : Int) : Spells n.repr.toList (.number (numberOf n)) := by
  have read := readInt n
  obtain ⟨c, more, front, number⟩ := numberStarts read
  have dark : isBlank c = false := by
    cases blank : isBlank c with
    | false => rfl
    | true =>
      simp only [isBlank, Bool.or_eq_true, beq_iff_eq] at blank
      rcases blank with ((rfl | rfl) | rfl) | rfl <;> exact absurd number (by decide)
  have unblanked : readNumber (skipBlanks n.repr.toList) = some (numberOf n, []) := by
    rwa [front, skipNone dark, ← front]
  exact spellsNumber unblanked rfl

structure SpellsItems (cs : List Char) (ws : List Wire) : Prop where
  starts : ∃ c more, skipBlanks cs = c :: more ∧ c ≠ ']'
  reads : ∀ fuel rest, 2 * cs.length + 1 ≤ fuel →
    readItems fuel (cs ++ ']' :: rest) = some (ws, rest)

variable {w : Wire} {ws : List Wire}

theorem Spells.lastItem (spells : Spells cs w) : SpellsItems cs [w] := by
  obtain ⟨blanks, blank, reads⟩ := spells.reads
  refine ⟨spells.starts, fun fuel rest enough => ?_⟩
  obtain ⟨fuel, rfl⟩ : ∃ k, fuel = k + 1 := ⟨fuel - 1, by omega⟩
  rw [readItems, reads fuel _ (endsCons (by decide) _) (by omega)]
  simp only [Option.bind_eq_bind, Option.bind_some, skipBlank blank, skipNone (c := ']') rfl]

theorem Spells.item (spells : Spells cs w) (later : SpellsItems more ws) :
    SpellsItems (cs ++ ',' :: more) (w :: ws) := by
  obtain ⟨blanks, blank, reads⟩ := spells.reads
  obtain ⟨c, front, opened, noEnd⟩ := spells.starts
  refine ⟨⟨c, _, skipAppend opened _, noEnd⟩, fun fuel rest enough => ?_⟩
  simp only [List.length_append, List.length_cons] at enough
  obtain ⟨fuel, rfl⟩ : ∃ k, fuel = k + 1 := ⟨fuel - 1, by omega⟩
  rw [List.append_assoc, List.cons_append, readItems,
    reads fuel _ (endsCons (by decide) _) (by omega)]
  simp only [Option.bind_eq_bind, Option.bind_some, skipBlank blank, skipNone (c := ',') rfl,
    later.reads fuel rest (by omega)]

theorem spellsEmptyArray : Spells ['[', ']'] (.array []) :=
  spellsExactly rfl (by decide) fun _ _ _ _ => rfl

theorem SpellsItems.array (items : SpellsItems cs ws) :
    Spells ('[' :: (cs ++ [']'])) (.array ws) := by
  obtain ⟨c, front, opened, noEnd⟩ := items.starts
  refine spellsExactly rfl (by decide) fun fuel rest _ enough => ?_
  simp only [List.length_append, List.length_cons, List.length_nil] at enough
  have read := items.reads fuel rest (by omega)
  rw [readItemsSkips fuel (skipTwice _).symm] at read
  rw [readValue, List.cons_append, skipNone rfl, List.append_assoc]
  simp only [List.cons_append, List.nil_append]
  split
  · rename_i closed
    rw [skipAppend opened] at closed
    exact absurd (List.cons.inj closed).1 noEnd
  · rw [read]
    rfl

structure SpellsMembers (cs : List Char) (ms : List (List Nat × Wire)) : Prop where
  starts : ∃ more, cs = '"' :: more
  reads : ∀ fuel rest, 2 * cs.length + 1 ≤ fuel →
    readMembers fuel (cs ++ '}' :: rest) = some (ms, rest)

variable {ms : List (List Nat × Wire)}

theorem Spells.readMember (spells : Spells cs w) (key : String) {fuel : Nat}
    (enough : 2 * cs.length ≤ fuel) (rest : List Char) :
    readMembers (fuel + 1) (Json.writeText key ++ ':' :: (cs ++ '}' :: rest)) =
      some ([(units key, w)], rest) ∧
    readMembers (fuel + 1) (Json.writeText key ++ ':' :: (cs ++ ',' :: rest)) =
      (readMembers fuel rest).map fun read => ((units key, w) :: read.1, read.2) := by
  obtain ⟨blanks, blank, reads⟩ := spells.reads
  have opened (rest : List Char) : skipBlanks (Json.writeText key ++ ':' :: rest) =
      '"' :: (key.toList.flatMap Json.escape ++ '"' :: ':' :: rest) := by
    unfold Json.writeText
    simp only [List.append_assoc, List.cons_append, List.nil_append]
    exact skipNone rfl _
  constructor
  · rw [readMembers, opened]
    simp only [readWritten, Option.bind_eq_bind, Option.bind_some, skipNone (c := ':') rfl,
      reads fuel _ (endsCons (c := '}') (by decide) rest) enough, skipBlank blank,
      skipNone (c := '}') rfl]
  · rw [readMembers, opened]
    simp only [readWritten, Option.bind_eq_bind, Option.bind_some, skipNone (c := ':') rfl,
      reads fuel _ (endsCons (c := ',') (by decide) rest) enough, skipBlank blank,
      skipNone (c := ',') rfl]
    cases readMembers fuel rest <;> rfl

theorem Spells.lastMember (spells : Spells cs w) (key : String) :
    SpellsMembers (Json.writeText key ++ ':' :: cs) [(units key, w)] := by
  refine ⟨⟨_, rfl⟩, fun fuel rest enough => ?_⟩
  simp only [List.length_append, List.length_cons] at enough
  obtain ⟨fuel, rfl⟩ : ∃ k, fuel = k + 1 := ⟨fuel - 1, by omega⟩
  rw [List.append_assoc, List.cons_append]
  exact (spells.readMember key (by omega) rest).1

theorem Spells.member (spells : Spells cs w) (key : String) (later : SpellsMembers more ms) :
    SpellsMembers (Json.writeText key ++ ':' :: (cs ++ ',' :: more)) ((units key, w) :: ms) := by
  refine ⟨⟨_, rfl⟩, fun fuel rest enough => ?_⟩
  simp only [List.length_append, List.length_cons] at enough
  obtain ⟨fuel, rfl⟩ : ∃ k, fuel = k + 1 := ⟨fuel - 1, by omega⟩
  rw [List.append_assoc, List.cons_append, List.append_assoc, List.cons_append,
    (spells.readMember key (by omega) _).2, later.reads fuel rest (by omega), Option.map_some]

theorem spellsEmptyObject : Spells ['{', '}'] (.object []) :=
  spellsExactly rfl (by decide) fun _ _ _ _ => rfl

theorem SpellsMembers.object (members : SpellsMembers cs ms) :
    Spells ('{' :: (cs ++ ['}'])) (.object ms) := by
  obtain ⟨more, rfl⟩ := members.starts
  refine spellsExactly rfl (by decide) fun fuel rest _ enough => ?_
  simp only [List.length_append, List.length_cons, List.length_nil] at enough
  have read := members.reads fuel rest (by simp only [List.length_cons]; omega)
  rw [readValue, List.cons_append, skipNone rfl]
  simp only [List.append_assoc, List.cons_append, List.nil_append] at read ⊢
  rw [skipNone rfl]
  split
  · rename_i closed
    exact absurd (List.cons.inj closed).1 (by decide)
  · rw [read]
    rfl

end Wire

def Double.ReadsBack (d : Double) : Prop := Json.ofString? (Json.double d).render = some (.double d)

namespace Json

def isDouble (d : Double) : Json → Bool
  | .double e => decide (e = d)
  | _ => false

theorem isDoubleIff {d : Double} {v : Json} : v.isDouble d = true ↔ v = .double d := by
  cases v <;> simp [isDouble]

instance (d : Double) : Decidable d.ReadsBack :=
  decidable_of_iff ((ofString? (double d).render).any (isDouble d) = true) <| by
    simp only [Double.ReadsBack, Option.any_eq_true, isDoubleIff, exists_eq_right]

mutual

def doubles : Json → List Double
  | .double d => [d]
  | .array items => doublesOfItems items
  | .object members => doublesOfMembers members
  | _ => []

def doublesOfItems : List Json → List Double
  | [] => []
  | v :: rest => doubles v ++ doublesOfItems rest

def doublesOfMembers : List (String × Json) → List Double
  | [] => []
  | (_, v) :: rest => doubles v ++ doublesOfMembers rest

end

/-- A value that some text denotes: whole numbers of 64 bits, members in the order of their keys,
and not too deep. -/
inductive Fits : Nat → Json → Prop where
  | null {depth} : Fits depth .null
  | bool {depth} (b : Bool) : Fits depth (.bool b)
  | int {depth} {n : Int} (least : -(word64 : Int) ≤ 2 * n) (most : n < word64) :
      Fits depth (.int n)
  | double {depth} (d : Double) : Fits depth (.double d)
  | text {depth} (s : String) : Fits depth (.text s)
  | array {depth items} (each : ∀ v ∈ items, Fits depth v) : Fits (depth + 1) (.array items)
  | object {depth members} (sorted : (⟨members⟩ : Dict String Json).Sorted)
      (each : ∀ m ∈ members, Fits depth m.2) : Fits (depth + 1) (.object members)

theorem numberFits {n : NumberText} {v : Json} (denoted : n.value? = some v) (depth : Nat) :
    Fits depth v := by
  have double {units : Option Nat}
      (denoted : (units.map fun u => Json.double ⟨n.negative, u⟩) = some v) : Fits depth v := by
    obtain ⟨u, _, rfl⟩ := Option.map_eq_some_iff.mp denoted
    exact .double _
  unfold NumberText.value? at denoted
  dsimp only at denoted
  split at denoted
  · split at denoted
    · split at denoted
      · rename_i range
        cases denoted
        exact .int (by omega) (by omega)
      · exact double denoted
    · split at denoted
      · rename_i small
        cases denoted
        exact .int (by omega) (by omega)
      · exact double denoted
  · exact double denoted

mutual

theorem valueFits {depth : Nat} {w : Wire} {v : Json} (denoted : w.value? depth = some v) :
    Fits depth v := by
  cases w with
  | null => cases denoted; exact .null
  | bool b => cases denoted; exact .bool b
  | number n => exact numberFits denoted depth
  | text us =>
    obtain ⟨s, _, rfl⟩ := Option.map_eq_some_iff.mp denoted
    exact .text s
  | array ws =>
    cases depth with
    | zero => cases denoted
    | succ depth =>
      obtain ⟨vs, items, rfl⟩ := Option.map_eq_some_iff.mp denoted
      exact .array (itemsFit items)
  | object ms =>
    cases depth with
    | zero => cases denoted
    | succ depth =>
      obtain ⟨entries, members, rfl⟩ := Option.map_eq_some_iff.mp denoted
      have each := membersFit members
      exact .object (Dict.sortedOfList entries) fun m member => each m (Dict.memOfList member)

theorem itemsFit {depth : Nat} {ws : List Wire} {vs : List Json}
    (denoted : Wire.items? depth ws = some vs) : ∀ v ∈ vs, Fits depth v := by
  cases ws with
  | nil => cases denoted; exact List.forall_mem_nil _
  | cons w ws =>
    simp only [Wire.items?, Option.bind_eq_bind, Option.bind_eq_some_iff] at denoted
    obtain ⟨v, first, vs, later, same⟩ := denoted
    cases same
    exact List.forall_mem_cons.mpr ⟨valueFits first, itemsFit later⟩

theorem membersFit {depth : Nat} {ms : List (List Nat × Wire)} {entries : List (String × Json)}
    (denoted : Wire.members? depth ms = some entries) : ∀ m ∈ entries, Fits depth m.2 := by
  cases ms with
  | nil => cases denoted; exact List.forall_mem_nil _
  | cons m ms =>
    obtain ⟨k, w⟩ := m
    simp only [Wire.members?, Option.bind_eq_bind, Option.bind_eq_some_iff] at denoted
    obtain ⟨key, _, v, first, entries, later, same⟩ := denoted
    cases same
    exact List.forall_mem_cons.mpr ⟨valueFits first, membersFit later⟩

end

theorem intDenoted {n : Int} (least : -(word64 : Int) ≤ 2 * n) (most : n < word64) :
    (Wire.numberOf n).value? = some (.int n) := by
  unfold NumberText.value? Wire.numberOf
  simp only [Wire.digitsSpelled, decide_eq_true_eq]
  by_cases negative : n < 0
  · rw [if_pos negative, if_pos (by omega), Int.ofNat_natAbs_of_nonpos negative.le, neg_neg]
  · rw [if_neg negative, if_pos (by omega), Int.natAbs_of_nonneg (not_lt.mp negative)]

theorem doubleSpelled {d : Double} (back : d.ReadsBack) (depth : Nat) :
    ∃ w, Wire.Spells d.write w ∧ w.value? depth = some (.double d) := by
  unfold Double.ReadsBack ofString? at back
  obtain ⟨w, read, denoted⟩ := Option.bind_eq_some_iff.mp back
  -- Only the text of a number denotes a number.
  cases w with
  | number n =>
    rw [Wire.ofString?, render, String.toList_ofList, write, Wire.ofChars?] at read
    obtain ⟨⟨w, rest⟩, found, whole⟩ := Option.bind_eq_some_iff.mp read
    dsimp only at whole
    split at whole
    · rename_i blank
      cases whole
      exact ⟨_, Wire.spellsNumber (Wire.numberRead found) blank, denoted⟩
    · cases whole
  | null => cases denoted
  | bool b => cases denoted
  | text us =>
    obtain ⟨s, _, same⟩ := Option.map_eq_some_iff.mp denoted
    cases same
  | array ws =>
    obtain ⟨vs, _, same⟩ := Option.map_eq_some_iff.mp denoted
    cases same
  | object ms =>
    obtain ⟨entries, _, same⟩ := Option.map_eq_some_iff.mp denoted
    cases same

mutual

theorem valueSpelled {depth : Nat} {v : Json} (fits : Fits depth v)
    (back : ∀ d ∈ v.doubles, d.ReadsBack) :
    ∃ w, Wire.Spells (write v) w ∧ w.value? depth = some v := by
  cases v with
  | null => exact ⟨_, Wire.spellsNull, rfl⟩
  | bool b =>
    cases b
    · exact ⟨_, Wire.spellsFalse, rfl⟩
    · exact ⟨_, Wire.spellsTrue, rfl⟩
  | int n =>
    cases fits with
    | int least most => exact ⟨_, Wire.spellsInt n, intDenoted least most⟩
  | double d => exact doubleSpelled (back d List.mem_cons_self) depth
  | text s =>
    refine ⟨_, Wire.spellsText s, ?_⟩
    rw [Wire.value?, Wire.stringUnits]
    rfl
  | array items =>
    cases fits with
    | @array depth _ each =>
      cases items with
      | nil => exact ⟨_, Wire.spellsEmptyArray, rfl⟩
      | cons v vs =>
        obtain ⟨ws, spells, denoted⟩ := itemsSpelled (List.cons_ne_nil v vs) each back
        refine ⟨_, spells.array, ?_⟩
        rw [Wire.value?, denoted]
        rfl
  | object members =>
    cases fits with
    | @object depth _ sorted each =>
      cases members with
      | nil => exact ⟨_, Wire.spellsEmptyObject, rfl⟩
      | cons m ms =>
        obtain ⟨ws, spells, denoted⟩ := membersSpelled (List.cons_ne_nil m ms) each back
        refine ⟨_, spells.object, ?_⟩
        rw [Wire.value?, denoted, Option.map_some, Dict.ofListSorted sorted]
        rfl

theorem itemsSpelled {depth : Nat} {vs : List Json} (filled : vs ≠ [])
    (each : ∀ v ∈ vs, Fits depth v) (back : ∀ d ∈ doublesOfItems vs, d.ReadsBack) :
    ∃ ws, Wire.SpellsItems (writeItems vs) ws ∧ Wire.items? depth ws = some vs := by
  cases vs with
  | nil => exact absurd rfl filled
  | cons v vs =>
    obtain ⟨own, others⟩ := List.forall_mem_cons.mp each
    obtain ⟨back, backLater⟩ := List.forall_mem_append.mp back
    obtain ⟨w, spells, denoted⟩ := valueSpelled own back
    cases vs with
    | nil =>
      refine ⟨[w], spells.lastItem, ?_⟩
      simp only [Wire.items?, denoted, Option.bind_eq_bind, Option.bind_some]
    | cons v' rest =>
      obtain ⟨ws, later, found⟩ := itemsSpelled (List.cons_ne_nil v' rest) others backLater
      refine ⟨w :: ws, spells.item later, ?_⟩
      simp only [Wire.items?, denoted, found, Option.bind_eq_bind, Option.bind_some]

theorem membersSpelled {depth : Nat} {ms : List (String × Json)} (filled : ms ≠ [])
    (each : ∀ m ∈ ms, Fits depth m.2) (back : ∀ d ∈ doublesOfMembers ms, d.ReadsBack) :
    ∃ ws, Wire.SpellsMembers (writeMembers ms) ws ∧ Wire.members? depth ws = some ms := by
  cases ms with
  | nil => exact absurd rfl filled
  | cons m ms =>
    obtain ⟨key, v⟩ := m
    obtain ⟨own, others⟩ := List.forall_mem_cons.mp each
    obtain ⟨back, backLater⟩ := List.forall_mem_append.mp back
    obtain ⟨w, spells, denoted⟩ := valueSpelled own back
    cases ms with
    | nil =>
      refine ⟨_, spells.lastMember key, ?_⟩
      simp only [Wire.members?, Wire.stringUnits, denoted, Option.bind_eq_bind, Option.bind_some]
    | cons m' rest =>
      obtain ⟨ws, later, found⟩ := membersSpelled (List.cons_ne_nil m' rest) others backLater
      have text : writeMembers ((key, v) :: m' :: rest) =
          writeText key ++ ':' :: (write v ++ ',' :: writeMembers (m' :: rest)) := by
        rw [writeMembers, List.append_assoc]
        rfl
      refine ⟨_, text ▸ spells.member key later, ?_⟩
      simp only [Wire.members?, Wire.stringUnits, denoted, found, Option.bind_eq_bind,
        Option.bind_some]

end

theorem readsBack {v : Json} (fits : Fits depthLimit v) (back : ∀ d ∈ v.doubles, d.ReadsBack) :
    ofString? v.render = some v := by
  obtain ⟨w, spells, denoted⟩ := valueSpelled fits back
  obtain ⟨blanks, blank, reads⟩ := spells.reads
  have read := reads (2 * (write v).length + 2) [] Wire.endsNil (by omega)
  rw [List.append_nil, List.append_nil] at read
  have skipped : Wire.skipBlanks blanks = [] := List.dropWhile_eq_nil_iff.mpr blank
  have whole : Wire.ofString? v.render = some w := by
    rw [Wire.ofString?, render, String.toList_ofList, Wire.ofChars?, read]
    exact if_pos skipped
  rw [ofString?, whole]
  exact denoted

-- Reading rounds in stages, so `259.560794e34` denotes a number that its own text does not.
example : (Double.read? [2, 5, 9] [5, 6, 0, 7, 9, 4] 34).map
    (fun units => decide (Double.ReadsBack ⟨false, units⟩)) = some false := by decide +kernel

end Json
end RevForest
