import Mathlib.Data.List.Forall2
import RevForest.Proofs.Json.RoundTrip
import RevForest.Text.Hex

/-! Texts that differ in the case of hexadecimal letters. Where both are JSON, they spell values of
one shape with the same numbers, and the texts in these differ in the case of such letters
too. One of them may be no JSON: of `\b` and `\B` only the first is an escape. -/
namespace RevForest

namespace Hex

def letters : List (Char × Char) :=
  [('a', 'A'), ('b', 'B'), ('c', 'C'), ('d', 'D'), ('e', 'E'), ('f', 'F')]

def SameDigit (c d : Char) : Prop := c = d ∨ (c, d) ∈ letters ∨ (d, c) ∈ letters

instance (c d : Char) : Decidable (SameDigit c d) := inferInstanceAs (Decidable (_ ∨ _ ∨ _))

namespace SameDigit
variable {c d : Char}

theorem refl (c : Char) : SameDigit c c := .inl rfl

theorem agree {α : Type} (same : SameDigit c d) (f : Char → α)
    (agrees : ∀ p ∈ letters, f p.1 = f p.2) : f c = f d := by
  rcases same with rfl | lower | upper
  · rfl
  · exact agrees _ lower
  · exact (agrees _ upper).symm

theorem iff (same : SameDigit c d) {x : Char} (other : ∀ p ∈ letters, p.1 ≠ x ∧ p.2 ≠ x) :
    c = x ↔ d = x := by
  have agrees := same.agree (fun c => decide (c = x)) fun p member => by
    rw [decide_eq_false (other p member).1, decide_eq_false (other p member).2]
  exact decide_eq_decide.mp agrees

theorem isDigit (same : SameDigit c d) : Digits.isDigit c = Digits.isDigit d :=
  same.agree _ (by decide)

theorem digitFixed (same : SameDigit c d) (digit : Digits.isDigit c = true) : d = c := by
  have none : ∀ p ∈ letters, Digits.isDigit p.1 = false ∧ Digits.isDigit p.2 = false := by decide
  refine (same.iff fun p member => ⟨?_, ?_⟩).mp rfl
  · rintro rfl
    exact Bool.false_ne_true ((none p member).1.symm.trans digit)
  · rintro rfl
    exact Bool.false_ne_true ((none p member).2.symm.trans digit)

theorem isBlank (same : SameDigit c d) : Wire.isBlank c = Wire.isBlank d :=
  same.agree _ (by decide)

theorem hexValue (same : SameDigit c d) : Wire.hexValue? c = Wire.hexValue? d :=
  same.agree _ (by decide)

theorem low (same : SameDigit c d) : decide (c.toNat < 0x20) = decide (d.toNat < 0x20) :=
  same.agree (fun c => decide (c.toNat < 0x20)) (by decide)

end SameDigit

abbrev Recased : List Char → List Char → Prop := List.Forall₂ SameDigit

end Hex

namespace Wire
open Hex

variable {α γ : Type} {cs ds : List Char}

theorem relBind {α β γ δ : Type} {R : α → β → Prop} {S : γ → δ → Prop} {x : Option α} {y : Option β}
    {f : α → Option γ} {g : β → Option δ} (rel : Option.Rel R x y)
    (later : ∀ a b, R a b → Option.Rel S (f a) (g b)) : Option.Rel S (x.bind f) (y.bind g) := by
  cases rel with
  | none => exact .none
  | some related => exact later _ _ related

def Lockstep (R : α → α → Prop) (first second : Option (α × List Char)) : Prop :=
  ∀ x ∈ first, ∀ y ∈ second, R x.1 y.1 ∧ Recased x.2 y.2

theorem Lockstep.bind {R : α → α → Prop} {S : γ → γ → Prop} {first second : Option (α × List Char)}
    {f g : α × List Char → Option (γ × List Char)} (step : Lockstep R first second)
    (later : ∀ a b cs ds, R a b → Recased cs ds → Lockstep S (f (a, cs)) (g (b, ds))) :
    Lockstep S (first.bind f) (second.bind g) := by
  intro x here y there
  obtain ⟨⟨a, cs⟩, left, here⟩ := Option.bind_eq_some_iff.mp here
  obtain ⟨⟨b, ds⟩, right, there⟩ := Option.bind_eq_some_iff.mp there
  obtain ⟨related, rest⟩ := step _ left _ right
  exact later a b cs ds related rest x here y there

theorem Lockstep.done {R : α → α → Prop} {a b : α} (related : R a b) (rest : Recased cs ds) :
    Lockstep R (some (a, cs)) (some (b, ds)) := by
  rintro _ ⟨⟩ _ ⟨⟩
  exact ⟨related, rest⟩

theorem Lockstep.failed {R : α → α → Prop} (second : Option (α × List Char)) :
    Lockstep R none second := nofun

theorem Lockstep.stuck {R : α → α → Prop} (first : Option (α × List Char)) :
    Lockstep R first none := fun _ _ => nofun

theorem skipBlanksRecased (recased : Recased cs ds) : Recased (skipBlanks cs) (skipBlanks ds) := by
  unfold skipBlanks
  induction recased with
  | nil => exact .nil
  | @cons c d cs ds same rest ih =>
    rw [List.dropWhile_cons, List.dropWhile_cons, ← same.isBlank]
    split
    · exact ih
    · exact .cons same rest

theorem recasedHead (recased : Recased cs ds) {x : Char}
    (other : ∀ p ∈ letters, p.1 ≠ x ∧ p.2 ≠ x) :
    (∃ rest rest', cs = x :: rest ∧ ds = x :: rest' ∧ Recased rest rest') ∨
      (∀ rest, cs ≠ x :: rest) ∧ ∀ rest, ds ≠ x :: rest := by
  cases recased with
  | nil => exact .inr ⟨fun _ => nofun, fun _ => nofun⟩
  | @cons c d cs ds same rest =>
    by_cases here : c = x
    · obtain rfl := (same.iff (here ▸ other)).mp rfl
      exact .inl ⟨cs, ds, by rw [here], by rw [here], rest⟩
    · refine .inr ⟨fun _ there => here (List.cons.inj there).1, fun _ there => here ?_⟩
      exact (same.iff other).mpr (List.cons.inj there).1

theorem leadingRecased (recased : Recased cs ds) :
    (Digits.leading cs).1 = (Digits.leading ds).1 ∧
      Recased (Digits.leading cs).2 (Digits.leading ds).2 := by
  induction recased with
  | nil => exact ⟨rfl, .nil⟩
  | @cons c d cs ds same rest ih =>
    unfold Digits.leading
    rw [← same.isDigit]
    split
    · rename_i digit
      obtain rfl := same.digitFixed digit
      exact ⟨congrArg (Digits.value d :: ·) ih.1, ih.2⟩
    · exact ⟨rfl, .cons same rest⟩

theorem readDigitsRecased (recased : Recased cs ds) :
    Lockstep Eq (readDigits cs) (readDigits ds) := by
  obtain ⟨same, rest⟩ := leadingRecased recased
  unfold readDigits
  generalize Digits.leading cs = left at same rest
  generalize Digits.leading ds = right at same rest
  obtain ⟨ns, cs⟩ := left
  obtain ⟨ms, ds⟩ := right
  obtain rfl : ns = ms := same
  cases ns with
  | nil => exact .failed _
  | cons n ns => exact .done rfl rest

theorem readWholePlain {c : Char} (noZero : c ≠ '0') (cs : List Char) :
    readWhole (c :: cs) = readDigits (c :: cs) := by
  unfold readWhole
  split
  · rename_i same
    exact absurd (List.cons.inj same).1 noZero
  · rfl

theorem readWholeRecased (recased : Recased cs ds) : Lockstep Eq (readWhole cs) (readWhole ds) := by
  cases recased with
  | nil => exact .failed _
  | @cons c d cs ds same rest =>
    by_cases zero : c = '0'
    · obtain rfl := (same.iff (by decide)).mp zero
      subst zero
      exact .done rfl rest
    · rw [readWholePlain zero, readWholePlain fun other => zero ((same.iff (by decide)).mpr other)]
      exact readDigitsRecased (.cons same rest)

theorem readFractionPlain {c : Char} (noPoint : c ≠ '.') (cs : List Char) :
    readFraction (c :: cs) = some (none, c :: cs) := by
  unfold readFraction
  split
  · rename_i same
    exact absurd (List.cons.inj same).1 noPoint
  · rfl

theorem readFractionRecased (recased : Recased cs ds) :
    Lockstep Eq (readFraction cs) (readFraction ds) := by
  cases recased with
  | nil => exact .done rfl .nil
  | @cons c d cs ds same rest =>
    by_cases point : c = '.'
    · obtain rfl := (same.iff (by decide)).mp point
      subst point
      refine (readDigitsRecased rest).bind ?_
      rintro ns _ cs ds rfl rest
      exact .done rfl rest
    · rw [readFractionPlain point,
        readFractionPlain fun other => point ((same.iff (by decide)).mpr other)]
      exact .done rfl (.cons same rest)

theorem readSignPlain {c : Char} (noPlus : c ≠ '+') (noMinus : c ≠ '-') (cs : List Char) :
    readSign (c :: cs) = (false, c :: cs) := by
  unfold readSign
  split
  · rename_i same
    exact absurd (List.cons.inj same).1 noPlus
  · rename_i same
    exact absurd (List.cons.inj same).1 noMinus
  · rfl

theorem readSignRecased (recased : Recased cs ds) :
    (readSign cs).1 = (readSign ds).1 ∧ Recased (readSign cs).2 (readSign ds).2 := by
  cases recased with
  | nil => exact ⟨rfl, .nil⟩
  | @cons c d cs ds same rest =>
    by_cases plus : c = '+'
    · obtain rfl := (same.iff (by decide)).mp plus
      subst plus
      exact ⟨rfl, rest⟩
    by_cases minus : c = '-'
    · obtain rfl := (same.iff (by decide)).mp minus
      subst minus
      exact ⟨rfl, rest⟩
    rw [readSignPlain plus minus,
      readSignPlain (fun other => plus ((same.iff (by decide)).mpr other))
        fun other => minus ((same.iff (by decide)).mpr other)]
    exact ⟨rfl, .cons same rest⟩

theorem readExponentRecased (recased : Recased cs ds) :
    Lockstep Eq (readExponent cs) (readExponent ds) := by
  cases recased with
  | nil => exact .done rfl .nil
  | @cons c d cs ds same rest =>
    have mark : (c = 'e' ∨ c = 'E') ↔ (d = 'e' ∨ d = 'E') :=
      decide_eq_decide.mp (same.agree (fun c => decide (c = 'e' ∨ c = 'E')) (by decide))
    rw [readExponent, readExponent]
    by_cases here : c = 'e' ∨ c = 'E'
    · rw [if_pos here, if_pos (mark.mp here)]
      obtain ⟨sign, rest⟩ := readSignRecased rest
      generalize readSign cs = left at sign rest
      generalize readSign ds = right at sign rest
      obtain ⟨negative, cs⟩ := left
      obtain ⟨_, ds⟩ := right
      obtain rfl := sign
      refine (readDigitsRecased rest).bind ?_
      rintro ns _ cs ds rfl rest
      exact .done rfl rest
    · rw [if_neg here, if_neg fun there => here (mark.mpr there)]
      exact .done rfl (.cons same rest)

theorem readMagnitudeRecased (recased : Recased cs ds) (negative : Bool) :
    Lockstep Eq (readMagnitude negative cs) (readMagnitude negative ds) := by
  refine (readWholeRecased recased).bind ?_
  rintro whole _ cs ds rfl rest
  refine (readFractionRecased rest).bind ?_
  rintro fraction _ cs ds rfl rest
  refine (readExponentRecased rest).bind ?_
  rintro exponent _ cs ds rfl rest
  exact .done rfl rest

theorem readNumberRecased (recased : Recased cs ds) :
    Lockstep Eq (readNumber cs) (readNumber ds) := by
  cases recased with
  | nil => exact .failed _
  | @cons c d cs ds same rest =>
    by_cases minus : c = '-'
    · obtain rfl := (same.iff (by decide)).mp minus
      subst minus
      exact readMagnitudeRecased rest true
    · have other : d ≠ '-' := fun there => minus ((same.iff (by decide)).mpr there)
      rw [readNumberPlain fun later there => minus (List.cons.inj there).1,
        readNumberPlain fun later there => other (List.cons.inj there).1]
      exact readMagnitudeRecased (.cons same rest) false

inductive SameUnit : Nat → Nat → Prop where
  | equal (u : Nat) : SameUnit u u
  | letter {c d : Char} (same : SameDigit c d) : SameUnit c.toNat d.toNat

theorem hexUnitRecased {a b c d a' b' c' d' : Char} (first : SameDigit a a')
    (second : SameDigit b b') (third : SameDigit c c') (fourth : SameDigit d d') :
    hexUnit? a b c d = hexUnit? a' b' c' d' := by
  unfold hexUnit?
  rw [first.hexValue, second.hexValue, third.hexValue, fourth.hexValue]

theorem unitRead {u v : Nat} {first second : Option (List Nat × List Char)} (same : SameUnit u v)
    (step : Lockstep (List.Forall₂ SameUnit) first second) :
    Lockstep (List.Forall₂ SameUnit) (first.map fun read => (u :: read.1, read.2))
      (second.map fun read => (v :: read.1, read.2)) := by
  rw [Option.map_eq_bind, Option.map_eq_bind]
  exact step.bind fun us vs cs ds units rest => .done (.cons same units) rest

theorem escapeRecased {c d : Char} (same : SameDigit c d) (escape : (unescape? c).isSome)
    (escape' : (unescape? d).isSome) : d = c := by
  rcases same with rfl | lower | upper
  · rfl
  · have none : ∀ p ∈ letters, (unescape? p.2).isSome = false := by decide
    exact absurd escape' (by rw [none _ lower]; decide)
  · have none : ∀ p ∈ letters, (unescape? p.2).isSome = false := by decide
    exact absurd escape (by rw [none _ upper]; decide)

theorem readUnit (a b c d : Char) (rest : List Char) :
    readText ('\\' :: 'u' :: a :: b :: c :: d :: rest) =
      (hexUnit? a b c d).bind fun u => (readText rest).map fun read => (u :: read.1, read.2) := by
  rw [readText]
  cases hexUnit? a b c d with
  | none => rfl
  | some u => cases readText rest <;> rfl

theorem readNoEscape {e : Char} (means : unescape? e = none)
    (noUnit : ∀ a b c d rest, e = 'u' → cs = a :: b :: c :: d :: rest → False) :
    readText ('\\' :: e :: cs) = none := by
  rw [readText.eq_def]
  split
  · rename_i empty
    cases empty
  · rename_i quote
    exact absurd (List.cons.inj quote).1 (by decide)
  · rename_i same
    cases same
    exact (noUnit _ _ _ _ _ rfl rfl).elim
  · rename_i same
    cases same
    rw [means]
    rfl
  · rename_i no same
    cases same
    exact (no e cs rfl rfl).elim

theorem readLow {c : Char} (low : c.toNat < 0x20) (cs : List Char) : readText (c :: cs) = none := by
  have noQuote : c ≠ '"' := by
    rintro rfl
    exact absurd low (by decide)
  have noSlash : c ≠ '\\' := by
    rintro rfl
    exact absurd low (by decide)
  rw [readText.eq_def]
  split
  · rename_i empty
    cases empty
  · rename_i quote
    exact absurd (List.cons.inj quote).1 noQuote
  · rename_i slash
    exact absurd (List.cons.inj slash).1 noSlash
  · rename_i slash
    exact absurd (List.cons.inj slash).1 noSlash
  · rename_i same
    cases same
    exact if_pos low

theorem readTextRecased (recased : Recased cs ds) :
    Lockstep (List.Forall₂ SameUnit) (readText cs) (readText ds) := by
  induction cs using readText.induct generalizing ds with
  | case1 => exact .failed _
  | case2 cs =>
    obtain _ | ⟨same, rest⟩ := recased
    obtain rfl := (same.iff (by decide)).mp rfl
    exact .done .nil rest
  | case3 a b c d cs ih =>
    obtain _ | ⟨slash, _ | ⟨letter, _ | ⟨first, _ | ⟨second, _ | ⟨third, _ | ⟨fourth, rest⟩⟩⟩⟩⟩⟩ :=
      recased
    obtain rfl := (slash.iff (by decide)).mp rfl
    obtain rfl := (letter.iff (by decide)).mp rfl
    rw [readUnit, readUnit, ← hexUnitRecased first second third fourth]
    cases hexUnit? a b c d with
    | none => exact .failed _
    | some u => exact unitRead (.equal u) (ih rest)
  | case4 e cs noUnit ih =>
    obtain _ | ⟨slash, _ | @⟨_, e', _, ds, same, rest⟩⟩ := recased
    obtain rfl := (slash.iff (by decide)).mp rfl
    cases means : unescape? e with
    | none =>
      rw [readNoEscape means noUnit]
      exact .failed _
    | some u =>
      have other : e ≠ 'u' := by
        rintro rfl
        cases means
      cases means' : unescape? e' with
      | none =>
        have plain : e' ≠ 'u' := fun there => other ((same.iff (by decide)).mpr there)
        rw [readNoEscape means' fun _ _ _ _ _ there _ => plain there]
        exact .stuck _
      | some u' =>
        obtain rfl := escapeRecased same (by rw [means]; rfl) (by rw [means']; rfl)
        rw [readShort means other, readShort means other]
        exact unitRead (.equal u) (ih rest)
  | case5 c cs noQuote noUnit noSlash low =>
    rw [readLow low]
    exact .failed _
  | case6 c cs noQuote noUnit noSlash high ih =>
    obtain _ | @⟨_, d, _, ds, same, rest⟩ := recased
    by_cases slash : c = '\\'
    · -- A backslash is the last character here, so the text does not end.
      subst slash
      cases cs with
      | nil => exact .failed _
      | cons e cs => exact (noSlash e cs rfl rfl).elim
    · have noSlash' : d ≠ '\\' := fun there => slash ((same.iff (by decide)).mpr there)
      have noQuote' : d ≠ '"' := fun there => noQuote ((same.iff (by decide)).mpr there)
      have high' : ¬ d.toNat < 0x20 := fun low => high ((decide_eq_decide.mp same.low).mpr low)
      rw [readPlain noQuote slash high, readPlain noQuote' noSlash' high']
      exact unitRead (.letter same) (ih rest)

theorem SameUnit.character {u v : Nat} (same : SameUnit u v) :
    SameDigit (Char.ofNat u) (Char.ofNat v) := by
  cases same with
  | equal => exact .refl _
  | letter same => rwa [Char.ofNat_toNat, Char.ofNat_toNat]

theorem SameUnit.surrogate {u v : Nat} (same : SameUnit u v) (high : 0xD800 ≤ u ∨ 0xD800 ≤ v) :
    v = u := by
  have low : ∀ p ∈ letters, p.1.toNat < 0xD800 ∧ p.2.toNat < 0xD800 := by decide
  rcases same with _ | @⟨c, d, rfl | lower | upper⟩
  · rfl
  · rfl
  · have small : c.toNat < 0xD800 ∧ d.toNat < 0xD800 := low _ lower
    omega
  · have small : d.toNat < 0xD800 ∧ c.toNat < 0xD800 := low _ upper
    omega

theorem charactersPlain {u : Nat} (plain : ¬ (0xD800 ≤ u ∧ u < 0xDC00)) (us : List Nat) :
    characters? (u :: us) =
      if 0xDC00 ≤ u ∧ u < 0xE000 then none else (characters? us).map (Char.ofNat u :: ·) := by
  cases us with
  | nil => exact if_neg plain
  | cons v vs => exact if_neg plain

theorem charactersRecased {us vs : List Nat} (units : List.Forall₂ SameUnit us vs) :
    Option.Rel Recased (characters? us) (characters? vs) := by
  induction us using characters?.induct generalizing vs with
  | case1 =>
    cases units
    exact .some .nil
  | case2 u high u' us low ih =>
    obtain _ | ⟨first, _ | ⟨second, later⟩⟩ := units
    obtain rfl := first.surrogate (.inl high.1)
    obtain rfl := second.surrogate (.inl (by omega))
    rw [characters?, if_pos high, characters?, if_pos high, if_pos low, if_pos low,
      Option.map_eq_bind, Option.map_eq_bind]
    exact relBind (ih later) fun cs ds recased => .some (.cons (.refl _) recased)
  | case3 u high u' us alone =>
    obtain _ | ⟨first, _ | @⟨_, v, _, vs, second, later⟩⟩ := units
    obtain rfl := first.surrogate (.inl high.1)
    have alone' : ¬ (0xDC00 ≤ v ∧ v < 0xE000) := fun low =>
      alone (second.surrogate (.inr (by omega)) ▸ low)
    rw [characters?, if_pos high, characters?, if_pos high, if_neg alone, if_neg alone']
    exact .none
  | case4 u high =>
    obtain _ | ⟨first, _ | _⟩ := units
    obtain rfl := first.surrogate (.inl high.1)
    rw [characters?, if_pos high]
    exact .none
  | case5 u us noHigh low =>
    obtain _ | ⟨first, later⟩ := units
    obtain rfl := first.surrogate (.inl (by omega))
    rw [charactersPlain noHigh, charactersPlain noHigh, if_pos low, if_pos low]
    exact .none
  | case6 u us noHigh noLow ih =>
    obtain _ | @⟨_, v, _, vs, first, later⟩ := units
    have noHigh' : ¬ (0xD800 ≤ v ∧ v < 0xDC00) := fun high =>
      noHigh (first.surrogate (.inr high.1) ▸ high)
    have noLow' : ¬ (0xDC00 ≤ v ∧ v < 0xE000) := fun low =>
      noLow (first.surrogate (.inr (by omega)) ▸ low)
    rw [charactersPlain noHigh, charactersPlain noHigh', if_neg noLow, if_neg noLow',
      Option.map_eq_bind, Option.map_eq_bind]
    exact relBind (ih later) fun cs ds recased => .some (.cons first.character recased)

theorem stringRecased {us vs : List Nat} (units : List.Forall₂ SameUnit us vs) :
    Option.Rel (fun s t => Recased s.toList t.toList) (string? us) (string? vs) := by
  rw [string?, string?, Option.map_eq_bind, Option.map_eq_bind]
  refine relBind (charactersRecased units) fun cs ds recased => .some ?_
  rwa [String.toList_ofList, String.toList_ofList]

inductive Alike : Wire → Wire → Prop where
  | same (w : Wire) : Alike w w
  | text {us vs : List Nat} (units : List.Forall₂ SameUnit us vs) : Alike (.text us) (.text vs)
  | array {vs ws : List Wire} (items : List.Forall₂ Alike vs ws) : Alike (.array vs) (.array ws)
  | object {ms ns : List (List Nat × Wire)}
      (keys : List.Forall₂ (List.Forall₂ SameUnit) (ms.map (·.1)) (ns.map (·.1)))
      (values : List.Forall₂ Alike (ms.map (·.2)) (ns.map (·.2))) :
      Alike (.object ms) (.object ns)

variable {more : List Char} {c : Char}

theorem readValueText (opened : skipBlanks cs = '"' :: more) (fuel : Nat) :
    readValue (fuel + 1) cs = (readText more).bind fun read => some (.text read.1, read.2) := by
  rw [readValue, opened]
  simp only [Option.bind_eq_bind]

theorem readValueArray (opened : skipBlanks cs = '[' :: more) (fuel : Nat) :
    (∀ rest, skipBlanks more = ']' :: rest → readValue (fuel + 1) cs = some (.array [], rest)) ∧
    ((∀ rest, skipBlanks more ≠ ']' :: rest) → readValue (fuel + 1) cs =
      (readItems fuel (skipBlanks more)).bind fun read => some (.array read.1, read.2)) := by
  rw [readValue, opened]
  refine ⟨fun rest empty => ?_, fun filled => ?_⟩
  · simp only [empty]
  · simp only [Option.bind_eq_bind]

theorem readValueObject (opened : skipBlanks cs = '{' :: more) (fuel : Nat) :
    (∀ rest, skipBlanks more = '}' :: rest → readValue (fuel + 1) cs = some (.object [], rest)) ∧
    ((∀ rest, skipBlanks more ≠ '}' :: rest) → readValue (fuel + 1) cs =
      (readMembers fuel (skipBlanks more)).bind fun read => some (.object read.1, read.2)) := by
  rw [readValue, opened]
  refine ⟨fun rest empty => ?_, fun filled => ?_⟩
  · simp only [empty]
  · simp only [Option.bind_eq_bind]

def words : List (List Char × Wire) :=
  [(['n', 'u', 'l', 'l'], .null), (['t', 'r', 'u', 'e'], .bool true),
    (['f', 'a', 'l', 's', 'e'], .bool false)]

theorem readValueWord (opened : skipBlanks cs = c :: more) (noText : c ≠ '"') (noArray : c ≠ '[')
    (noObject : c ≠ '{') (noNumber : ¬ (c = '-' ∨ Digits.isDigit c = true)) {fuel : Nat}
    {w : Wire} {rest : List Char} (read : readValue (fuel + 1) cs = some (w, rest)) :
    ∃ word, (word, w) ∈ words ∧ skipBlanks cs = word ++ rest := by
  rw [readValue] at read
  split at read
  · rename_i found
    cases read
    exact ⟨_, .head _, found⟩
  · rename_i found
    cases read
    exact ⟨_, .tail _ (.head _), found⟩
  · rename_i found
    cases read
    exact ⟨_, .tail _ (.tail _ (.head _)), found⟩
  · rename_i found
    exact absurd (List.cons.inj (opened.symm.trans found)).1 noText
  · rename_i found
    exact absurd (List.cons.inj (opened.symm.trans found)).1 noArray
  · rename_i found
    exact absurd (List.cons.inj (opened.symm.trans found)).1 noObject
  · obtain ⟨⟨n, later⟩, number, _⟩ := Option.bind_eq_some_iff.mp read
    obtain ⟨d, cs', same, starts⟩ := numberStarts number
    rw [opened] at same
    cases same
    exact absurd starts noNumber

structure AlikeMembers (ms ns : List (List Nat × Wire)) : Prop where
  keys : List.Forall₂ (List.Forall₂ SameUnit) (ms.map (·.1)) (ns.map (·.1))
  values : List.Forall₂ Alike (ms.map (·.2)) (ns.map (·.2))

theorem wordRecased {word word' : List Char} {w w' : Wire} {rest rest' : List Char}
    (known : (word, w) ∈ words) (known' : (word', w') ∈ words)
    (recased : Recased (word ++ rest) (word' ++ rest')) : w = w' ∧ Recased rest rest' := by
  simp only [words, List.mem_cons, Prod.mk.injEq, List.not_mem_nil, or_false] at known known'
  rcases known with ⟨rfl, rfl⟩ | ⟨rfl, rfl⟩ | ⟨rfl, rfl⟩ <;>
    rcases known' with ⟨rfl, rfl⟩ | ⟨rfl, rfl⟩ | ⟨rfl, rfl⟩ <;>
    simp only [List.cons_append, List.nil_append, List.forall₂_cons] at recased
  · exact ⟨rfl, recased.2.2.2.2⟩
  · exact absurd recased.1 (by decide)
  · exact absurd recased.1 (by decide)
  · exact absurd recased.1 (by decide)
  · exact ⟨rfl, recased.2.2.2.2⟩
  · exact absurd recased.1 (by decide)
  · exact absurd recased.1 (by decide)
  · exact absurd recased.1 (by decide)
  · exact ⟨rfl, recased.2.2.2.2.2⟩

structure InStep (fuel : Nat) : Prop where
  values : ∀ {cs ds}, Recased cs ds → Lockstep Alike (readValue fuel cs) (readValue fuel ds)
  items : ∀ {cs ds}, Recased cs ds →
    Lockstep (List.Forall₂ Alike) (readItems fuel cs) (readItems fuel ds)
  members : ∀ {cs ds}, Recased cs ds →
    Lockstep AlikeMembers (readMembers fuel cs) (readMembers fuel ds)

namespace InStep
variable {fuel : Nat}

theorem nextItems (inStep : InStep fuel) (recased : Recased cs ds) :
    Lockstep (List.Forall₂ Alike) (readItems (fuel + 1) cs) (readItems (fuel + 1) ds) := by
  rw [readItems, readItems]
  refine (inStep.values recased).bind fun v w cs ds alike rest => ?_
  have after := skipBlanksRecased rest
  dsimp only
  generalize skipBlanks cs = left at after ⊢
  generalize skipBlanks ds = right at after ⊢
  cases after with
  | nil => exact .failed _
  | @cons c d cs ds same rest =>
    split
    · rename_i closes
      cases closes
      obtain rfl := (same.iff (by decide)).mp rfl
      exact .done (.cons alike .nil) rest
    · rename_i goesOn
      cases goesOn
      obtain rfl := (same.iff (by decide)).mp rfl
      exact (inStep.items rest).bind fun vs ws cs ds later rest => .done (.cons alike later) rest
    · exact .failed _

theorem nextMembers (inStep : InStep fuel) (recased : Recased cs ds) :
    Lockstep AlikeMembers (readMembers (fuel + 1) cs) (readMembers (fuel + 1) ds) := by
  have before := skipBlanksRecased recased
  rw [readMembers, readMembers]
  generalize skipBlanks cs = left at before ⊢
  generalize skipBlanks ds = right at before ⊢
  cases before with
  | nil => exact .failed _
  | @cons c d cs ds same rest =>
    split
    · rename_i opens
      cases opens
      obtain rfl := (same.iff (by decide)).mp rfl
      refine (readTextRecased rest).bind fun us vs cs ds key rest => ?_
      have between := skipBlanksRecased rest
      dsimp only
      generalize skipBlanks cs = left at between ⊢
      generalize skipBlanks ds = right at between ⊢
      cases between with
      | nil => exact .failed _
      | @cons c d cs ds same rest =>
        split
        · rename_i colon
          cases colon
          obtain rfl := (same.iff (by decide)).mp rfl
          refine (inStep.values rest).bind fun v w cs ds alike rest => ?_
          have after := skipBlanksRecased rest
          dsimp only
          generalize skipBlanks cs = left at after ⊢
          generalize skipBlanks ds = right at after ⊢
          cases after with
          | nil => exact .failed _
          | @cons c d cs ds same rest =>
            split
            · rename_i closes
              cases closes
              obtain rfl := (same.iff (by decide)).mp rfl
              exact .done ⟨.cons key .nil, .cons alike .nil⟩ rest
            · rename_i goesOn
              cases goesOn
              obtain rfl := (same.iff (by decide)).mp rfl
              refine (inStep.members rest).bind fun ms ns cs ds later rest => ?_
              exact .done ⟨.cons key later.keys, .cons alike later.values⟩ rest
            · exact .failed _
        · exact .failed _
    · exact .failed _

theorem nextArray (inStep : InStep fuel) {cs' ds' : List Char} (opened : skipBlanks cs = '[' :: cs')
    (opened' : skipBlanks ds = '[' :: ds') (recased : Recased cs' ds') :
    Lockstep Alike (readValue (fuel + 1) cs) (readValue (fuel + 1) ds) := by
  have inside := skipBlanksRecased recased
  rcases recasedHead inside (x := ']') (by decide) with
    ⟨rest, rest', closes, closes', after⟩ | ⟨filled, filled'⟩
  · rw [(readValueArray opened fuel).1 rest closes, (readValueArray opened' fuel).1 rest' closes']
    exact .done (.same _) after
  · rw [(readValueArray opened fuel).2 filled, (readValueArray opened' fuel).2 filled']
    exact (inStep.items inside).bind fun vs ws cs ds items rest => .done (.array items) rest

theorem nextObject (inStep : InStep fuel) {cs' ds' : List Char}
    (opened : skipBlanks cs = '{' :: cs') (opened' : skipBlanks ds = '{' :: ds')
    (recased : Recased cs' ds') :
    Lockstep Alike (readValue (fuel + 1) cs) (readValue (fuel + 1) ds) := by
  have inside := skipBlanksRecased recased
  rcases recasedHead inside (x := '}') (by decide) with
    ⟨rest, rest', closes, closes', after⟩ | ⟨filled, filled'⟩
  · rw [(readValueObject opened fuel).1 rest closes, (readValueObject opened' fuel).1 rest' closes']
    exact .done (.same _) after
  · rw [(readValueObject opened fuel).2 filled, (readValueObject opened' fuel).2 filled']
    refine (inStep.members inside).bind fun ms ns cs ds members rest => ?_
    exact .done (.object members.keys members.values) rest

theorem nextValue (inStep : InStep fuel) (recased : Recased cs ds) :
    Lockstep Alike (readValue (fuel + 1) cs) (readValue (fuel + 1) ds) := by
  have start := skipBlanksRecased recased
  cases opened : skipBlanks cs with
  | nil =>
    rw [opened] at start
    rw [readValue, opened]
    exact .failed _
  | cons c cs' =>
    cases opened' : skipBlanks ds with
    | nil =>
      rw [opened, opened'] at start
      cases start
    | cons d ds' =>
      rw [opened, opened'] at start
      obtain ⟨same, rest⟩ := List.forall₂_cons.mp start
      by_cases quote : c = '"'
      · obtain rfl := (same.iff (by decide)).mp quote
        subst quote
        rw [readValueText opened, readValueText opened']
        exact (readTextRecased rest).bind fun us vs cs ds units rest => .done (.text units) rest
      by_cases bracket : c = '['
      · obtain rfl := (same.iff (by decide)).mp bracket
        subst bracket
        exact inStep.nextArray opened opened' rest
      by_cases brace : c = '{'
      · obtain rfl := (same.iff (by decide)).mp brace
        subst brace
        exact inStep.nextObject opened opened' rest
      have starts : (c = '-' ∨ Digits.isDigit c = true) ↔ (d = '-' ∨ Digits.isDigit d = true) := by
        rw [same.iff (by decide), same.isDigit]
      by_cases number : c = '-' ∨ Digits.isDigit c = true
      · rw [readValueNumber opened number, readValueNumber opened' (starts.mp number),
          Option.map_eq_bind, Option.map_eq_bind]
        refine (readNumberRecased start).bind ?_
        rintro n _ cs ds rfl rest
        exact .done (.same _) rest
      · rintro ⟨w, more⟩ read ⟨w', more'⟩ read'
        obtain ⟨word, known, shape⟩ := readValueWord opened quote bracket brace number read
        obtain ⟨word', known', shape'⟩ := readValueWord opened'
          (fun there => quote ((same.iff (by decide)).mpr there))
          (fun there => bracket ((same.iff (by decide)).mpr there))
          (fun there => brace ((same.iff (by decide)).mpr there))
          (fun there => number (starts.mpr there)) read'
        rw [← opened, ← opened', shape, shape'] at start
        obtain ⟨rfl, after⟩ := wordRecased known known' start
        exact ⟨.same w, after⟩

end InStep

theorem inStep (fuel : Nat) : InStep fuel := by
  induction fuel with
  | zero => exact ⟨fun _ => .failed _, fun _ => .failed _, fun _ => .failed _⟩
  | succ fuel ih => exact ⟨ih.nextValue, ih.nextItems, ih.nextMembers⟩

theorem ofCharsRecased (recased : Recased cs ds) {w w' : Wire} (read : ofChars? cs = some w)
    (read' : ofChars? ds = some w') : Alike w w' := by
  unfold ofChars? at read read'
  obtain ⟨x, here, ends⟩ := Option.bind_eq_some_iff.mp read
  obtain ⟨y, there, ends'⟩ := Option.bind_eq_some_iff.mp read'
  rw [← recased.length_eq] at there
  have alike := ((inStep _).values recased x here y there).1
  dsimp only at ends ends'
  split at ends <;> split at ends' <;> try contradiction
  cases ends
  cases ends'
  exact alike

end Wire
end RevForest
