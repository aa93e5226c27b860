import Mathlib.Data.List.DropRight
import RevForest.Json.Printer
import RevForest.Json.Record
import RevForest.Proofs.Dict
import RevForest.Proofs.Identifier

/-! What is written as JSON reads back. A text is read as its code units, and these are its
characters again; a whole number is read as its digits. Members may be laid out with blanks
around them, as long as commas and colons stand between. -/
namespace RevForest.Wire

def units (s : String) : List Nat := s.toList.map Char.toNat

theorem hexUnitControl : ∀ n < 0x20,
    hexUnit? '0' '0' (n / 16).digitChar (n % 16).digitChar = some n := by decide

theorem readPlain {c : Char} (noQuote : c ≠ '"') (noSlash : c ≠ '\\') (high : ¬ c.toNat < 0x20)
    (rest : List Char) :
    readText (c :: rest) = (readText rest).map fun read => (c.toNat :: read.1, read.2) := by
  rw [readText.eq_def]
  split
  · rename_i empty
    cases empty
  · rename_i quote
    exact absurd (List.cons.inj quote).1 noQuote
  · rename_i slash
    exact absurd (List.cons.inj slash).1 noSlash
  · rename_i slash
    exact absurd (List.cons.inj slash).1 noSlash
  · rename_i same
    cases same
    rw [if_neg high]
    cases readText rest <;> rfl

theorem readShort {e : Char} {u : Nat} (means : unescape? e = some u) (other : e ≠ 'u')
    (rest : List Char) :
    readText ('\\' :: e :: rest) = (readText rest).map fun read => (u :: read.1, read.2) := by
  rw [readText.eq_def]
  split
  · rename_i empty
    cases empty
  · rename_i quote
    exact absurd (List.cons.inj quote).1 (by decide)
  · rename_i same
    cases same
    exact absurd rfl other
  · rename_i same
    cases same
    rw [means]
    cases readText rest <;> rfl
  · rename_i no same
    cases same
    exact (no e rest rfl rfl).elim

theorem readEscaped (c : Char) (rest : List Char) :
    readText (Json.escape c ++ rest) =
      (readText rest).map fun read => (c.toNat :: read.1, read.2) := by
  unfold Json.escape
  split
  · rename_i same
    exact same ▸ readShort (e := '"') rfl (by decide) rest
  split
  · rename_i same
    exact same ▸ readShort (e := '\\') rfl (by decide) rest
  split
  · rename_i same
    exact same ▸ readShort (e := 'n') rfl (by decide) rest
  split
  · rename_i same
    exact same ▸ readShort (e := 'r') rfl (by decide) rest
  split
  · rename_i same
    exact same ▸ readShort (e := 't') rfl (by decide) rest
  split
  · rename_i same
    exact same ▸ readShort (e := 'b') rfl (by decide) rest
  split
  · rename_i same
    exact same ▸ readShort (e := 'f') rfl (by decide) rest
  split
  · rename_i low
    have unit := hexUnitControl c.toNat low
    simp only [List.cons_append, List.nil_append, readText, unit]
    cases readText rest <;> rfl
  · rename_i noQuote noSlash _ _ _ _ _ high
    exact readPlain noQuote noSlash high rest

theorem readWritten (s : String) (rest : List Char) :
    readText (s.toList.flatMap Json.escape ++ '"' :: rest) = some (units s, rest) := by
  unfold units
  induction s.toList with
  | nil => rfl
  | cons c cs ih => rw [List.flatMap_cons, List.append_assoc, readEscaped, ih]; rfl

theorem charactersUnits (cs : List Char) : characters? (cs.map Char.toNat) = some cs := by
  induction cs with
  | nil => rfl
  | cons c cs ih =>
    have valid : c.toNat < 0xD800 ∨ 0xDFFF < c.toNat ∧ c.toNat < 0x110000 := c.valid
    unfold characters?
    rw [List.map_cons]
    dsimp only
    rw [if_neg (by omega), if_neg (by omega), ih, Char.ofNat_toNat]
    rfl

theorem stringUnits (s : String) : string? (units s) = some s := by
  unfold string? units
  rw [charactersUnits]
  exact congrArg some String.ofList_toList

theorem skipBlank {b : List Char} (blank : ∀ c ∈ b, isBlank c = true) (cs : List Char) :
    skipBlanks (b ++ cs) = skipBlanks cs := by
  unfold skipBlanks
  exact List.dropWhile_append_of_pos blank

theorem skipNone {c : Char} (dark : isBlank c = false) (rest : List Char) :
    skipBlanks (c :: rest) = c :: rest := by
  unfold skipBlanks
  rw [List.dropWhile_cons_of_neg (by rw [dark]; decide)]

theorem skipTwice (cs : List Char) : skipBlanks (skipBlanks cs) = skipBlanks cs := by
  unfold skipBlanks
  exact List.dropWhile_idempotent _ _

theorem readValueSkips (fuel : Nat) {cs ds : List Char} (same : skipBlanks cs = skipBlanks ds) :
    readValue fuel cs = readValue fuel ds := by
  cases fuel with
  | zero => rfl
  | succ fuel => rw [readValue, readValue, same]

theorem readMembersSkips (fuel : Nat) {cs ds : List Char} (same : skipBlanks cs = skipBlanks ds) :
    readMembers fuel cs = readMembers fuel ds := by
  cases fuel with
  | zero => rfl
  | succ fuel => rw [readMembers, readMembers, same]

def Closing (c : Char) : Prop := c = ',' ∨ c = '}' ∨ c = '\n'

def Reads (v : List Char) (w : Wire) : Prop :=
  ∀ fuel c rest, Closing c → readValue (fuel + 1) (v ++ c :: rest) = some (w, c :: rest)

theorem readsText (s : String) : Reads (Json.writeText s) (.text (units s)) := by
  intro fuel c rest _
  have opened : skipBlanks (Json.writeText s ++ c :: rest) =
      '"' :: (s.toList.flatMap Json.escape ++ '"' :: c :: rest) := by
    unfold Json.writeText
    rw [List.cons_append, List.cons_append, List.append_assoc]
    exact skipNone rfl _
  rw [readValue, opened]
  simp only [readWritten, Option.bind_eq_bind, Option.bind_some]

theorem leadingDigits {ds : List Char} (digits : ∀ c ∈ ds, c.isDigit = true) {c : Char}
    (other : Digits.isDigit c = false) (rest : List Char) :
    Digits.leading (ds ++ c :: rest) = (ds.map Digits.value, c :: rest) := by
  induction ds with
  | nil => simp [Digits.leading, other]
  | cons d ds ih =>
    obtain ⟨digit, later⟩ := List.forall_mem_cons.mp digits
    have own : Digits.isDigit d = true := by
      simpa [Digits.isDigit, Char.isDigit, Char.le_def] using digit
    rw [List.cons_append, Digits.leading, if_pos own, ih later]
    rfl

theorem firstDigit {n : Nat} (positive : 0 < n) :
    ∃ c rest, Nat.toDigits 10 n = c :: rest ∧ c ≠ '0' := by
  induction n using Nat.strong_induction_on with
  | _ n ih =>
    by_cases small : n < 10
    · refine ⟨n.digitChar, [], Nat.toDigits_of_lt_base small, ?_⟩
      have digit : ∀ m < 10, 0 < m → m.digitChar ≠ '0' := by decide
      exact digit n small positive
    · obtain ⟨c, rest, front, other⟩ := ih (n / 10) (by omega) (by omega)
      refine ⟨c, rest ++ [(n % 10).digitChar], ?_, other⟩
      rw [Nat.toDigits_of_base_le (by decide) (by omega), front]
      rfl

theorem readNumberDigits {n : Nat} (positive : 0 < n) {c : Char} (closing : Closing c)
    (rest : List Char) :
    readNumber (Nat.toDigits 10 n ++ c :: rest) =
      some (⟨false, (Nat.toDigits 10 n).map Digits.value, none, none⟩, c :: rest) := by
  have digits : ∀ d ∈ Nat.toDigits 10 n, d.isDigit = true := fun d member =>
    Nat.isDigit_of_mem_toDigits (by decide) (by decide) member
  have plain : Digits.isDigit c = false ∧ c ≠ '.' ∧ c ≠ 'e' ∧ c ≠ 'E' := by
    rcases closing with rfl | rfl | rfl <;> decide
  obtain ⟨other, noPoint, noSmall, noLarge⟩ := plain
  have leading := leadingDigits digits other rest
  obtain ⟨d, ds, front, noZero⟩ := firstDigit positive
  rw [front] at digits leading ⊢
  have noSign : d ≠ '-' := by
    rintro rfl
    exact absurd (digits '-' List.mem_cons_self) (by decide)
  -- A leading zero would stand alone, but the digits of a positive number have none.
  have whole : readWhole (d :: ds ++ c :: rest) =
      some ((d :: ds).map Digits.value, c :: rest) := by
    unfold readWhole
    split
    · rename_i same
      exact absurd (List.cons.inj same).1 noZero
    · unfold readDigits
      rw [leading]
      rfl
  have fraction : readFraction (c :: rest) = some (none, c :: rest) := by
    unfold readFraction
    split
    · rename_i same
      exact absurd (List.cons.inj same).1 noPoint
    · rfl
  have exponent : readExponent (c :: rest) = some (none, c :: rest) := by
    rw [readExponent, if_neg (not_or.mpr ⟨noSmall, noLarge⟩)]
  unfold readNumber
  split
  rename_i negative cs signed
  split at signed
  · rename_i same
    exact absurd (List.cons.inj same).1 noSign
  · cases signed
    simp only [whole, fraction, exponent, Option.bind_eq_bind, Option.bind_some]

theorem readsNumber {n : Nat} (positive : 0 < n) :
    Reads (Nat.toDigits 10 n)
      (.number ⟨false, (Nat.toDigits 10 n).map Digits.value, none, none⟩) := by
  intro fuel c rest closing
  have read := readNumberDigits positive closing rest
  obtain ⟨d, ds, front, _⟩ := firstDigit positive
  have digit : d.isDigit = true :=
    Nat.isDigit_of_mem_toDigits (b := 10) (n := n) (by decide) (by decide)
      (front ▸ List.mem_cons_self)
  have dark : isBlank d = false := by
    cases blank : isBlank d with
    | false => rfl
    | true =>
      simp only [isBlank, Bool.or_eq_true, beq_iff_eq] at blank
      rcases blank with ((rfl | rfl) | rfl) | rfl <;> exact absurd digit (by decide)
  have no {e : Char} {more : List Char} (same : d :: ds ++ c :: rest = e :: more)
      (letter : e.isDigit = false) : False := by
    cases same
    rw [digit] at letter
    cases letter
  rw [front] at read ⊢
  rw [readValue, List.cons_append, skipNone dark]
  rw [List.cons_append] at no
  split
  all_goals first
    | exact (no ‹_› rfl).elim
    | skip
  rw [← List.cons_append, read]
  rfl

def memberText (before colon : List Char) (key : String) (value : List Char) : List Char :=
  before ++ Json.writeText key ++ ':' :: colon ++ value

def membersText (before colon after : List Char) : List (String × List Char × Wire) → List Char
  | [] => after ++ ['}']
  | [m] => memberText before colon m.1 m.2.1 ++ after ++ ['}']
  | m :: n :: rest =>
    memberText before colon m.1 m.2.1 ++ ',' :: membersText before colon after (n :: rest)

structure Layout (before colon after : List Char) : Prop where
  before : ∀ c ∈ before, isBlank c = true
  colon : ∀ c ∈ colon, isBlank c = true
  after : after = [] ∨ ∃ rest, after = '\n' :: rest ∧ ∀ c ∈ rest, isBlank c = true

variable {before colon after : List Char}

theorem readMember (layout : Layout before colon after) (key : String) {value : List Char}
    {w : Wire} (reads : Reads value w) {c : Char} (closing : Closing c) (fuel : Nat)
    (rest : List Char) :
    (∀ more, skipBlanks (c :: rest) = '}' :: more →
      readMembers (fuel + 2) (memberText before colon key value ++ c :: rest) =
        some ([(units key, w)], more)) ∧
    (c = ',' → readMembers (fuel + 2) (memberText before colon key value ++ c :: rest) =
      (readMembers (fuel + 1) rest).map fun read => ((units key, w) :: read.1, read.2)) := by
  have opened : skipBlanks (memberText before colon key value ++ c :: rest) =
      '"' :: (key.toList.flatMap Json.escape ++ '"' :: ':' :: (colon ++ (value ++ c :: rest))) := by
    unfold memberText Json.writeText
    simp only [List.append_assoc, List.cons_append, List.nil_append]
    rw [skipBlank layout.before]
    exact skipNone rfl _
  have valued : readValue (fuel + 1) (colon ++ (value ++ c :: rest)) = some (w, c :: rest) := by
    rw [readValueSkips _ (skipBlank layout.colon _)]
    exact reads fuel c rest closing
  rw [readMembers, opened]
  simp only [readWritten, Option.bind_eq_bind, Option.bind_some, skipNone (c := ':') rfl, valued]
  constructor
  · intro more ends
    simp only [ends]
  · rintro rfl
    simp only [skipNone (c := ',') rfl]
    cases readMembers (fuel + 1) rest <;> rfl

theorem Layout.closes (layout : Layout before colon after) (rest : List Char) :
    ∃ c more, after ++ '}' :: rest = c :: more ∧ Closing c ∧
      skipBlanks (c :: more) = '}' :: rest := by
  rcases layout.after with rfl | ⟨blanks, rfl, blank⟩
  · exact ⟨'}', rest, rfl, .inr (.inl rfl), skipNone rfl rest⟩
  · refine ⟨'\n', blanks ++ '}' :: rest, rfl, .inr (.inr rfl), ?_⟩
    rw [← List.cons_append, skipBlank (List.forall_mem_cons.mpr ⟨rfl, blank⟩)]
    exact skipNone rfl rest

theorem readMembersText (layout : Layout before colon after)
    {ms : List (String × List Char × Wire)} (filled : ms ≠ [])
    (reads : ∀ m ∈ ms, Reads m.2.1 m.2.2) {fuel : Nat} (enough : ms.length < fuel)
    (rest : List Char) :
    readMembers fuel (membersText before colon after ms ++ rest) =
      some (ms.map fun m => (units m.1, m.2.2), rest) := by
  obtain ⟨fuel, rfl⟩ : ∃ k, fuel = k + 2 := by
    have := List.length_pos_of_ne_nil filled
    exact ⟨fuel - 2, by omega⟩
  fun_induction membersText before colon after ms generalizing fuel with
  | case1 => exact absurd rfl filled
  | case2 m =>
    obtain ⟨c, more, same, closing, ends⟩ := layout.closes rest
    have own := reads m List.mem_cons_self
    simp only [List.append_assoc, List.cons_append, List.nil_append, same]
    exact (readMember layout m.1 own closing fuel more).1 rest ends
  | case3 m n later ih =>
    obtain ⟨own, others⟩ := List.forall_mem_cons.mp reads
    simp only [List.length_cons] at enough
    obtain ⟨fuel, rfl⟩ : ∃ k, fuel = k + 1 := ⟨fuel - 1, by omega⟩
    rw [List.append_assoc, List.cons_append,
      (readMember layout m.1 own (.inl rfl) _ _).2 rfl,
      ih (List.cons_ne_nil _ _) others fuel (by simp only [List.length_cons]; omega)]
    rfl

theorem lengthMembers (before colon after : List Char) (ms : List (String × List Char × Wire)) :
    ms.length ≤ (membersText before colon after ms).length := by
  fun_induction membersText before colon after ms with
  | case1 => exact Nat.zero_le _
  | case2 m =>
    simp only [List.length_append, List.length_cons, List.length_nil]
    omega
  | case3 m n later ih =>
    simp only [List.length_append, List.length_cons] at ih ⊢
    omega

theorem openedMembers (layout : Layout before colon after)
    {ms : List (String × List Char × Wire)} (filled : ms ≠ []) :
    ∃ cs, skipBlanks (membersText before colon after ms) = '"' :: cs := by
  have opened (m : String × List Char × Wire) (rest : List Char) :
      ∃ cs, skipBlanks (memberText before colon m.1 m.2.1 ++ rest) = '"' :: cs := by
    unfold memberText Json.writeText
    simp only [List.append_assoc, List.cons_append]
    rw [skipBlank layout.before]
    exact ⟨_, skipNone rfl _⟩
  cases ms with
  | nil => exact absurd rfl filled
  | cons m rest =>
    cases rest with
    | nil =>
      rw [membersText, List.append_assoc]
      exact opened m _
    | cons n later => exact opened m _

theorem readObject (layout : Layout before colon after)
    {ms : List (String × List Char × Wire)} (filled : ms ≠ [])
    (reads : ∀ m ∈ ms, Reads m.2.1 m.2.2) :
    ofChars? ('{' :: membersText before colon after ms) =
      some (.object (ms.map fun m => (units m.1, m.2.2))) := by
  obtain ⟨cs, opened⟩ := openedMembers layout filled
  have length := lengthMembers before colon after ms
  -- The characters bound the members, so the calls that are allowed for them are enough.
  have whole : readMembers (2 * (membersText before colon after ms).length + 3)
      ('"' :: cs) = some (ms.map fun m => (units m.1, m.2.2), []) := by
    rw [← opened, readMembersSkips _ (skipTwice _)]
    have enough : ms.length < 2 * (membersText before colon after ms).length + 3 := by omega
    have read := readMembersText layout filled reads enough []
    rwa [List.append_nil] at read
  have valued : readValue (2 * (membersText before colon after ms).length + 3 + 1)
      ('{' :: membersText before colon after ms) =
      some (.object (ms.map fun m => (units m.1, m.2.2)), []) := by
    rw [readValue, skipNone rfl]
    simp only [opened]
    split
    · rename_i same
      exact absurd (List.cons.inj same).1 (by decide)
    · rw [whole]
      rfl
  unfold ofChars?
  rw [List.length_cons, show 2 * ((membersText before colon after ms).length + 1) + 2 =
    2 * (membersText before colon after ms).length + 3 + 1 by omega, valued]
  rfl

theorem compactMembers (ms : List (String × Json × Wire)) :
    Json.writeMembers (ms.map fun m => (m.1, m.2.1)) ++ ['}'] =
      membersText [] [] [] (ms.map fun m => (m.1, Json.write m.2.1, m.2.2)) := by
  match ms with
  | [] => rfl
  | [m] => simp [Json.writeMembers, membersText, memberText]
  | m :: n :: rest =>
    have later := compactMembers (n :: rest)
    simp only [List.map_cons] at later ⊢
    rw [Json.writeMembers, membersText, ← later]
    simp [memberText]

theorem readRendered {ms : List (String × Json × Wire)} (filled : ms ≠ [])
    (reads : ∀ m ∈ ms, Reads (Json.write m.2.1) m.2.2) :
    ofString? (Json.object (ms.map fun m => (m.1, m.2.1))).render =
      some (.object (ms.map fun m => (units m.1, m.2.2))) := by
  have layout : Layout [] [] [] := ⟨List.forall_mem_nil _, List.forall_mem_nil _, .inl rfl⟩
  have filled' : (ms.map fun m => (m.1, Json.write m.2.1, m.2.2)) ≠ [] :=
    fun none => filled (List.map_eq_nil_iff.mp none)
  have read := readObject layout filled' (List.forall_mem_map.mpr reads)
  unfold ofString? Json.render
  rw [String.toList_ofList, Json.write, List.cons_append, compactMembers, read, List.map_map]
  rfl

theorem namedFound {names : List String} {ms : List (String × Wire)}
    (distinct : (ms.map Prod.fst).Nodup) (known : ∀ m ∈ ms, m.1 ∈ names) :
    ∃ found, named? names (ms.map fun m => (units m.1, m.2)) = some found ∧
      ∀ k, found.find? k = (⟨ms⟩ : Dict String Wire).find? k := by
  induction ms with
  | nil => exact ⟨Dict.empty, rfl, fun _ => rfl⟩
  | cons m ms ih =>
    obtain ⟨new, distinct⟩ := List.nodup_cons.mp distinct
    obtain ⟨here, known⟩ := List.forall_mem_cons.mp known
    obtain ⟨found, named, finds⟩ := ih distinct known
    have absent : found.contains m.1 = false := by
      rw [Dict.notContains, finds]
      refine Option.map_eq_none_iff.mpr (List.find?_eq_none.mpr fun e member same => new ?_)
      exact List.mem_map.mpr ⟨e, member, of_decide_eq_true same⟩
    refine ⟨found.insert m.1 m.2, ?_, fun k => ?_⟩
    · simp only [List.map_cons, named?, stringUnits, named, Option.bind_eq_bind, Option.bind_some,
        if_pos here, absent]
      rfl
    · rw [Dict.findInsert, finds, Dict.findCons]
      simp only [eq_comm]

-- A record whose members are its fields in order.
theorem fieldsInOrder {ms : List (String × Wire)} (distinct : (ms.map Prod.fst).Nodup) :
    fields? (ms.map Prod.fst) (.object (ms.map fun m => (units m.1, m.2))) =
      some (ms.map fun m => some m.2) := by
  obtain ⟨found, named, finds⟩ := namedFound distinct fun _ member => List.mem_map_of_mem member
  simp only [fields?, named, Option.bind_eq_bind, Option.bind_some, List.map_map]
  refine congrArg some (List.map_congr_left fun m member => ?_)
  exact (finds m.1).trans (Dict.findDistinct distinct member)

theorem natRead {n bound : Nat} (small : n < bound) (word : bound ≤ word64) :
    asNat? bound (.number ⟨false, (Nat.toDigits 10 n).map Digits.value, none, none⟩) = some n := by
  have whole : Digits.number ((Nat.toDigits 10 n).map Digits.value) = n := by
    have spelled := Digits.numberSpelled n
    rwa [Nat.toString_eq_ofList_toDigits, String.toList_ofList] at spelled
  unfold asNat? NumberText.value?
  simp only [whole, Bool.false_eq_true, if_false, if_pos (Nat.lt_of_lt_of_le small word)]
  exact if_pos small

end RevForest.Wire
