import Mathlib.Data.String.Basic
import RevForest.Log
import RevForest.Proofs.Json.Reader

/-! A line of the log is one JSON object, whatever is logged: the texts in it cannot end a string,
a member or the line. It reads back as what was logged, the fields in the order of their keys. -/
namespace RevForest.LogLine

theorem hexDigit : ∀ n < 16, Wire.hexValue? n.digitChar = some n := by decide

theorem hexUnitByte {n : Nat} (byte : n < 0x100) :
    Wire.hexUnit? '0' '0' (n / 16).digitChar (n % 16).digitChar = some n := by
  have zero : Wire.hexValue? '0' = some 0 := rfl
  have halves : ((0 * 16 + 0) * 16 + n / 16) * 16 + n % 16 = n := by omega
  simp only [Wire.hexUnit?, zero, hexDigit (n / 16) (by omega), hexDigit (n % 16) (by omega),
    Option.bind_eq_bind, Option.bind_some, halves]

theorem controlByte {c : Char} (control : isControl c = true) : c.toNat < 0x100 := by
  simp only [isControl, Bool.or_eq_true, Bool.and_eq_true, decide_eq_true_eq] at control
  omega

theorem readEscaped (c : Char) (rest : List Char) :
    Wire.readText (escape c ++ rest) =
      (Wire.readText rest).map fun read => (c.toNat :: read.1, read.2) := by
  unfold escape
  split
  · rename_i same
    exact same ▸ Wire.readShort (e := '"') rfl (by decide) rest
  split
  · rename_i same
    exact same ▸ Wire.readShort (e := '\\') rfl (by decide) rest
  split
  · rename_i same
    exact same ▸ Wire.readShort (e := 'n') rfl (by decide) rest
  split
  · rename_i same
    exact same ▸ Wire.readShort (e := 'r') rfl (by decide) rest
  split
  · rename_i same
    exact same ▸ Wire.readShort (e := 't') rfl (by decide) rest
  split
  · rename_i control
    have unit := hexUnitByte (controlByte control)
    simp only [List.cons_append, List.nil_append, Wire.readText, unit]
    cases Wire.readText rest <;> rfl
  · rename_i noQuote noSlash _ _ _ plain
    refine Wire.readPlain noQuote noSlash (fun low => plain ?_) rest
    simp [isControl, low]

theorem readQuoted (s : String) (rest : List Char) :
    Wire.readText (s.toList.flatMap escape ++ '"' :: rest) = some (Wire.units s, rest) := by
  unfold Wire.units
  induction s.toList with
  | nil => rfl
  | cons c cs ih => rw [List.flatMap_cons, List.append_assoc, readEscaped, ih]; rfl

theorem allPlain {cs : List Char} (plain : cs.any isControl = false) :
    ∀ x ∈ cs, isControl x = false :=
  fun x member => Bool.eq_false_of_not_eq_true (List.any_eq_false.mp plain x member)

theorem escapePlain (c : Char) : ∀ x ∈ escape c, isControl x = false := by
  unfold escape
  split; · exact allPlain rfl
  split; · exact allPlain rfl
  split; · exact allPlain rfl
  split; · exact allPlain rfl
  split; · exact allPlain rfl
  split
  · rename_i control
    have byte := controlByte control
    have high := (DocumentId.digitChar_plain (c.toNat / 16) (by omega)).1
    have low := (DocumentId.digitChar_plain (c.toNat % 16) (by omega)).1
    simp only [List.forall_mem_cons, high, low]
    exact ⟨rfl, rfl, rfl, rfl, trivial, trivial, List.forall_mem_nil _⟩
  · rename_i plain
    simpa using plain

theorem quotedPlain (s : String) : ∀ x ∈ quoted s, isControl x = false := by
  intro x member
  simp only [quoted, List.mem_cons, List.mem_append, List.mem_flatMap] at member
  rcases member with (rfl | ⟨c, _, escaped⟩) | rfl | ⟨⟨⟩⟩
  · rfl
  · exact escapePlain c x escaped
  · rfl

theorem memberPlain (key value : String) : ∀ x ∈ member key value, isControl x = false := by
  unfold member
  refine List.forall_mem_append.mpr ⟨quotedPlain key, ?_⟩
  exact List.forall_mem_cons.mpr ⟨rfl, quotedPlain value⟩

theorem membersPlain (fields : List (String × String)) :
    ∀ x ∈ members fields, isControl x = false := by
  intro x inside
  obtain ⟨f, _, there⟩ := List.mem_flatMap.mp inside
  rcases List.mem_cons.mp there with rfl | within
  · rfl
  · exact memberPlain f.1 f.2 x within

theorem readsQuoted (s : String) : Wire.Reads (quoted s) (.text (Wire.units s)) := by
  intro fuel c rest _
  have opened : Wire.skipBlanks (quoted s ++ c :: rest) =
      '"' :: (s.toList.flatMap escape ++ '"' :: c :: rest) := by
    unfold quoted
    rw [List.cons_append, List.cons_append, List.append_assoc]
    exact Wire.skipNone rfl _
  rw [Wire.readValue, opened]
  simp only [readQuoted, Option.bind_eq_bind, Option.bind_some]

def spelled (f : String × String) : List Nat × Wire := (Wire.units f.1, .text (Wire.units f.2))

theorem memberOpens (key value : String) (rest : List Char) :
    Wire.skipBlanks (member key value ++ rest) =
      '"' :: (key.toList.flatMap escape ++ '"' :: ':' :: (quoted value ++ rest)) := by
  unfold member quoted
  simp only [List.append_assoc, List.cons_append, List.nil_append]
  exact Wire.skipNone rfl _

theorem readLast (key value : String) (fuel : Nat) (rest : List Char) :
    Wire.readMembers (fuel + 2) (member key value ++ '}' :: rest) =
      some ([spelled (key, value)], rest) := by
  have valued := readsQuoted value fuel '}' rest (.inr (.inl rfl))
  rw [Wire.readMembers, memberOpens]
  simp only [readQuoted, Option.bind_eq_bind, Option.bind_some, Wire.skipNone (c := ':') rfl,
    valued, Wire.skipNone (c := '}') rfl]
  rfl

theorem readNext (key value : String) (fuel : Nat) (rest : List Char) :
    Wire.readMembers (fuel + 2) (member key value ++ ',' :: rest) =
      (Wire.readMembers (fuel + 1) rest).map fun read =>
        (spelled (key, value) :: read.1, read.2) := by
  have valued := readsQuoted value fuel ',' rest (.inl rfl)
  rw [Wire.readMembers, memberOpens]
  simp only [readQuoted, Option.bind_eq_bind, Option.bind_some, Wire.skipNone (c := ':') rfl,
    valued, Wire.skipNone (c := ',') rfl]
  cases Wire.readMembers (fuel + 1) rest <;> rfl

theorem membersCons (f : String × String) (fields : List (String × String)) :
    members (f :: fields) = ',' :: (member f.1 f.2 ++ members fields) := rfl

theorem readMembers (fields : List (String × String)) (key value : String) (fuel : Nat)
    (rest : List Char) :
    Wire.readMembers (fields.length + fuel + 2)
        (member key value ++ (members fields ++ '}' :: rest)) =
      some (((key, value) :: fields).map spelled, rest) := by
  induction fields generalizing key value with
  | nil => exact readLast key value _ rest
  | cons f fields ih =>
    rw [membersCons, List.cons_append, List.append_assoc, readNext, List.length_cons,
      show fields.length + 1 + fuel + 1 = fields.length + fuel + 2 by omega, ih]
    rfl

theorem lengthMembers (fields : List (String × String)) :
    fields.length ≤ (members fields).length := by
  induction fields with
  | nil => exact Nat.zero_le _
  | cons f fields ih =>
    rw [membersCons]
    simp only [List.length_cons, List.length_append]
    omega

theorem readBraced {fuel : Nat} {cs rest : List Char} {ms : List (List Nat × Wire)}
    (read : Wire.readMembers fuel ('"' :: cs) = some (ms, rest)) :
    Wire.readValue (fuel + 1) ('{' :: '"' :: cs) = some (.object ms, rest) := by
  rw [Wire.readValue, Wire.skipNone rfl]
  simp only [Wire.skipNone (c := '"') rfl]
  split
  · rename_i same
    exact absurd (List.cons.inj same).1 (by decide)
  · rw [read]
    rfl

theorem readLine (severity : Severity) (event : String) (fields : List (String × String)) :
    Wire.ofString? (format severity event fields) = some (.object
      ((("event", event) :: ("severity", severity.name) :: sortFields fields).map spelled)) := by
  unfold Wire.ofString? format write
  generalize ("severity", severity.name) :: sortFields fields = later
  have length := lengthMembers later
  have shape : '{' :: member "event" event ++ members later ++ ['}', '\n'] =
      '{' :: (member "event" event ++ (members later ++ '}' :: ['\n'])) := by
    simp only [List.cons_append, List.append_assoc]
  obtain ⟨cs, opened⟩ : ∃ cs, member "event" event ++ (members later ++ '}' :: ['\n']) =
      '"' :: cs := ⟨_, rfl⟩
  -- The characters bound the members, so the calls that are allowed for them are enough.
  obtain ⟨fuel, enough⟩ : ∃ fuel,
      2 * ('{' :: '"' :: cs).length + 2 = later.length + fuel + 2 + 1 := by
    refine ⟨2 * ('{' :: '"' :: cs).length - later.length - 1, ?_⟩
    rw [← opened]
    simp only [List.length_cons, List.length_append]
    omega
  have read := readMembers later "event" event fuel ['\n']
  rw [opened] at read
  rw [String.toList_ofList, shape, opened, Wire.ofChars?, enough, readBraced read]
  rfl

theorem sortFieldsPerm (fields : List (String × String)) : (sortFields fields).Perm fields :=
  List.mergeSort_perm fields _

theorem keyOrder {a b : String × String} : (!decide (b.1 < a.1)) = true ↔ a.1 ≤ b.1 := by
  rw [Bool.not_eq_true', decide_eq_false_iff_not, not_lt]

theorem keyOrderTrans (a b c : String × String) (first : (!decide (b.1 < a.1)) = true)
    (second : (!decide (c.1 < b.1)) = true) : (!decide (c.1 < a.1)) = true :=
  keyOrder.mpr ((keyOrder.mp first).trans (keyOrder.mp second))

theorem keyOrderTotal (a b : String × String) :
    (!decide (b.1 < a.1) || !decide (a.1 < b.1)) = true := by
  rw [Bool.or_eq_true, keyOrder, keyOrder]
  exact le_total _ _

theorem sortFieldsRise (fields : List (String × String)) :
    (sortFields fields).Pairwise fun a b => a.1 ≤ b.1 :=
  (List.pairwise_mergeSort keyOrderTrans keyOrderTotal fields).imp keyOrder.mp

theorem sortFieldsStable (fields : List (String × String)) (key : String) :
    (sortFields fields).filter (·.1 = key) = fields.filter (·.1 = key) := by
  have level : (fields.filter (·.1 = key)).Pairwise fun a b => (!decide (b.1 < a.1)) = true := by
    refine List.pairwise_of_forall_mem_list fun a first b second => keyOrder.mpr (le_of_eq ?_)
    have own := of_decide_eq_true (List.mem_filter.mp first).2
    have other := of_decide_eq_true (List.mem_filter.mp second).2
    exact own.trans other.symm
  have kept := (List.sublist_mergeSort keyOrderTrans keyOrderTotal level
    List.filter_sublist).filter (·.1 = key)
  simp only [List.filter_filter, Bool.and_self] at kept
  exact (kept.eq_of_length ((sortFieldsPerm fields).filter _).length_eq.symm).symm

theorem sortFieldsSame {fields others : List (String × String)} (perm : fields.Perm others)
    (distinct : (fields.map Prod.fst).Nodup) : sortFields fields = sortFields others := by
  have sorted := (sortFieldsPerm fields).trans (perm.trans (sortFieldsPerm others).symm)
  refine List.Perm.eq_of_pairwise ?_ (sortFieldsRise fields) (sortFieldsRise others) sorted
  intro a b first second before after
  have here := (sortFieldsPerm fields).mem_iff.mp first
  have there := perm.mem_iff.mpr ((sortFieldsPerm others).mem_iff.mp second)
  exact List.inj_on_of_nodup_map distinct here there (le_antisymm before after)

def field? (m : List Nat × Wire) : Option (String × String) := do
  let key ← Wire.string? m.1
  let value ← m.2.asString?
  some (key, value)

def fields? : Wire → Option (List (String × String))
  | .object members => members.mapM field?
  | _ => none

theorem fieldSpelled (f : String × String) : field? (spelled f) = some f := by
  simp only [field?, spelled, Wire.asString?, Wire.stringUnits, Option.bind_eq_bind,
    Option.bind_some]

theorem fieldsSpelled (fields : List (String × String)) :
    fields? (.object (fields.map spelled)) = some fields := by
  unfold fields?
  induction fields with
  | nil => rfl
  | cons f fields ih =>
    dsimp only at ih ⊢
    rw [List.map_cons, List.mapM_cons, fieldSpelled, ih]
    rfl

structure Sorts (fields sorted : List (String × String)) : Prop where
  perm : sorted.Perm fields
  rises : sorted.Pairwise fun a b => a.1 ≤ b.1
  stable : ∀ key, sorted.filter (·.1 = key) = fields.filter (·.1 = key)

theorem sortFieldsSorts (fields : List (String × String)) : Sorts fields (sortFields fields) :=
  ⟨sortFieldsPerm fields, sortFieldsRise fields, sortFieldsStable fields⟩

/-- A line ends with its only line break, and it is one object that holds the event, the severity
and the sorted fields as they were given. -/
structure Tells (line : String) (severity : Severity) (event : String)
    (fields : List (String × String)) : Prop where
  ends : ∃ body, line.toList = body ++ ['\n'] ∧ '\n' ∉ body
  reads : ∃ sorted, Sorts fields sorted ∧ (Wire.ofString? line).bind fields? =
    some (("event", event) :: ("severity", severity.name) :: sorted)

theorem formatEnds (severity : Severity) (event : String) (fields : List (String × String)) :
    ∃ body, (format severity event fields).toList = body ++ ['\n'] ∧
      ∀ c ∈ body, isControl c = false := by
  refine ⟨'{' :: member "event" event ++
    members (("severity", severity.name) :: sortFields fields) ++ ['}'], ?_, ?_⟩
  · rw [format, write, String.toList_ofList]
    simp only [List.append_assoc, List.cons_append, List.nil_append]
  · refine List.forall_mem_append.mpr ⟨?_, allPlain rfl⟩
    refine List.forall_mem_append.mpr ⟨?_, membersPlain _⟩
    exact List.forall_mem_cons.mpr ⟨rfl, memberPlain _ _⟩

theorem linesTell :
    (∀ severity event fields, Tells (format severity event fields) severity event fields) ∧
    ∀ severity event fields fields', List.Perm fields fields' → (fields.map Prod.fst).Nodup →
      format severity event fields = format severity event fields' := by
  refine ⟨fun severity event fields => ⟨?_, ?_⟩, ?_⟩
  · obtain ⟨body, shape, plain⟩ := formatEnds severity event fields
    exact ⟨body, shape, fun inside => absurd (plain _ inside) (by decide)⟩
  · refine ⟨sortFields fields, sortFieldsSorts fields, ?_⟩
    rw [readLine, Option.bind_some, fieldsSpelled]
  · intro severity event fields fields' perm distinct
    unfold format write
    rw [sortFieldsSame perm distinct]

-- A quote, a line break and a control above U+007F.
def sampleFields : List (String × String) := [("b", "\"\n"), ("a", "\x85")]

theorem sampleTells :
    Tells (format .warn "\\" sampleFields) .warn "\\" sampleFields ∧
      sampleFields.Perm sampleFields.reverse ∧ (sampleFields.map Prod.fst).Nodup ∧
      format .warn "\\" sampleFields = format .warn "\\" sampleFields.reverse := by
  obtain ⟨tell, anyOrder⟩ := linesTell
  have perm : sampleFields.Perm sampleFields.reverse := (List.reverse_perm _).symm
  have distinct : (sampleFields.map Prod.fst).Nodup := by decide
  exact ⟨tell _ _ _, perm, distinct, anyOrder _ _ _ _ perm distinct⟩

end RevForest.LogLine
