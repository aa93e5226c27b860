import Mathlib.Data.List.Basic
import RevForest.ContentDigest
import RevForest.Proofs.Attachment

/-! What is hashed can be taken apart again. A part that comes after its length ends where the
length says, a word has eight bytes, and the records of the attachments go on to the end. So two
inputs are the same bytes only if they have the same parts. The order in which a map is walked is
no part of them exactly when its attachments of one name are hashed alike. -/
namespace RevForest.ContentDigest

def number : List UInt8 → Nat
  | [] => 0
  | b :: rest => b.toNat + 256 * number rest

theorem numberSpelled (count n : Nat) :
    number ((List.range count).map fun i => UInt8.ofNat (n >>> (8 * i))) = n % 256 ^ count := by
  induction count generalizing n with
  | zero => exact (Nat.mod_one n).symm
  | succ count ih =>
    have shifted : (fun i => UInt8.ofNat (n >>> (8 * i))) ∘ Nat.succ =
        fun i => UInt8.ofNat ((n / 256) >>> (8 * i)) := by
      funext i
      have apart : 8 * i.succ = 8 + 8 * i := by omega
      show UInt8.ofNat (n >>> (8 * i.succ)) = _
      rw [apart, Nat.shiftRight_add, Nat.shiftRight_eq_div_pow n 8]
    have lowest : (UInt8.ofNat (n >>> (8 * 0))).toNat = n % 256 := UInt8.toNat_ofNat'
    rw [List.range_succ_eq_map, List.map_cons, List.map_map, shifted, number, ih, lowest,
      Nat.pow_succ', Nat.mod_mul]

theorem numberWord {n : Nat} (small : n < word64) : number (littleEndian64 n) = n :=
  (numberSpelled 8 n).trans (Nat.mod_eq_of_lt small)

variable {x y : List UInt8}

theorem wordCancel {n k : Nat} (small : n < word64) (small' : k < word64)
    (same : littleEndian64 n ++ x = littleEndian64 k ++ y) : n = k ∧ x = y := by
  obtain ⟨words, rest⟩ := List.append_inj same rfl
  refine ⟨?_, rest⟩
  rw [← numberWord small, words, numberWord small']

theorem framedCancel {a b : List UInt8} (short : a.length < word64) (short' : b.length < word64)
    (same : framed a ++ x = framed b ++ y) : a = b ∧ x = y := by
  unfold framed at same
  rw [List.append_assoc, List.append_assoc] at same
  obtain ⟨length, rest⟩ := wordCancel short short' same
  exact List.append_inj rest length

def Short (s : String) : Prop := s.toByteArray.size < word64

instance (s : String) : Decidable (Short s) := inferInstanceAs (Decidable (_ < _))

theorem textCancel {s t : String} (short : Short s) (short' : Short t)
    (same : framedText s ++ x = framedText t ++ y) : s = t ∧ x = y := by
  obtain ⟨bytes, rest⟩ := framedCancel short short' same
  exact ⟨String.toByteArray_inj.mp (ByteArray.ext (Array.toList_inj.mp bytes)), rest⟩

def digested (a : Attachment) : String × String × Nat := (a.name, a.digest, a.revpos)

structure Fits (a : Attachment) : Prop where
  name : Short a.name
  digest : Short a.digest
  revpos : a.revpos < word64

theorem attachmentCancel {a b : Attachment} (fits : Fits a) (fits' : Fits b)
    (same : attachmentInput a ++ x = attachmentInput b ++ y) : digested a = digested b ∧ x = y := by
  unfold attachmentInput at same
  simp only [List.append_assoc] at same
  obtain ⟨name, same⟩ := textCancel fits.name fits'.name same
  obtain ⟨digest, same⟩ := textCancel fits.digest fits'.digest same
  obtain ⟨revpos, rest⟩ := wordCancel fits.revpos fits'.revpos same
  exact ⟨Prod.ext name (Prod.ext digest revpos), rest⟩

theorem inputSome (a : Attachment) : attachmentInput a ≠ [] := by
  unfold attachmentInput littleEndian64
  simp

-- The records are not counted, but none of them is empty.
theorem attachmentsDecoded {as bs : List Attachment} (fits : ∀ a ∈ as, Fits a)
    (fits' : ∀ b ∈ bs, Fits b) (same : as.flatMap attachmentInput = bs.flatMap attachmentInput) :
    as.map digested = bs.map digested := by
  induction as generalizing bs with
  | nil =>
    cases bs with
    | nil => rfl
    | cons b bs =>
      exact absurd (List.append_eq_nil_iff.mp same.symm).1 (inputSome b)
  | cons a as ih =>
    cases bs with
    | nil => exact absurd (List.append_eq_nil_iff.mp same).1 (inputSome a)
    | cons b bs =>
      obtain ⟨first, fits⟩ := List.forall_mem_cons.mp fits
      obtain ⟨first', fits'⟩ := List.forall_mem_cons.mp fits'
      obtain ⟨head, rest⟩ := attachmentCancel first first' same
      rw [List.map_cons, List.map_cons, head, ih fits fits' rest]

theorem attachmentsDigested {as bs : List Attachment} (same : as.map digested = bs.map digested) :
    as.flatMap attachmentInput = bs.flatMap attachmentInput := by
  have parts (cs : List Attachment) : cs.flatMap attachmentInput = (cs.map digested).flatMap
      fun h => framedText h.1 ++ framedText h.2.1 ++ littleEndian64 h.2.2 := by
    rw [List.flatMap_map]
    rfl
  rw [parts, parts, same]

structure Bounded (parent : Option RevisionId) (body : DocumentBody)
    (attachments : AttachmentMap) : Prop where
  parent : ∀ id ∈ parent, Short id.text
  body : Short body.text
  attachments : ∀ a ∈ attachments.toRecords, Fits a

theorem parentShort {parent : Option RevisionId} (short : ∀ id ∈ parent, Short id.text) :
    Short ((parent.map RevisionId.text).getD "") := by
  cases parent with
  | none =>
    show Short ""
    decide
  | some id => exact short id rfl

theorem textSome (id : RevisionId) : id.text ≠ "" := by
  intro bare
  have spelled := id.spelled
  rw [bare] at spelled
  cases spelled

theorem parentDecoded {parent parent' : Option RevisionId}
    (same : (parent.map RevisionId.text).getD "" = (parent'.map RevisionId.text).getD "") :
    parent = parent' := by
  cases parent with
  | none =>
    cases parent' with
    | none => rfl
    | some id => exact absurd same.symm (textSome id)
  | some id =>
    cases parent' with
    | none => exact absurd same (textSome id)
    | some id' => exact congrArg some (RevisionId.ext_text same)

theorem flagDecoded {deleted deleted' : Bool}
    (same : (if deleted then 1 else 0 : UInt8) = if deleted' then 1 else 0) :
    deleted = deleted' := by
  revert deleted deleted'
  decide

variable {parent parent' : Option RevisionId} {body body' : DocumentBody}
  {attachments attachments' : AttachmentMap}

theorem inputParts {as bs : List Attachment} (bytes : body.bytes = body'.bytes)
    (records : as.map digested = bs.map digested) (parent : Option RevisionId) (deleted : Bool) :
    inputOf parent deleted body as = inputOf parent deleted body' bs := by
  have text : body.text = body'.text := String.toByteArray_inj.mp bytes
  unfold inputOf
  rw [text, attachmentsDigested records]

/-- Two inputs are the same bytes exactly when they have the same parent, flag, bytes of the body
and hashed attachments, in the order of their names. The order in which attachments of different
names were put in, or are walked, leaves no trace. -/
theorem inputDecoded (bounded : Bounded parent body attachments)
    (bounded' : Bounded parent' body' attachments') (deleted deleted' : Bool) :
    (input parent deleted body attachments = input parent' deleted' body' attachments' ↔
      parent = parent' ∧ deleted = deleted' ∧ body.bytes = body'.bytes ∧
        attachments.toRecords.map digested = attachments'.toRecords.map digested) ∧
      (attachments.Named →
        (∀ records others : List Attachment, records.Perm others → (records.map (·.name)).Nodup →
          input parent deleted body (attachments.putAll records) =
            input parent deleted body (attachments.putAll others)) ∧
        ∀ walk : List Attachment, walk.Perm attachments.entries.values →
          walk.mergeSort AttachmentMap.byName = attachments.toRecords) := by
  refine ⟨⟨fun same => ?_, ?_⟩, fun named => ⟨fun records others perm distinct => ?_, ?_⟩⟩
  · unfold input inputOf at same
    simp only [List.append_assoc] at same
    obtain ⟨above, same⟩ :=
      textCancel (parentShort bounded.parent) (parentShort bounded'.parent) same
    obtain ⟨flag, same⟩ := List.cons.inj same
    obtain ⟨text, same⟩ := textCancel bounded.body bounded'.body same
    exact ⟨parentDecoded above, flagDecoded flag, congrArg String.toByteArray text,
      attachmentsDecoded bounded.attachments bounded'.attachments same⟩
  · rintro ⟨rfl, rfl, bytes, records⟩
    exact inputParts bytes records parent deleted
  · rw [AttachmentMap.putAllPerm named.sorted perm distinct]
  · exact fun walk perm => named.walked perm

/-- Attachments of one name are hashed alike, as when the names are the keys. -/
def Alike (m : AttachmentMap) : Prop :=
  ∀ a ∈ m.entries.values, ∀ b ∈ m.entries.values, a.name = b.name → digested a = digested b

theorem namedAlike (named : attachments.Named) : Alike attachments :=
  fun _ here _ there name => congrArg digested (named.sameName here there name)

theorem firstOfName (walk : List Attachment) (name : String) :
    ((walk.mergeSort AttachmentMap.byName).map digested).find? (·.1 = name) =
      (walk.find? (·.name = name)).map digested := by
  rw [List.find?_map, ← List.head?_filter, ← List.head?_filter]
  exact congrArg (fun found => found.head?.map digested) (AttachmentMap.sortedFilter walk name)

/-- The order in which a map is walked leaves no trace exactly when attachments of one name are
hashed alike. -/
theorem alikeIff : Alike attachments ↔ ∀ walk walk' : List Attachment,
    walk.Perm attachments.entries.values → walk'.Perm attachments.entries.values →
      (walk.mergeSort AttachmentMap.byName).map digested =
        (walk'.mergeSort AttachmentMap.byName).map digested := by
  constructor
  · intro alike walk walk' perm perm'
    refine AttachmentMap.sortedAlike (perm.trans perm'.symm) fun a here b there => ?_
    exact alike a (perm.mem_iff.mp here) b (perm.mem_iff.mp there)
  · -- Two walks that start with either attachment show which of them is hashed first.
    intro agree a here b there name
    have hashed := agree _ _ (List.perm_cons_erase here).symm (List.perm_cons_erase there).symm
    have first := congrArg (List.find? (·.1 = a.name)) hashed
    have ahead {c : Attachment} {rest : List Attachment} (of : c.name = a.name) :
        (c :: rest).find? (fun x => decide (x.name = a.name)) = some c :=
      List.find?_cons_of_pos (decide_eq_true of)
    rw [firstOfName, firstOfName, ahead rfl, ahead name.symm] at first
    exact Option.some.inj first

theorem walkedAlike (alike : Alike attachments) (bytes : body.bytes = body'.bytes)
    (walk walk' : AttachmentMap.Walk) (length : Nat) (parent : Option RevisionId)
    (deleted : Bool) :
    walked walk length parent deleted body attachments =
      walked walk' length parent deleted body' attachments := by
  have records := alikeIff.mp alike _ _ (walk.perm attachments) (walk'.perm attachments)
  have input := inputParts bytes records parent deleted
  exact congrArg (fun bytes => String.ofList
    ((Hex.encode (Sha256.hash bytes)).toList.take (clamp length))) input

namespace Sample

def single (name digest : String) : Attachment := ⟨name, "text/plain", 1, digest, 1, none⟩

def map (name digest : String) : AttachmentMap := .ofRecords [single name digest]

theorem records (name digest : String) : (map name digest).toRecords = [single name digest] :=
  AttachmentMap.namedRecords (AttachmentMap.recordsNamed _)

theorem bounded {name digest : String} (short : Short name) (short' : Short digest) :
    Bounded none .empty (map name digest) where
  parent id absent := nomatch absent
  body := by
    show Short "\x7b\x7d"
    decide
  attachments a member := by
    rw [records] at member
    rw [List.mem_singleton.mp member]
    exact ⟨short, short', (by decide : 1 < word64)⟩

-- Two keys for one name.
example : ¬ Alike ⟨Dict.ofList [("x", single "a" "d"), ("y", single "a" "e")]⟩ := by
  unfold Alike
  decide

end Sample

theorem sampleInputsApart :
    "ab" ++ "c" = "a" ++ "bc" ∧ Bounded none .empty (Sample.map "ab" "c") ∧
      Bounded none .empty (Sample.map "a" "bc") ∧ (Sample.map "ab" "c").Named ∧
      input none false .empty (Sample.map "ab" "c") ≠
        input none false .empty (Sample.map "a" "bc") ∧
      input none false .empty
          ((Sample.map "ab" "c").putAll [Sample.single "x" "d", Sample.single "y" "e"]) =
        input none false .empty
          ((Sample.map "ab" "c").putAll [Sample.single "y" "e", Sample.single "x" "d"]) := by
  have first : Bounded none .empty (Sample.map "ab" "c") :=
    Sample.bounded (by decide) (by decide)
  have second : Bounded none .empty (Sample.map "a" "bc") :=
    Sample.bounded (by decide) (by decide)
  have named : (Sample.map "ab" "c").Named := AttachmentMap.recordsNamed _
  refine ⟨by decide, first, second, named, fun same => ?_, ?_⟩
  · obtain ⟨_, _, _, records⟩ := (inputDecoded first second _ _).1.mp same
    rw [Sample.records, Sample.records] at records
    revert records
    decide
  · exact ((inputDecoded first second _ true).2 named).1 _ _ (.swap _ _ _) (by decide)

end RevForest.ContentDigest
