import Mathlib.Data.List.Find
import Mathlib.Data.String.Basic
import Mathlib.Order.RelClasses
import RevForest.Attachment
import RevForest.Proofs.Dict

/-! Attachment maps whose keys are the names of the attachments. Only of these do the
records say everything, so only these come back from their records. Neither the order in which
the attachments are walked nor, for different names, that in which they were put in matters. -/
namespace RevForest
namespace AttachmentMap

structure Named (m : AttachmentMap) : Prop where
  sorted : m.entries.Sorted
  own : ∀ e ∈ m.entries.entries, e.2.name = e.1

theorem emptyNamed : empty.Named := ⟨List.Pairwise.nil, by simp [empty, Dict.empty]⟩

theorem Named.rising {m : AttachmentMap} (named : m.Named) :
    m.entries.values.Pairwise fun a b => a.name < b.name :=
  Dict.Keyed.rising named.own named.sorted

theorem Named.sameName {m : AttachmentMap} (named : m.Named) {a b : Attachment}
    (here : a ∈ m.entries.values) (there : b ∈ m.entries.values) (name : a.name = b.name) :
    a = b := by
  have distinct : (m.entries.values.map (·.name)).Nodup :=
    List.pairwise_map.mpr (named.rising.imp ne_of_lt)
  exact List.inj_on_of_nodup_map distinct here there name

theorem byNameIff {a b : Attachment} : byName a b = true ↔ a.name ≤ b.name := by
  unfold byName
  rw [Bool.not_eq_true', decide_eq_false_iff_not, not_lt]

theorem Named.inOrder {m : AttachmentMap} (named : m.Named) :
    m.entries.values.Pairwise fun a b => byName a b = true :=
  named.rising.imp fun before => byNameIff.mpr before.le

theorem namedRecords {m : AttachmentMap} (named : m.Named) : m.toRecords = m.entries.values :=
  List.mergeSort_of_pairwise named.inOrder

theorem byNameTrans (a b c : Attachment) (first : byName a b = true) (second : byName b c = true) :
    byName a c = true :=
  byNameIff.mpr ((byNameIff.mp first).trans (byNameIff.mp second))

theorem byNameTotal (a b : Attachment) : (byName a b || byName b a) = true := by
  rw [Bool.or_eq_true, byNameIff, byNameIff]
  exact le_total _ _

theorem sortedAlike {β : Type} {f : Attachment → β} {walk other : List Attachment}
    (perm : walk.Perm other) (alike : ∀ a ∈ walk, ∀ b ∈ walk, a.name = b.name → f a = f b) :
    (walk.mergeSort byName).map f = (other.mergeSort byName).map f := by
  have sorted := (List.mergeSort_perm walk byName).trans
    (perm.trans (List.mergeSort_perm other byName).symm)
  have rising (records : List Attachment) :
      ((records.mergeSort byName).map fun a => (a.name, f a)).Pairwise fun x y => x.1 ≤ y.1 :=
    List.pairwise_map.mpr
      ((List.pairwise_mergeSort byNameTrans byNameTotal records).imp byNameIff.mp)
  have member {a : Attachment} (here : a ∈ other.mergeSort byName) : a ∈ walk :=
    perm.mem_iff.mpr (List.mem_mergeSort.mp here)
  have pairs : (walk.mergeSort byName).map (fun a => (a.name, f a)) =
      (other.mergeSort byName).map fun a => (a.name, f a) := by
    refine List.Perm.eq_of_pairwise ?_ (rising walk) (rising other) (sorted.map _)
    intro x y first second before after
    obtain ⟨a, here, rfl⟩ := List.mem_map.mp first
    obtain ⟨b, there, rfl⟩ := List.mem_map.mp second
    have name : a.name = b.name := le_antisymm before after
    exact Prod.ext name (alike a (List.mem_mergeSort.mp here) b (member there) name)
  have shown := congrArg (List.map Prod.snd) pairs
  rwa [List.map_map, List.map_map] at shown

theorem sortedFilter (walk : List Attachment) (name : String) :
    (walk.mergeSort byName).filter (·.name = name) = walk.filter (·.name = name) := by
  -- The sort is stable, and attachments of one name are in order whatever their order is.
  have level : (walk.filter (·.name = name)).Pairwise fun a b => byName a b = true := by
    refine List.pairwise_of_forall_mem_list fun a here b there => byNameIff.mpr (le_of_eq ?_)
    exact (of_decide_eq_true (List.mem_filter.mp here).2).trans
      (of_decide_eq_true (List.mem_filter.mp there).2).symm
  have kept := (List.sublist_mergeSort byNameTrans byNameTotal level List.filter_sublist).filter
    fun a => decide (a.name = name)
  simp only [List.filter_filter, Bool.and_self] at kept
  refine (kept.eq_of_length ?_).symm
  exact (((List.mergeSort_perm walk byName).filter _).length_eq).symm

theorem Named.walked {m : AttachmentMap} (named : m.Named) {walk : List Attachment}
    (perm : walk.Perm m.entries.values) : walk.mergeSort byName = m.toRecords := by
  have shown := sortedAlike (f := id) perm fun a here b there name =>
    named.sameName (perm.mem_iff.mp here) (perm.mem_iff.mp there) name
  rwa [List.map_id, List.map_id] at shown

theorem ofRecordsNamed {m : AttachmentMap} (named : m.Named) : ofRecords m.toRecords = m := by
  have own : m.entries.values.map (fun a => (a.name, a)) = m.entries.entries := by
    unfold Dict.values
    rw [List.map_map]
    refine (List.map_congr_left ?_).trans (List.map_id _)
    intro e member
    exact Prod.ext (named.own e member) rfl
  unfold ofRecords
  rw [namedRecords named, own, Dict.ofListSorted named.sorted]

theorem unchangedEdit {m : AttachmentMap} {e : AttachmentEdit}
    (unchanged : (m.edit e).changed = false) : (m.edit e).map = m := by
  cases e with
  | put a => cases unchanged
  | remove name =>
    have absent := (Dict.notContains _ _).mp unchanged
    have kept : m.entries.entries.filter (fun x => ¬ x.1 = name) = m.entries.entries := by
      refine List.filter_eq_self.mpr fun x member => ?_
      have other := List.find?_eq_none.mp (Option.map_eq_none_iff.mp absent) x member
      simpa using other
    exact congrArg (fun es => (⟨⟨es⟩⟩ : AttachmentMap)) kept
  | clear =>
    have bare : m.entries.entries = [] := by
      simpa [edit, isEmpty, Dict.isEmpty] using unchanged
    exact congrArg (fun es => (⟨⟨es⟩⟩ : AttachmentMap)) bare.symm
  | retain keep =>
    have same : (m.entries.entries.filter fun x => keep x.2).length = m.entries.entries.length :=
      not_not.mp (of_decide_eq_false unchanged)
    have kept := List.filter_eq_self.mpr (List.length_filter_eq_length_iff.mp same)
    exact congrArg (fun es => (⟨⟨es⟩⟩ : AttachmentMap)) kept

theorem editNamed {m : AttachmentMap} (named : m.Named) (e : AttachmentEdit) :
    (m.edit e).map.Named := by
  cases e with
  | put a =>
    refine ⟨Dict.sortedInsert named.sorted _ _, fun x member => ?_⟩
    rcases Dict.memInsertEntry member with rfl | old
    · rfl
    · exact named.own x old
  | remove name =>
    exact ⟨named.sorted.filter _, fun x member => named.own x (List.mem_filter.mp member).1⟩
  | clear => exact emptyNamed
  | retain keep =>
    exact ⟨named.sorted.filter _, fun x member => named.own x (List.mem_filter.mp member).1⟩

def putAll (m : AttachmentMap) (records : List Attachment) : AttachmentMap :=
  records.foldl (fun m a => (m.edit (.put a)).map) m

theorem putAllEntries (m : AttachmentMap) (records : List Attachment) :
    (m.putAll records).entries =
      (records.map fun a => (a.name, a)).foldl (fun d e => d.insert e.1 e.2) m.entries := by
  unfold putAll
  induction records generalizing m with
  | nil => rfl
  | cons a rest ih => exact ih _

theorem ofRecordsPut (records : List Attachment) : ofRecords records = empty.putAll records :=
  congrArg AttachmentMap.mk (putAllEntries empty records).symm

theorem putAllPerm {m : AttachmentMap} {records others : List Attachment} (sorted : m.entries.Sorted)
    (perm : records.Perm others) (distinct : (records.map (·.name)).Nodup) :
    m.putAll records = m.putAll others := by
  have distinct : ((records.map fun a => (a.name, a)).map Prod.fst).Nodup := by
    rwa [List.map_map]
  have same : (m.putAll records).entries = (m.putAll others).entries := by
    rw [putAllEntries, putAllEntries]
    exact Dict.insertAllPerm (perm.map _) distinct sorted
  exact congrArg AttachmentMap.mk same

theorem putAllNamed {m : AttachmentMap} (named : m.Named) (records : List Attachment) :
    (m.putAll records).Named := by
  unfold putAll
  induction records generalizing m with
  | nil => exact named
  | cons a rest ih => exact ih (editNamed named (.put a))

theorem recordsNamed (records : List Attachment) : (ofRecords records).Named :=
  ofRecordsPut records ▸ putAllNamed emptyNamed records

end AttachmentMap

def AttachmentEdit.spares (x : String × Attachment) : AttachmentEdit → Prop
  | .put a => x.1 ≠ a.name
  | .remove name => x.1 ≠ name
  | .clear => False
  | .retain keep => keep x.2 = true

namespace AttachmentMap
variable {m : AttachmentMap} {x : String × Attachment}

structure Misplaced (m : AttachmentMap) (x : String × Attachment) : Prop where
  entry : x ∈ m.entries.entries
  other : x.2.name ≠ x.1

theorem namedIff (sorted : m.entries.Sorted) : m.Named ↔ ∀ x, ¬ m.Misplaced x := by
  constructor
  · exact fun named x misplaced => misplaced.other (named.own x misplaced.entry)
  · exact fun none => ⟨sorted, fun x entry => of_not_not fun other => none x ⟨entry, other⟩⟩

theorem Named.notMisplaced (named : m.Named) : ¬ m.Misplaced x :=
  (namedIff named.sorted).mp named x

theorem editSorted (sorted : m.entries.Sorted) (e : AttachmentEdit) :
    (m.edit e).map.entries.Sorted := by
  cases e with
  | put a => exact Dict.sortedInsert sorted _ _
  | remove name => exact Dict.sortedErase sorted name
  | clear => exact Dict.sortedEmpty
  | retain keep => exact sorted.filter _

theorem editMisplaced (sorted : m.entries.Sorted) (e : AttachmentEdit) :
    (m.edit e).map.Misplaced x ↔ m.Misplaced x ∧ e.spares x := by
  have narrowed {p : String × Attachment → Bool} {spared : Prop} (same : p x = true ↔ spared) :
      (⟨⟨m.entries.entries.filter p⟩⟩ : AttachmentMap).Misplaced x ↔ m.Misplaced x ∧ spared := by
    constructor
    · rintro ⟨entry, other⟩
      obtain ⟨entry, kept⟩ := List.mem_filter.mp entry
      exact ⟨⟨entry, other⟩, same.mp kept⟩
    · rintro ⟨⟨entry, other⟩, kept⟩
      exact ⟨List.mem_filter.mpr ⟨entry, same.mpr kept⟩, other⟩
  cases e with
  | put a =>
    have read : x ∈ (m.entries.insert a.name a).entries ↔
        (if x.1 = a.name then some a else m.entries.find? x.1) = some x.2 := by
      rw [← Dict.findInsert]
      exact Dict.memIff (editSorted sorted (.put a)) x.1 x.2
    by_cases here : x.1 = a.name
    · -- What stands there now is the attachment of that name.
      rw [if_pos here, Option.some_inj] at read
      constructor
      · intro misplaced
        have placed := read.mp misplaced.entry
        exact absurd (by rw [← placed, here]) misplaced.other
      · exact fun both => absurd here both.2
    · rw [if_neg here, ← Dict.memIff sorted] at read
      exact ⟨fun misplaced => ⟨⟨read.mp misplaced.entry, misplaced.other⟩, here⟩,
        fun both => ⟨read.mpr both.1.entry, both.1.other⟩⟩
  | remove name => exact narrowed decide_eq_true_iff
  | clear =>
    exact ⟨fun misplaced => absurd misplaced.entry List.not_mem_nil, fun both => both.2.elim⟩
  | retain keep => exact narrowed Iff.rfl

def edits (m : AttachmentMap) (es : List AttachmentEdit) : AttachmentMap :=
  es.foldl (fun m e => (m.edit e).map) m

theorem editsMisplaced (sorted : m.entries.Sorted) (es : List AttachmentEdit) :
    (m.edits es).entries.Sorted ∧
      ∀ x, (m.edits es).Misplaced x ↔ m.Misplaced x ∧ ∀ e ∈ es, e.spares x := by
  induction es generalizing m with
  | nil =>
    refine ⟨sorted, fun x => (and_iff_left ?_).symm⟩
    exact fun e member => absurd member List.not_mem_nil
  | cons e rest ih =>
    obtain ⟨after, misplaced⟩ := ih (editSorted sorted e)
    refine ⟨after, fun x => ?_⟩
    rw [List.forall_mem_cons, ← and_assoc, ← editMisplaced sorted]
    exact misplaced x

structure Faithful (m : AttachmentMap) : Prop where
  own : ∀ e ∈ m.entries.entries, e.2.name = e.1
  rising : m.toRecords.Pairwise fun a b => a.name < b.name
  restored : ofRecords m.toRecords = m
  found : ∀ name a, m.get? name = some a ↔ a ∈ m.toRecords ∧ a.name = name
  removed : ∀ name, (m.edit (.remove name)).previous = m.toRecords.find? (·.name = name) ∧
    (m.edit (.remove name)).map.toRecords = m.toRecords.filter (·.name ≠ name)

theorem Named.getValue (named : m.Named) (name : String) :
    m.get? name = m.toRecords.find? (·.name = name) := by
  rw [namedRecords named]
  unfold get? Dict.find? Dict.values
  rw [List.find?_map]
  refine congrArg (Option.map Prod.snd) (List.find?_congr fun e member => ?_)
  rw [Function.comp_apply, named.own e member]

theorem Named.faithful (named : m.Named) : m.Faithful where
  own := named.own
  rising := namedRecords named ▸ named.rising
  restored := ofRecordsNamed named
  found name a := by
    rw [namedRecords named]
    unfold get? Dict.values
    rw [← Dict.memIff named.sorted, List.mem_map]
    constructor
    · exact fun entry => ⟨⟨(name, a), entry, rfl⟩, named.own (name, a) entry⟩
    · rintro ⟨⟨e, entry, rfl⟩, rfl⟩
      rw [named.own e entry]
      exact entry
  removed name := by
    refine ⟨named.getValue name, ?_⟩
    rw [namedRecords (editNamed named (.remove name)), namedRecords named]
    exact Dict.Keyed.chosen named.own fun key => decide (key ≠ name)

theorem faithfulIff (sorted : m.entries.Sorted) : m.Faithful ↔ ∀ x, ¬ m.Misplaced x := by
  rw [← namedIff sorted]
  exact ⟨fun faithful => ⟨sorted, faithful.own⟩, Named.faithful⟩

theorem editsFaithful (sorted : m.entries.Sorted) (es : List AttachmentEdit) :
    (m.edits es).Faithful ↔ ∀ x, m.Misplaced x → ∃ e ∈ es, ¬ e.spares x := by
  obtain ⟨after, misplaced⟩ := editsMisplaced sorted es
  rw [faithfulIff after]
  refine forall_congr' fun x => ?_
  rw [misplaced, not_and]
  simp only [not_forall, exists_prop]

theorem Named.edited (named : m.Named) (es : List AttachmentEdit) : (m.edits es).Faithful :=
  (editsFaithful named.sorted es).mpr fun _ misplaced => absurd misplaced named.notMisplaced

theorem restoredIff : ofRecords m.toRecords = m ↔ m.Named :=
  ⟨fun same => same ▸ recordsNamed m.toRecords, ofRecordsNamed⟩

end AttachmentMap
end RevForest
