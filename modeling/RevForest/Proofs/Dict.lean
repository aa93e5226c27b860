import Mathlib.Data.List.Nodup
import Mathlib.Data.List.Pairwise
import Mathlib.Order.Defs.Unbundled
import RevForest.Dict

/-! Looking up in a dictionary after a change, and the order of its keys. What a
look-up finds needs no order: an entry is put before, in place of or behind the
others, and the first of a key counts. With the keys in order an entry is found
exactly where it stands. -/
namespace RevForest.Dict
variable {κ ν : Type}

theorem sortedEmpty [LT κ] : (empty : Dict κ ν).Sorted := List.Pairwise.nil

variable [DecidableEq κ]

@[simp] theorem findEmpty (k : κ) : (empty : Dict κ ν).find? k = none := rfl

theorem findCons (e : κ × ν) (rest : List (κ × ν)) (k : κ) :
    (⟨e :: rest⟩ : Dict κ ν).find? k =
      if e.1 = k then some e.2 else (⟨rest⟩ : Dict κ ν).find? k := by
  unfold find?
  by_cases same : e.1 = k <;> simp [same]

theorem findDistinct {entries : List (κ × ν)} (distinct : (entries.map Prod.fst).Nodup) {e : κ × ν}
    (member : e ∈ entries) : (⟨entries⟩ : Dict κ ν).find? e.1 = some e.2 := by
  induction entries with
  | nil => cases member
  | cons head rest ih =>
    obtain ⟨new, distinct⟩ := List.nodup_cons.mp distinct
    rw [findCons]
    rcases List.mem_cons.mp member with rfl | later
    · exact if_pos rfl
    · have other : head.1 ≠ e.1 := fun same => new (same ▸ List.mem_map_of_mem later)
      rw [if_neg other, ih distinct later]

theorem findInsert [LT κ] [DecidableLT κ] (d : Dict κ ν) (k : κ) (v : ν) (j : κ) :
    (d.insert k v).find? j = if j = k then some v else d.find? j := by
  obtain ⟨entries⟩ := d
  unfold insert
  induction entries with
  | nil => simp [insertEntry, find?, eq_comm]
  | cons e rest ih =>
    simp only [insertEntry]
    split
    · rw [findCons]
      simp [eq_comm]
    · split
      · rename_i same
        rw [findCons, findCons]
        by_cases here : j = k
        · simp [here]
        · simp [here, ← same, Ne.symm here]
      · rename_i different
        rw [findCons, findCons, ih]
        by_cases here : j = k
        · simp [here, Ne.symm different]
        · simp [here]

theorem findErase (d : Dict κ ν) (k j : κ) :
    (d.erase k).find? j = if j = k then none else d.find? j := by
  obtain ⟨entries⟩ := d
  unfold erase
  induction entries with
  | nil => exact (ite_self none).symm
  | cons e rest ih =>
    rw [findCons, List.filter_cons]
    by_cases gone : e.1 = k
    · rw [if_neg (by simpa using gone), ih]
      by_cases here : j = k
      · rw [if_pos here, if_pos here]
      · rw [if_neg here, if_neg here, if_neg fun same => here (same.symm.trans gone)]
    · rw [if_pos (by simpa using gone), findCons, ih]
      by_cases here : j = k
      · rw [if_pos here, if_pos here, if_neg fun same => gone (same.trans here)]
      · rw [if_neg here, if_neg here]

theorem findChosen (d : Dict κ ν) (chosen : κ → Bool) (k : κ) :
    (d.filter fun key _ => chosen key).find? k = if chosen k then d.find? k else none := by
  obtain ⟨entries⟩ := d
  unfold filter
  induction entries with
  | nil => exact (ite_self none).symm
  | cons e rest ih =>
    rw [findCons, List.filter_cons]
    by_cases here : e.1 = k
    · rw [if_pos here, here]
      by_cases kept : chosen k = true
      · rw [if_pos kept, findCons, if_pos here, if_pos kept]
      · rw [if_neg kept, ih, if_neg kept, if_neg kept]
    · rw [if_neg here, ← ih]
      split
      · rw [findCons, if_neg here]
      · rfl

theorem findAdjust (d : Dict κ ν) (k : κ) (change : ν → ν) (j : κ) :
    (d.adjust k change).find? j = if j = k then (d.find? k).map change else d.find? j := by
  obtain ⟨entries⟩ := d
  unfold adjust
  induction entries with
  | nil => simp [find?]
  | cons e rest ih =>
    simp only [List.map_cons]
    rw [findCons, findCons, findCons, ih]
    by_cases here : e.1 = k
    · by_cases same : j = k
      · simp [here, same]
      · simp [here, same, Ne.symm same]
    · by_cases same : j = k
      · simp [here, same]
      · simp [here, same]

theorem notContains (d : Dict κ ν) (k : κ) : d.contains k = false ↔ d.find? k = none := by
  unfold contains
  simp

theorem findNoneIff (d : Dict κ ν) (k : κ) : d.find? k = none ↔ k ∉ d.keys := by
  unfold find? keys
  rw [Option.map_eq_none_iff, List.find?_eq_none, List.mem_map, not_exists]
  refine forall_congr' fun e => ?_
  rw [not_and, decide_eq_true_eq]

theorem eraseAbsent {d : Dict κ ν} {k : κ} (absent : d.find? k = none) : d.erase k = d := by
  have other := (findNoneIff d k).mp absent
  refine congrArg Dict.mk (List.filter_eq_self.mpr fun e member => ?_)
  exact decide_eq_true fun here => other (here ▸ List.mem_map_of_mem member)

theorem sortedAdjust [LT κ] {d : Dict κ ν} (sorted : d.Sorted) (k : κ) (change : ν → ν) :
    (d.adjust k change).Sorted := by
  unfold Sorted adjust at *
  refine List.pairwise_map.mpr (sorted.imp ?_)
  intro a b before
  split <;> split <;> exact before

theorem sortedErase [LT κ] {d : Dict κ ν} (sorted : d.Sorted) (k : κ) : (d.erase k).Sorted :=
  List.Pairwise.filter _ sorted

theorem memInsertEntry [LT κ] [DecidableLT κ] {k : κ} {v : ν} {entries : List (κ × ν)} {e : κ × ν}
    (member : e ∈ insertEntry k v entries) : e = (k, v) ∨ e ∈ entries := by
  induction entries with
  | nil => simpa [insertEntry] using member
  | cons head rest ih =>
    simp only [insertEntry] at member
    split at member
    · simpa using member
    · split at member
      · rcases List.mem_cons.mp member with same | old
        · exact .inl same
        · exact .inr (List.mem_cons_of_mem _ old)
      · rcases List.mem_cons.mp member with same | old
        · exact .inr (same ▸ List.mem_cons_self)
        · exact (ih old).imp id (List.mem_cons_of_mem _)

theorem memInsertAll [LT κ] [DecidableLT κ] {d : Dict κ ν} {entries : List (κ × ν)} {e : κ × ν}
    (member : e ∈ (entries.foldl (fun d e => d.insert e.1 e.2) d).entries) :
    e ∈ entries ∨ e ∈ d.entries := by
  induction entries generalizing d with
  | nil => exact .inr member
  | cons head rest ih =>
    rcases ih member with later | before
    · exact .inl (List.mem_cons_of_mem _ later)
    · rcases memInsertEntry before with rfl | old
      · exact .inl List.mem_cons_self
      · exact .inr old

theorem memOfList [LT κ] [DecidableLT κ] {entries : List (κ × ν)} {e : κ × ν}
    (member : e ∈ (ofList entries).entries) : e ∈ entries :=
  (memInsertAll member).resolve_right (List.not_mem_nil)

theorem keyInsertAll [LT κ] [DecidableLT κ] {d : Dict κ ν} {entries : List (κ × ν)} {k : κ}
    (there : k ∈ entries.map Prod.fst ∨ d.find? k ≠ none) :
    (entries.foldl (fun d e => d.insert e.1 e.2) d).find? k ≠ none := by
  induction entries generalizing d with
  | nil => exact there.resolve_left List.not_mem_nil
  | cons head rest ih =>
    refine ih ?_
    rw [findInsert]
    by_cases here : k = head.1
    · rw [if_pos here]
      exact .inr (Option.some_ne_none _)
    · rw [if_neg here]
      rw [List.map_cons, List.mem_cons, or_assoc] at there
      exact there.resolve_left here

theorem keyOfList [LT κ] [DecidableLT κ] {entries : List (κ × ν)} {k : κ}
    (there : k ∈ entries.map Prod.fst) : (ofList entries).find? k ≠ none :=
  keyInsertAll (.inl there)

theorem sortedInsert [LT κ] [DecidableLT κ] [IsStrictTotalOrder κ (· < ·)] {d : Dict κ ν}
    (sorted : d.Sorted) (k : κ) (v : ν) : (d.insert k v).Sorted := by
  obtain ⟨entries⟩ := d
  unfold Sorted insert at *
  induction entries with
  | nil => simp [insertEntry]
  | cons head rest ih =>
    obtain ⟨first, tail⟩ := List.pairwise_cons.mp sorted
    simp only [insertEntry]
    split
    · rename_i before
      refine List.pairwise_cons.mpr ⟨?_, sorted⟩
      intro e member
      rcases List.mem_cons.mp member with rfl | member
      · exact before
      · exact IsTrans.trans _ _ _ before (first e member)
    · split
      · rename_i same
        exact List.pairwise_cons.mpr ⟨fun e member => same ▸ first e member, tail⟩
      · rename_i notBefore different
        refine List.pairwise_cons.mpr ⟨?_, ih tail⟩
        intro e member
        rcases memInsertEntry member with rfl | member
        · exact ((Std.Trichotomous.rel_or_eq_or_rel_swap (r := (· < ·))).resolve_left
            notBefore).resolve_left different
        · exact first e member

theorem memIff [LT κ] [IsStrictTotalOrder κ (· < ·)] {d : Dict κ ν} (sorted : d.Sorted) (k : κ)
    (v : ν) : (k, v) ∈ d.entries ↔ d.find? k = some v := by
  obtain ⟨entries⟩ := d
  unfold Sorted at sorted
  induction entries with
  | nil => simp [find?]
  | cons head rest ih =>
    obtain ⟨first, tail⟩ := List.pairwise_cons.mp sorted
    rw [findCons, List.mem_cons]
    by_cases here : head.1 = k
    · rw [if_pos here]
      -- An entry of the same key further back would come after itself.
      have once : (k, v) ∉ rest := by
        intro later
        have after := first _ later
        rw [here] at after
        exact Std.Irrefl.irrefl (r := (· < ·)) k after
      constructor
      · intro h
        rcases h with same | later
        · exact congrArg (fun e => some e.2) same.symm
        · exact absurd later once
      · intro same
        exact .inl (Prod.ext here.symm (Option.some.inj same).symm)
    · rw [if_neg here, ← ih tail]
      exact or_iff_right fun same => here (congrArg Prod.fst same.symm)

theorem extFind [LT κ] [IsStrictTotalOrder κ (· < ·)] {d e : Dict κ ν} (sorted : d.Sorted)
    (sorted' : e.Sorted) (same : ∀ k, d.find? k = e.find? k) : d = e := by
  obtain ⟨entries⟩ := d
  obtain ⟨others⟩ := e
  have once {es : List (κ × ν)} (order : es.Pairwise fun a b => a.1 < b.1) : es.Nodup := by
    refine order.imp ?_
    rintro a _ before rfl
    exact irrefl a.1 before
  refine congrArg Dict.mk (List.Perm.eq_of_pairwise ?_ sorted sorted' ?_)
  · intro a b _ _ before after
    exact absurd after (asymm before)
  · refine (List.perm_ext_iff_of_nodup (once sorted) (once sorted')).mpr ?_
    rintro ⟨k, v⟩
    rw [memIff sorted, memIff sorted', same]

theorem insertLast [LT κ] [DecidableLT κ] [IsStrictTotalOrder κ (· < ·)] {k : κ} {v : ν}
    {entries : List (κ × ν)} (last : ∀ e ∈ entries, e.1 < k) :
    insertEntry k v entries = entries ++ [(k, v)] := by
  induction entries with
  | nil => rfl
  | cons head rest ih =>
    have before : head.1 < k := last head List.mem_cons_self
    have notAfter : ¬ k < head.1 := asymm before
    have other : k ≠ head.1 := fun same => irrefl k (same.symm ▸ before)
    unfold insertEntry
    rw [if_neg notAfter, if_neg other, ih fun e member => last e (List.mem_cons_of_mem _ member)]
    rfl

theorem sizeAdjust (d : Dict κ ν) (k : κ) (change : ν → ν) : (d.adjust k change).size = d.size :=
  List.length_map _

theorem sizeInsert [LT κ] [DecidableLT κ] [IsStrictTotalOrder κ (· < ·)] {d : Dict κ ν}
    (sorted : d.Sorted) (k : κ) (v : ν) :
    (d.insert k v).size = d.size + if d.find? k = none then 1 else 0 := by
  obtain ⟨entries⟩ := d
  unfold size insert
  induction entries with
  | nil => rfl
  | cons head rest ih =>
    obtain ⟨first, tail⟩ := List.pairwise_cons.mp sorted
    rw [findCons]
    simp only [insertEntry]
    split
    · -- All keys are behind the new one, so it is none of them.
      rename_i before
      have other : head.1 ≠ k := fun same => irrefl k (same ▸ before)
      have absent : (⟨rest⟩ : Dict κ ν).find? k = none := by
        refine Option.eq_none_iff_forall_ne_some.mpr ?_
        intro w found
        exact asymm before (first (k, w) ((memIff tail k w).mpr found))
      rw [if_neg other, if_pos absent]
      rfl
    · split
      · rename_i same
        rw [if_pos same.symm]
        rfl
      · rename_i other
        rw [if_neg (Ne.symm other), List.length_cons, ih tail, List.length_cons]
        exact Nat.add_right_comm _ _ _

theorem ofListSorted [LT κ] [DecidableLT κ] [IsStrictTotalOrder κ (· < ·)] {d : Dict κ ν}
    (sorted : d.Sorted) : ofList d.entries = d := by
  obtain ⟨entries⟩ := d
  have fold (front back : List (κ × ν)) (order : (front ++ back).Pairwise fun a b => a.1 < b.1) :
      back.foldl (fun d e => d.insert e.1 e.2) (⟨front⟩ : Dict κ ν) = ⟨front ++ back⟩ := by
    induction back generalizing front with
    | nil => rw [List.append_nil]; rfl
    | cons e rest ih =>
      obtain ⟨_, _, cross⟩ := List.pairwise_append.mp order
      have last : ∀ a ∈ front, a.1 < e.1 := fun a member => cross a member e List.mem_cons_self
      rw [List.append_cons] at order ⊢
      rw [List.foldl_cons, ← ih _ order]
      unfold insert
      rw [insertLast last]
  exact fold [] entries sorted

section Order
variable [LT κ] [DecidableLT κ] [IsStrictTotalOrder κ (· < ·)] {d : Dict κ ν}

theorem insertSwap (sorted : d.Sorted) {k l : κ} (other : k ≠ l) (v w : ν) :
    (d.insert k v).insert l w = (d.insert l w).insert k v := by
  refine extFind (sortedInsert (sortedInsert sorted _ _) _ _)
    (sortedInsert (sortedInsert sorted _ _) _ _) fun j => ?_
  rw [findInsert, findInsert, findInsert, findInsert]
  by_cases first : j = k
  · rw [if_pos first, if_pos first, if_neg fun same => other (first.symm.trans same)]
  · rw [if_neg first, if_neg first]

theorem insertAllPerm {entries others : List (κ × ν)} (perm : entries.Perm others)
    (distinct : (entries.map Prod.fst).Nodup) (sorted : d.Sorted) :
    entries.foldl (fun d e => d.insert e.1 e.2) d =
      others.foldl (fun d e => d.insert e.1 e.2) d := by
  induction perm generalizing d with
  | nil => rfl
  | cons e _ ih => exact ih (List.nodup_cons.mp distinct).2 (sortedInsert sorted e.1 e.2)
  | swap e f rest =>
    have other : f.1 ≠ e.1 := fun same =>
      (List.nodup_cons.mp distinct).1 (same ▸ List.mem_cons_self)
    rw [List.foldl_cons, List.foldl_cons, insertSwap sorted other]
    rfl
  | trans first _ ih later =>
    exact (ih distinct sorted).trans (later ((first.map _).nodup_iff.mp distinct) sorted)

theorem ofListPerm {entries others : List (κ × ν)} (perm : entries.Perm others)
    (distinct : (entries.map Prod.fst).Nodup) : ofList entries = ofList others :=
  insertAllPerm perm distinct sortedEmpty

theorem sortedInsertAll (sorted : d.Sorted) (entries : List (κ × ν)) :
    (entries.foldl (fun d e => d.insert e.1 e.2) d).Sorted := by
  induction entries generalizing d with
  | nil => exact sorted
  | cons e rest ih => exact ih (sortedInsert sorted e.1 e.2)

theorem sortedOfList (entries : List (κ × ν)) : (ofList entries).Sorted :=
  sortedInsertAll sortedEmpty entries

end Order

def Keyed (d : Dict κ ν) (key : ν → κ) : Prop := ∀ e ∈ d.entries, key e.2 = e.1

variable {d : Dict κ ν} {key : ν → κ}

theorem keyedIff [LT κ] [IsStrictTotalOrder κ (· < ·)] (sorted : d.Sorted) :
    d.Keyed key ↔ ∀ k v, d.find? k = some v → key v = k := by
  constructor
  · exact fun keyed k v found => keyed (k, v) ((memIff sorted k v).mpr found)
  · exact fun own e member => own e.1 e.2 ((memIff sorted e.1 e.2).mp member)

omit [DecidableEq κ] in
theorem Keyed.rising [LT κ] (keyed : d.Keyed key) (sorted : d.Sorted) :
    d.values.Pairwise fun v w => key v < key w := by
  unfold values
  refine List.pairwise_map.mpr (sorted.imp_of_mem ?_)
  intro a b first second before
  rw [keyed a first, keyed b second]
  exact before

omit [DecidableEq κ] in
theorem Keyed.chosen (keyed : d.Keyed key) (p : κ → Bool) :
    (d.entries.filter fun e => p e.1).map (·.2) = d.values.filter fun v => p (key v) := by
  unfold values
  rw [List.filter_map]
  refine congrArg (List.map Prod.snd) (List.filter_congr ?_)
  intro e member
  show p e.1 = p (key e.2)
  rw [keyed e member]

end RevForest.Dict
