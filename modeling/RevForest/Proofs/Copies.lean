import Mathlib.Data.List.Basic
import RevForest.Copies
import RevForest.Proofs.Attachment

/-! Copies do not meet. Each copy owns its flag, and the hook of its attachments raises that flag
and no other, so a desk of copies acts like a list of values: an edit changes one of them.
A copy whose flag is down has the content of what it was copied from. -/
namespace RevForest

def Command.onValues (rs : List Revision) : Command → List Revision
  | .copy i => rs ++ rs[i]?.toList
  | .project i fields => rs ++ (rs[i]?.map (·.project fields)).toList
  | .edit i e => rs.modify i (·.edited e)
  | .detach _ | .editLoose _ _ => rs

namespace Desk
variable {k : Desk} {i : Nat} {c : Copy}

structure Owned (k : Desk) : Prop where
  flags : k.flags.length = k.copies.length
  own : ∀ (i : Nat) (c : Copy), k.copies[i]? = some c → c.flag = i ∧ c.attachments.hook = some i
  loose : ∀ m ∈ k.loose, m.hook = none

theorem valuesAt (k : Desk) (i : Nat) : k.values[i]? = k.copies[i]?.map k.shown :=
  List.getElem?_map

theorem Owned.shownSame (owned : k.Owned) {flags : List Bool} (found : k.copies[i]? = some c)
    (same : flags[i]? = k.flags[i]?) : { k with flags }.shown c = k.shown c := by
  obtain ⟨own, _⟩ := owned.own i c found
  unfold shown
  rw [own, List.getD_eq_getElem?_getD, List.getD_eq_getElem?_getD, same]

theorem Owned.assemble (owned : k.Owned) (r : Revision) :
    (k.assemble r).Owned ∧ (k.assemble r).values = k.values ++ [r] := by
  have flags := owned.flags
  refine ⟨⟨by simp [Desk.assemble, flags], ?_, owned.loose⟩, ?_⟩
  · intro i c found
    replace found : (k.copies ++ [_])[i]? = some c := found
    rw [List.getElem?_append] at found
    split at found
    · exact owned.own i c found
    · rename_i last
      rw [List.getElem?_singleton] at found
      split at found <;> cases found
      have number : k.flags.length = i := by omega
      exact ⟨number, congrArg some number⟩
  · unfold values
    show (k.copies ++ [_]).map (k.assemble r).shown = _
    rw [List.map_append, List.map_singleton]
    congr 1
    · refine List.map_congr_left fun c member => ?_
      -- The new flag comes last, so the other copies find theirs where they were.
      obtain ⟨i, found⟩ := List.mem_iff_getElem?.mp member
      refine owned.shownSame found (List.getElem?_append_left ?_)
      rw [flags]
      exact (List.getElem?_eq_some_iff.mp found).1
    · unfold shown Desk.assemble
      rw [List.getD_eq_getElem?_getD, List.getElem?_concat_length]
      rfl

def replace (k : Desk) (i : Nat) (c : Copy) (up : Bool) : Desk :=
  (k.put i c).raise (if up then some i else none)

theorem replaceShape (k : Desk) (i : Nat) (c : Copy) (up : Bool) :
    k.replace i c up =
      { k with
        flags := if up then k.flags.set i true else k.flags
        copies := k.copies.set i c } := by
  unfold Desk.replace
  cases up <;> rfl

theorem Owned.replace (owned : k.Owned) (found : k.copies[i]? = some c) {a : Copy}
    (flag : a.flag = i) (hook : a.attachments.hook = some i) (up : Bool) :
    (k.replace i a up).Owned ∧ (k.replace i a up).values =
      k.values.set i { a.kept with
        attachments := a.attachments.map, dirty := (k.shown c).dirty || up } := by
  obtain ⟨own, _⟩ := owned.own i c found
  have inside : i < k.flags.length := by
    rw [owned.flags]
    exact (List.getElem?_eq_some_iff.mp found).1
  rw [replaceShape]
  refine ⟨⟨?_, ?_, owned.loose⟩, ?_⟩
  · cases up <;> simp [owned.flags]
  · intro j x there
    rw [List.getElem?_set] at there
    split at there
    · rename_i same
      rw [if_pos (owned.flags ▸ inside)] at there
      cases there
      exact ⟨flag.trans same, hook.trans (congrArg some same)⟩
    · exact owned.own j x there
  · unfold values
    rw [List.map_set]
    refine List.ext_getElem? fun j => ?_
    rw [List.getElem?_set, List.getElem?_set, List.length_map, List.length_map]
    split
    · unfold shown
      cases up <;> simp [flag, own, inside]
    · rename_i other
      rw [List.getElem?_map, List.getElem?_map]
      cases there : k.copies[j]? with
      | none => rfl
      | some x =>
        refine congrArg some (owned.shownSame there ?_)
        cases up
        · rfl
        · exact List.getElem?_set_ne other

theorem Owned.edit (owned : k.Owned) (found : k.copies[i]? = some c) (e : ContentEdit) :
    (k.edit i c e).Owned ∧ (k.edit i c e).values = k.values.modify i (·.edited e) := by
  obtain ⟨kept, ⟨map, hook⟩, flag⟩ := c
  obtain ⟨own, watched⟩ := owned.own i _ found
  dsimp only at own watched
  subst own watched
  rw [List.modify_eq_set_getElem?, valuesAt, found]
  cases e with
  | body body =>
    obtain ⟨done, values⟩ := owned.replace found
      (a := ⟨{ kept with body }, ⟨map, some flag⟩, flag⟩) rfl rfl true
    refine ⟨done, values.trans (congrArg (k.values.set flag) ?_)⟩
    rw [Bool.or_true]
    rfl
  | attachments entries =>
    obtain ⟨done, values⟩ := owned.replace found
      (a := ⟨kept, ⟨.ofDict entries, some flag⟩, flag⟩) rfl rfl true
    refine ⟨done, values.trans (congrArg (k.values.set flag) ?_)⟩
    rw [Bool.or_true]
    rfl
  | change e =>
    exact owned.replace found (a := ⟨kept, ⟨(map.edit e).map, some flag⟩, flag⟩) rfl rfl
      (map.edit e).changed
  | sequence q =>
    obtain ⟨done, values⟩ := owned.replace found
      (a := ⟨(kept.initializeSequence q).1, ⟨map, some flag⟩, flag⟩) rfl rfl false
    refine ⟨done, values.trans (congrArg (k.values.set flag) ?_)⟩
    rw [Bool.or_false]
    unfold Revision.edited Revision.initializeSequence Desk.shown
    dsimp only
    split <;> rfl

theorem Owned.step (owned : k.Owned) (command : Command) :
    (k.step command).Owned ∧ (k.step command).values = command.onValues k.values := by
  unfold Desk.step Command.onValues
  cases command with
  | copy i =>
    dsimp only
    rw [valuesAt]
    cases k.copies[i]? with
    | none => exact ⟨owned, (List.append_nil _).symm⟩
    | some c => exact owned.assemble _
  | project i fields =>
    dsimp only
    rw [valuesAt]
    cases k.copies[i]? with
    | none => exact ⟨owned, (List.append_nil _).symm⟩
    | some c => exact owned.assemble _
  | edit i e =>
    dsimp only
    cases found : k.copies[i]? with
    | some c => exact owned.edit found e
    | none =>
      have none : k.values[i]? = none := by
        rw [valuesAt, found]
        rfl
      exact ⟨owned, (List.modify_eq_self (List.getElem?_eq_none_iff.mp none)).symm⟩
  | detach i =>
    dsimp only
    cases found : k.copies[i]? with
    | none => exact ⟨owned, rfl⟩
    | some c =>
      refine ⟨⟨owned.flags, owned.own, ?_⟩, rfl⟩
      intro m member
      rcases List.mem_append.mp member with old | new
      · exact owned.loose m old
      · rw [List.mem_singleton.mp new]
  | editLoose j e =>
    dsimp only
    cases found : k.loose[j]? with
    | none => exact ⟨owned, rfl⟩
    | some m =>
      have silent := owned.loose m (List.mem_of_getElem? found)
      dsimp only
      rw [silent, ite_self]
      refine ⟨⟨owned.flags, owned.own, ?_⟩, rfl⟩
      intro x member
      rcases List.mem_or_eq_of_mem_set member with old | rfl
      · exact owned.loose x old
      · rfl

theorem Owned.run (owned : k.Owned) (commands : List Command) :
    (k.run commands).Owned ∧
      (k.run commands).values = commands.foldl Command.onValues k.values := by
  induction commands generalizing k with
  | nil => exact ⟨owned, rfl⟩
  | cons command rest ih =>
    obtain ⟨after, values⟩ := owned.step command
    obtain ⟨last, same⟩ := ih after
    rw [values] at same
    exact ⟨last, same⟩

theorem ofOwned (r : Revision) : (of r).Owned ∧ (of r).values = [r] :=
  Owned.assemble ⟨rfl, fun i c found => by simp at found, fun m member => by simp at member⟩ r

theorem valuesRun (r : Revision) (commands : List Command) :
    ((of r).run commands).Owned ∧
      ((of r).run commands).values = commands.foldl Command.onValues [r] := by
  obtain ⟨owned, values⟩ := ofOwned r
  exact values ▸ owned.run commands

end Desk

def Command.own (j : Nat) : Command → Option ContentEdit
  | .edit i e => if i = j then some e else none
  | _ => none

theorem Command.valueAt {rs : List Revision} {j : Nat} {r : Revision} (found : rs[j]? = some r)
    (command : Command) :
    (command.onValues rs)[j]? = some ((command.own j).toList.foldl Revision.edited r) := by
  have inside := (List.getElem?_eq_some_iff.mp found).1
  unfold onValues own
  cases command with
  | copy i => exact (List.getElem?_append_left inside).trans found
  | project i fields => exact (List.getElem?_append_left inside).trans found
  | edit i e =>
    dsimp only
    rw [List.getElem?_modify, found]
    split <;> rfl
  | detach i => exact found
  | editLoose i e => exact found

theorem Command.valueRun {rs : List Revision} {j : Nat} {r : Revision} (found : rs[j]? = some r)
    (commands : List Command) :
    (commands.foldl onValues rs)[j]? =
      some ((commands.filterMap (own j)).foldl Revision.edited r) := by
  induction commands generalizing rs r with
  | nil => exact found
  | cons command rest ih =>
    rw [List.foldl_cons, ih (command.valueAt found), List.filterMap_cons]
    cases command.own j <;> rfl

theorem Desk.Owned.apart {k : Desk} (owned : k.Owned) {j : Nat} {r : Revision}
    (found : k.values[j]? = some r) (commands : List Command) :
    (k.run commands).values[j]? =
      some ((commands.filterMap (Command.own j)).foldl Revision.edited r) := by
  rw [(owned.run commands).2, Command.valueRun found]

def Command.Named : Command → Prop
  | .edit _ (.attachments entries) => (AttachmentMap.ofDict entries).Named
  | _ => True

structure Revision.From (x r : Revision) : Prop where
  document : x.document = r.document
  id : x.id = r.id
  deleted : x.deleted = r.deleted
  partly : r.isProjected = true → x.isProjected = true
  same : x.projection = none → x.dirty = false → x.body = r.body ∧ x.attachments = r.attachments

namespace Revision.From
variable {r x : Revision}

theorem refl (r : Revision) : r.From r := ⟨rfl, rfl, rfl, fun part => part, fun _ _ => ⟨rfl, rfl⟩⟩

theorem project (made : x.From r) (fields : List String) : (x.project fields).From r :=
  ⟨made.document, made.id, made.deleted, fun _ => rfl, fun full => by cases full⟩

theorem edited (made : x.From r) (e : ContentEdit) : (x.edited e).From r := by
  cases e with
  | body body => exact ⟨made.document, made.id, made.deleted, made.partly, fun _ clean => by cases clean⟩
  | attachments entries =>
    exact ⟨made.document, made.id, made.deleted, made.partly, fun _ clean => by cases clean⟩
  | change e =>
    refine ⟨made.document, made.id, made.deleted, made.partly, fun full clean => ?_⟩
    obtain ⟨before, unchanged⟩ := Bool.or_eq_false_iff.mp clean
    obtain ⟨body, attachments⟩ := made.same full before
    exact ⟨body, (AttachmentMap.unchangedEdit unchanged).trans attachments⟩
  | sequence q =>
    unfold Revision.edited initializeSequence
    dsimp only
    split
    · exact ⟨made.document, made.id, made.deleted, made.partly, made.same⟩
    · exact made

end Revision.From

theorem Command.keeps {P : Revision → Prop} (command : Command)
    (project : ∀ x fields, P x → P (x.project fields))
    (edited : ∀ i e, command = .edit i e → ∀ x, P x → P (x.edited e)) {rs : List Revision}
    (before : ∀ x ∈ rs, P x) : ∀ x ∈ command.onValues rs, P x := by
  have here {i : Nat} {r : Revision} (found : rs[i]? = some r) : P r :=
    before r (List.mem_of_getElem? found)
  unfold onValues
  cases command with
  | copy i =>
    intro x member
    rcases List.mem_append.mp member with old | new
    · exact before x old
    · exact here (Option.mem_toList.mp new)
  | project i fields =>
    intro x member
    rcases List.mem_append.mp member with old | new
    · exact before x old
    · obtain ⟨r, found, rfl⟩ := Option.map_eq_some_iff.mp (Option.mem_toList.mp new)
      exact project r fields (here found)
  | edit i e =>
    intro x member
    obtain ⟨j, found⟩ := List.mem_iff_getElem?.mp member
    rw [List.getElem?_modify] at found
    obtain ⟨old, there, rfl⟩ := Option.map_eq_some_iff.mp found
    split
    · exact edited i e rfl old (here there)
    · exact here there
  | detach i => exact before
  | editLoose j e => exact before

theorem Command.keepsRun {P : Revision → Prop} {commands : List Command}
    (project : ∀ x fields, P x → P (x.project fields))
    (edited : ∀ i e, .edit i e ∈ commands → ∀ x, P x → P (x.edited e)) {rs : List Revision}
    (before : ∀ x ∈ rs, P x) : ∀ x ∈ commands.foldl onValues rs, P x := by
  induction commands generalizing rs with
  | nil => exact before
  | cons command rest ih =>
    refine ih (fun i e later => edited i e (List.mem_cons_of_mem _ later)) ?_
    exact command.keeps project (fun i e same => edited i e (same ▸ List.mem_cons_self)) before

theorem Desk.allFrom {r x : Revision} {commands : List Command}
    (member : x ∈ ((Desk.of r).run commands).values) : x.From r := by
  rw [(Desk.valuesRun r commands).2] at member
  refine Command.keepsRun (P := fun x => x.From r) (fun x fields made => made.project fields)
    (fun _ e _ x made => made.edited e) ?_ x member
  intro x only
  exact List.mem_singleton.mp only ▸ .refl r

theorem Desk.allNamed {r x : Revision} {commands : List Command} (named : r.attachments.Named)
    (given : ∀ command ∈ commands, command.Named)
    (member : x ∈ ((Desk.of r).run commands).values) : x.attachments.Named := by
  rw [(Desk.valuesRun r commands).2] at member
  refine Command.keepsRun (P := fun x => x.attachments.Named) ?_ ?_ ?_ x member
  · intro x fields named
    show (AttachmentMap.ofRecords x.attachments.toRecords).Named
    rwa [AttachmentMap.ofRecordsNamed named]
  · intro i e inside x named
    cases e with
    | body body => exact named
    | attachments entries => exact given _ inside
    | change e => exact AttachmentMap.editNamed named e
    | sequence q =>
      unfold Revision.edited Revision.initializeSequence
      dsimp only
      split <;> exact named
  · intro x only
    exact List.mem_singleton.mp only ▸ named

end RevForest
