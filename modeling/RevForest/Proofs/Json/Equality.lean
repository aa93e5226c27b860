import Mathlib.Data.String.Basic
import Mathlib.Order.RelClasses
import RevForest.Json.Printer
import RevForest.Json.Wire
import RevForest.Proofs.Dict

/-! Equality of JSON values against their texts. Two values are equal when they are the same but
for the signs of zeros, and these signs are all that the texts of equal values can differ in: a
text ends where the text of an equal value ends, unless a zero is negative in one of them only. -/
namespace RevForest

namespace Double

def unsigned (d : Double) : Double := if d.units = 0 then ⟨false, 0⟩ else d

theorem sameIff {a b : Double} : a.same b = true ↔ a.unsigned = b.unsigned := by
  obtain ⟨m, u⟩ := a
  obtain ⟨n, k⟩ := b
  unfold same unsigned
  rw [Bool.and_eq_true, Bool.or_eq_true, decide_eq_true_eq, decide_eq_true_eq, decide_eq_true_eq]
  dsimp only
  by_cases zero : u = 0
  · by_cases zero' : k = 0 <;> simp [zero, zero', eq_comm]
  · by_cases zero' : k = 0 <;> simp [zero, zero', and_comm]

theorem writeZero (negative : Bool) :
    Double.write ⟨negative, 0⟩ = if negative then ['-', '0', '.', '0'] else ['0', '.', '0'] := by
  revert negative
  decide

theorem writeCancel {a b : Double} {x y : List Char} (same : a.same b = true)
    (text : a.write ++ x = b.write ++ y) : a = b ∧ x = y := by
  obtain ⟨m, u⟩ := a
  obtain ⟨n, k⟩ := b
  simp only [Double.same, Bool.and_eq_true, Bool.or_eq_true, decide_eq_true_eq] at same
  obtain ⟨rfl, rfl | rfl⟩ := same
  · exact ⟨rfl, List.append_cancel_left text⟩
  · -- One begins with a digit and the other, if it is negative, does not.
    rw [writeZero, writeZero] at text
    cases m <;> cases n <;> simp_all

end Double

namespace Json

mutual

def unsigned : Json → Json
  | .double d => .double d.unsigned
  | .array items => .array (unsignedItems items)
  | .object members => .object (unsignedMembers members)
  | v => v

def unsignedItems : List Json → List Json
  | [] => []
  | v :: rest => unsigned v :: unsignedItems rest

def unsignedMembers : List (String × Json) → List (String × Json)
  | [] => []
  | (k, v) :: rest => (k, unsigned v) :: unsignedMembers rest

end

mutual

theorem sameIff (v w : Json) : v.same w = true ↔ v.unsigned = w.unsigned := by
  cases v with
  | double a => cases w <;> simp [same, unsigned, Double.sameIff]
  | array vs => cases w <;> simp [same, unsigned, sameItemsIff]
  | object ms => cases w <;> simp [same, unsigned, sameMembersIff]
  | _ => cases w <;> simp [same, unsigned]

theorem sameItemsIff (vs ws : List Json) :
    sameItems vs ws = true ↔ unsignedItems vs = unsignedItems ws := by
  cases vs with
  | nil => cases ws <;> simp [sameItems, unsignedItems]
  | cons v vs => cases ws <;> simp [sameItems, unsignedItems, sameIff, sameItemsIff]

theorem sameMembersIff (ms ns : List (String × Json)) :
    sameMembers ms ns = true ↔ unsignedMembers ms = unsignedMembers ns := by
  match ms, ns with
  | [], [] => simp [sameMembers]
  | [], n :: ns => simp [sameMembers, unsignedMembers]
  | m :: ms, [] => simp [sameMembers, unsignedMembers]
  | (k, v) :: ms, (l, w) :: ns =>
    simp [sameMembers, unsignedMembers, sameIff v w, sameMembersIff ms ns]

end

def next (last : Bool) (rest : List Char) : List Char := if last then [] else ',' :: rest

theorem writeItemsCons (v : Json) (vs : List Json) :
    writeItems (v :: vs) = write v ++ next vs.isEmpty (writeItems vs) := by
  cases vs with
  | nil => exact (List.append_nil _).symm
  | cons w ws => rfl

theorem writeMembersCons (k : String) (v : Json) (ms : List (String × Json)) :
    writeMembers ((k, v) :: ms) =
      writeText k ++ ':' :: (write v ++ next ms.isEmpty (writeMembers ms)) := by
  cases ms with
  | nil => simp [writeMembers, next]
  | cons m ms => simp [writeMembers, next]

theorem nextCancel {α : Type} {write : List α → List Char} {as bs : List α} {x y : List Char}
    (last : as.isEmpty = bs.isEmpty)
    (cancel : ∀ {x y}, write as ++ x = write bs ++ y → as = bs ∧ x = y)
    (text : next as.isEmpty (write as) ++ x = next bs.isEmpty (write bs) ++ y) :
    as = bs ∧ x = y := by
  rw [← last] at text
  cases none : as.isEmpty with
  | true =>
    rw [none] at text
    have none' : bs.isEmpty = true := last ▸ none
    exact ⟨(List.isEmpty_iff.mp none).trans (List.isEmpty_iff.mp none').symm, text⟩
  | false =>
    rw [none] at text
    exact cancel (List.cons.inj text).2

inductive Matched : Json → Json → Prop where
  | leaf (v : Json) : Matched v v
  | double {a b : Double} (same : a.same b = true) : Matched (.double a) (.double b)
  | array {vs ws : List Json} (same : sameItems vs ws = true) : Matched (.array vs) (.array ws)
  | object {ms ns : List (String × Json)} (same : sameMembers ms ns = true) :
      Matched (.object ms) (.object ns)

theorem matched {v w : Json} (same : v.same w = true) : Matched v w := by
  cases v with
  | double a =>
    cases w with
    | double b => exact .double same
    | _ => cases same
  | array vs =>
    cases w with
    | array ws => exact .array same
    | _ => cases same
  | object ms =>
    cases w with
    | object ns => exact .object same
    | _ => cases same
  | _ =>
    cases w <;> first
      | cases same; done
      | exact .leaf _
      | exact eq_of_beq same ▸ .leaf _

theorem sameItemsEmpty {vs ws : List Json} (same : sameItems vs ws = true) :
    vs.isEmpty = ws.isEmpty := by
  cases vs <;> cases ws <;> first | rfl | cases same

theorem sameMembersEmpty {ms ns : List (String × Json)} (same : sameMembers ms ns = true) :
    ms.isEmpty = ns.isEmpty := by
  cases ms <;> cases ns <;> first | rfl | cases same

mutual

theorem writeCancel {v w : Json} {x y : List Char} (same : v.same w = true)
    (text : write v ++ x = write w ++ y) : v = w ∧ x = y := by
  cases matched same with
  | leaf v => exact ⟨rfl, List.append_cancel_left text⟩
  | double same =>
    obtain ⟨rfl, rest⟩ := Double.writeCancel same text
    exact ⟨rfl, rest⟩
  | array same =>
    simp only [write, List.cons_append, List.append_assoc] at text
    obtain ⟨rfl, rest⟩ := writeItemsCancel same (List.cons.inj text).2
    exact ⟨rfl, (List.cons.inj rest).2⟩
  | object same =>
    simp only [write, List.cons_append, List.append_assoc] at text
    obtain ⟨rfl, rest⟩ := writeMembersCancel same (List.cons.inj text).2
    exact ⟨rfl, (List.cons.inj rest).2⟩

theorem writeItemsCancel {vs ws : List Json} {x y : List Char} (same : sameItems vs ws = true)
    (text : writeItems vs ++ x = writeItems ws ++ y) : vs = ws ∧ x = y := by
  match vs, ws, same with
  | [], [], _ => exact ⟨rfl, text⟩
  | [], _ :: _, same => cases same
  | _ :: _, [], same => cases same
  | v :: vs, w :: ws, same =>
    obtain ⟨first, others⟩ := (Bool.and_eq_true _ _).mp same
    rw [writeItemsCons, writeItemsCons, List.append_assoc, List.append_assoc] at text
    obtain ⟨rfl, behind⟩ := writeCancel first text
    obtain ⟨rfl, rest⟩ := nextCancel (sameItemsEmpty others) (writeItemsCancel others) behind
    exact ⟨rfl, rest⟩

theorem writeMembersCancel {ms ns : List (String × Json)} {x y : List Char}
    (same : sameMembers ms ns = true)
    (text : writeMembers ms ++ x = writeMembers ns ++ y) : ms = ns ∧ x = y := by
  match ms, ns, same with
  | [], [], _ => exact ⟨rfl, text⟩
  | [], _ :: _, same => cases same
  | _ :: _, [], same => cases same
  | (k, v) :: ms, (l, w) :: ns, same =>
    obtain ⟨first, others⟩ := (Bool.and_eq_true _ _).mp same
    obtain ⟨key, value⟩ := (Bool.and_eq_true _ _).mp first
    obtain rfl : k = l := eq_of_beq key
    rw [writeMembersCons, writeMembersCons, List.append_assoc, List.append_assoc] at text
    have member : write v ++ next ms.isEmpty (writeMembers ms) ++ x =
        write w ++ next ns.isEmpty (writeMembers ns) ++ y :=
      (List.cons.inj (List.append_cancel_left text)).2
    rw [List.append_assoc, List.append_assoc] at member
    obtain ⟨rfl, behind⟩ := writeCancel value member
    obtain ⟨rfl, rest⟩ := nextCancel (sameMembersEmpty others) (writeMembersCancel others) behind
    exact ⟨rfl, rest⟩

end

theorem renderCancel {v w : Json} (same : v.same w = true) (text : v.render = w.render) :
    v = w := by
  have chars : write v = write w := String.ofList_injective text
  exact (writeCancel (x := []) (y := []) same (congrArg (· ++ []) chars)).1

end Json

namespace Wire

theorem membersPerm {depth : Nat} {ms ns : List (List Nat × Wire)} (perm : ms.Perm ns)
    {entries : List (String × Json)} (read : members? depth ms = some entries) :
    ∃ others, members? depth ns = some others ∧ entries.Perm others := by
  induction perm generalizing entries with
  | nil => exact ⟨entries, read, .refl _⟩
  | cons m _ ih =>
    obtain ⟨k, v⟩ := m
    simp only [members?, Option.bind_eq_bind, Option.bind_eq_some_iff] at read ⊢
    obtain ⟨key, spelled, value, valued, rest, later, same⟩ := read
    obtain ⟨others, found, perm⟩ := ih later
    cases same
    exact ⟨_, ⟨key, spelled, value, valued, others, found, rfl⟩, perm.cons _⟩
  | swap m n rest =>
    obtain ⟨k, v⟩ := m
    obtain ⟨l, w⟩ := n
    simp only [members?, Option.bind_eq_bind, Option.bind_eq_some_iff] at read ⊢
    obtain ⟨key, spelled, value, valued, _, ⟨key', spelled', value', valued', rest, later, same'⟩,
      same⟩ := read
    cases same'
    cases same
    exact ⟨_, ⟨key', spelled', value', valued', _,
      ⟨key, spelled, value, valued, rest, later, rfl⟩, rfl⟩, .swap _ _ _⟩
  | trans _ _ ih later =>
    obtain ⟨middle, found, first⟩ := ih read
    obtain ⟨others, found', second⟩ := later found
    exact ⟨others, found', first.trans second⟩

theorem objectAnyOrder {depth : Nat} {ms ns : List (List Nat × Wire)} (perm : ms.Perm ns)
    {entries : List (String × Json)} (read : members? depth ms = some entries)
    (distinct : (entries.map Prod.fst).Nodup) :
    value? (depth + 1) (.object ns) = value? (depth + 1) (.object ms) := by
  obtain ⟨others, found, same⟩ := membersPerm perm read
  rw [value?, value?, found, read, Option.map_some, Option.map_some, Dict.ofListPerm same distinct]

end Wire
end RevForest
