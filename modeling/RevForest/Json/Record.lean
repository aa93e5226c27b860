import RevForest.Json.Wire
/-!
Records read from JSON with a known list of fields. A record is an object, whose unknown members
are passed over unread, or an array with the fields in order, where the last ones may be missing.
-/
namespace RevForest

namespace Wire

def named? (names : List String) : List (List Nat × Wire) → Option (Dict String Wire)
  | [] => some Dict.empty
  | (key, v) :: rest => do
    let key ← string? key
    let found ← named? names rest
    if key ∈ names then
      if found.contains key then none else some (found.insert key v)
    else some found

def fields? (names : List String) : Wire → Option (List (Option Wire))
  | .object members => do
    let found ← named? names members
    some (names.map found.find?)
  | .array items =>
    if items.length ≤ names.length then
      some (items.map some ++ List.replicate (names.length - items.length) none)
    else none
  | _ => none

def asString? : Wire → Option String
  | .text us => string? us
  | _ => none

def asNat? (bound : Nat) : Wire → Option Nat
  | .number n =>
    match n.value? with
    | some (.int (.ofNat k)) => if k < bound then some k else none
    | _ => none
  | _ => none

def asOptionalString? : Wire → Option (Option String)
  | .null => some none
  | w => w.asString?.map some

def asStrings? : Wire → Option (Dict String String)
  | .object members => do
    let entries ← members.mapM fun (k, v) => do
      let k ← string? k
      let v ← asString? v
      some (k, v)
    some (Dict.ofList entries)
  | _ => none

end Wire

def required (field : Option Wire) (read : Wire → Option α) : Option α := field.bind read

def defaulted (field : Option Wire) (read : Wire → Option α) (default : α) : Option α :=
  match field with
  | none => some default
  | some w => read w

end RevForest
