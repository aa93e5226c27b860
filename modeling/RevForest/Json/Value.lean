import RevForest.Dict
import RevForest.Json.Double
/-!
JSON values. Whole numbers of 64 bits are kept apart from binary64 numbers, so `1` and `1.0` are
two values. Members of an object stand in increasing key order with one member per key
(`Json.Canonical`); every value built by this library is of that form.
-/
namespace RevForest

inductive Json where
  | null
  | bool (value : Bool)
  | int (value : Int)
  | double (value : Double)
  | text (value : String)
  | array (items : List Json)
  | object (members : List (String × Json))
  deriving Repr, Inhabited

namespace Json

mutual

def same : Json → Json → Bool
  | .null, .null => true
  | .bool a, .bool b => a == b
  | .int a, .int b => a == b
  | .double a, .double b => a.same b
  | .text a, .text b => a == b
  | .array a, .array b => sameItems a b
  | .object a, .object b => sameMembers a b
  | _, _ => false

def sameItems : List Json → List Json → Bool
  | [], [] => true
  | a :: as, b :: bs => same a b && sameItems as bs
  | _, _ => false

def sameMembers : List (String × Json) → List (String × Json) → Bool
  | [], [] => true
  | (k, a) :: as, (l, b) :: bs => k == l && same a b && sameMembers as bs
  | _, _ => false

end

inductive Canonical : Json → Prop
  | null : Canonical .null
  | bool (b) : Canonical (.bool b)
  | int (n) : Canonical (.int n)
  | double (d) : Canonical (.double d)
  | text (s) : Canonical (.text s)
  | array {items} : (∀ v ∈ items, Canonical v) → Canonical (.array items)
  | object {members} : members.Pairwise (·.1 < ·.1) → (∀ m ∈ members, Canonical m.2) →
      Canonical (.object members)

def ofDict (d : Dict String Json) : Json := .object d.entries

end Json
end RevForest
