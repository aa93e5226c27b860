import RevForest.Json.Value
/-!
JSON as it is written. `Wire.read` follows the grammar of RFC 8259 and keeps what a value drops:
members in their order with repetitions, numbers digit by digit, unpaired surrogate escapes and
any depth. `Wire.value?` then says which of these texts denote a value.
-/
namespace RevForest

namespace Digits

-- The ASCII digits and no others.
def isDigit (c : Char) : Bool := '0' ≤ c && c ≤ '9'

def value (c : Char) : Nat := c.toNat - '0'.toNat

def number (ds : List Nat) : Nat := ds.foldl (fun n d => 10 * n + d) 0

def leading : List Char → List Nat × List Char
  | [] => ([], [])
  | c :: cs =>
    if isDigit c then
      let (ds, rest) := leading cs
      (value c :: ds, rest)
    else ([], c :: cs)

end Digits

structure NumberText where
  negative : Bool
  whole : List Nat
  fraction : Option (List Nat)
  exponent : Option (Bool × List Nat)
  deriving DecidableEq, Repr

/-- Texts are code units: a written character by its scalar value, an escape by its four digits. -/
inductive Wire where
  | null
  | bool (value : Bool)
  | number (value : NumberText)
  | text (units : List Nat)
  | array (items : List Wire)
  | object (members : List (List Nat × Wire))
  deriving Repr, Inhabited

namespace Wire

def isBlank (c : Char) : Bool := c == ' ' || c == '\t' || c == '\n' || c == '\r'

def skipBlanks (cs : List Char) : List Char := cs.dropWhile isBlank

def hexValue? (c : Char) : Option Nat :=
  if '0' ≤ c ∧ c ≤ '9' then some (c.toNat - '0'.toNat)
  else if 'a' ≤ c ∧ c ≤ 'f' then some (c.toNat - 'a'.toNat + 10)
  else if 'A' ≤ c ∧ c ≤ 'F' then some (c.toNat - 'A'.toNat + 10)
  else none

def hexUnit? (a b c d : Char) : Option Nat := do
  let a ← hexValue? a
  let b ← hexValue? b
  let c ← hexValue? c
  let d ← hexValue? d
  some (((a * 16 + b) * 16 + c) * 16 + d)

def unescape? : Char → Option Nat
  | '"' => some '"'.toNat
  | '\\' => some '\\'.toNat
  | '/' => some '/'.toNat
  | 'b' => some 0x08
  | 'f' => some 0x0c
  | 'n' => some 0x0a
  | 'r' => some 0x0d
  | 't' => some 0x09
  | _ => none

def readText : List Char → Option (List Nat × List Char)
  | [] => none
  | '"' :: rest => some ([], rest)
  | '\\' :: 'u' :: a :: b :: c :: d :: rest => do
    let u ← hexUnit? a b c d
    let (us, rest) ← readText rest
    some (u :: us, rest)
  | '\\' :: c :: rest => do
    let u ← unescape? c
    let (us, rest) ← readText rest
    some (u :: us, rest)
  | c :: rest =>
    if c.toNat < 0x20 then none else do
      let (us, rest) ← readText rest
      some (c.toNat :: us, rest)

def readDigits (cs : List Char) : Option (List Nat × List Char) :=
  match Digits.leading cs with
  | ([], _) => none
  | (ds, rest) => some (ds, rest)

def readWhole : List Char → Option (List Nat × List Char)
  | '0' :: rest => some ([0], rest)
  | cs => readDigits cs

def readFraction : List Char → Option (Option (List Nat) × List Char)
  | '.' :: rest => do
    let (ds, rest) ← readDigits rest
    some (some ds, rest)
  | cs => some (none, cs)

def readSign : List Char → Bool × List Char
  | '+' :: rest => (false, rest)
  | '-' :: rest => (true, rest)
  | cs => (false, cs)

def readExponent : List Char → Option (Option (Bool × List Nat) × List Char)
  | [] => some (none, [])
  | c :: rest =>
    if c = 'e' ∨ c = 'E' then do
      let (negative, rest) := readSign rest
      let (ds, rest) ← readDigits rest
      some (some (negative, ds), rest)
    else some (none, c :: rest)

def readNumber (cs : List Char) : Option (NumberText × List Char) := do
  let (negative, cs) := match cs with
    | '-' :: rest => (true, rest)
    | _ => (false, cs)
  let (whole, cs) ← readWhole cs
  let (fraction, cs) ← readFraction cs
  let (exponent, cs) ← readExponent cs
  some (⟨negative, whole, fraction, exponent⟩, cs)

mutual

/-- One value at the front. The first argument bounds the number of calls. -/
def readValue : Nat → List Char → Option (Wire × List Char)
  | 0, _ => none
  | fuel + 1, cs =>
    match skipBlanks cs with
    | 'n' :: 'u' :: 'l' :: 'l' :: rest => some (.null, rest)
    | 't' :: 'r' :: 'u' :: 'e' :: rest => some (.bool true, rest)
    | 'f' :: 'a' :: 'l' :: 's' :: 'e' :: rest => some (.bool false, rest)
    | '"' :: rest => do
      let (us, rest) ← readText rest
      some (.text us, rest)
    | '[' :: rest =>
      match skipBlanks rest with
      | ']' :: rest => some (.array [], rest)
      | rest => do
        let (items, rest) ← readItems fuel rest
        some (.array items, rest)
    | '{' :: rest =>
      match skipBlanks rest with
      | '}' :: rest => some (.object [], rest)
      | rest => do
        let (members, rest) ← readMembers fuel rest
        some (.object members, rest)
    | rest => do
      let (n, rest) ← readNumber rest
      some (.number n, rest)

def readItems : Nat → List Char → Option (List Wire × List Char)
  | 0, _ => none
  | fuel + 1, cs => do
    let (v, rest) ← readValue fuel cs
    match skipBlanks rest with
    | ']' :: rest => some ([v], rest)
    | ',' :: rest => do
      let (vs, rest) ← readItems fuel rest
      some (v :: vs, rest)
    | _ => none

def readMembers : Nat → List Char → Option (List (List Nat × Wire) × List Char)
  | 0, _ => none
  | fuel + 1, cs =>
    match skipBlanks cs with
    | '"' :: rest => do
      let (key, rest) ← readText rest
      match skipBlanks rest with
      | ':' :: rest => do
        let (v, rest) ← readValue fuel rest
        match skipBlanks rest with
        | '}' :: rest => some ([(key, v)], rest)
        | ',' :: rest => do
          let (ms, rest) ← readMembers fuel rest
          some ((key, v) :: ms, rest)
        | _ => none
      | _ => none
    | _ => none

end

def ofChars? (cs : List Char) : Option Wire := do
  let (v, rest) ← readValue (2 * cs.length + 2) cs
  if skipBlanks rest = [] then some v else none

def ofString? (s : String) : Option Wire := ofChars? s.toList

def characters? : List Nat → Option (List Char)
  | [] => some []
  | u :: us =>
    if 0xD800 ≤ u ∧ u < 0xDC00 then
      match us with
      | v :: vs =>
        if 0xDC00 ≤ v ∧ v < 0xE000 then
          (characters? vs).map (Char.ofNat (0x10000 + (u - 0xD800) * 0x400 + (v - 0xDC00)) :: ·)
        else none
      | [] => none
    else if 0xDC00 ≤ u ∧ u < 0xE000 then none
    else (characters? us).map (Char.ofNat u :: ·)

def string? (units : List Nat) : Option String := (characters? units).map String.ofList

end Wire

/-- A plain whole number of 64 bits, signed or not, stays one; `-0` and all others are binary64. -/
def NumberText.value? (n : NumberText) : Option Json :=
  let whole := Digits.number n.whole
  let double (units : Option Nat) : Option Json := units.map fun u => .double ⟨n.negative, u⟩
  match n.fraction, n.exponent with
  | none, none =>
    if n.negative then
      if 0 < whole ∧ 2 * whole ≤ word64 then some (.int (-whole))
      else double (Double.read? n.whole [] 0)
    else if whole < word64 then some (.int whole)
    else double (Double.read? n.whole [] 0)
  | fraction, exponent =>
    let power : Int := match exponent with
      | none => 0
      | some (negative, ds) => if negative then -(Digits.number ds) else Digits.number ds
    double (Double.read? n.whole (fraction.getD []) power)

namespace Wire

mutual

def value? : Nat → Wire → Option Json
  | _, .null => some .null
  | _, .bool b => some (.bool b)
  | _, .number n => n.value?
  | _, .text us => (string? us).map .text
  | 0, .array _ => none
  | depth + 1, .array items => (items? depth items).map .array
  | 0, .object _ => none
  | depth + 1, .object members =>
    (members? depth members).map fun ms => .ofDict (Dict.ofList ms)

def items? : Nat → List Wire → Option (List Json)
  | _, [] => some []
  | depth, v :: vs => do
    let v ← value? depth v
    let vs ← items? depth vs
    some (v :: vs)

def members? : Nat → List (List Nat × Wire) → Option (List (String × Json))
  | _, [] => some []
  | depth, (k, v) :: ms => do
    let k ← string? k
    let v ← value? depth v
    let ms ← members? depth ms
    some ((k, v) :: ms)

end

end Wire

namespace Json

def depthLimit : Nat := 127

def ofString? (s : String) : Option Json := do (← Wire.ofString? s).value? depthLimit

def ofBytes? (bytes : ByteArray) : Option Json := do ofString? (← String.fromUTF8? bytes)

end Json
end RevForest
