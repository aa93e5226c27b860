import RevForest.Text.Quoted
/-! Bytes as pairs of hexadecimal digits: written in lower case, read in either. -/
namespace RevForest.Hex

inductive Fault where
  | oddLength
  | badDigit (byte : UInt8) (position : Nat)
  deriving DecidableEq, Repr

def Fault.message : Fault → String
  | .oddLength => "Odd number of digits"
  | .badDigit byte position =>
    let shown := Quoted.character (Char.ofNat byte.toNat)
    s!"Invalid character {shown} at position {position}"

def digits (b : UInt8) : List Char :=
  [(b.toNat / 16).digitChar, (b.toNat % 16).digitChar]

def encode (bytes : List UInt8) : String := String.ofList (bytes.flatMap digits)

def value? (b : UInt8) : Option Nat :=
  let n := b.toNat
  if 0x30 ≤ n ∧ n ≤ 0x39 then some (n - 0x30)
  else if 0x41 ≤ n ∧ n ≤ 0x46 then some (n - 0x41 + 10)
  else if 0x61 ≤ n ∧ n ≤ 0x66 then some (n - 0x61 + 10)
  else none

def decodePairs (position : Nat) : List UInt8 → Except Fault (List UInt8)
  | a :: b :: rest =>
    match value? a, value? b with
    | some x, some y => do
      let tail ← decodePairs (position + 2) rest
      .ok (UInt8.ofNat (16 * x + y) :: tail)
    | none, _ => .error (.badDigit a position)
    | some _, none => .error (.badDigit b (position + 1))
  | _ => .ok []

def decodeBytes (bytes : List UInt8) : Except Fault (List UInt8) :=
  if bytes.length % 2 = 1 then .error .oddLength else decodePairs 0 bytes

def decode (s : String) : Except Fault (List UInt8) := decodeBytes s.toByteArray.data.toList

end RevForest.Hex
