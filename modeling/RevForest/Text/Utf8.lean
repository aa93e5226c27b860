/-!
Bytes shown as text. Where they are not UTF-8, each longest start of a character that is cut short,
and each byte that starts none, is shown as one replacement character.
-/
namespace RevForest.Utf8

def following? (lead : Nat) : Option (Nat × Nat × Nat) :=
  if lead < 0xC2 then none
  else if lead < 0xE0 then some (1, 0x80, 0xBF)
  else if lead = 0xE0 then some (2, 0xA0, 0xBF)
  else if lead = 0xED then some (2, 0x80, 0x9F)
  else if lead < 0xF0 then some (2, 0x80, 0xBF)
  else if lead = 0xF0 then some (3, 0x90, 0xBF)
  else if lead < 0xF4 then some (3, 0x80, 0xBF)
  else if lead = 0xF4 then some (3, 0x80, 0x8F)
  else none

def gather (scalar : Nat) : Nat → Nat → Nat → List UInt8 → Option Nat × List UInt8
  | 0, _, _, bytes => (some scalar, bytes)
  | _ + 1, _, _, [] => (none, [])
  | count + 1, low, high, b :: rest =>
    if low ≤ b.toNat ∧ b.toNat ≤ high then
      gather (scalar * 64 + b.toNat % 64) count 0x80 0xBF rest
    else (none, b :: rest)

def characters : Nat → List UInt8 → List Char
  | 0, _ => []
  | _, [] => []
  | count + 1, b :: rest =>
    let lead := b.toNat
    if lead < 0x80 then Char.ofNat lead :: characters count rest
    else
      match following? lead with
      | none => '\uFFFD' :: characters count rest
      | some (more, low, high) =>
        let (scalar, rest) := gather (lead % (0x40 >>> more)) more low high rest
        (scalar.map Char.ofNat).getD '\uFFFD' :: characters count rest

def lossy (bytes : List UInt8) : String := String.ofList (characters bytes.length bytes)

end RevForest.Utf8
