import Mathlib.Data.List.Basic
import RevForest.Text.Hex

/-! Bytes written as hexadecimal digits read back. The digits are ASCII, so the UTF-8 bytes of the
text are one for each digit. -/
namespace RevForest

theorem bytesOfCharacters (cs : List Char) :
    (String.ofList cs).toByteArray.data.toList = cs.flatMap String.utf8EncodeChar := by
  rw [String.toByteArray_ofList, List.utf8Encode, List.data_toByteArray]

theorem bytesAscii {cs : List Char} (ascii : ∀ c ∈ cs, c.toNat < 0x80) :
    (String.ofList cs).toByteArray.data.toList = cs.map fun c => UInt8.ofNat c.toNat := by
  have one : ∀ c ∈ cs, String.utf8EncodeChar c = [UInt8.ofNat c.toNat] := by
    intro c member
    have low : c.val.toNat ≤ 0x7f := Nat.le_of_lt_succ (ascii c member)
    unfold String.utf8EncodeChar
    simp only [if_pos low]
    rfl
  rw [bytesOfCharacters, List.flatMap_congr one]
  exact List.flatMap_pure_eq_map _ _

namespace Hex

theorem digitAscii : ∀ n < 16, n.digitChar.toNat < 0x80 := by decide

theorem digitValue : ∀ n < 16, value? (UInt8.ofNat n.digitChar.toNat) = some n := by decide

theorem decodeWritten (position : Nat) (bytes : List UInt8) :
    decodePairs position ((bytes.flatMap digits).map fun c => UInt8.ofNat c.toNat) = .ok bytes := by
  induction bytes generalizing position with
  | nil => rfl
  | cons b rest ih =>
    have small : b.toNat < 256 := b.toNat_lt
    have halves : 16 * (b.toNat / 16) + b.toNat % 16 = b.toNat := Nat.div_add_mod _ _
    simp only [List.flatMap_cons, digits, List.cons_append, List.nil_append, List.map_cons]
    rw [decodePairs, digitValue _ (by omega), digitValue _ (Nat.mod_lt _ (by decide))]
    simp only [ih, halves, UInt8.ofNat_toNat]
    rfl

theorem decodeEncode (bytes : List UInt8) : decode (encode bytes) = .ok bytes := by
  have ascii : ∀ c ∈ bytes.flatMap digits, c.toNat < 0x80 := by
    intro c member
    obtain ⟨b, _, digit⟩ := List.mem_flatMap.mp member
    have small : b.toNat < 256 := b.toNat_lt
    rcases List.mem_cons.mp digit with rfl | digit
    · exact digitAscii _ (by omega)
    · exact List.mem_singleton.mp digit ▸ digitAscii _ (Nat.mod_lt _ (by decide))
  have even : (bytes.flatMap digits).length = bytes.length * 2 := by
    simp [List.length_flatMap, digits, List.map_const']
  unfold decode encode decodeBytes
  rw [bytesAscii ascii, List.length_map, even, if_neg (by omega), decodeWritten]

end Hex
end RevForest
