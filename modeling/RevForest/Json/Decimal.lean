import RevForest.Json.Double
/-!
The decimal text of a binary64 number: the fewest digits that round back to it, of those the
nearest, laid out by one record of choices.
-/
namespace RevForest

structure Decimal where
  coefficient : Nat
  exponent : Int
  deriving DecidableEq, Repr

namespace Double

/-- Enough places to show a leading digit of every positive number. -/
def places : Nat := 400

def magnitude (units : Nat) : Int :=
  (Nat.toDigits 10 (units * Nat.pow 10 places / one)).length - (places + 1 : Int)

def onGrid (units : Nat) (exponent : Int) : Nat × Nat × Nat :=
  let num := units * Nat.pow 10 (-exponent).toNat
  let den := one * Nat.pow 10 exponent.toNat
  (num / den, num % den, den)

def onGrid? (units : Nat) (exponent : Int) : Option Decimal :=
  let (low, rest, den) := onGrid units exponent
  let lowFits := ofDecimal low exponent = units
  let highFits := ofDecimal (low + 1) exponent = units
  let preferLow := 2 * rest < den ∨ (2 * rest = den ∧ low % 2 = 0)
  if lowFits ∧ (preferLow ∨ ¬ highFits) then some ⟨low, exponent⟩
  else if highFits then some ⟨low + 1, exponent⟩
  else none

def exact (units : Nat) : Decimal := ⟨units * Nat.pow 5 1074, -1074⟩

def shortest (units : Nat) : Decimal :=
  let top := magnitude units
  ((List.range 17).findSome? fun n : Nat => onGrid? units (top - n)).getD (exact units)

end Double

structure DecimalLayout where
  -- A decimal is written positionally if its first digit has an exponent from `least` up to, but
  -- not including, `limit`.
  least : Int
  limit : Int
  whole : List Char
  exponentMark : Char
  positiveSign : List Char

namespace DecimalLayout

def writeExponent (l : DecimalLayout) (e : Int) : List Char :=
  l.exponentMark :: (if 0 ≤ e then l.positiveSign else ['-']) ++ Nat.toDigits 10 e.natAbs

def write (l : DecimalLayout) (d : Decimal) : List Char :=
  let all := Nat.toDigits 10 d.coefficient
  let kept := (all.reverse.dropWhile (· == '0')).reverse
  let digits := if kept.isEmpty then ['0'] else kept
  let top : Int := d.exponent + all.length - 1
  if l.least ≤ top ∧ top < l.limit then
    if top < 0 then '0' :: '.' :: List.replicate (-top - 1).toNat '0' ++ digits
    else
      let count := top.toNat + 1
      let front := digits.take count ++ List.replicate (count - digits.length) '0'
      let back := digits.drop count
      if back.isEmpty then front ++ l.whole else front ++ '.' :: back
  else
    match digits with
    | [] => []
    | [c] => c :: l.writeExponent top
    | c :: rest => c :: '.' :: rest ++ l.writeExponent top

end DecimalLayout

def Double.layout : DecimalLayout := ⟨-5, 16, ['.', '0'], 'e', ['+']⟩

def Double.write (d : Double) : List Char :=
  let body := Double.layout.write (if d.units = 0 then ⟨0, 0⟩ else Double.shortest d.units)
  if d.negative then '-' :: body else body

end RevForest
