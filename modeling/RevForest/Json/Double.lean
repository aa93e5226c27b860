/-!
Finite binary64 numbers in exact arithmetic. A magnitude is a count of units of `2^-1074`, the
smallest positive number, so subnormal and normal numbers need no separate treatment: rounding
keeps the leading 53 bits of the count. The last part reads a decimal in stages, each of them
rounded, and the digits that no longer fit a 64-bit word are dropped before.
-/
namespace RevForest

-- The first numbers that machine words cannot hold.
def word32 : Nat := 0x100000000

def word64 : Nat := 0x10000000000000000

structure Double where
  negative : Bool
  units : Nat
  deriving DecidableEq, Repr

namespace Double

def one : Nat := Nat.pow 2 1074

def overflow : Nat := Nat.pow 2 2098

def Representable (units : Nat) : Prop :=
  units < overflow ∧ ∃ m q, m < Nat.pow 2 53 ∧ units = m * Nat.pow 2 q

def nearest (num den : Nat) : Nat :=
  let low := num / den
  let rest := num % den
  if 2 * rest < den ∨ (2 * rest = den ∧ low % 2 = 0) then low else low + 1

def round (num den : Nat) : Nat :=
  let grain := Nat.pow 2 ((num / den).log2 - 52)
  nearest num (den * grain) * grain

def ofNat (n : Nat) : Nat := round (n * one) 1

def times (a b : Nat) : Nat := round (a * b) one

def dividedBy (a b : Nat) : Nat := round (a * one) b

def ofDecimal (coefficient : Nat) (exponent : Int) : Nat :=
  if 0 ≤ exponent then round (coefficient * Nat.pow 10 exponent.toNat * one) 1
  else round (coefficient * one) (Nat.pow 10 (-exponent).toNat)

/-- Numeric equality: the two zeros are one number. -/
def same (a b : Double) : Bool :=
  decide (a.units = b.units) && (decide (a.negative = b.negative) || decide (a.units = 0))

def stage : Nat := 308

def tenPower (n : Nat) : Nat := ofNat (Nat.pow 10 n)

def lower : Nat → Nat → Nat
  | 0, f => f
  | count + 1, f => if f = 0 then 0 else lower count (dividedBy f (tenPower stage))

def scale? (f : Nat) (exponent : Int) : Option Nat :=
  if 0 ≤ exponent then
    if exponent ≤ stage then
      let r := times f (tenPower exponent.toNat)
      if r < overflow then some r else none
    else if f = 0 then some 0 else none
  else
    let down := (-exponent).toNat
    let count := (down - 1) / stage
    let f := lower count f
    if f = 0 then some 0 else some (dividedBy f (tenPower (down - count * stage)))

def absorb (coefficient : Nat) : List Nat → Nat × List Nat
  | [] => (coefficient, [])
  | d :: ds =>
    if coefficient * 10 + d < word64 then absorb (coefficient * 10 + d) ds
    else (coefficient, d :: ds)

def read? (whole fraction : List Nat) (exponent : Int) : Option Nat :=
  let (c, dropped) := absorb 0 whole
  let (c, ignored) := absorb c fraction
  let places : Int := fraction.length - ignored.length
  scale? (ofNat c) (exponent + dropped.length - places)

end Double
end RevForest
