import RevForest.Error
/-!
The counter that orders the writes of a whole store. It starts at one, goes up by one per
allocation, and can be moved ahead of sequences that were assigned elsewhere, never back.
-/
namespace RevForest

def maxSequence : Int := 0x7fffffffffffffff

structure SequenceCounter where
  highest : Int
  deriving DecidableEq, Repr

namespace SequenceCounter

def start : SequenceCounter := ⟨0⟩

def after (highest : Int) : SequenceCounter := ⟨max 0 highest⟩

def observe (c : SequenceCounter) (sequence : Int) : Except StoreError SequenceCounter :=
  if sequence ≤ c.highest then
    .error (.sequenceAllocation
      s!"non-monotonic replay: observed {sequence} but highest is {c.highest}")
  else .ok ⟨sequence⟩

def allocate (c : SequenceCounter) : Except StoreError (Int × SequenceCounter) :=
  if c.highest < maxSequence then .ok (c.highest + 1, ⟨c.highest + 1⟩)
  else .error (.sequenceAllocation "sequence space exhausted")

def highest? (c : SequenceCounter) : Option Int := if c.highest = 0 then none else some c.highest

end SequenceCounter
end RevForest
