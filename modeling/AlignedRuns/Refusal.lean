import AlignedRuns.Layout
set_option autoImplicit false

namespace AlignedRuns

inductive Refusal where
  | notPowerOfTwo (maxSize : Nat)
  | tooLarge (maxSize slotCount : Nat)
  /-- The size is zero or above `max`. -/
  | invalidSize (size max : Nat)
  /-- A batch of no runs, or of more than there is room for in the index space. -/
  | invalidCount (count : Nat)
  | outOfSpace (size count : Nat)
  | notAllocated (offset : Nat)
  | conflict (offset size : Nat)
  /-- A batch of more than one run below the top size class. -/
  | unsupported (size count : Nat)
deriving DecidableEq, Repr

namespace Refusal

def name : Refusal → String
  | notPowerOfTwo .. => "NotPowerOfTwo"
  | tooLarge .. => "TooLarge"
  | invalidSize .. => "InvalidSize"
  | invalidCount .. => "InvalidCount"
  | outOfSpace .. => "OutOfSpace"
  | notAllocated .. => "NotAllocated"
  | conflict .. => "Conflict"
  | unsupported .. => "Unsupported"

def message : Refusal → String
  | notPowerOfTwo maxSize => s!"base size {maxSize} is not a power of two"
  | tooLarge maxSize slotCount =>
    s!"{slotCount} slots of {maxSize} indices overflow the index space"
  | invalidSize size max => s!"size {size} is outside of 1..={max}"
  | invalidCount count => s!"invalid batch count {count}"
  | outOfSpace size count => s!"no free space for {count} run(s) of {size} indices"
  | notAllocated offset => s!"index {offset} is not allocated"
  | conflict offset size => s!"range {offset}+{size} is not entirely free"
  | unsupported size count =>
    s!"cannot batch {count} runs of {size} indices below the top size class"

def describe (layout : Layout) (r : Refusal) : String :=
  match r with
  | notPowerOfTwo n | invalidCount n | notAllocated n => layout.tuple r.name [toString n]
  | tooLarge maxSize slotCount =>
    layout.record r.name [("max_size", toString maxSize), ("slot_count", toString slotCount)]
  | invalidSize size max => layout.record r.name [("size", toString size), ("max", toString max)]
  | outOfSpace size count | unsupported size count =>
    layout.record r.name [("size", toString size), ("count", toString count)]
  | conflict offset size =>
    layout.record r.name [("offset", toString offset), ("size", toString size)]

end Refusal

end AlignedRuns
