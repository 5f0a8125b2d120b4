import AlignedRuns.Allocator
set_option autoImplicit false

/-!
# Diagnosis

Looks for what is wrong with an allocator, in four passes: every free piece belongs to its size
class, no allocation is empty, pieces and allocations together cover each index once, and every
gap between allocations is split as one run. The first pass with a finding decides.
-/

namespace AlignedRuns

inductive Violation where
  /-- A free piece is too long or too short for its size class. -/
  | classBound (sizeClass offset len : Nat)
  | misaligned (sizeClass offset : Nat)
  | emptyAllocation (offset : Nat)
  | overlap (index : Nat)
  /-- The indices from `start` to `stop` are neither free nor allocated. -/
  | gap (start stop : Nat)
  | outOfBounds (stop : Nat)
  /-- The pieces in a gap between allocations are not its split. -/
  | layout (offset len : Nat)
deriving DecidableEq, Repr

namespace Violation

def name : Violation → String
  | classBound .. => "ClassBound"
  | misaligned .. => "Misaligned"
  | emptyAllocation .. => "EmptyAllocation"
  | overlap .. => "Overlap"
  | gap .. => "Gap"
  | outOfBounds .. => "OutOfBounds"
  | layout .. => "Layout"

def message : Violation → String
  | classBound c offset len => s!"free piece {offset}+{len} does not belong to size class {c}"
  | misaligned c offset => s!"free piece at {offset} is not aligned to size class {c}"
  | emptyAllocation offset => s!"allocation at {offset} is empty"
  | overlap index => s!"index {index} is covered more than once"
  | gap start stop => s!"indices {start}..{stop} are neither free nor allocated"
  | outOfBounds stop => s!"ranges extend to {stop}, past the end of the index space"
  | layout offset len => s!"free gap {offset}+{len} is not split canonically"

def describe (style : Layout) (v : Violation) : String :=
  style.record v.name <| match v with
    | classBound c offset len =>
      [("class", toString c), ("offset", toString offset), ("len", toString len)]
    | misaligned c offset => [("class", toString c), ("offset", toString offset)]
    | emptyAllocation offset => [("offset", toString offset)]
    | overlap index => [("index", toString index)]
    | gap start stop => [("start", toString start), ("end", toString stop)]
    | outOfBounds stop => [("end", toString stop)]
    | layout offset len => [("offset", toString offset), ("len", toString len)]

end Violation

def Piece.violation? (p : Piece) : Traced (Option Violation) := do
  let full ← Word.bit wideBits p.sizeClass
  if p.len = 0 ∨ full < p.len ∨ p.len ≤ full / 2 then
    return some (.classBound p.sizeClass p.offset p.len)
  else if p.offset ≠ 0 ∧ Bits.trailingZeros p.offset < p.sizeClass then
    return some (.misaligned p.sizeClass p.offset)
  else return none

namespace Allocator

def pieceViolation? (a : Allocator) : Traced (Option Violation) :=
  a.freePieces.findSomeM? Piece.violation?

def emptyAllocation? (a : Allocator) : Option Violation :=
  (a.allocations.find? (·.2 == 0)).map fun e => .emptyAllocation e.1

def ranges (a : Allocator) : List (Nat × Nat) :=
  (a.freePieces.map (fun p => (p.offset, p.len)) ++ a.allocations).mergeSort fun x y =>
    x.1 < y.1 || x.1 == y.1 && x.2 ≤ y.2

/-- Walks over the ranges; all indices below `cursor` are covered once so far. -/
def sweep (total : Nat) : (cursor : Nat) → List (Nat × Nat) → Traced (Option Violation)
  | cursor, [] =>
    if cursor < total then return some (.gap cursor total)
    else if total < cursor then return some (.outOfBounds cursor)
    else return none
  | cursor, (start, len) :: ranges =>
    if start < cursor then return some (.overlap start)
    else if cursor < start then return some (.gap cursor start)
    else do
      let cursor ← Word.add wideBits start len
      sweep total cursor ranges

def coverageViolation? (a : Allocator) : Traced (Option Violation) := sweep a.totalSize 0 a.ranges

def holds (a : Allocator) (p : Piece) : Traced Bool := do
  let pieces ← a.free.list p.sizeClass
  return pieces.get? p.offset == some p.len

/-- Counts the pieces of a run on top of `counted`, unless one of them is not in its free list. -/
def countPieces (a : Allocator) (top offset len counted : Nat) : Traced (Option Nat) :=
  if h : len = 0 then return some counted
  else do
    let next ← Split.step top offset len h
    if ← a.holds next.piece then a.countPieces top next.start next.rest (counted + 1)
    else return none
termination_by len
decreasing_by exact next.rest_lt

def gapPieces (a : Allocator) (start stop counted : Nat) : Traced (Except Violation Nat) := do
  let len ← Word.sub stop start
  let top ← a.free.topClass
  match ← a.countPieces top start len counted with
  | some counted => return .ok counted
  | none => return .error (.layout start len)

def gapsViolation? (a : Allocator) (start counted : Nat) :
    (allocations : List (Nat × Nat)) → Traced (Option Violation)
  | [] => do
    match ← a.gapPieces start a.totalSize counted with
    | .error violation => return some violation
    | .ok counted =>
      if counted = a.pieceCount then return none
      else return some (.layout 0 a.totalSize)
  | (offset, size) :: allocations => do
    let next ← Word.add indexBits offset size
    match ← a.gapPieces start offset counted with
    | .error violation => return some violation
    | .ok counted => a.gapsViolation? next counted allocations

def layoutViolation? (a : Allocator) : Traced (Option Violation) :=
  a.gapsViolation? 0 0 a.allocations

def violation? (a : Allocator) : Traced (Option Violation) := do
  if let some violation ← a.pieceViolation? then return some violation
  if let some violation := a.emptyAllocation? then return some violation
  if let some violation ← a.coverageViolation? then return some violation
  a.layoutViolation?

end Allocator

end AlignedRuns
