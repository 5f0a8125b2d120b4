import AlignedRuns.FreeLists
import AlignedRuns.Refusal
set_option autoImplicit false

/-!
# The allocator

An allocator of runs of indices from `0, …, totalSize - 1`. It knows the free pieces and the
allocations, and nothing else; `maxSize` is the size of the top class and the largest run that can
be asked for.
-/

namespace AlignedRuns

structure Allocator where
  maxSize : Nat
  totalSize : Nat
  free : FreeLists
  /-- The size of each allocation, at its first index. -/
  inUse : IndexMap
deriving DecidableEq

structure Reply (α : Type) where
  answer : Except Refusal α
  after : Allocator

def Reply.map {α β : Type} (f : α → β) (reply : Reply α) : Reply β :=
  ⟨f <$> reply.answer, reply.after⟩

namespace Allocator

def accept {α : Type} (a : Allocator) (value : α) : Reply α := ⟨.ok value, a⟩

def refuse {α : Type} (a : Allocator) (r : Refusal) : Reply α := ⟨.error r, a⟩

/-- Slots of `maxSize` indices each, all of them free. -/
def create (maxSize slotCount : Nat) : Traced (Except Refusal Allocator) := do
  let power ← Word.isPowerOfTwo maxSize
  if power = false then return .error (.notPowerOfTwo maxSize)
  else if 2 ^ indexBits ≤ maxSize * slotCount then return .error (.tooLarge maxSize slotCount)
  else
    let top ← Word.ceilLog2 maxSize
    let classes ← Word.add indexBits top 1
    let empty ← FreeLists.create classes
    let free ← (List.range slotCount).foldlM (fun s slot => do
      let start ← Word.mul indexBits slot maxSize
      s.insertRun start maxSize) empty
    Traced.record (.created slotCount maxSize free.count)
    return .ok { maxSize, totalSize := maxSize * slotCount, free, inUse := .empty }

def gapAround (a : Allocator) (offset : Nat) : Traced (Nat × Nat) := do
  let left ← match a.inUse.prev? offset with
    | some (start, size) => Word.add indexBits start size
    | none => pure 0
  let right := match a.inUse.next? offset with
    | some (start, _) => start
    | none => a.totalSize
  return (left, right)

def markInUse (a : Allocator) (offset size : Nat) : Traced Allocator :=
  match a.inUse.get? offset with
  | some old => Traced.inconsistent (.alreadyAllocated offset old)
  | none => return { a with inUse := a.inUse.insert offset size }

def sizeAt (a : Allocator) (offset : Nat) : Except Refusal Nat :=
  match a.inUse.get? offset with
  | some size => .ok size
  | none => .error (.notAllocated offset)

def allocations (a : Allocator) : List (Nat × Nat) := a.inUse.toList

def freePieces (a : Allocator) : List Piece := a.free.toList

def allocationCount (a : Allocator) : Nat := a.inUse.size

/-- The number of allocations of `size` indices; runs longer than `maxSize`, which only a
reservation makes, are left out. -/
def allocationCountOfSize (a : Allocator) (size : Nat) : Nat :=
  if a.maxSize < size then 0 else (a.allocations.filter (·.2 == size)).length

def usage (a : Allocator) : Traced Nat :=
  a.allocations.foldlM (fun sum e => Word.add indexBits sum e.2) 0

def firstAllocation? (a : Allocator) : Option Nat := a.inUse.first?.map (·.1)

def nextAllocation? (a : Allocator) (offset : Nat) : Option Nat :=
  (a.inUse.next? offset).map (·.1)

def pieceCount (a : Allocator) : Nat := a.free.size

def classCount (a : Allocator) : Nat := a.free.count

end Allocator

end AlignedRuns
