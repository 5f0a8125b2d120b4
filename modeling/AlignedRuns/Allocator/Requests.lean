import AlignedRuns.Allocator
set_option autoImplicit false

namespace AlignedRuns.Allocator

def sizeRefusal? (a : Allocator) (size : Nat) : Option Refusal :=
  if size = 0 ∨ a.maxSize < size then some (.invalidSize size a.maxSize) else none

/-- Puts a run of `size` indices at the highest aligned place in the piece of `len` indices at
`start`, which has been taken from the free lists, and gives the place. -/
def placeIn (a : Allocator) (size start len : Nat) : Traced (Nat × Allocator) := do
  let stop ← Word.add indexBits start len
  let highest ← Word.sub stop size
  let c ← Word.ceilLog2 size
  let unit ← Word.bit indexBits c
  let offset ← Word.alignDown highest unit
  Traced.require (start ≤ offset) .runInsidePiece
  let before ← Word.sub offset start
  let free ← a.free.insertRun start before
  let next ← Word.add indexBits offset size
  let behind ← Word.sub stop next
  let free ← free.insertRun next behind
  let a ← { a with free }.markInUse offset size
  return (offset, a)

/-- Allocates `size` indices at a multiple of the least power of two that is not below `size`. -/
def allocate (a : Allocator) (size : Nat) : Traced (Reply Nat) :=
  match a.sizeRefusal? size with
  | some refusal => return a.refuse refusal
  | none => do
    let c ← Word.ceilLog2 size
    match ← a.free.takeFit c size with
    | (none, free) => return { a with free }.refuse (.outOfSpace size 1)
    | (some (start, len), free) =>
      let (offset, a) ← { a with free }.placeIn size start len
      Traced.record (.allocated size offset start len)
      return a.accept offset

def freeRun (a : Allocator) (offset size : Nat) : Traced Allocator := do
  let (left, right) ← a.gapAround offset
  let stop ← Word.add indexBits offset size
  let before ← Word.sub offset left
  let free ← a.free.removeRun left before
  let behind ← Word.sub right stop
  let free ← free.removeRun stop behind
  let whole ← Word.sub right left
  let free ← free.insertRun left whole
  return { a with free, inUse := a.inUse.erase offset }

def release (a : Allocator) (offset : Nat) : Traced (Reply Unit) :=
  match a.sizeAt offset with
  | .error refusal => return a.refuse refusal
  | .ok size => do
    let a ← a.freeRun offset size
    Traced.record (.released offset size)
    return a.accept ()

def carveGap (a : Allocator) (offset size left right : Nat) : Traced Allocator := do
  let whole ← Word.sub right left
  let free ← a.free.removeRun left whole
  let before ← Word.sub offset left
  let free ← free.insertRun left before
  let stop ← Word.add indexBits offset size
  let behind ← Word.sub right stop
  let free ← free.insertRun stop behind
  { a with free }.markInUse offset size

/-- Allocates just the `size` indices at `offset`, whatever their alignment. -/
def reserve (a : Allocator) (offset size : Nat) : Traced (Reply Unit) :=
  if size = 0 then return a.refuse (.invalidSize size a.totalSize)
  else if a.inUse.contains offset then return a.refuse (.conflict offset size)
  else do
    let (left, right) ← a.gapAround offset
    if offset < left ∨ right < offset + size ∨ 2 ^ indexBits ≤ offset + size then
      return a.refuse (.conflict offset size)
    else
      let a ← a.carveGap offset size left right
      Traced.record (.reserved offset size left right)
      return a.accept ()

end AlignedRuns.Allocator
