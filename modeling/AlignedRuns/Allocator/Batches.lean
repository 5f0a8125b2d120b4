import AlignedRuns.Allocator.Requests
set_option autoImplicit false

namespace AlignedRuns.Allocator

def batchPlace (first stride i : Nat) : Traced Nat := do
  let step ← Word.mul indexBits i stride
  Word.add indexBits first step

def fillTopPiece (a : Allocator) (top size offset : Nat) : Traced Allocator := do
  match ← a.free.take top offset with
  | (none, _) => Traced.inconsistent (.pieceVanished offset)
  | (some len, free) =>
    let next ← Word.add indexBits offset size
    let behind ← Word.sub len size
    let free ← free.insertRun next behind
    { a with free }.markInUse offset size

def fillTopPieces (a : Allocator) (top size first stride : Nat) :
    (remaining i : Nat) → Traced Allocator
  | 0, _ => return a
  | remaining + 1, i => do
    let place ← batchPlace first stride i
    let a ← a.fillTopPiece top size place
    a.fillTopPieces top size first stride remaining (i + 1)

/-- Allocates `count` runs of `size` indices in the lowest suitable top class pieces, the first of
them at a multiple of the least power of two that is not below the span of the batch. -/
def allocateMany (a : Allocator) (size count : Nat) : Traced (Reply Nat) :=
  if count = 0 then return a.refuse (.invalidCount count)
  else if count = 1 then a.allocate size
  else match a.sizeRefusal? size with
  | some refusal => return a.refuse refusal
  | none => do
    let c ← Word.ceilLog2 size
    let top ← a.free.topClass
    if c ≠ top then return a.refuse (.unsupported size count)
    else
      let room ← Word.bit wideBits c
      let span ← Word.mul wideBits room count
      if a.totalSize < span ∨ 2 ^ indexBits ≤ span then return a.refuse (.outOfSpace size count)
      else
        let exponent ← Word.ceilLog2 span
        let align ← Word.bit wideBits exponent
        match ← a.free.findTopClassRuns size count align with
        | none => return a.refuse (.outOfSpace size count)
        | some first =>
          let stride ← Word.bit indexBits top
          let a ← a.fillTopPieces top size first stride count 0
          Traced.record (.allocatedMany count size first)
          return a.accept first

def findUnallocated (a : Allocator) (first stride : Nat) :
    (remaining i : Nat) → Traced (Option Nat)
  | 0, _ => return none
  | remaining + 1, i => do
    let place ← batchPlace first stride i
    if a.inUse.contains place then a.findUnallocated first stride remaining (i + 1)
    else return some place

def freeRuns (a : Allocator) (first stride : Nat) : (remaining i : Nat) → Traced Allocator
  | 0, _ => return a
  | remaining + 1, i => do
    let place ← batchPlace first stride i
    let a ← match a.inUse.get? place with
      | some size => a.freeRun place size
      | none => pure a
    a.freeRuns first stride remaining (i + 1)

def releaseMany (a : Allocator) (offset count : Nat) : Traced (Reply Unit) :=
  if count = 0 then return a.refuse (.invalidCount count)
  else if count = 1 then a.release offset
  else match a.sizeAt offset with
  | .error refusal => return a.refuse refusal
  | .ok size => do
    let top ← a.free.topClass
    let c ← Word.ceilLog2 size
    if c ≠ top then return a.refuse (.unsupported size count)
    else
      let stride ← Word.bit indexBits top
      let others ← Word.sub count 1
      let reach ← Word.mul wideBits others stride
      let last ← Word.add wideBits offset reach
      if a.totalSize ≤ last then return a.refuse (.invalidCount count)
      else match ← a.findUnallocated offset stride others 1 with
        | some place => return a.refuse (.notAllocated place)
        | none =>
          let a ← a.freeRuns offset stride count 0
          Traced.record (.releasedMany count offset size)
          return a.accept ()

end AlignedRuns.Allocator
