import AlignedRuns.Allocator
set_option autoImplicit false

namespace AlignedRuns

namespace Allocator

def putAllocation (a : Allocator) (offset size : Nat) : Option Nat × Allocator :=
  (a.inUse.get? offset, { a with inUse := a.inUse.insert offset size })

def dropAllocation (a : Allocator) (offset : Nat) : Option Nat × Allocator :=
  (a.inUse.get? offset, { a with inUse := a.inUse.erase offset })

def putPiece (a : Allocator) (c offset len : Nat) : Traced (Option Nat × Allocator) := do
  let pieces ← a.free.list c
  return (pieces.get? offset, { a with free := a.free.setList c (pieces.insert offset len) })

def takePiece (a : Allocator) (c offset : Nat) : Traced (Option Nat × Allocator) := do
  let (len, free) ← a.free.take c offset
  return (len, { a with free })

def insertFreeRun (a : Allocator) (offset len : Nat) : Traced Allocator := do
  let free ← a.free.insertRun offset len
  return { a with free }

def removeFreeRun (a : Allocator) (offset len : Nat) : Traced Allocator := do
  let free ← a.free.removeRun offset len
  return { a with free }

end Allocator

inductive Tampering where
  | putAllocation (offset size : Nat)
  | dropAllocation (offset : Nat)
  | putPiece (sizeClass offset len : Nat)
  | takePiece (sizeClass offset : Nat)
  | insertFreeRun (offset len : Nat)
  | removeFreeRun (offset len : Nat)
deriving DecidableEq, Repr

namespace Tampering

def InWords : Tampering → Prop
  | putAllocation offset size => offset < 2 ^ indexBits ∧ size < 2 ^ indexBits
  | dropAllocation offset => offset < 2 ^ indexBits
  | putPiece sizeClass offset len =>
    sizeClass < 2 ^ indexBits ∧ offset < 2 ^ indexBits ∧ len < 2 ^ indexBits
  | takePiece sizeClass offset => sizeClass < 2 ^ indexBits ∧ offset < 2 ^ indexBits
  | insertFreeRun offset len => offset + len < 2 ^ indexBits
  | removeFreeRun offset len => offset + len < 2 ^ indexBits

def perform (tampering : Tampering) (a : Allocator) : Traced Allocator :=
  match tampering with
  | putAllocation offset size => return (a.putAllocation offset size).2
  | dropAllocation offset => return (a.dropAllocation offset).2
  | putPiece sizeClass offset len => Prod.snd <$> a.putPiece sizeClass offset len
  | takePiece sizeClass offset => Prod.snd <$> a.takePiece sizeClass offset
  | insertFreeRun offset len => a.insertFreeRun offset len
  | removeFreeRun offset len => a.removeFreeRun offset len

end Tampering

end AlignedRuns
