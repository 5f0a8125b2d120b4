import AlignedRuns.Allocator.Batches
set_option autoImplicit false

namespace AlignedRuns

inductive Request where
  | allocate (size : Nat)
  | release (offset : Nat)
  | reserve (offset size : Nat)
  | allocateMany (size count : Nat)
  | releaseMany (offset count : Nat)
deriving DecidableEq, Repr

namespace Request

def InWords : Request → Prop
  | allocate size => size < 2 ^ indexBits
  | release offset => offset < 2 ^ indexBits
  | reserve offset size => offset < 2 ^ indexBits ∧ size < 2 ^ indexBits
  | allocateMany size count => size < 2 ^ indexBits ∧ count < 2 ^ indexBits
  | releaseMany offset count => offset < 2 ^ indexBits ∧ count < 2 ^ indexBits

def perform (request : Request) (a : Allocator) : Traced (Reply (Option Nat)) :=
  match request with
  | allocate size => Reply.map some <$> a.allocate size
  | release offset => Reply.map (fun _ => none) <$> a.release offset
  | reserve offset size => Reply.map (fun _ => none) <$> a.reserve offset size
  | allocateMany size count => Reply.map some <$> a.allocateMany size count
  | releaseMany offset count => Reply.map (fun _ => none) <$> a.releaseMany offset count

end Request

/-- The allocator comes from a new one by requests, carried out or refused. -/
inductive Reachable (maxSize slotCount : Nat) : Allocator → Prop where
  | fresh {a : Allocator} (h : (Allocator.create maxSize slotCount).outcome.result = .ok (.ok a)) :
    Reachable maxSize slotCount a
  | step {a : Allocator} {request : Request} {reply : Reply (Option Nat)}
    (h : Reachable maxSize slotCount a) (words : request.InWords)
    (performed : (request.perform a).outcome.result = .ok reply) : Reachable maxSize slotCount reply.after

end AlignedRuns
