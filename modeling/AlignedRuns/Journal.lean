import AlignedRuns.Piece
set_option autoImplicit false

namespace AlignedRuns

inductive Inconsistency where
  /-- The place where a piece should go is taken by one of length `old`. -/
  | pieceExists (sizeClass offset old : Nat)
  | pieceMissing (sizeClass offset : Nat)
  | pieceLength (sizeClass offset stored expected : Nat)
  | alreadyAllocated (offset old : Nat)
  | pieceVanished (offset : Nat)
deriving DecidableEq, Repr

namespace Inconsistency

def message : Inconsistency → String
  | pieceExists c offset old => s!"free list {c} already holds a piece at {offset} (len {old})"
  | pieceMissing c offset => s!"free list {c} has no piece at {offset}"
  | pieceLength c offset stored expected =>
    s!"free list {c} piece at {offset} has len {stored}, expected {expected}"
  | alreadyAllocated offset old => s!"{offset} is already allocated (size {old})"
  | pieceVanished offset => s!"top class piece at {offset} vanished"

end Inconsistency

inductive Severity where
  | error
  | warn
  | info
  | debug
  | trace
deriving DecidableEq, Repr

namespace Severity

def rank : Severity → Nat
  | error => 0
  | warn => 1
  | info => 2
  | debug => 3
  | trace => 4

def label : Severity → String
  | error => "ERROR"
  | warn => "WARN"
  | info => "INFO"
  | debug => "DEBUG"
  | trace => "TRACE"

def ofName? : String → Option Severity
  | "error" => some error
  | "warn" => some warn
  | "info" => some info
  | "debug" => some debug
  | "trace" => some trace
  | _ => none

end Severity

inductive Event where
  | stored (piece : Piece)
  | dropped (piece : Piece)
  | created (slotCount maxSize classes : Nat)
  /-- A run was placed inside the free piece `pieceStart + pieceLen`. -/
  | allocated (size offset pieceStart pieceLen : Nat)
  | released (offset size : Nat)
  /-- A run was placed inside the gap from `left` to `right`. -/
  | reserved (offset size left right : Nat)
  | allocatedMany (count size first : Nat)
  | releasedMany (count offset size : Nat)
  | violated (inconsistency : Inconsistency)
deriving DecidableEq, Repr

namespace Event

def severity : Event → Severity
  | stored _ | dropped _ => .trace
  | violated _ => .error
  | created .. | allocated .. | released .. | reserved .. | allocatedMany .. | releasedMany .. =>
    .debug

def message : Event → String
  | stored ⟨c, offset, len⟩ => s!"free list {c}: insert {offset}+{len}"
  | dropped ⟨c, offset, len⟩ => s!"free list {c}: remove {offset}+{len}"
  | created slotCount maxSize classes =>
    s!"power2 allocator: {slotCount} slots of {maxSize} ({classes} size classes)"
  | allocated size offset start len => s!"allocate {size}: {offset} (from {start}+{len})"
  | released offset size => s!"release {offset}+{size}"
  | reserved offset size left right => s!"reserve {offset}+{size} (free gap {left}..{right})"
  | allocatedMany count size first => s!"allocate {count} x {size}: {first}"
  | releasedMany count offset size => s!"release {count} x {offset}+{size}"
  | violated inconsistency =>
    "power2 allocator consistency violation: " ++ inconsistency.message

def line (e : Event) : String := e.severity.label ++ " " ++ e.message

end Event

abbrev Journal := List Event

namespace Journal

def visible (limit : Severity) (journal : Journal) : Journal :=
  journal.filter fun e => e.severity.rank ≤ limit.rank

def lines (limit : Severity) (journal : Journal) : List String :=
  (journal.visible limit).map Event.line

end Journal

end AlignedRuns
