import AlignedRuns.Journal
set_option autoImplicit false

/-!
# Computations with a journal

Computations that keep a journal and may end in a fault. A fault stops the computation; the
journal up to it is kept. Every computation that ends well is some `emit` followed by a result, and
the lemmas bring it to that form.
-/

namespace AlignedRuns

inductive Arithmetic where
  | add
  | subtract
  | multiply
  | shiftLeft
deriving DecidableEq, Repr

inductive Expectation where
  | notZero
  | powerOfTwo
  | classCount
  | pieceAligned
  | pieceFillsClass
  | runInsidePiece
deriving DecidableEq, Repr

inductive Fault where
  | inconsistent (inconsistency : Inconsistency)
  | overflow (operation : Arithmetic)
  | remainderByZero
  | noSuchClass (classes sizeClass : Nat)
  | failed (expectation : Expectation)
deriving DecidableEq, Repr

namespace Arithmetic

def verb : Arithmetic → String
  | add => "add"
  | subtract => "subtract"
  | multiply => "multiply"
  | shiftLeft => "shift left"

end Arithmetic

namespace Expectation

def condition : Expectation → String
  | notZero => "x != 0"
  | powerOfTwo => "align is a power of two"
  | classCount => "1 <= class count <= 32"
  | pieceAligned => "offset % class size == 0"
  | pieceFillsClass => "len > class size / 2"
  | runInsidePiece => "offset >= free_offset"

end Expectation

namespace Fault

def message : Fault → String
  | inconsistent i => i.message
  | overflow operation => "attempt to " ++ operation.verb ++ " with overflow"
  | remainderByZero => "attempt to calculate the remainder with a divisor of zero"
  | noSuchClass classes c => s!"index out of bounds: the len is {classes} but the index is {c}"
  | failed expectation => "assertion failed: " ++ expectation.condition

end Fault

/-- While a computation runs, the newest event stands first. -/
abbrev Traced := EStateM Fault Journal

structure Outcome (α : Type) where
  result : Except Fault α
  journal : Journal

namespace Traced

variable {α β : Type}

def fault (f : Fault) : Traced α := throw f

def record (e : Event) : Traced Unit := modify (e :: ·)

def inconsistent (i : Inconsistency) : Traced α := do
  record (.violated i)
  fault (.inconsistent i)

def require (condition : Prop) [Decidable condition] (e : Expectation) : Traced Unit :=
  if condition then pure () else fault (.failed e)

def outcome (x : Traced α) : Outcome α :=
  match x.run [] with
  | .ok a journal => ⟨.ok a, journal.reverse⟩
  | .error f journal => ⟨.error f, journal.reverse⟩

def emit (events : Journal) : Traced Unit := modify (events.reverseAux ·)

theorem record_eq_emit (e : Event) : record e = emit [e] := rfl

theorem emit_bind_emit (first second : Journal) (f : Traced β) :
    (do emit first; emit second; f) = (do emit (first ++ second); f) := by
  funext journal
  change f (second.reverseAux (first.reverseAux journal)) = f ((first ++ second).reverseAux journal)
  simp [List.reverseAux_eq]

theorem exists_of_run_bind_eq_ok {x : Traced α} {f : α → Traced β} {journal after : Journal} {b : β}
    (h : (x >>= f).run journal = .ok b after) :
    ∃ a middle, x.run journal = .ok a middle ∧ (f a).run middle = .ok b after := by
  change EStateM.bind x f journal = _ at h
  unfold EStateM.bind at h
  split at h
  · exact ⟨_, _, ‹_›, h⟩
  · cases h

theorem fault_bind (e : Fault) (f : α → Traced β) : fault e >>= f = fault e := rfl

theorem require_of {condition : Prop} [Decidable condition] (h : condition) (e : Expectation) :
    require condition e = pure () := if_pos h

theorem outcome_emit_pure (events : Journal) (a : α) :
    (do emit events; pure a : Traced α).outcome = ⟨.ok a, events⟩ := by
  change Outcome.mk _ (events.reverseAux []).reverse = _
  simp [List.reverseAux_eq]

theorem outcome_emit_fault (events : Journal) (e : Fault) :
    (do emit events; fault e : Traced α).outcome = ⟨.error e, events⟩ := by
  change Outcome.mk _ (events.reverseAux []).reverse = _
  simp [List.reverseAux_eq]

end Traced

end AlignedRuns
