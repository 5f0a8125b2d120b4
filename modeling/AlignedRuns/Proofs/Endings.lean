import AlignedRuns.Word
set_option autoImplicit false

namespace AlignedRuns

namespace Traced

variable {α β : Type}

/-- Whenever the computation ends well, its value and what it wrote down since it began are as `P`
says. -/
def Ensures (x : Traced α) (P : α → Journal → Prop) : Prop :=
  ∀ (before after : Journal) (value : α), x.run before = .ok value after →
    ∃ events : Journal, after = events.reverse ++ before ∧ P value events

/-- Whenever the computation ends well, its value is as `P` says and it wrote nothing down. -/
def Silently (x : Traced α) (P : α → Prop) : Prop :=
  x.Ensures fun value events => events = [] ∧ P value

section Rules
variable {x : Traced α} {f : α → Traced β} {P Q : α → Journal → Prop} {R : β → Journal → Prop}
  {S : α → Prop}

theorem ensures_pure {value : α} (h : P value []) : Ensures (pure value) P := by
  intro before after result hrun
  cases hrun
  exact ⟨[], rfl, h⟩

theorem ensures_fault (e : Fault) (P : α → Journal → Prop) : (fault e).Ensures P :=
  fun _ _ _ hrun => nomatch hrun

theorem ensures_inconsistent (i : Inconsistency) (P : α → Journal → Prop) :
    (inconsistent i).Ensures P :=
  fun _ _ _ hrun => nomatch hrun

theorem ensures_record (e : Event) : (record e).Ensures fun _ events => events = [e] := by
  intro before after value hrun
  cases hrun
  exact ⟨[e], rfl, rfl⟩

theorem Ensures.imp (h : x.Ensures P) (himp : ∀ value events, P value events → Q value events) :
    x.Ensures Q := by
  intro before after value hrun
  obtain ⟨events, hafter, hvalue⟩ := h before after value hrun
  exact ⟨events, hafter, himp value events hvalue⟩

theorem Ensures.bind (hx : x.Ensures P)
    (hf : ∀ value events, P value events →
      (f value).Ensures fun result later => R result (events ++ later)) :
    (x >>= f).Ensures R := by
  intro before after result hrun
  obtain ⟨value, middle, hfirst, hsecond⟩ := exists_of_run_bind_eq_ok hrun
  obtain ⟨events, rfl, hvalue⟩ := hx before middle value hfirst
  obtain ⟨later, rfl, hresult⟩ := hf value events hvalue _ after result hsecond
  refine ⟨events ++ later, ?_, hresult⟩
  rw [List.reverse_append, List.append_assoc]

theorem Silently.bind (hx : x.Silently S) (hf : ∀ value, S value → (f value).Ensures R) :
    (x >>= f).Ensures R := by
  refine Ensures.bind hx fun value events h => ?_
  obtain ⟨rfl, hvalue⟩ := h
  exact hf value hvalue

theorem Ensures.map {g : α → β} (h : x.Ensures fun value events => R (g value) events) :
    (g <$> x).Ensures R := by
  rw [map_eq_pure_bind]
  refine h.bind fun value events hvalue => ensures_pure ?_
  rwa [List.append_nil]

theorem silently_pure {value : α} (h : S value) : Silently (pure value) S := ensures_pure ⟨rfl, h⟩

/-- What is ensured holds of the outcome, which starts from an empty journal. -/
theorem Ensures.of_outcome (h : x.Ensures P) {value : α} (hrun : x.outcome.result = .ok value) :
    P value x.outcome.journal := by
  unfold outcome at hrun ⊢
  split at hrun
  · rename_i result after hx
    cases hrun
    obtain ⟨events, rfl, hvalue⟩ := h [] after value hx
    change P value (events.reverse ++ []).reverse
    rwa [List.append_nil, List.reverse_reverse]
  · cases hrun

theorem result_map (g : α → β) : (g <$> x).outcome.result = g <$> x.outcome.result := by
  have hrun : (g <$> x).run [] = EStateM.map g x [] := rfl
  unfold outcome
  rw [hrun, EStateM.map, EStateM.run]
  cases x [] <;> rfl

theorem silently_require (condition : Prop) [Decidable condition] (e : Expectation) :
    (require condition e).Silently fun _ => condition := by
  unfold require
  split
  · exact silently_pure ‹_›
  · exact ensures_fault _ _

end Rules

end Traced

namespace Word
open Traced

variable (width a b k : Nat)

theorem silently_add : (add width a b).Silently (· = a + b) := by
  unfold add
  split
  · exact silently_pure rfl
  · exact ensures_fault _ _

theorem silently_sub : (sub a b).Silently (· = a - b) := by
  unfold sub
  split
  · exact silently_pure rfl
  · exact ensures_fault _ _

theorem silently_mul : (mul width a b).Silently (· = a * b) := by
  unfold mul
  split
  · exact silently_pure rfl
  · exact ensures_fault _ _

theorem silently_bit : (bit width k).Silently (· = 2 ^ k) := by
  unfold bit
  split
  · exact silently_pure rfl
  · exact ensures_fault _ _

theorem silently_subtract : (subtract a b).Silently fun _ => True := by
  unfold subtract
  split
  · exact silently_pure trivial
  · exact ensures_fault _ _

variable (x unit : Nat)

theorem silently_floorLog2 : (floorLog2 x).Silently fun _ => True := by
  unfold floorLog2
  refine (silently_require _ _).bind fun _ _ => ?_
  refine (silently_sub _ _).bind fun width _ => ?_
  exact (silently_sub _ _).imp fun _ _ h => ⟨h.1, trivial⟩

theorem silently_ceilLog2 : (ceilLog2 x).Silently fun _ => True := by
  unfold ceilLog2
  split
  · exact silently_pure trivial
  · refine (silently_sub _ _).bind fun below _ => ?_
    refine (silently_floorLog2 _).bind fun exponent _ => ?_
    exact (silently_add _ _ _).imp fun _ _ h => ⟨h.1, trivial⟩

theorem silently_alignDown : (alignDown x unit).Silently fun _ => True := by
  unfold alignDown
  rw [isPowerOfTwo_eq, pure_bind]
  refine (silently_require _ _).bind fun _ _ => ?_
  exact (silently_sub _ _).bind fun mask _ => silently_pure trivial

end Word

end AlignedRuns
