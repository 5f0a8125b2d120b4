import AlignedRuns.Proofs.BatchPlacement
import AlignedRuns.Proofs.BatchRelease
import AlignedRuns.Proofs.Endings
import Mathlib.Algebra.BigOperators.Group.Finset.Basic
import Mathlib.Algebra.Group.Action.Defs
import Mathlib.Order.Interval.Finset.Nat
set_option autoImplicit false

namespace AlignedRuns

theorem Reply.exists_of_map_ok {α β : Type} {f : α → β} {x : Traced (Reply α)} {value : β}
    {b : Allocator} (h : (Reply.map f <$> x).outcome.result = .ok ⟨.ok value, b⟩) :
    ∃ first, x.outcome.result = .ok ⟨.ok first, b⟩ := by
  rw [Traced.result_map] at h
  cases hx : x.outcome.result with
  | error e =>
    rw [hx] at h
    cases h
  | ok reply =>
    rw [hx] at h
    obtain ⟨_ | first, _⟩ := reply <;> cases h
    exact ⟨first, rfl⟩

namespace Allocator
open Traced

variable {a b : Allocator} {offset size count first : Nat} {e : Nat × Nat}

def shortAllocations (a : Allocator) : List (Nat × Nat) :=
  a.allocations.filter (·.2 ≤ a.maxSize)

theorem mem_shortAllocations_iff :
    e ∈ a.shortAllocations ↔ e ∈ a.allocations ∧ e.2 ≤ a.maxSize := by
  rw [shortAllocations, List.mem_filter, decide_eq_true_eq]

theorem allocationCountOfSize_of_le (hsize : size ≤ a.maxSize) :
    a.allocationCountOfSize size = a.allocations.countP (·.2 = size) := by
  rw [allocationCountOfSize, if_neg (Nat.not_lt_of_le hsize), List.countP_eq_length_filter]
  rfl

theorem allocationCountOfSize_eq_count (a : Allocator) (size : Nat) :
    a.allocationCountOfSize size = (a.shortAllocations.map Prod.snd).count size := by
  rcases Nat.lt_or_ge a.maxSize size with hlong | hshort
  · rw [allocationCountOfSize, if_pos hlong]
    refine (List.count_eq_zero.2 fun hmem => ?_).symm
    obtain ⟨e, he, rfl⟩ := List.mem_map.1 hmem
    exact absurd (mem_shortAllocations_iff.1 he).2 (Nat.not_le_of_lt hlong)
  · rw [allocationCountOfSize_of_le hshort, List.count, List.countP_map, shortAllocations,
      List.countP_filter]
    refine List.countP_congr fun e _ => ?_
    simp only [Function.comp_apply, beq_iff_eq, Bool.and_eq_true, decide_eq_true_eq]
    exact ⟨fun heq => ⟨heq, heq.trans_le hshort⟩, And.left⟩

section Sums
variable (h : a.Canonical)
include h

theorem Canonical.mem_Icc_of_short :
    ∀ s ∈ a.shortAllocations.map Prod.snd, s ∈ Finset.Icc 1 a.totalSize := by
  intro s hs
  obtain ⟨e, he, rfl⟩ := List.mem_map.1 hs
  have := h.spaced.bounds (mem_shortAllocations_iff.1 he).1
  rw [Finset.mem_Icc]
  omega

theorem Canonical.sum_counts :
    ∑ s ∈ Finset.Icc 1 a.totalSize, a.allocationCountOfSize s = a.shortAllocations.length := by
  have hsum := Multiset.sum_count_eq_card (m := (a.shortAllocations.map Prod.snd : Multiset Nat))
    h.mem_Icc_of_short
  simpa only [Multiset.coe_count, Multiset.coe_card, List.length_map,
    allocationCountOfSize_eq_count] using hsum

theorem Canonical.sum_mul_counts :
    ∑ s ∈ Finset.Icc 1 a.totalSize, s * a.allocationCountOfSize s =
      (a.shortAllocations.map Prod.snd).sum := by
  have hsub : (a.shortAllocations.map Prod.snd).toFinset ⊆ Finset.Icc 1 a.totalSize :=
    fun s hs => h.mem_Icc_of_short s (List.mem_toFinset.1 hs)
  rw [Finset.sum_list_count_of_subset _ _ hsub]
  refine Finset.sum_congr rfl fun s _ => ?_
  rw [allocationCountOfSize_eq_count, smul_eq_mul, Nat.mul_comm]

end Sums

theorem length_shortAllocations_eq_iff :
    a.shortAllocations.length = a.allocationCount ↔ ∀ e ∈ a.allocations, e.2 ≤ a.maxSize := by
  have hcount : a.allocations.length = a.allocationCount := a.inUse.length_toList
  rw [← hcount, shortAllocations, List.length_filter_eq_length_iff]
  simp only [decide_eq_true_eq]

/-- An allocation that is left out of the sum is missing from it, as its size is not zero. -/
theorem sum_shortAllocations_eq_iff :
    (a.shortAllocations.map Prod.snd).sum = (a.allocations.map Prod.snd).sum ↔
      ∀ e ∈ a.allocations, e.2 ≤ a.maxSize := by
  constructor
  · intro hsum e he
    by_contra hlong
    have hsplit := ((List.filter_append_perm (·.2 ≤ a.maxSize) a.allocations).map Prod.snd).sum_nat
    rw [List.map_append, List.sum_append] at hsplit
    change (a.shortAllocations.map Prod.snd).sum + _ = _ at hsplit
    have hmem : e.2 ∈ (a.allocations.filter fun e => !decide (e.2 ≤ a.maxSize)).map Prod.snd :=
      List.mem_map_of_mem (List.mem_filter.2 ⟨he, by simpa using hlong⟩)
    have hpos := List.sum_pos_iff_exists_pos_nat.2 ⟨e.2, hmem, by omega⟩
    omega
  · intro hall
    rw [shortAllocations, List.filter_eq_self.2 fun e he => decide_eq_true (hall e he)]

section Gains
variable (h : a.Canonical)
include h

theorem Canonical.new_of_allocate (hrun : (a.allocate size).outcome.result = .ok ⟨.ok offset, b⟩)
    (he : e ∈ b.allocations) : e ∈ a.allocations ∨ e.2 ≤ a.maxSize := by
  have hmem := (h.allocate_sound hrun).2.2.mem_iff.1 he
  rcases List.mem_cons.1 hmem with rfl | hold
  · exact .inr (h.allocate_ok_iff.1 hrun).2.1
  · exact .inl hold

theorem Canonical.size_le_of_allocateMany (hword : count < 2 ^ indexBits)
    (hrun : (a.allocateMany size count).outcome.result = .ok ⟨.ok first, b⟩) :
    size ≤ a.maxSize := by
  obtain rfl | rfl | hcount : count = 0 ∨ count = 1 ∨ 2 ≤ count := by omega
  · rw [allocateMany_zero, (yields_pure _).result_eq_ok_iff] at hrun
    cases hrun
  · exact (h.allocate_ok_iff.1 hrun).2.1
  · exact ((h.allocateMany_ok_iff hcount hword).1 hrun).1.2

theorem Canonical.new_of_allocateMany (hword : count < 2 ^ indexBits)
    (hrun : (a.allocateMany size count).outcome.result = .ok ⟨.ok first, b⟩)
    (he : e ∈ b.allocations) : e ∈ a.allocations ∨ e.2 ≤ a.maxSize := by
  rcases List.mem_append.1 ((h.allocateMany_gains hword hrun).mem_iff.1 he) with hold | hnew
  · exact .inl hold
  · obtain ⟨i, -, rfl⟩ := List.mem_map.1 hnew
    exact .inr (h.size_le_of_allocateMany hword hrun)

theorem Canonical.old_of_release (hrun : (a.release offset).outcome.result = .ok ⟨.ok (), b⟩)
    (he : e ∈ b.allocations) : e ∈ a.allocations := by
  obtain ⟨-, rfl⟩ := h.release_ok_iff.1 hrun
  exact IndexMap.mem_toList_of_erase he

theorem Canonical.old_of_releaseMany (hword : count < 2 ^ indexBits)
    (hrun : (a.releaseMany offset count).outcome.result = .ok ⟨.ok (), b⟩)
    (he : e ∈ b.allocations) : e ∈ a.allocations := by
  obtain ⟨hlive, rfl⟩ := h.releaseMany_of_ok hword hrun
  obtain ⟨lost, -, hperm⟩ := h.batch_lost hlive
  exact hperm.mem_iff.2 (List.mem_append_right _ he)

theorem Canonical.new_of_reserve (hrun : (a.reserve offset size).outcome.result = .ok ⟨.ok (), b⟩)
    (he : e ∈ b.allocations) : e ∈ a.allocations ∨ e = (offset, size) := by
  obtain ⟨-, -, rfl⟩ := h.reserve_ok_iff.1 hrun
  exact (IndexMap.mem_toList_of_insert he).symm

/-- An allocation that a request has made is no longer than `maxSize`, unless it was reserved. -/
theorem Canonical.new_of_perform {request : Request} {reply : Reply (Option Nat)}
    (hwords : request.InWords) (hrun : (request.perform a).outcome.result = .ok reply)
    (he : e ∈ reply.after.allocations) :
    e ∈ a.allocations ∨ e.2 ≤ a.maxSize ∨ request = .reserve e.1 e.2 := by
  obtain ⟨answer, after⟩ := reply
  cases answer with
  | error refusal =>
    obtain rfl := (h.perform_answers hwords).after_of_refused hrun
    exact .inl he
  | ok value =>
    -- both searches check the size first; of the others only a reservation adds an allocation
    cases request with
    | allocate size =>
      obtain ⟨offset, hfirst⟩ := Reply.exists_of_map_ok hrun
      exact (h.new_of_allocate hfirst he).imp_right .inl
    | release offset =>
      obtain ⟨_, hfirst⟩ := Reply.exists_of_map_ok hrun
      exact .inl (h.old_of_release hfirst he)
    | reserve offset size =>
      obtain ⟨_, hfirst⟩ := Reply.exists_of_map_ok hrun
      rcases h.new_of_reserve hfirst he with hold | rfl
      · exact .inl hold
      · exact .inr (.inr rfl)
    | allocateMany size count =>
      obtain ⟨first, hfirst⟩ := Reply.exists_of_map_ok hrun
      exact (h.new_of_allocateMany hwords.2 hfirst he).imp_right .inl
    | releaseMany offset count =>
      obtain ⟨_, hfirst⟩ := Reply.exists_of_map_ok hrun
      exact .inl (h.old_of_releaseMany hwords.2 hfirst he)

end Gains

end Allocator

namespace Reachable
open Allocator

variable {maxSize slotCount : Nat} {a : Allocator}

/-- The counts by size count the allocations of up to `maxSize` indices, and their sums are the
number of these and of the indices in them. The sums are those of all allocations just if none is
longer, and only a reservation makes a longer one. -/
theorem counts_up_to_maxSize (h : Reachable maxSize slotCount a) :
    (∀ size ≤ maxSize, a.allocationCountOfSize size = a.allocations.countP (·.2 = size)) ∧
    (∀ size > maxSize, a.allocationCountOfSize size = 0) ∧
    (∑ s ∈ Finset.Icc 1 a.totalSize, a.allocationCountOfSize s =
      (a.allocations.filter (·.2 ≤ maxSize)).length) ∧
    (∑ s ∈ Finset.Icc 1 a.totalSize, s * a.allocationCountOfSize s =
      ((a.allocations.filter (·.2 ≤ maxSize)).map Prod.snd).sum) ∧
    (∑ s ∈ Finset.Icc 1 a.totalSize, a.allocationCountOfSize s = a.allocationCount ↔
      ∀ e ∈ a.allocations, e.2 ≤ maxSize) ∧
    (a.usage.outcome.result =
        .ok (∑ s ∈ Finset.Icc 1 a.totalSize, s * a.allocationCountOfSize s) ↔
      ∀ e ∈ a.allocations, e.2 ≤ maxSize) ∧
    ∀ (request : Request) reply, request.InWords → (request.perform a).outcome.result = .ok reply →
      ∀ e ∈ reply.after.allocations,
        e ∈ a.allocations ∨ e.2 ≤ maxSize ∨ request = .reserve e.1 e.2 := by
  obtain ⟨hcanonical, rfl, -⟩ := h.canonical
  refine ⟨fun size hsize => allocationCountOfSize_of_le hsize, fun size hsize => if_pos hsize,
    hcanonical.sum_counts, hcanonical.sum_mul_counts, ?_, ?_,
    fun request reply hwords hrun e he => hcanonical.new_of_perform hwords hrun he⟩
  · rw [hcanonical.sum_counts]
    exact length_shortAllocations_eq_iff
  · have husage : a.usage.outcome.result = .ok (a.allocations.map Prod.snd).sum := by
      rw [hcanonical.usage_eq]
      rfl
    rw [husage, Except.ok.injEq, eq_comm, hcanonical.sum_mul_counts]
    exact sum_shortAllocations_eq_iff

theorem counts_up_to_maxSize_beside_long_run :
    ∃ a reply, Reachable 4 4 a ∧ a.allocations = [(1, 2), (5, 7)] ∧
      a.allocationCountOfSize 2 = 1 ∧ a.allocationCountOfSize 7 = 0 ∧
      ∑ s ∈ Finset.Icc 1 a.totalSize, a.allocationCountOfSize s = 1 ∧
      ∑ s ∈ Finset.Icc 1 a.totalSize, s * a.allocationCountOfSize s = 2 ∧
      ∑ s ∈ Finset.Icc 1 a.totalSize, a.allocationCountOfSize s ≠ a.allocationCount ∧
      ((Request.allocate 4).perform a).outcome.result = .ok reply ∧
      ∀ e ∈ reply.after.allocations, e ∈ a.allocations ∨ e.2 ≤ 4 := by
  let a : Allocator :=
    (Allocator.blank 4 4).withAllocations ((IndexMap.empty.insert 1 2).insert 5 7)
  have hlist : a.allocations = [(1, 2), (5, 7)] := by decide
  have hspaced : Gaps.Spaced (4 * 4) 0 a.allocations := by
    rw [hlist]
    simp [Gaps.Spaced]
  have h : Reachable 4 4 a := Reachable.withAllocations ⟨⟨2, by decide, rfl⟩, by decide⟩ hspaced
  have hcanonical := h.canonical.1
  have hwords : (Request.allocate 4).InWords := show 4 < 2 ^ indexBits by decide
  obtain ⟨reply, hrun, -⟩ := (hcanonical.perform_answers hwords).exists_reply hcanonical
  obtain ⟨hshort, hlong, hsum, hmul, hcount, -, hgains⟩ := counts_up_to_maxSize h
  refine ⟨a, reply, h, hlist, (hshort 2 (by decide)).trans (by decide), hlong 7 (by decide),
    hsum.trans (by decide), hmul.trans (by decide), fun hall => ?_, hrun, fun e he => ?_⟩
  · exact absurd (hcount.1 hall (5, 7) (hlist ▸ by simp)) (by decide)
  · simpa using hgains _ reply hwords hrun e he

/-- A reservation that spans several slots is an allocation that no count by size counts. -/
theorem long_reservation_not_counted :
    ∃ new a, (create 16 4).outcome.result = .ok (.ok new) ∧
      (new.reserve 10 30).outcome.result = .ok ⟨.ok (), a⟩ ∧ Reachable 16 4 a ∧
      a.allocations = [(10, 30)] ∧
      a.allocations.countP (·.2 = 30) = 1 ∧ a.allocationCountOfSize 30 = 0 ∧
      a.allocationCount = 1 ∧
      ∑ s ∈ Finset.Icc 1 a.totalSize, a.allocationCountOfSize s = 0 ∧
      a.usage.outcome.result = .ok 30 ∧
      ∑ s ∈ Finset.Icc 1 a.totalSize, s * a.allocationCountOfSize s = 0 := by
  have hadmissible : Admissible 16 4 := ⟨⟨4, by decide, rfl⟩, by decide⟩
  have hnew := blank_canonical hadmissible
  let a : Allocator := (Allocator.blank 16 4).withAllocations (IndexMap.empty.insert 10 30)
  have hlist : a.allocations = [(10, 30)] := by decide
  have hspaced : Gaps.Spaced (16 * 4) 0 a.allocations := by
    rw [hlist]
    simp [Gaps.Spaced]
  have h : Reachable 16 4 a := Reachable.withAllocations hadmissible hspaced
  have hcanonical := h.canonical.1
  have hnone : a.shortAllocations = [] := by
    rw [shortAllocations, hlist]
    rfl
  refine ⟨_, a, outcome_create_iff.2 ⟨hadmissible, rfl⟩,
    hnew.reserve_ok_iff.2 ⟨by decide, by constructor <;> decide, rfl⟩, h, hlist,
    by rw [hlist]; rfl, rfl, rfl, ?_, ?_, ?_⟩
  · rw [hcanonical.sum_counts, hnone]
    rfl
  · rw [hcanonical.usage_eq, hlist]
    rfl
  · rw [hcanonical.sum_mul_counts, hnone]
    rfl

end Reachable

end AlignedRuns
