import AlignedRuns.Proofs.BatchRelease
import AlignedRuns.Proofs.Endings
set_option autoImplicit false

namespace AlignedRuns

namespace IndexMap

variable {m : IndexMap} {i : Nat} {e : Nat × Nat} {entries : List (Nat × Nat)}

theorem filter_above_head (h : (e :: entries).Pairwise fun a b => a.1 < b.1) :
    (e :: entries).filter (e.1 < ·.1) = entries := by
  rw [List.filter_cons_of_neg (by simp), List.filter_eq_self]
  intro d hd
  exact decide_eq_true ((List.pairwise_cons.1 h).1 d hd)

/-- Above an index come the next entry and what is above that. -/
theorem above_of_next? (h : m.next? i = some e) : m.above i = e :: m.above e.1 := by
  have hlt := (next?_eq_some_iff.1 h).2.1
  rw [next?_eq_head?] at h
  obtain ⟨later, habove⟩ := List.head?_eq_some_iff.1 h
  have hascending : (e :: later).Pairwise fun a b => a.1 < b.1 :=
    habove ▸ m.ascending_toList.filter _
  have hlater : m.above e.1 = (m.above i).filter (e.1 < ·.1) := by
    rw [above, above, List.filter_filter]
    refine List.filter_congr fun d _ => ?_
    rw [Bool.eq_iff_iff, Bool.and_eq_true, decide_eq_true_eq, decide_eq_true_eq]
    omega
  rw [hlater, habove, filter_above_head hascending]

theorem toList_of_first? (h : m.first? = some e) : m.toList = e :: m.above e.1 := by
  obtain ⟨later, hlist⟩ := List.head?_eq_some_iff.1 h
  have hascending := m.ascending_toList
  rw [hlist] at hascending
  rw [above, hlist, filter_above_head hascending]

end IndexMap

structure Enumerates (P : Nat → Prop) (indices : List Nat) : Prop where
  ascending : indices.Pairwise (· < ·)
  mem_iff : ∀ i, i ∈ indices ↔ P i

namespace Enumerates

variable {P Q : Nat → Prop} {indices others : List Nat}

theorem unique (h : Enumerates P indices) (h' : Enumerates P others) : indices = others :=
  h.ascending.eq_of_mem_iff h'.ascending fun i => (h.mem_iff i).trans (h'.mem_iff i).symm

theorem congr (h : ∀ i, P i ↔ Q i) : Enumerates P indices ↔ Enumerates Q indices :=
  ⟨fun hP => ⟨hP.ascending, fun i => (hP.mem_iff i).trans (h i)⟩,
    fun hQ => ⟨hQ.ascending, fun i => (hQ.mem_iff i).trans (h i).symm⟩⟩

end Enumerates

namespace Allocator

/-- A walk that is to go on at `next` visits the offsets in turn and then comes to its end. -/
inductive Visits (a : Allocator) : (next : Option Nat) → (offsets : List Nat) → Prop where
  | ended : a.Visits none []
  | visited {offset : Nat} {later : List Nat} (h : a.Visits (a.nextAllocation? offset) later) :
    a.Visits (some offset) (offset :: later)

/-- A walk from the first allocation of `a` on has visited the offsets, the last one first, and has
come to the second allocator. Requests were made between its steps, or none. -/
inductive Walked (a : Allocator) : Allocator → List Nat → Prop where
  | begun : a.Walked a []
  | first {b : Allocator} {offset : Nat} (h : a.Walked b [])
    (hfirst : b.firstAllocation? = some offset) : a.Walked b [offset]
  | next {b : Allocator} {last offset : Nat} {earlier : List Nat}
    (h : a.Walked b (last :: earlier)) (hnext : b.nextAllocation? last = some offset) :
    a.Walked b (offset :: last :: earlier)
  | changed {b : Allocator} {offsets : List Nat} {request : Request} {reply : Reply (Option Nat)}
    (h : a.Walked b offsets) (words : request.InWords)
    (performed : (request.perform b).outcome.result = .ok reply) : a.Walked reply.after offsets

variable {a b : Allocator} {next : Option Nat} {offset size x : Nat} {offsets others : List Nat}

theorem Visits.unique (h : a.Visits next offsets) (h' : a.Visits next others) :
    offsets = others := by
  induction h generalizing others with
  | ended =>
    cases h'
    rfl
  | visited _ ih =>
    cases h' with
    | visited h' => rw [ih h']

theorem visits_above (a : Allocator) (x : Nat) :
    a.Visits (a.nextAllocation? x) ((a.inUse.above x).map Prod.fst) := by
  -- on what is still above: each step takes its first entry away
  induction habove : a.inUse.above x generalizing x with
  | nil =>
    have hnone : a.nextAllocation? x = none := by
      rw [nextAllocation?, IndexMap.next?_eq_head?, habove]
      rfl
    rw [hnone]
    exact .ended
  | cons e later ih =>
    have hnext : a.inUse.next? x = some e := by
      rw [IndexMap.next?_eq_head?, habove]
      rfl
    have hlater : a.inUse.above e.1 = later :=
      (List.cons.inj ((IndexMap.above_of_next? hnext).symm.trans habove)).2
    rw [nextAllocation?, hnext]
    exact .visited (ih e.1 hlater)

theorem enumerates_above (a : Allocator) (x : Nat) :
    Enumerates (fun i => x < i ∧ a.Live i) ((a.inUse.above x).map Prod.fst) := by
  refine ⟨List.pairwise_map.2 (a.inUse.ascending_toList.filter _), fun i => ?_⟩
  simp only [List.mem_map, IndexMap.mem_above_iff, Live, allocations, IndexMap.mem_toList_iff]
  constructor
  · rintro ⟨e, ⟨hget, hlt⟩, rfl⟩
    exact ⟨hlt, e.2, hget⟩
  · rintro ⟨hlt, v, hget⟩
    exact ⟨(i, v), ⟨hget, hlt⟩, rfl⟩

/-- From any index on, a walk comes to its end and visits the allocations above the index. -/
theorem visits_next_iff : a.Visits (a.nextAllocation? x) offsets ↔
    Enumerates (fun i => x < i ∧ a.Live i) offsets := by
  constructor
  · intro h
    rw [h.unique (a.visits_above x)]
    exact a.enumerates_above x
  · intro h
    rw [h.unique (a.enumerates_above x)]
    exact a.visits_above x

theorem visits_first_iff :
    a.Visits a.firstAllocation? offsets ↔ offsets = a.allocations.map Prod.fst := by
  have hall : a.Visits a.firstAllocation? (a.allocations.map Prod.fst) := by
    rw [firstAllocation?, allocations]
    cases hfirst : a.inUse.first? with
    | none =>
      rw [List.head?_eq_none_iff.1 hfirst]
      exact .ended
    | some e =>
      rw [IndexMap.toList_of_first? hfirst]
      exact .visited (a.visits_above e.1)
  exact ⟨fun h => h.unique hall, fun h => h ▸ hall⟩

theorem live_erase_iff {i : Nat} :
    (a.withAllocations (a.inUse.erase offset)).Live i ↔ i ≠ offset ∧ a.Live i := by
  rw [live_iff, live_iff, withAllocations_inUse, IndexMap.get?_erase]
  by_cases heq : offset = i
  · simp [heq]
  · simp [heq, Ne.symm heq]

theorem live_insert_iff {i : Nat} :
    (a.withAllocations (a.inUse.insert offset size)).Live i ↔ i = offset ∨ a.Live i := by
  rw [live_iff, live_iff, withAllocations_inUse, IndexMap.get?_insert]
  by_cases heq : offset = i
  · simp [heq]
  · simp [heq, Ne.symm heq]

theorem Canonical.visits_after_release (h : a.Canonical)
    (hrun : (a.release offset).outcome.result = .ok ⟨.ok (), b⟩) :
    b.Visits (b.nextAllocation? x) offsets ↔
      Enumerates (fun i => x < i ∧ i ≠ offset ∧ a.Live i) offsets := by
  obtain ⟨-, rfl⟩ := h.release_ok_iff.1 hrun
  exact visits_next_iff.trans (Enumerates.congr fun i => and_congr_right fun _ => live_erase_iff)

theorem Canonical.visits_after_reserve (h : a.Canonical)
    (hrun : (a.reserve offset size).outcome.result = .ok ⟨.ok (), b⟩) :
    b.Visits (b.nextAllocation? x) offsets ↔
      Enumerates (fun i => x < i ∧ (i = offset ∨ a.Live i)) offsets := by
  obtain ⟨-, -, rfl⟩ := h.reserve_ok_iff.1 hrun
  exact visits_next_iff.trans (Enumerates.congr fun i => and_congr_right fun _ => live_insert_iff)

theorem lt_of_nextAllocation? {last : Nat} (h : a.nextAllocation? last = some offset) :
    last < offset := by
  obtain ⟨e, he, rfl⟩ := Option.map_eq_some_iff.1 h
  exact (IndexMap.next?_eq_some_iff.1 he).2.1

/-- A walk never turns back, whatever requests are made on the way. -/
theorem Walked.descending (h : a.Walked b offsets) : offsets.Pairwise (· > ·) := by
  induction h with
  | begun => exact .nil
  | first _ _ _ => exact List.pairwise_singleton _ _
  | next _ hnext ih =>
    have hlt := lt_of_nextAllocation? hnext
    refine List.pairwise_cons.2 ⟨?_, ih⟩
    rw [List.forall_mem_cons]
    exact ⟨hlt, fun d hd => ((List.pairwise_cons.1 ih).1 d hd).trans hlt⟩
  | changed _ _ _ ih => exact ih

end Allocator

namespace Reachable
open Allocator

variable {maxSize slotCount : Nat} {a b : Allocator}

theorem of_walked {offsets : List Nat} (h : Reachable maxSize slotCount a)
    (hwalked : a.Walked b offsets) : Reachable maxSize slotCount b := by
  induction hwalked with
  | begun => exact h
  | first _ _ ih => exact ih
  | next _ _ ih => exact ih
  | changed _ words performed ih => exact ih.step words performed

/-- A walk from the first allocation on visits all allocations in ascending order and ends, and one
from any index on visits those above it. After a release or a reservation it goes over what is
allocated then, and so does the rest of a walk between whose steps requests were made. -/
theorem walks_allocations (h : Reachable maxSize slotCount a) :
    (∀ offsets, a.Visits a.firstAllocation? offsets ↔ offsets = a.allocations.map Prod.fst) ∧
    (a.allocations.map Prod.fst).length = a.allocationCount ∧
    (a.allocations.map Prod.fst).Pairwise (· < ·) ∧
    (∀ x offsets, a.Visits (a.nextAllocation? x) offsets ↔
      Enumerates (fun i => x < i ∧ a.Live i) offsets) ∧
    (∀ offset b, (a.release offset).outcome.result = .ok ⟨.ok (), b⟩ →
      ∀ x offsets, b.Visits (b.nextAllocation? x) offsets ↔
        Enumerates (fun i => x < i ∧ i ≠ offset ∧ a.Live i) offsets) ∧
    (∀ offset size b, (a.reserve offset size).outcome.result = .ok ⟨.ok (), b⟩ →
      ∀ x offsets, b.Visits (b.nextAllocation? x) offsets ↔
        Enumerates (fun i => x < i ∧ (i = offset ∨ a.Live i)) offsets) ∧
    ∀ b last earlier, a.Walked b (last :: earlier) →
      Reachable maxSize slotCount b ∧ (last :: earlier).Pairwise (· > ·) ∧
      ∀ offsets, b.Visits (b.nextAllocation? last) offsets ↔
        Enumerates (fun i => last < i ∧ b.Live i) offsets := by
  have hcanonical := h.canonical.1
  refine ⟨fun _ => visits_first_iff, ?_, List.pairwise_map.2 a.inUse.ascending_toList,
    fun _ _ => visits_next_iff, fun _ _ hrun _ _ => hcanonical.visits_after_release hrun,
    fun _ _ _ hrun _ _ => hcanonical.visits_after_reserve hrun,
    fun b last earlier hwalked => ⟨h.of_walked hwalked, hwalked.descending,
      fun _ => visits_next_iff⟩⟩
  rw [List.length_map]
  exact a.inUse.length_toList

theorem walks_allocations_beside_run :
    ∃ a b c, Reachable 4 4 a ∧ a.allocations = [(1, 2)] ∧ a.Visits a.firstAllocation? [1] ∧
      a.Visits (a.nextAllocation? 1) [] ∧
      (a.release 1).outcome.result = .ok ⟨.ok (), b⟩ ∧ b.Visits (b.nextAllocation? 0) [] ∧
      (a.reserve 5 7).outcome.result = .ok ⟨.ok (), c⟩ ∧ a.Walked c [1] ∧
      c.Visits (c.nextAllocation? 1) [5] ∧ Reachable 4 4 c := by
  let a : Allocator := (Allocator.blank 4 4).withAllocations (IndexMap.empty.insert 1 2)
  let b : Allocator := a.withAllocations (a.inUse.erase 1)
  let c : Allocator := a.withAllocations (a.inUse.insert 5 7)
  obtain ⟨h, hlist⟩ : Reachable 4 4 a ∧ a.allocations = [(1, 2)] := beside_run
  have hcanonical := h.canonical.1
  have hrelease : (a.release 1).outcome.result = .ok ⟨.ok (), b⟩ :=
    hcanonical.release_ok_iff.2 ⟨⟨2, by decide⟩, rfl⟩
  have hreserve : (a.reserve 5 7).outcome.result = .ok ⟨.ok (), c⟩ :=
    hcanonical.reserve_ok_iff.2 ⟨by decide, by constructor <;> decide, rfl⟩
  have hperformed : ((Request.reserve 5 7).perform a).outcome.result = .ok ⟨.ok none, c⟩ := by
    rw [Request.perform, Traced.result_map, hreserve]
    rfl
  have hwords : (Request.reserve 5 7).InWords := ⟨by decide, by decide⟩
  have hwalked : a.Walked c [1] := .changed (.first .begun rfl) hwords hperformed
  have hlive (i : Nat) : a.Live i ↔ i = 1 := by simp [Live, hlist]
  obtain ⟨hall, -, -, hnext, hreleased, hreserved, hrest⟩ := walks_allocations h
  refine ⟨a, b, c, h, hlist, (hall [1]).2 (by rw [hlist]; rfl), (hnext 1 []).2 ⟨.nil, ?_⟩, hrelease,
    (hreleased 1 b hrelease 0 []).2 ⟨.nil, ?_⟩, hreserve, hwalked,
    (hreserved 5 7 c hreserve 1 [5]).2 ⟨List.pairwise_singleton _ _, ?_⟩, (hrest c 1 [] hwalked).1⟩
  · intro i
    simp only [hlive, List.not_mem_nil]
    grind
  · intro i
    simp only [hlive, List.not_mem_nil]
    grind
  · intro i
    simp only [hlive, List.mem_singleton]
    grind

end Reachable

end AlignedRuns
