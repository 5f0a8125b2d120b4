import AlignedRuns.Proofs.Acceptance
import AlignedRuns.Proofs.Vacancy
set_option autoImplicit false

namespace AlignedRuns

theorem Bits.two_pow_ceilLog2_lt {x : Nat} (h : 0 < x) : 2 ^ ceilLog2 x < 2 * x := by
  cases hk : ceilLog2 x with
  | zero => omega
  | succ k =>
    have := mt (ceilLog2_le_iff x k).2 (by omega)
    rw [Nat.pow_succ]
    omega

namespace Allocator
open Traced

variable {a b : Allocator} {offset size place other : Nat}

/-- The multiples of the class size of `size` from which `size` indices are unused. -/
def alignedPlaces (a : Allocator) (size : Nat) : List Nat :=
  (List.range a.totalSize).filter fun place => 2 ^ Bits.ceilLog2 size ∣ place ∧ a.Unused place size

def allocateTimes (size : Nat) :
    (count : Nat) → Allocator → Traced (List (Except Refusal Nat) × Allocator)
  | 0, a => return ([], a)
  | count + 1, a => do
    let reply ← a.allocate size
    let (answers, last) ← allocateTimes size count reply.after
    return (reply.answer :: answers, last)

/-- Requested time and again, runs of `size` indices go to the places of `order` in turn, each of
which is then used up. From there on the requests are refused and change nothing. -/
def Serves (a : Allocator) (size : Nat) (order : List Nat) : Prop :=
  (∀ n ≤ order.length, ∃ b,
    (allocateTimes size n a).outcome.result = .ok ((order.take n).map .ok, b) ∧
      (order.drop n).Perm (b.alignedPlaces size)) ∧
  ∃ full, ∀ m, (allocateTimes size (order.length + m) a).outcome.result =
    .ok (order.map .ok ++ List.replicate m (.error (.outOfSpace size 1)), full)

theorem mem_alignedPlaces_iff (hsize : 0 < size) :
    place ∈ a.alignedPlaces size ↔ 2 ^ Bits.ceilLog2 size ∣ place ∧ a.Unused place size := by
  simp only [alignedPlaces, List.mem_filter, List.mem_range, decide_eq_true_eq]
  refine and_iff_right_of_imp fun h => ?_
  have := h.2.1
  omega

theorem nodup_alignedPlaces (a : Allocator) (size : Nat) : (a.alignedPlaces size).Nodup :=
  List.nodup_range.filter _

theorem unused_insert_iff (hfree : a.inUse.get? offset = none) (hsize : 0 < size)
    (hother : 0 < other) :
    (a.withAllocations (a.inUse.insert offset size)).Unused place other ↔
      a.Unused place other ∧ (place + other ≤ offset ∨ offset + size ≤ place) := by
  simp only [Unused, withAllocations_totalSize, taken_insert_iff hfree, not_or]
  constructor
  · rintro ⟨htotal, hunused⟩
    refine ⟨⟨htotal, fun i hlow hhigh => (hunused i hlow hhigh).1⟩, ?_⟩
    by_contra hover
    exact (hunused (max place offset) (by omega) (by omega)).2 (by omega)
  · rintro ⟨⟨htotal, hunused⟩, hapart⟩
    exact ⟨htotal, fun i hlow hhigh => ⟨hunused i hlow hhigh, by omega⟩⟩

/-- The aligned places of one size do not overlap, so a run at one of them leaves the others. -/
theorem Canonical.perm_alignedPlaces (h : a.Canonical) (hsize : 0 < size)
    (hplace : place ∈ a.alignedPlaces size) :
    (a.alignedPlaces size).Perm
      (place :: (a.withAllocations (a.inUse.insert place size)).alignedPlaces size) := by
  obtain ⟨hdvd, hunused⟩ := (mem_alignedPlaces_iff hsize).1 hplace
  have hfree := ((h.vacant_iff hsize).2 hunused).free
  have hunit := Bits.le_two_pow_ceilLog2 size
  have hnot : place ∉ (a.withAllocations (a.inUse.insert place size)).alignedPlaces size := by
    rw [mem_alignedPlaces_iff hsize, unused_insert_iff hfree hsize hsize]
    omega
  refine (List.perm_ext_iff_of_nodup (nodup_alignedPlaces _ _)
    (List.nodup_cons.2 ⟨hnot, nodup_alignedPlaces _ _⟩)).2 fun q => ?_
  rw [List.mem_cons, mem_alignedPlaces_iff hsize, mem_alignedPlaces_iff hsize,
    unused_insert_iff hfree hsize hsize]
  constructor
  · rintro ⟨hq, hqunused⟩
    rcases Nat.lt_trichotomy q place with hlt | rfl | hgt
    · have := Bits.add_le_of_dvd_of_lt hq hdvd hlt
      exact .inr ⟨hq, hqunused, by omega⟩
    · exact .inl rfl
    · have := Bits.add_le_of_dvd_of_lt hdvd hq hgt
      exact .inr ⟨hq, hqunused, by omega⟩
  · rintro (rfl | ⟨hq, hqunused, -⟩)
    · exact ⟨hdvd, hunused⟩
    · exact ⟨hq, hqunused⟩

theorem Canonical.alignedPlaces_of_no_fit (h : a.Canonical) (hsize : 0 < size)
    (hmax : size ≤ a.maxSize) (hfit : a.free.firstFit? (Bits.ceilLog2 size) size = none) :
    a.alignedPlaces size = [] := by
  refine List.eq_nil_iff_forall_not_mem.2 fun place hplace => ?_
  obtain ⟨hdvd, hunused⟩ := (mem_alignedPlaces_iff hsize).1 hplace
  have hfits : Piece.Fits a.free.top ⟨Bits.ceilLog2 size, place, size⟩ :=
    ⟨h.ceilLog2_le_top hmax, hdvd, Bits.le_two_pow_ceilLog2 size, Bits.two_pow_ceilLog2_lt hsize⟩
  obtain ⟨q, hq, hfrom, hstop⟩ := h.exists_containing hfits hunused
  have hlen : size ≤ q.len := by
    simp only [Piece.stop] at hfrom hstop
    omega
  have hclass := (Bits.ceilLog2_le_iff size q.sizeClass).2 (hlen.trans (h.fits hq).len_le)
  have hnone := List.find?_eq_none.1 hfit q hq
  simp only [hclass, hlen, and_self, decide_true, not_true_eq_false] at hnone

theorem Canonical.highestPlace_mem (h : a.Canonical) (hsize : 0 < size) {p : Piece}
    (hfit : a.free.firstFit? (Bits.ceilLog2 size) size = some p) :
    highestPlace p size ∈ a.alignedPlaces size :=
  (mem_alignedPlaces_iff hsize).2
    ⟨two_pow_dvd_highestPlace p size, (h.vacant_iff hsize).1 (h.vacant_of_fit hsize hfit)⟩

/-- One request: it is refused when no aligned place is left, and else it uses up one of them. -/
theorem Canonical.allocate_uses_place (h : a.Canonical) (hsize : 0 < size)
    (hmax : size ≤ a.maxSize) :
    (a.alignedPlaces size = [] ∧ (a.allocate size).Yields (a.refuse (.outOfSpace size 1))) ∨
      ∃ place next, next.Canonical ∧ next.maxSize = a.maxSize ∧
        (a.alignedPlaces size).Perm (place :: next.alignedPlaces size) ∧
        (a.allocate size).Yields ⟨.ok place, next⟩ := by
  cases hfit : a.free.firstFit? (Bits.ceilLog2 size) size with
  | none =>
    have hrefused := h.allocate_of_no_fit hsize hmax hfit
    exact .inl ⟨h.alignedPlaces_of_no_fit hsize hmax hfit, hrefused ▸ yields_pure _⟩
  | some p =>
    have hv := h.vacant_of_fit hsize hfit
    exact .inr ⟨highestPlace p size, _, h.canonical (h.spaced_insert hv hsize), rfl,
      h.perm_alignedPlaces hsize (h.highestPlace_mem hsize hfit),
      ⟨_, h.allocate_of_fit hsize hmax hfit⟩⟩

theorem allocateTimes_succ {answer : Except Refusal Nat} {answers : List (Except Refusal Nat)}
    {last : Allocator} {count : Nat} (hhere : (a.allocate size).Yields ⟨answer, b⟩)
    (hrest : (allocateTimes size count b).Yields (answers, last)) :
    (allocateTimes size (count + 1) a).Yields (answer :: answers, last) :=
  hhere.bind (hrest.bind (yields_pure _))

theorem allocateTimes_of_refused
    (h : (a.allocate size).Yields (a.refuse (.outOfSpace size 1))) (count : Nat) :
    (allocateTimes size count a).Yields
      (List.replicate count (.error (.outOfSpace size 1)), a) := by
  induction count with
  | zero => exact yields_pure _
  | succ count ih => exact allocateTimes_succ h ih

/-- The requests go through the aligned places in some order. They use up one place each and are
refused from then on. -/
theorem Canonical.allocateTimes_yields (h : a.Canonical) (hsize : 0 < size)
    (hmax : size ≤ a.maxSize) :
    ∃ (order : List Nat) (full : Allocator), order.Perm (a.alignedPlaces size) ∧
      (∀ n ≤ order.length, ∃ b, (allocateTimes size n a).Yields ((order.take n).map .ok, b) ∧
        (order.drop n).Perm (b.alignedPlaces size)) ∧
      ∀ m, (allocateTimes size (order.length + m) a).Yields
        (order.map .ok ++ List.replicate m (.error (.outOfSpace size 1)), full) := by
  induction hcount : (a.alignedPlaces size).length using Nat.strongRecOn generalizing a with
  | ind count ih =>
    rcases h.allocate_uses_place hsize hmax with ⟨hnone, hrefused⟩ | ⟨place, next, hnext⟩
    · refine ⟨[], a, by rw [hnone], fun n hn => ⟨a, ?_, by rw [hnone, List.drop_nil]⟩, fun m => ?_⟩
      · obtain rfl : n = 0 := Nat.le_zero.1 hn
        exact yields_pure _
      · rw [List.length_nil, Nat.zero_add]
        exact allocateTimes_of_refused hrefused m
    · obtain ⟨hcanonical, hmaxSize, hperm, hhere⟩ := hnext
      have hfewer : (next.alignedPlaces size).length < count := by
        rw [← hcount, hperm.length_eq, List.length_cons]
        exact Nat.lt_succ_self _
      obtain ⟨order, full, horder, hserved, hfull⟩ :=
        ih _ hfewer hcanonical (hmaxSize ▸ hmax) rfl
      refine ⟨place :: order, full, (horder.cons _).trans hperm.symm, ?_, ?_⟩
      · rintro (_ | n) hn
        · exact ⟨a, yields_pure _, (horder.cons _).trans hperm.symm⟩
        · obtain ⟨b, hrun, hrest⟩ := hserved n (Nat.le_of_succ_le_succ hn)
          exact ⟨b, allocateTimes_succ hhere hrun, hrest⟩
      · intro m
        rw [List.length_cons, Nat.add_right_comm]
        exact allocateTimes_succ hhere (hfull m)

theorem Canonical.exists_serves (h : a.Canonical) (hsize : 0 < size) (hmax : size ≤ a.maxSize) :
    ∃ order : List Nat, order.Perm (a.alignedPlaces size) ∧ a.Serves size order := by
  obtain ⟨order, full, hperm, hserved, hfull⟩ := h.allocateTimes_yields hsize hmax
  refine ⟨order, hperm, fun n hn => ?_, full, fun m => (hfull m).result_eq⟩
  obtain ⟨b, hrun, hrest⟩ := hserved n hn
  exact ⟨b, hrun.result_eq, hrest⟩

theorem length_alignedPlaces_blank {maxSize slotCount : Nat} (h : Admissible maxSize slotCount)
    (hsize : 0 < size) (hmax : size ≤ maxSize) :
    ((blank maxSize slotCount).alignedPlaces size).length =
      maxSize * slotCount / 2 ^ Bits.ceilLog2 size := by
  have hunit := Nat.two_pow_pos (Bits.ceilLog2 size)
  have hroom := Bits.le_two_pow_ceilLog2 size
  obtain ⟨units, htotal⟩ : 2 ^ Bits.ceilLog2 size ∣ maxSize * slotCount := by
    obtain ⟨⟨top, -, rfl⟩, -⟩ := h
    exact Nat.dvd_mul_right_of_dvd (Nat.pow_dvd_pow 2 ((Bits.ceilLog2_le_iff _ _).2 hmax)) _
  have hnothing (i : Nat) : ¬(blank maxSize slotCount).Taken i := by
    rintro ⟨e, he, -⟩
    change e ∈ IndexMap.empty.toList at he
    rw [IndexMap.toList_empty] at he
    cases he
  have hplaces : ((blank maxSize slotCount).alignedPlaces size).Perm
      ((List.range units).map (2 ^ Bits.ceilLog2 size * ·)) := by
    refine (List.perm_ext_iff_of_nodup (nodup_alignedPlaces _ _) ?_).2 fun place => ?_
    · exact List.nodup_range.map fun i j hij => Nat.eq_of_mul_eq_mul_left hunit hij
    · rw [mem_alignedPlaces_iff hsize, List.mem_map]
      change (_ ∧ place + size ≤ maxSize * slotCount ∧ _) ↔ _
      rw [htotal]
      constructor
      · rintro ⟨⟨i, rfl⟩, hend, -⟩
        have hi : 2 ^ Bits.ceilLog2 size * i < 2 ^ Bits.ceilLog2 size * units := by omega
        exact ⟨i, List.mem_range.2 (Nat.lt_of_mul_lt_mul_left hi), rfl⟩
      · rintro ⟨i, hi, rfl⟩
        have hnext := Nat.mul_le_mul_left (2 ^ Bits.ceilLog2 size) (List.mem_range.1 hi)
        rw [Nat.mul_succ] at hnext
        exact ⟨Nat.dvd_mul_right _ _, by omega, fun i _ _ => hnothing i⟩
  rw [hplaces.length_eq, List.length_map, List.length_range, htotal,
    Nat.mul_div_cancel_left _ hunit]

end Allocator

namespace Reachable
open Allocator

variable {maxSize slotCount : Nat} {a : Allocator}

/-- Of any number of requests for one size just the first ones are served, one at each aligned place
that is unused. A new allocator has such a place in each unit of its index space. -/
theorem serves_each_place_once (h : Reachable maxSize slotCount a) {size : Nat} (hsize : 1 ≤ size)
    (hmax : size ≤ maxSize) :
    (∃ order : List Nat, order.Perm (a.alignedPlaces size) ∧ a.Serves size order) ∧
    ∀ new, (create maxSize slotCount).outcome.result = .ok (.ok new) →
      ∃ order : List Nat, order.length = maxSize * slotCount / 2 ^ Bits.ceilLog2 size ∧
        new.Serves size order := by
  have hadmissible := h.admissible
  obtain ⟨hcanonical, rfl, -⟩ := h.canonical
  refine ⟨hcanonical.exists_serves hsize hmax, fun new hnew => ?_⟩
  obtain ⟨-, rfl⟩ := outcome_create_iff.1 hnew
  obtain ⟨order, hperm, hserves⟩ := (blank_canonical hadmissible).exists_serves hsize hmax
  exact ⟨order, hperm.length_eq.trans (length_alignedPlaces_blank hadmissible hsize hmax), hserves⟩

theorem serves_each_place_once_beside_run :
    ∃ (a : Allocator) (order : List Nat) (full : Allocator), Reachable 4 4 a ∧
      a.allocations = [(1, 2)] ∧ order.Perm [4, 8, 12] ∧
      (allocateTimes 3 5 a).outcome.result =
        .ok (order.map .ok ++ [.error (.outOfSpace 3 1), .error (.outOfSpace 3 1)], full) := by
  obtain ⟨h, hlist⟩ := beside_run
  obtain ⟨⟨order, hperm, -, full, hfull⟩, -⟩ :=
    serves_each_place_once h (show 1 ≤ 3 by decide) (by decide)
  have hplaces : Allocator.alignedPlaces
      ((Allocator.blank 4 4).withAllocations (IndexMap.empty.insert 1 2)) 3 = [4, 8, 12] := by
    decide
  rw [hplaces] at hperm
  have hrun := hfull 2
  rw [hperm.length_eq] at hrun
  exact ⟨_, order, full, h, hlist, hperm, hrun⟩

end Reachable

end AlignedRuns
