import AlignedRuns.Proofs.Capacity
set_option autoImplicit false

/-!
# Where a run is placed

The search looks at pieces of the classes from that of the size upward, never at unused indices as
such. Still it misses no place: an unused run at a multiple of its class size lies in one piece, and
the class of that piece is not below its own.
-/

namespace AlignedRuns

namespace Allocator
open Traced

variable {a b : Allocator} {offset size : Nat}

theorem Canonical.fits_iff_exists_place (h : a.Canonical) (hsize : 0 < size)
    (hmax : size ≤ a.maxSize) :
    (∃ p, a.free.firstFit? (Bits.ceilLog2 size) size = some p) ↔
      ∃ place, 2 ^ Bits.ceilLog2 size ∣ place ∧ a.Unused place size := by
  constructor
  · rintro ⟨p, hfit⟩
    exact ⟨_, (mem_alignedPlaces_iff hsize).1 (h.highestPlace_mem hsize hfit)⟩
  · rintro ⟨place, hplace⟩
    cases hfit : a.free.firstFit? (Bits.ceilLog2 size) size with
    | some p => exact ⟨p, rfl⟩
    | none =>
      have hmem := (mem_alignedPlaces_iff hsize).2 hplace
      rw [h.alignedPlaces_of_no_fit hsize hmax hfit] at hmem
      cases hmem

theorem Canonical.allocates_iff (h : a.Canonical) (hsize : 0 < size) (hmax : size ≤ a.maxSize) :
    (∃ offset b, (a.allocate size).outcome.result = .ok ⟨.ok offset, b⟩) ↔
      ∃ place, 2 ^ Bits.ceilLog2 size ∣ place ∧ a.Unused place size := by
  rw [← h.fits_iff_exists_place hsize hmax]
  constructor
  · rintro ⟨offset, b, hrun⟩
    obtain ⟨-, -, p, hfit, -⟩ := h.allocate_ok_iff.1 hrun
    exact ⟨p, hfit⟩
  · rintro ⟨p, hfit⟩
    exact ⟨_, _, h.allocate_ok_iff.2 ⟨hsize, hmax, p, hfit, rfl, rfl⟩⟩

theorem Canonical.allocate_of_no_place (h : a.Canonical) (hsize : 0 < size)
    (hmax : size ≤ a.maxSize)
    (hnone : ¬∃ place, 2 ^ Bits.ceilLog2 size ∣ place ∧ a.Unused place size) :
    (a.allocate size).outcome.result = .ok (a.refuse (.outOfSpace size 1)) := by
  rw [← h.fits_iff_exists_place hsize hmax] at hnone
  have hfit := Option.eq_none_iff_forall_ne_some.2 fun p hp => hnone ⟨p, hp⟩
  rw [h.allocate_of_no_fit hsize hmax hfit]
  exact (yields_pure _).result_eq

theorem Canonical.exists_free_of_unused (h : a.Canonical) (hunused : a.Unused offset size) {i : Nat}
    (hlow : offset ≤ i) (hhigh : i < offset + size) :
    ∃ p ∈ a.freePieces, p.offset ≤ i ∧ i < p.stop := by
  have hend := hunused.1
  exact (h.mem_free_iff i).2 ⟨by omega, hunused.2 i hlow hhigh⟩

theorem Canonical.allocate_sound (h : a.Canonical)
    (hrun : (a.allocate size).outcome.result = .ok ⟨.ok offset, b⟩) :
    2 ^ Bits.ceilLog2 size ∣ offset ∧ a.Unused offset size ∧
      b.allocations.Perm ((offset, size) :: a.allocations) := by
  obtain ⟨hsize, -, p, hfit, rfl, rfl⟩ := h.allocate_ok_iff.1 hrun
  obtain ⟨hdvd, hunused⟩ := (mem_alignedPlaces_iff hsize).1 (h.highestPlace_mem hsize hfit)
  exact ⟨hdvd, hunused, IndexMap.perm_toList_insert ((h.vacant_iff hsize).2 hunused).free size⟩

end Allocator

namespace Reachable
open Allocator Traced
variable {maxSize slotCount : Nat} {a : Allocator}

/-- A request for one run is served just if there is an aligned place for it, and then at such a
place, where all indices were free; nothing else is allocated or given back. -/
theorem allocates_iff_place (h : Reachable maxSize slotCount a) (size : Nat) :
    (1 ≤ size ∧ size ≤ maxSize →
      ((∃ offset b, (a.allocate size).outcome.result = .ok ⟨.ok offset, b⟩) ↔
        ∃ place, 2 ^ Bits.ceilLog2 size ∣ place ∧ a.Unused place size) ∧
      ((¬∃ place, 2 ^ Bits.ceilLog2 size ∣ place ∧ a.Unused place size) →
        (a.allocate size).outcome.result = .ok (a.refuse (.outOfSpace size 1)))) ∧
    (∀ offset b, (a.allocate size).outcome.result = .ok ⟨.ok offset, b⟩ →
      2 ^ Bits.ceilLog2 size ∣ offset ∧ a.Unused offset size ∧
        (∀ i, offset ≤ i → i < offset + size → ∃ p ∈ a.freePieces, p.offset ≤ i ∧ i < p.stop) ∧
        b.allocations.Perm ((offset, size) :: a.allocations)) ∧
    (size = 0 ∨ maxSize < size →
      (a.allocate size).outcome.result = .ok (a.refuse (.invalidSize size maxSize))) := by
  obtain ⟨hcanonical, rfl, -⟩ := h.canonical
  refine ⟨fun hsize => ⟨hcanonical.allocates_iff hsize.1 hsize.2,
    hcanonical.allocate_of_no_place hsize.1 hsize.2⟩, fun offset b hrun => ?_, fun hsize => ?_⟩
  · obtain ⟨hdvd, hunused, hperm⟩ := hcanonical.allocate_sound hrun
    exact ⟨hdvd, hunused, fun i => hcanonical.exists_free_of_unused hunused, hperm⟩
  · rw [allocate_of_refusal (by omega)]
    exact (yields_pure _).result_eq

theorem allocates_iff_place_beside_run :
    ∃ a, Reachable 4 4 a ∧ a.allocations = [(1, 2)] ∧
      (∃ offset b, (a.allocate 4).outcome.result = .ok ⟨.ok offset, b⟩ ∧ 4 ∣ offset ∧
        b.allocations.Perm [(offset, 4), (1, 2)]) ∧
      (a.allocate 5).outcome.result = .ok (a.refuse (.invalidSize 5 4)) := by
  obtain ⟨h, hlist⟩ := beside_run
  obtain ⟨hserved, hsound, -⟩ := allocates_iff_place h 4
  obtain ⟨offset, b, hrun⟩ := (hserved (by decide)).1.2 ⟨4, by decide, by decide⟩
  obtain ⟨hdvd, -, -, hperm⟩ := hsound offset b hrun
  exact ⟨_, h, hlist, ⟨offset, b, hrun, hdvd, hlist ▸ hperm⟩,
    (allocates_iff_place h 5).2.2 (.inr (by decide))⟩

end Reachable

end AlignedRuns
