import AlignedRuns.Proofs.Placement
import Mathlib.Order.Bounds.Basic
import Mathlib.Order.Nat
set_option autoImplicit false

namespace AlignedRuns

namespace Bits

theorem isLeast_two_pow_ceilLog2 (x : Nat) :
    IsLeast {unit | x ≤ unit ∧ ∃ k, unit = 2 ^ k} (2 ^ ceilLog2 x) := by
  refine ⟨⟨le_two_pow_ceilLog2 x, ceilLog2 x, rfl⟩, ?_⟩
  rintro _ ⟨hle, k, rfl⟩
  exact Nat.pow_le_pow_right (by decide) ((ceilLog2_le_iff x k).2 hle)

end Bits

namespace FreeLists

theorem RoomAt.mem_places {s : FreeLists} {size place : Nat} (h : s.RoomAt size place) :
    place ∈ (s.listOf s.top).toList.map Prod.fst := by
  obtain ⟨len, -, hp⟩ := h.exists_piece
  rw [mem_toList_iff, get?_eq_listOf] at hp
  exact List.mem_map.2 ⟨(place, len), IndexMap.mem_toList_iff.2 hp, rfl⟩

/-- The search goes through the places of the top class from the lowest on. -/
theorem topRuns?_eq_some_iff {s : FreeLists} {size count align first : Nat} (hcount : 0 < count) :
    s.topRuns? size count align = some first ↔
      IsLeast {place | place % align = 0 ∧
        ∀ i < count, s.RoomAt size (place + i * 2 ^ s.top)} first := by
  have ascending : ((s.listOf s.top).toList.map Prod.fst).Pairwise (· < ·) :=
    List.pairwise_map.2 (s.listOf s.top).ascending_toList
  have hfind : s.topRuns? size count align = ((s.listOf s.top).toList.map Prod.fst).find?
      fun place => place % align = 0 ∧ ∀ i < count, s.RoomAt size (place + i * 2 ^ s.top) := by
    rw [topRuns?, List.find?_map]
    rfl
  rw [hfind, find?_eq_some_iff_isLeast ascending]
  suffices hplaces : ∀ place, (∀ i < count, s.RoomAt size (place + i * 2 ^ s.top)) →
      place ∈ (s.listOf s.top).toList.map Prod.fst by
    refine iff_of_eq (congrArg (IsLeast · first) (Set.ext fun place => ?_))
    simp only [Set.mem_ofPred_eq, decide_eq_true_eq]
    exact and_iff_right_of_imp fun hsuits => hplaces place hsuits.2
  intro place hroom
  have hhere := hroom 0 hcount
  rw [Nat.zero_mul, Nat.add_zero] at hhere
  exact hhere.mem_places

end FreeLists

namespace Allocator
open Traced

variable {a b : Allocator} {offset size place first count align : Nat}

/-- The multiples of `align` from which `count` runs of `size` indices are unused, one `maxSize`
apart. -/
def batchPlaces (a : Allocator) (size count align : Nat) : Set Nat :=
  {first | align ∣ first ∧ ∀ i < count, a.Unused (first + i * a.maxSize) size}

/-- An unused run of the top class at a multiple of its class size is at the start of a piece: no
larger piece could begin before it. -/
theorem Canonical.roomAt_iff (h : a.Canonical) (hsize : 0 < size)
    (hclass : Bits.ceilLog2 size = a.free.top) :
    a.free.RoomAt size place ↔ 2 ^ a.free.top ∣ place ∧ a.Unused place size := by
  constructor
  · intro hroom
    obtain ⟨len, -, hp⟩ := hroom.exists_piece
    exact ⟨(h.fits hp).aligned, (h.vacant_iff hsize).1 (h.vacant_of_roomAt hsize hroom)⟩
  · rintro ⟨hdvd, hunused⟩
    have hfits : Piece.Fits a.free.top ⟨Bits.ceilLog2 size, place, size⟩ :=
      ⟨Nat.le_of_eq hclass, hclass ▸ hdvd, Bits.le_two_pow_ceilLog2 size,
        Bits.two_pow_ceilLog2_lt hsize⟩
    obtain ⟨⟨c, offset, len⟩, hq, hfrom, hstop⟩ := h.exists_containing hfits hunused
    obtain ⟨hle, haligned, hfull, -⟩ := h.fits hq
    simp only [Piece.stop] at hle haligned hfull hfrom hstop
    have hlen : size ≤ len := by omega
    obtain rfl : c = a.free.top :=
      Nat.le_antisymm hle (hclass ▸ (Bits.ceilLog2_le_iff size c).2 (hlen.trans hfull))
    obtain rfl : offset = place := by
      by_contra hne
      have := Bits.add_le_of_dvd_of_lt haligned hdvd (by omega)
      omega
    have htotal := hunused.1
    have hlt := h.total_lt
    exact .of_mem (by omega) hlen hq

theorem Sized.span_le (h : a.Sized) (hsize : 0 < size) (hcount : 0 < count)
    (hfirst : first ∈ a.batchPlaces size count align) : 2 ^ a.free.top * count ≤ a.totalSize := by
  obtain ⟨slots, hslots⟩ := h.maxSize_dvd
  have hend := (hfirst.2 (count - 1) (by omega)).1
  rw [hslots, Nat.mul_comm _ a.maxSize] at hend
  have hlast : count - 1 < slots := Nat.lt_of_mul_lt_mul_left (a := a.maxSize) (by omega)
  rw [← h.maxSize_eq, hslots]
  exact Nat.mul_le_mul_left _ (by omega)

theorem Canonical.mem_batchPlaces_iff (h : a.Canonical) (hsize : 0 < size)
    (hclass : Bits.ceilLog2 size = a.free.top) (halign : 2 ^ a.free.top ∣ align) :
    place ∈ a.batchPlaces size count align ↔
      place % align = 0 ∧ ∀ i < count, a.free.RoomAt size (place + i * 2 ^ a.free.top) := by
  rw [batchPlaces, h.maxSize_eq, Set.mem_ofPred_eq, Nat.dvd_iff_mod_eq_zero]
  refine and_congr_right fun hmod => forall_congr' fun i => imp_congr_right fun _ => ?_
  have hplace : 2 ^ a.free.top ∣ place := Nat.dvd_trans halign (Nat.dvd_of_mod_eq_zero hmod)
  rw [h.roomAt_iff hsize hclass]
  exact (and_iff_right (Nat.dvd_add hplace (Nat.dvd_mul_left _ _))).symm

theorem Canonical.batchPlace?_eq_some_iff (h : a.Canonical) (hsize : 0 < size) (hcount : 0 < count)
    (hclass : Bits.ceilLog2 size = a.free.top) :
    a.batchPlace? size count = some first ↔
      IsLeast (a.batchPlaces size count (2 ^ Bits.ceilLog2 (a.maxSize * count))) first := by
  rw [h.maxSize_eq, batchPlace?]
  split
  · rename_i hfull
    refine iff_of_false (Option.some_ne_none first).symm fun hleast => ?_
    have := h.span_le hsize hcount hleast.1
    omega
  · have halign : 2 ^ a.free.top ∣ 2 ^ Bits.ceilLog2 (2 ^ a.free.top * count) :=
      Nat.pow_dvd_pow 2 (Bits.le_ceilLog2 (Nat.le_mul_of_pos_right _ hcount))
    rw [FreeLists.topRuns?_eq_some_iff hcount]
    refine iff_of_eq (congrArg (IsLeast · first) (Set.ext fun place => ?_))
    exact (h.mem_batchPlaces_iff hsize hclass halign).symm

theorem Canonical.batchPlace?_eq_none_iff (h : a.Canonical) (hsize : 0 < size) (hcount : 0 < count)
    (hclass : Bits.ceilLog2 size = a.free.top) :
    a.batchPlace? size count = none ↔
      a.batchPlaces size count (2 ^ Bits.ceilLog2 (a.maxSize * count)) = ∅ := by
  classical
  rw [Option.eq_none_iff_forall_ne_some, Set.eq_empty_iff_forall_notMem]
  constructor
  · intro hnone first hfirst
    exact hnone _
      ((h.batchPlace?_eq_some_iff hsize hcount hclass).2 (Nat.isLeast_find ⟨first, hfirst⟩))
  · intro hempty first hsome
    exact hempty first ((h.batchPlace?_eq_some_iff hsize hcount hclass).1 hsome).1

section Batch
variable (h : a.Canonical) (hcount : 2 ≤ count) (hword : count < 2 ^ indexBits) (hsize : 0 < size)
  (hmax : size ≤ a.maxSize) (hclass : Bits.ceilLog2 size = a.free.top)
include h hcount hword hsize hmax hclass

theorem Canonical.allocates_batch_iff :
    (∃ b, (a.allocateMany size count).outcome.result = .ok ⟨.ok first, b⟩) ↔
      IsLeast (a.batchPlaces size count (2 ^ Bits.ceilLog2 (a.maxSize * count))) first := by
  rw [← h.batchPlace?_eq_some_iff hsize (by omega) hclass]
  constructor
  · rintro ⟨b, hrun⟩
    exact ((h.allocateMany_ok_iff hcount hword).1 hrun).2.2.1
  · intro hplace
    exact ⟨_, (h.allocateMany_ok_iff hcount hword).2 ⟨⟨hsize, hmax⟩, hclass, hplace, rfl⟩⟩

theorem Canonical.refuses_batch_iff :
    (a.allocateMany size count).outcome.result = .ok (a.refuse (.outOfSpace size count)) ↔
      a.batchPlaces size count (2 ^ Bits.ceilLog2 (a.maxSize * count)) = ∅ := by
  rw [← h.batchPlace?_eq_none_iff hsize (by omega) hclass]
  cases hplace : a.batchPlace? size count with
  | none =>
    have hrun := h.allocateMany_eq hcount hword hsize hmax hclass
    rw [hplace] at hrun
    rw [hrun]
    exact iff_of_true (yields_pure _).result_eq rfl
  | some first =>
    have hrun := (h.allocateMany_ok_iff hcount hword).2 ⟨⟨hsize, hmax⟩, hclass, hplace, rfl⟩
    rw [hrun]
    exact iff_of_false nofun nofun

end Batch

theorem Canonical.allocateMany_gains (h : a.Canonical) (hword : count < 2 ^ indexBits)
    (hrun : (a.allocateMany size count).outcome.result = .ok ⟨.ok first, b⟩) :
    b.allocations.Perm
      (a.allocations ++ (List.range count).map fun i => (first + i * a.maxSize, size)) := by
  obtain rfl | rfl | hcount : count = 0 ∨ count = 1 ∨ 2 ≤ count := by omega
  · rw [allocateMany_zero, (yields_pure _).result_eq_ok_iff] at hrun
    cases hrun
  · have hgain := (h.allocate_sound hrun).2.2
    rw [List.range_one, List.map_singleton, Nat.zero_mul, Nat.add_zero]
    exact hgain.trans (List.perm_append_singleton _ _).symm
  obtain ⟨⟨hsize, -⟩, -, hplace, rfl⟩ := (h.allocateMany_ok_iff hcount hword).1 hrun
  rw [h.maxSize_eq, List.range_eq_range']
  exact IndexMap.perm_toList_insertEvery (Nat.two_pow_pos a.free.top)
    (fun j hj => (h.vacant_batch hsize hplace j hj).free) size

end Allocator

namespace Reachable
open Allocator Traced
variable {maxSize slotCount : Nat} {a : Allocator}

/-- A batch of several runs of the top class goes to the least place at a multiple of its alignment
from which there is room for all of them, and is refused just if there is no such place. The
alignment is the least power of two that is not below the span of the batch. -/
theorem allocates_batch_at_least_place (h : Reachable maxSize slotCount a) (size : Nat)
    {count : Nat} (hword : count < 2 ^ indexBits) :
    (count = 0 →
      (a.allocateMany size count).outcome.result = .ok (a.refuse (.invalidCount 0))) ∧
    (count = 1 → a.allocateMany size count = a.allocate size) ∧
    (2 ≤ count → size = 0 ∨ maxSize < size →
      (a.allocateMany size count).outcome.result = .ok (a.refuse (.invalidSize size maxSize))) ∧
    (2 ≤ count → 1 ≤ size ∧ size ≤ maxSize → Bits.ceilLog2 size < a.free.top →
      (a.allocateMany size count).outcome.result = .ok (a.refuse (.unsupported size count))) ∧
    (2 ≤ count → 1 ≤ size ∧ size ≤ maxSize → a.free.top ≤ Bits.ceilLog2 size →
      ∃ align, IsLeast {unit | maxSize * count ≤ unit ∧ ∃ k, unit = 2 ^ k} align ∧
        (∀ first, (∃ b, (a.allocateMany size count).outcome.result = .ok ⟨.ok first, b⟩) ↔
          IsLeast (a.batchPlaces size count align) first) ∧
        ((a.allocateMany size count).outcome.result = .ok (a.refuse (.outOfSpace size count)) ↔
          a.batchPlaces size count align = ∅)) ∧
    ∀ first b, (a.allocateMany size count).outcome.result = .ok ⟨.ok first, b⟩ →
      b.allocations.Perm
        (a.allocations ++ (List.range count).map fun i => (first + i * maxSize, size)) := by
  obtain ⟨hcanonical, rfl, -⟩ := h.canonical
  refine ⟨?_, ?_, fun hcount hsize => ?_, fun hcount hsize hclass => ?_,
    fun hcount hsize hclass => ?_, fun first b hrun => hcanonical.allocateMany_gains hword hrun⟩
  · rintro rfl
    rw [allocateMany_zero]
    exact (yields_pure _).result_eq
  · rintro rfl
    exact allocateMany_one a size
  · rw [allocateMany_of_refusal hcount (by omega)]
    exact (yields_pure _).result_eq
  · rw [hcanonical.allocateMany_of_class hcount hsize.1 hsize.2 (Nat.ne_of_lt hclass)]
    exact (yields_pure _).result_eq
  · have htop := Nat.le_antisymm (hcanonical.ceilLog2_le_top hsize.2) hclass
    exact ⟨_, Bits.isLeast_two_pow_ceilLog2 _,
      fun first => hcanonical.allocates_batch_iff hcount hword hsize.1 hsize.2 htop,
      hcanonical.refuses_batch_iff hcount hword hsize.1 hsize.2 htop⟩

theorem allocates_batch_at_least_place_beside_run :
    ∃ a, Reachable 4 4 a ∧ a.allocations = [(1, 2)] ∧
      (∃ b, (a.allocateMany 3 2).outcome.result = .ok ⟨.ok 8, b⟩ ∧
        b.allocations.Perm [(1, 2), (8, 3), (12, 3)]) ∧
      (a.allocateMany 3 3).outcome.result = .ok (a.refuse (.outOfSpace 3 3)) := by
  obtain ⟨h, hlist⟩ := beside_run
  obtain ⟨-, -, -, -, hpair, hgains⟩ :=
    allocates_batch_at_least_place h 3 (show 2 < 2 ^ indexBits by decide)
  obtain ⟨-, -, -, -, hthree, -⟩ :=
    allocates_batch_at_least_place h 3 (show 3 < 2 ^ indexBits by decide)
  obtain ⟨align, hleast, hserved, -⟩ := hpair (by decide) (by decide) (by decide +kernel)
  obtain ⟨wide, hwide, -, hrefused⟩ := hthree (by decide) (by decide) (by decide +kernel)
  have hpairUnit : 2 ^ Bits.ceilLog2 (4 * 2) = 8 := by decide +kernel
  have hthreeUnit : 2 ^ Bits.ceilLog2 (4 * 3) = 16 := by decide +kernel
  obtain rfl := hleast.unique (hpairUnit ▸ Bits.isLeast_two_pow_ceilLog2 _)
  obtain rfl := hwide.unique (hthreeUnit ▸ Bits.isLeast_two_pow_ceilLog2 _)
  have hstart : ¬Allocator.Unused
      ((Allocator.blank 4 4).withAllocations (IndexMap.empty.insert 1 2)) 0 3 := by decide
  obtain ⟨b, hrun⟩ := (hserved 8).2 ⟨⟨by decide, by decide⟩, fun place hplace => by
    by_contra hlow
    obtain rfl : place = 0 := by
      have := hplace.1
      omega
    exact hstart (hplace.2 0 (by decide))⟩
  have hgain := hgains 8 b hrun
  change b.allocations.Perm ((IndexMap.empty.insert 1 2).toList ++ [(8, 3), (12, 3)]) at hgain
  rw [hlist] at hgain
  refine ⟨_, h, hlist, ⟨b, hrun, hgain⟩, hrefused.2 ?_⟩
  refine Set.eq_empty_iff_forall_notMem.2 fun place hplace => ?_
  have hend := (hplace.2 0 (by decide)).1
  obtain rfl : place = 0 := by
    have := hplace.1
    change place + 0 + 3 ≤ 16 at hend
    omega
  exact hstart (hplace.2 0 (by decide))

end Reachable

end AlignedRuns
