import AlignedRuns.Proofs.Restoring
set_option autoImplicit false

namespace AlignedRuns

namespace Traced

variable {α β : Type}

def Yields (x : Traced α) (value : α) : Prop :=
  ∃ events : Journal, x = (do emit events; pure value)

theorem yields_pure (value : α) : Yields (pure value) value := ⟨[], rfl⟩

theorem Yields.bind {x : Traced α} {f : α → Traced β} {value : α} {result : β}
    (hx : x.Yields value) (hf : (f value).Yields result) : (x >>= f).Yields result := by
  obtain ⟨events, rfl⟩ := hx
  obtain ⟨later, hf⟩ := hf
  exact ⟨events ++ later, by rw [emit_pure_bind, hf, emit_bind_emit]⟩

theorem Yields.result_eq {x : Traced α} {value : α} (h : x.Yields value) :
    x.outcome.result = .ok value := by
  obtain ⟨events, rfl⟩ := h
  rw [outcome_emit_pure]

theorem Yields.result_eq_ok_iff {x : Traced α} {value : α} (h : x.Yields value) (other : α) :
    x.outcome.result = .ok other ↔ other = value := by
  rw [h.result_eq, Except.ok.injEq, eq_comm]

end Traced

namespace IndexMap

variable {m : IndexMap} {size first stride remaining i : Nat}

/-- A change at the first place and then at the later ones is a change at all of them. -/
theorem ite_place_succ {α : Type} (k : Nat) (changed kept : α) :
    (if ∃ j < remaining, k = first + (i + 1 + j) * stride then changed
      else if first + i * stride = k then changed else kept) =
      if ∃ j < remaining + 1, k = first + (i + j) * stride then changed else kept := by
  have hplaces : (∃ j < remaining + 1, k = first + (i + j) * stride) ↔
      first + i * stride = k ∨ ∃ j < remaining, k = first + (i + 1 + j) * stride := by
    rw [Nat.exists_lt_succ_left, Nat.add_zero, eq_comm]
    simp only [Nat.add_assoc, Nat.add_comm 1]
  by_cases hlater : ∃ j < remaining, k = first + (i + 1 + j) * stride
  · rw [if_pos hlater, if_pos (hplaces.2 (.inr hlater))]
  · rw [if_neg hlater]
    exact if_congr (hplaces.trans (or_iff_left hlater)).symm rfl rfl

theorem get?_insertEvery (m : IndexMap) (size first stride remaining i k : Nat) :
    (m.insertEvery size first stride remaining i).get? k =
      if ∃ j < remaining, k = first + (i + j) * stride then some size else m.get? k := by
  induction remaining generalizing m i with
  | zero => simp [insertEvery]
  | succ remaining ih =>
    rw [insertEvery, ih, get?_insert, ite_place_succ]

theorem get?_eraseEvery (m : IndexMap) (first stride remaining i k : Nat) :
    (m.eraseEvery first stride remaining i).get? k =
      if ∃ j < remaining, k = first + (i + j) * stride then none else m.get? k := by
  induction remaining generalizing m i with
  | zero => simp [eraseEvery]
  | succ remaining ih =>
    rw [eraseEvery, ih, get?_erase, ite_place_succ]

theorem erase_insert {k : Nat} (h : m.get? k = none) (v : Nat) : (m.insert k v).erase k = m := by
  apply ext_get?
  intro j
  rw [get?_erase, get?_insert]
  by_cases hj : k = j
  · rw [if_pos hj, ← hj, h]
  · rw [if_neg hj, if_neg hj]

theorem insert_erase {k v : Nat} (h : m.get? k = some v) : (m.erase k).insert k v = m := by
  apply ext_get?
  intro j
  rw [get?_insert, get?_erase]
  by_cases hj : k = j
  · rw [if_pos hj, ← hj, h]
  · rw [if_neg hj, if_neg hj]

theorem eraseEvery_insertEvery (hfree : ∀ j < remaining, m.get? (first + (i + j) * stride) = none)
    (size : Nat) : (m.insertEvery size first stride remaining i).eraseEvery first stride remaining i
      = m := by
  apply ext_get?
  intro k
  rw [get?_eraseEvery, get?_insertEvery]
  by_cases hk : ∃ j < remaining, k = first + (i + j) * stride
  · obtain ⟨j, hj, rfl⟩ := hk
    rw [if_pos ⟨j, hj, rfl⟩, hfree j hj]
  · rw [if_neg hk, if_neg hk]

theorem perm_toList_insertEvery (hstride : 0 < stride)
    (hfree : ∀ j < remaining, m.get? (first + (i + j) * stride) = none) (size : Nat) :
    (m.insertEvery size first stride remaining i).toList.Perm
      (m.toList ++ (List.range' i remaining).map fun j => (first + j * stride, size)) := by
  induction remaining generalizing m i with
  | zero => rw [insertEvery, List.range'_zero, List.map_nil, List.append_nil]
  | succ remaining ih =>
    obtain ⟨hhere, hlater⟩ :=
      (forall_places_succ (P := fun place => m.get? place = none)).1 hfree
    have hlater' : ∀ j < remaining,
        (m.insert (first + i * stride) size).get? (first + (i + 1 + j) * stride) = none := by
      intro j hj
      rw [get?_insert, if_neg (Allocator.next_place_ne hstride j).symm]
      exact hlater j hj
    have hinsert := perm_toList_insert hhere size
    rw [insertEvery, List.range'_succ, List.map_cons]
    exact ((ih hlater').trans (hinsert.append_right _)).trans List.perm_middle.symm

end IndexMap

namespace Allocator
open Traced

variable {a b : Allocator} {offset size first count : Nat}

theorem Canonical.vacant_of_fit (h : a.Canonical) (hsize : 0 < size) {p : Piece}
    (hfit : a.free.firstFit? (Bits.ceilLog2 size) size = some p) :
    a.Vacant (highestPlace p size) size := by
  obtain ⟨hp, hclass, hlen⟩ := FreeLists.firstFit?_some hfit
  obtain ⟨hleft, hright⟩ := highestPlace_bounds (h.fits hp) hlen hclass
  exact (h.carve_piece hp hsize hleft hright).1

theorem Canonical.vacant_of_roomAt (h : a.Canonical) (hsize : 0 < size)
    (hroom : a.free.RoomAt size offset) : a.Vacant offset size := by
  obtain ⟨len, hlen, hp⟩ := hroom.exists_piece
  exact (h.carve_piece hp hsize (Nat.le_refl _) (Nat.add_le_add_left hlen _)).1

theorem Canonical.vacant_batch (h : a.Canonical) (hsize : 0 < size)
    (hplace : a.batchPlace? size count = some first) :
    ∀ j < count, a.Vacant (first + (0 + j) * 2 ^ a.free.top) size :=
  fun j hj => h.vacant_of_roomAt hsize (room_of_batchPlace? hplace j hj)

theorem Canonical.allocate_ok_iff (h : a.Canonical) :
    (a.allocate size).outcome.result = .ok ⟨.ok offset, b⟩ ↔
      0 < size ∧ size ≤ a.maxSize ∧
        ∃ p, a.free.firstFit? (Bits.ceilLog2 size) size = some p ∧ offset = highestPlace p size ∧
          b = a.withAllocations (a.inUse.insert offset size) := by
  by_cases hsize : 0 < size ∧ size ≤ a.maxSize
  · rw [← and_assoc, and_iff_right hsize]
    cases hfit : a.free.firstFit? (Bits.ceilLog2 size) size with
    | none =>
      rw [h.allocate_of_no_fit hsize.1 hsize.2 hfit, (yields_pure _).result_eq_ok_iff]
      simp [refuse]
    | some p =>
      have hrun := h.allocate_of_fit hsize.1 hsize.2 hfit
      rw [Yields.result_eq_ok_iff ⟨_, hrun⟩]
      simp only [accept, Reply.mk.injEq, Except.ok.injEq, Option.some.injEq, exists_eq_left']
      exact and_congr_right fun hoffset => by rw [hoffset]
  · rw [allocate_of_refusal hsize, (yields_pure _).result_eq_ok_iff]
    refine iff_of_false (by simp [refuse]) fun hok => hsize ⟨hok.1, hok.2.1⟩

theorem Canonical.reserve_ok_iff (h : a.Canonical) :
    (a.reserve offset size).outcome.result = .ok ⟨.ok (), b⟩ ↔
      0 < size ∧ a.Vacant offset size ∧ b = a.withAllocations (a.inUse.insert offset size) := by
  rcases Nat.eq_zero_or_pos size with rfl | hsize
  · rw [reserve_zero, (yields_pure _).result_eq_ok_iff]
    simp [refuse]
  rw [and_iff_right hsize]
  by_cases hv : a.Vacant offset size
  · rw [and_iff_right hv, Yields.result_eq_ok_iff ⟨_, h.reserve_of_vacant hv hsize⟩]
    simp [accept]
  · rw [h.reserve_of_not_vacant hv hsize, (yields_pure _).result_eq_ok_iff]
    simp [refuse, hv]

theorem Canonical.release_ok_iff (h : a.Canonical) :
    (a.release offset).outcome.result = .ok ⟨.ok (), b⟩ ↔
      (∃ size, a.inUse.get? offset = some size) ∧ b = a.withAllocations (a.inUse.erase offset) := by
  cases hsize : a.inUse.get? offset with
  | none =>
    rw [release_of_none hsize, (yields_pure _).result_eq_ok_iff]
    simp [refuse]
  | some size =>
    rw [Yields.result_eq_ok_iff ⟨_, h.release_of_some hsize⟩]
    simp [accept]

theorem Canonical.allocateMany_ok_iff (h : a.Canonical) (hcount : 2 ≤ count)
    (hword : count < 2 ^ indexBits) :
    (a.allocateMany size count).outcome.result = .ok ⟨.ok first, b⟩ ↔
      (0 < size ∧ size ≤ a.maxSize) ∧ Bits.ceilLog2 size = a.free.top ∧
        a.batchPlace? size count = some first ∧
        b = a.withAllocations (a.inUse.insertEvery size first (2 ^ a.free.top) count 0) := by
  by_cases hsize : 0 < size ∧ size ≤ a.maxSize
  · rw [and_iff_right hsize]
    by_cases hclass : Bits.ceilLog2 size = a.free.top
    · have hrun := h.allocateMany_eq hcount hword hsize.1 hsize.2 hclass
      rw [and_iff_right hclass]
      cases hplace : a.batchPlace? size count with
      | none =>
        rw [hplace] at hrun
        rw [hrun, (yields_pure _).result_eq_ok_iff]
        simp [refuse]
      | some place =>
        obtain ⟨events, -, hfill, -⟩ := h.fillTopPieces_eq hsize.1 rfl (room_of_batchPlace? hplace)
        simp only [hplace, hfill, emit_pure_bind, emit_bind_emit] at hrun
        rw [Yields.result_eq_ok_iff ⟨_, hrun⟩]
        simp only [accept, Reply.mk.injEq, Except.ok.injEq, Option.some.injEq,
          eq_comm (a := place)]
        exact and_congr_right fun hfirst => by rw [hfirst]
    · rw [h.allocateMany_of_class hcount hsize.1 hsize.2 hclass, (yields_pure _).result_eq_ok_iff]
      simp [refuse, hclass]
  · rw [allocateMany_of_refusal hcount hsize, (yields_pure _).result_eq_ok_iff]
    simp only [refuse, Reply.mk.injEq, reduceCtorEq, false_and, hsize]

/-- What becomes of a batch that starts with an allocation of the top class. -/
theorem Canonical.releaseMany_ends (h : a.Canonical) (hcount : 2 ≤ count)
    (hword : count < 2 ^ indexBits) (hsize : a.inUse.get? first = some size)
    (hclass : Bits.ceilLog2 size = a.free.top) :
    (a.releaseMany first count).Yields
      (if a.totalSize ≤ first + (count - 1) * 2 ^ a.free.top then a.refuse (.invalidCount count)
      else match a.vacantPlace? first count with
      | some place => a.refuse (.notAllocated place)
      | none => (a.withAllocations
          (a.inUse.eraseEvery first (2 ^ a.free.top) count 0)).accept ()) := by
  rw [h.releaseMany_eq hcount hword hsize hclass]
  split
  · exact yields_pure _
  · cases hvacant : a.vacantPlace? first count with
    | some place => exact yields_pure _
    | none =>
      obtain ⟨events, -, hfree, -⟩ := h.freeRuns_eq (Nat.two_pow_pos a.free.top)
        (live_of_vacantPlace? hvacant (Option.isSome_iff_exists.2 ⟨size, hsize⟩))
      refine ⟨events ++ [.releasedMany count first size], ?_⟩
      simp only [hfree, emit_pure_bind, emit_bind_emit]

/-- A batch whose places all start an allocation, the first of them one of the top class, is
released. -/
theorem Canonical.releaseMany_yields (h : a.Canonical) (hcount : 2 ≤ count)
    (hword : count < 2 ^ indexBits) (hsize : a.inUse.get? first = some size)
    (hclass : Bits.ceilLog2 size = a.free.top)
    (hlive : ∀ j < count, (a.inUse.get? (first + (0 + j) * 2 ^ a.free.top)).isSome) :
    (a.releaseMany first count).Yields
      ((a.withAllocations (a.inUse.eraseEvery first (2 ^ a.free.top) count 0)).accept ()) := by
  simp only [Nat.zero_add] at hlive
  have hlast : ¬a.totalSize ≤ first + (count - 1) * 2 ^ a.free.top := by
    obtain ⟨last, hlast⟩ := Option.isSome_iff_exists.1 (hlive (count - 1) (by omega))
    have := h.bounds_of_get?_some hlast
    have := h.gapRight_le (first + (count - 1) * 2 ^ a.free.top)
    omega
  have hvacant : a.vacantPlace? first count = none := by
    refine List.find?_eq_none.2 fun place hplace => ?_
    obtain ⟨j, hj, rfl⟩ := List.mem_map.1 hplace
    have := hlive j (by have := List.mem_range'_1.1 hj; omega)
    simpa [Option.isSome_iff_ne_none] using this
  have hends := h.releaseMany_ends hcount hword hsize hclass
  rwa [if_neg hlast, hvacant] at hends

end Allocator

end AlignedRuns
