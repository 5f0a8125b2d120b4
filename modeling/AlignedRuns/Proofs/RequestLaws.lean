import AlignedRuns.Proofs.Acceptance
set_option autoImplicit false

namespace AlignedRuns

namespace Allocator
open Traced Request

variable {a b : Allocator} {offset size first count : Nat}

theorem Canonical.reserve_of_allocate (h : a.Canonical)
    (hrun : (a.allocate size).outcome.result = .ok ⟨.ok offset, b⟩) :
    (a.reserve offset size).outcome.result = .ok ⟨.ok (), b⟩ := by
  obtain ⟨hsize, _, p, hfit, rfl, hb⟩ := h.allocate_ok_iff.1 hrun
  exact h.reserve_ok_iff.2 ⟨hsize, h.vacant_of_fit hsize hfit, hb⟩

theorem Canonical.reserve_of_allocateMany (h : a.Canonical) (hcount : 2 ≤ count)
    (hword : count < 2 ^ indexBits)
    (hrun : (a.allocateMany size count).outcome.result = .ok ⟨.ok first, b⟩)
    {order : List (Nat × Nat)}
    (horder : order.Perm ((List.range count).map fun i => (first + i * a.maxSize, size))) :
    (∀ request ∈ reserving order, request.InWords) ∧
      (performAll (reserving order) a).outcome.result = .ok (.ok b) := by
  obtain ⟨⟨hsize, hmax⟩, -, hplace, rfl⟩ := (h.allocateMany_ok_iff hcount hword).1 hrun
  have hroom := room_of_batchPlace? hplace
  have hvacant := h.vacant_batch hsize hplace
  obtain ⟨-, -, -, hspaced⟩ := h.fillTopPieces_eq hsize rfl hroom
  constructor
  · intro request hrequest
    obtain ⟨e, he, rfl⟩ := List.mem_map.1 hrequest
    obtain ⟨j, hj, rfl⟩ := List.mem_map.1 (horder.mem_iff.1 he)
    have hindex := (hroom j (List.mem_range.1 hj)).1
    have htop := Nat.pow_lt_pow_right (Nat.lt_succ_self 1) h.top_lt
    rw [Nat.zero_add, ← h.maxSize_eq] at hindex
    rw [← h.maxSize_eq] at htop
    exact ⟨hindex, Nat.lt_of_le_of_lt hmax htop⟩
  · have hperm := IndexMap.perm_toList_insertEvery (Nat.two_pow_pos a.free.top)
      (fun j hj => (hvacant j hj).free) size
    rw [← List.range_eq_range', ← h.maxSize_eq] at hperm
    rw [← h.maxSize_eq] at hspaced ⊢
    obtain ⟨events, hall⟩ := h.performAll_reserving hspaced
      ((horder.append_left a.inUse.toList).trans hperm.symm)
    exact Yields.result_eq ⟨events, hall⟩

theorem Canonical.release_of_taken (h : a.Canonical) (hv : a.Vacant offset size)
    (hsize : 0 < size) :
    ((a.withAllocations (a.inUse.insert offset size)).release offset).outcome.result =
      .ok ⟨.ok (), a⟩ := by
  have hnext := h.canonical (h.spaced_insert hv hsize)
  refine hnext.release_ok_iff.2 ⟨⟨size, ?_⟩, ?_⟩
  · rw [withAllocations_inUse, IndexMap.get?_insert, if_pos rfl]
  · rw [withAllocations_inUse, withAllocations_withAllocations, IndexMap.erase_insert hv.free,
      h.withAllocations_self]

theorem Canonical.release_of_allocate (h : a.Canonical)
    (hrun : (a.allocate size).outcome.result = .ok ⟨.ok offset, b⟩) :
    (b.release offset).outcome.result = .ok ⟨.ok (), a⟩ := by
  obtain ⟨hsize, _, p, hfit, rfl, rfl⟩ := h.allocate_ok_iff.1 hrun
  exact h.release_of_taken (h.vacant_of_fit hsize hfit) hsize

theorem Canonical.release_of_reserve (h : a.Canonical)
    (hrun : (a.reserve offset size).outcome.result = .ok ⟨.ok (), b⟩) :
    (b.release offset).outcome.result = .ok ⟨.ok (), a⟩ := by
  obtain ⟨hsize, hv, rfl⟩ := h.reserve_ok_iff.1 hrun
  exact h.release_of_taken hv hsize

/-- Where an allocation was given back the same run can be reserved again. -/
theorem Canonical.vacant_of_released (h : a.Canonical) (hlive : a.inUse.get? offset = some size) :
    (a.withAllocations (a.inUse.erase offset)).Vacant offset size := by
  have hperm : ((a.inUse.erase offset).toList ++ [(offset, size)]).Perm a.inUse.toList :=
    (List.perm_append_singleton _ _).trans (IndexMap.perm_toList_erase hlive).symm
  exact vacant_of_spaced (a := a.withAllocations (a.inUse.erase offset)) h.spaced hperm

theorem sizeAt_eq_ok_iff : a.sizeAt offset = .ok size ↔ a.inUse.get? offset = some size := by
  unfold sizeAt
  cases a.inUse.get? offset <;> simp

theorem Canonical.reserve_of_release (h : a.Canonical) (hlive : a.sizeAt offset = .ok size) :
    ∃ b, (a.release offset).outcome.result = .ok ⟨.ok (), b⟩ ∧
      (b.reserve offset size).outcome.result = .ok ⟨.ok (), a⟩ := by
  have hget := sizeAt_eq_ok_iff.1 hlive
  have hnext := h.canonical (h.spaced_erase offset)
  refine ⟨a.withAllocations (a.inUse.erase offset), h.release_ok_iff.2 ⟨⟨size, hget⟩, rfl⟩, ?_⟩
  refine hnext.reserve_ok_iff.2 ⟨(h.bounds_of_get?_some hget).2.1, h.vacant_of_released hget, ?_⟩
  rw [withAllocations_inUse, withAllocations_withAllocations, IndexMap.insert_erase hget,
    h.withAllocations_self]

theorem Canonical.releaseMany_of_allocateMany (h : a.Canonical) (hword : count < 2 ^ indexBits)
    (hrun : (a.allocateMany size count).outcome.result = .ok ⟨.ok first, b⟩) :
    (b.releaseMany first count).outcome.result = .ok ⟨.ok (), a⟩ := by
  rcases Nat.lt_or_ge count 2 with hfew | hcount
  · rcases Nat.lt_or_ge count 1 with hzero | hone
    · obtain rfl : count = 0 := by omega
      rw [allocateMany_zero, (yields_pure _).result_eq_ok_iff] at hrun
      cases hrun
    · obtain rfl : count = 1 := by omega
      exact h.release_of_allocate hrun
  obtain ⟨⟨hsize, _⟩, hclass, hplace, rfl⟩ := (h.allocateMany_ok_iff hcount hword).1 hrun
  have hfree : ∀ j < count, a.inUse.get? (first + (0 + j) * 2 ^ a.free.top) = none :=
    fun j hj => (h.vacant_batch hsize hplace j hj).free
  obtain ⟨-, -, -, hspaced⟩ := h.fillTopPieces_eq hsize rfl (room_of_batchPlace? hplace)
  have hnext := h.canonical hspaced
  have htop := top_withAllocations a (a.inUse.insertEvery size first (2 ^ a.free.top) count 0)
  have hlive : ∀ j < count, (a.inUse.insertEvery size first (2 ^ a.free.top) count 0).get?
      (first + (0 + j) * 2 ^ a.free.top) = some size := by
    intro j hj
    rw [IndexMap.get?_insertEvery, if_pos ⟨j, hj, rfl⟩]
  have hstart := hlive 0 (by omega)
  rw [Nat.add_zero, Nat.zero_mul, Nat.add_zero] at hstart
  have hyields := hnext.releaseMany_yields hcount hword hstart (hclass.trans htop.symm)
    (by rw [htop]; exact fun j hj => Option.isSome_iff_exists.2 ⟨size, hlive j hj⟩)
  rw [htop, withAllocations_inUse, withAllocations_withAllocations,
    IndexMap.eraseEvery_insertEvery hfree, h.withAllocations_self] at hyields
  exact hyields.result_eq

end Allocator

namespace Reachable
open Allocator Request

variable {maxSize slotCount : Nat} {a : Allocator}

theorem batch_beside_run :
    let a := (Allocator.blank 4 4).withAllocations (IndexMap.empty.insert 1 2)
    ∃ c, (a.allocateMany 3 2).outcome.result = .ok ⟨.ok 8, c⟩ :=
  ⟨_, (beside_run.1.canonical.1.allocateMany_ok_iff (by decide) (by decide)).2
    ⟨by decide, by decide +kernel, by decide +kernel, rfl⟩⟩

theorem searches_beside_run : ∃ a b c, Reachable 4 4 a ∧ a.allocations = [(1, 2)] ∧
    (a.allocate 1).outcome.result = .ok ⟨.ok 0, b⟩ ∧
    (a.allocateMany 3 2).outcome.result = .ok ⟨.ok 8, c⟩ := by
  obtain ⟨h, hlist⟩ := beside_run
  obtain ⟨c, hmany⟩ := batch_beside_run
  exact ⟨_, _, c, h, hlist, h.canonical.1.allocate_ok_iff.2
    ⟨by decide, by decide, ⟨0, 0, 1⟩, by decide +kernel, by decide, rfl⟩, hmany⟩

/-- A search gives a place at which a reservation does the same, and the places of a batch can be
reserved one by one in any order. -/
theorem search_agrees_with_reservation (h : Reachable maxSize slotCount a) :
    (∀ size offset b, (a.allocate size).outcome.result = .ok ⟨.ok offset, b⟩ →
      (a.reserve offset size).outcome.result = .ok ⟨.ok (), b⟩) ∧
    ∀ size count first b, 2 ≤ count → count < 2 ^ indexBits →
      (a.allocateMany size count).outcome.result = .ok ⟨.ok first, b⟩ →
      ∀ order : List (Nat × Nat),
        order.Perm ((List.range count).map fun i => (first + i * maxSize, size)) →
        (∀ request ∈ reserving order, request.InWords) ∧
          (Request.performAll (reserving order) a).outcome.result = .ok (.ok b) := by
  obtain ⟨hcanonical, rfl, -⟩ := h.canonical
  refine ⟨fun size offset b hrun => hcanonical.reserve_of_allocate hrun, ?_⟩
  intro size count first b hcount hword hrun order horder
  exact hcanonical.reserve_of_allocateMany hcount hword hrun horder

theorem search_agrees_with_reservation_beside_run :
    ∃ a b c, Reachable 4 4 a ∧ a.allocations = [(1, 2)] ∧
      (a.allocate 1).outcome.result = .ok ⟨.ok 0, b⟩ ∧
      (a.reserve 0 1).outcome.result = .ok ⟨.ok (), b⟩ ∧
      (a.allocateMany 3 2).outcome.result = .ok ⟨.ok 8, c⟩ ∧
      (Request.performAll [.reserve 12 3, .reserve 8 3] a).outcome.result = .ok (.ok c) := by
  obtain ⟨a, b, c, h, hlist, hone, hmany⟩ := searches_beside_run
  obtain ⟨hreserve, hbatch⟩ := search_agrees_with_reservation h
  refine ⟨a, b, c, h, hlist, hone, hreserve 1 0 b hone, hmany, ?_⟩
  exact (hbatch 3 2 8 c (by decide) (by decide) hmany [(12, 3), (8, 3)] (List.Perm.swap _ _ _)).2

/-- What one request took a release gives back, and the other way round: the allocator is then in
all parts what it was before. -/
theorem undone_by_inverse (h : Reachable maxSize slotCount a) :
    (∀ size offset b, (a.allocate size).outcome.result = .ok ⟨.ok offset, b⟩ →
      (b.release offset).outcome.result = .ok ⟨.ok (), a⟩) ∧
    (∀ offset size b, (a.reserve offset size).outcome.result = .ok ⟨.ok (), b⟩ →
      (b.release offset).outcome.result = .ok ⟨.ok (), a⟩) ∧
    (∀ offset size, a.sizeAt offset = .ok size →
      ∃ b, (a.release offset).outcome.result = .ok ⟨.ok (), b⟩ ∧
        (b.reserve offset size).outcome.result = .ok ⟨.ok (), a⟩) ∧
    ∀ size count first b, count < 2 ^ indexBits →
      (a.allocateMany size count).outcome.result = .ok ⟨.ok first, b⟩ →
      (b.releaseMany first count).outcome.result = .ok ⟨.ok (), a⟩ := by
  have hcanonical := h.canonical.1
  refine ⟨fun size offset b hrun => hcanonical.release_of_allocate hrun,
    fun offset size b hrun => hcanonical.release_of_reserve hrun,
    fun offset size hlive => hcanonical.reserve_of_release hlive, ?_⟩
  intro size count first b hword hrun
  exact hcanonical.releaseMany_of_allocateMany hword hrun

theorem undone_by_inverse_beside_run :
    ∃ a b c, Reachable 4 4 a ∧ a.allocations = [(1, 2)] ∧
      (a.allocate 1).outcome.result = .ok ⟨.ok 0, b⟩ ∧
      (b.release 0).outcome.result = .ok ⟨.ok (), a⟩ ∧
      (a.allocateMany 3 2).outcome.result = .ok ⟨.ok 8, c⟩ ∧
      (c.releaseMany 8 2).outcome.result = .ok ⟨.ok (), a⟩ ∧
      ∃ d, (a.release 1).outcome.result = .ok ⟨.ok (), d⟩ ∧
        (d.reserve 1 2).outcome.result = .ok ⟨.ok (), a⟩ := by
  obtain ⟨a, b, c, h, hlist, hone, hmany⟩ := searches_beside_run
  have hmem : (1, 2) ∈ a.allocations := hlist ▸ List.mem_cons_self
  have hlive := sizeAt_eq_ok_iff.2 (IndexMap.mem_toList_iff.1 hmem)
  obtain ⟨hallocate, -, hrelease, hbatch⟩ := undone_by_inverse h
  exact ⟨a, b, c, h, hlist, hone, hallocate 1 0 b hone, hmany,
    hbatch 3 2 8 c (by decide) hmany, hrelease 1 2 hlive⟩

end Reachable

end AlignedRuns
