import AlignedRuns.Proofs.Acceptance
set_option autoImplicit false

namespace AlignedRuns

theorem IndexMap.eraseEvery_eq_eraseAll (m : IndexMap) (first stride remaining i : Nat) :
    m.eraseEvery first stride remaining i =
      m.eraseAll ((List.range' i remaining).map fun j => first + j * stride) := by
  induction remaining generalizing m i with
  | zero => rfl
  | succ remaining ih =>
    rw [eraseEvery, ih, List.range'_succ]
    rfl

namespace Allocator
open Traced Request

variable {a b : Allocator} {offset size count place : Nat}

def Live (a : Allocator) (offset : Nat) : Prop := ∃ size, (offset, size) ∈ a.allocations

def batchStarts (a : Allocator) (offset count : Nat) : List Nat :=
  (List.range count).map fun i => offset + i * a.maxSize

theorem live_iff : a.Live offset ↔ (a.inUse.get? offset).isSome := by
  rw [Option.isSome_iff_exists]
  exact exists_congr fun size => IndexMap.mem_toList_iff

theorem not_live_iff : ¬a.Live offset ↔ (a.inUse.get? offset).isNone = true := by
  rw [live_iff, Option.isNone_iff_eq_none, Option.isSome_iff_ne_none, not_not]

theorem Sized.ascending_batchStarts (h : a.Sized) (offset count : Nat) :
    (a.batchStarts offset count).Pairwise (· < ·) := by
  refine List.pairwise_map.2 (List.pairwise_lt_range.imp fun hlt => ?_)
  exact Nat.add_lt_add_left (Nat.mul_lt_mul_of_pos_right hlt h.maxSize_pos) _

theorem Sized.vacantPlace?_eq (h : a.Sized) (hcount : 0 < count) (hlive : a.Live offset) :
    a.vacantPlace? offset count =
      (a.batchStarts offset count).find? fun place => (a.inUse.get? place).isNone := by
  obtain ⟨later, rfl⟩ : ∃ later, count = later + 1 := ⟨count - 1, by omega⟩
  have hstart : (a.inUse.get? (offset + 0 * a.maxSize)).isNone = false := by
    rwa [Nat.zero_mul, Nat.add_zero, ← Bool.not_eq_true, ← not_live_iff, not_not]
  rw [vacantPlace?, batchStarts, List.range_eq_range', List.range'_succ, List.map_cons,
    List.find?_cons, hstart, ← h.maxSize_eq]
  rfl

theorem Sized.vacantPlace?_eq_some_iff (h : a.Sized) (hcount : 0 < count)
    (hlive : a.Live offset) : a.vacantPlace? offset count = some place ↔
      IsLeast {place | place ∈ a.batchStarts offset count ∧ ¬a.Live place} place := by
  simp only [h.vacantPlace?_eq hcount hlive, not_live_iff]
  exact find?_eq_some_iff_isLeast (h.ascending_batchStarts offset count) _

theorem Sized.vacantPlace?_eq_none_iff (h : a.Sized) (hcount : 0 < count)
    (hlive : a.Live offset) : a.vacantPlace? offset count = none ↔
      ∀ place ∈ a.batchStarts offset count, a.Live place := by
  simp [h.vacantPlace?_eq hcount hlive, live_iff, Option.isSome_iff_ne_none]

theorem Sized.eraseEvery_eq (h : a.Sized) (offset count : Nat) :
    a.inUse.eraseEvery offset (2 ^ a.free.top) count 0 =
      a.inUse.eraseAll (a.batchStarts offset count) := by
  rw [IndexMap.eraseEvery_eq_eraseAll, ← h.maxSize_eq, ← List.range_eq_range']
  rfl

theorem Canonical.releaseMany_batch (h : a.Canonical) (hcount : 2 ≤ count)
    (hword : count < 2 ^ indexBits) (hsize : a.inUse.get? offset = some size)
    (hclass : Bits.ceilLog2 size = a.free.top) :
    (a.releaseMany offset count).Yields
      (if a.totalSize ≤ offset + (count - 1) * a.maxSize then a.refuse (.invalidCount count)
      else match a.vacantPlace? offset count with
      | some place => a.refuse (.notAllocated place)
      | none =>
        (a.withAllocations (a.inUse.eraseAll (a.batchStarts offset count))).accept ()) := by
  have hends := h.releaseMany_ends hcount hword hsize hclass
  rwa [h.eraseEvery_eq, ← h.maxSize_eq] at hends

theorem Canonical.releaseMany_of_ok (h : a.Canonical) (hword : count < 2 ^ indexBits)
    (hrun : (a.releaseMany offset count).outcome.result = .ok ⟨.ok (), b⟩) :
    (∀ place ∈ a.batchStarts offset count, a.Live place) ∧
      b = a.withAllocations (a.inUse.eraseAll (a.batchStarts offset count)) := by
  obtain rfl | rfl | hcount : count = 0 ∨ count = 1 ∨ 2 ≤ count := by omega
  · rw [releaseMany_zero, (yields_pure _).result_eq_ok_iff] at hrun
    cases hrun
  · obtain ⟨hlive, rfl⟩ := h.release_ok_iff.1 hrun
    have hstarts : a.batchStarts offset 1 = [offset] := by simp [batchStarts]
    rw [hstarts]
    exact ⟨by simpa [live_iff, Option.isSome_iff_exists] using hlive, rfl⟩
  cases hsize : a.inUse.get? offset with
  | none =>
    rw [releaseMany_of_none hcount hsize, (yields_pure _).result_eq_ok_iff] at hrun
    cases hrun
  | some size =>
    by_cases hclass : Bits.ceilLog2 size = a.free.top
    · have hlive : a.Live offset := ⟨size, IndexMap.mem_toList_iff.2 hsize⟩
      rw [(h.releaseMany_batch hcount hword hsize hclass).result_eq_ok_iff] at hrun
      split at hrun
      · cases hrun
      · split at hrun
        · cases hrun
        · rename_i hvacant
          cases hrun
          exact ⟨(h.vacantPlace?_eq_none_iff (by omega) hlive).1 hvacant, rfl⟩
    · rw [h.releaseMany_of_class hcount hsize hclass, (yields_pure _).result_eq_ok_iff] at hrun
      cases hrun

theorem Canonical.release_each (h : a.Canonical)
    (hlive : ∀ place ∈ a.batchStarts offset count, a.Live place) {order : List Nat}
    (horder : order.Perm (a.batchStarts offset count)) :
    (∀ request ∈ releasing order, request.InWords) ∧
      (performAll (releasing order) a).outcome.result =
        .ok (.ok (a.withAllocations (a.inUse.eraseAll (a.batchStarts offset count)))) := by
  have hplaces : ∀ place ∈ order, (a.inUse.get? place).isSome :=
    fun place hplace => live_iff.1 (hlive place (horder.mem_iff.1 hplace))
  have hnodup : order.Nodup :=
    horder.nodup_iff.2 ((h.ascending_batchStarts offset count).imp Nat.ne_of_lt)
  constructor
  · intro request hrequest
    obtain ⟨place, hplace, rfl⟩ := List.mem_map.1 hrequest
    obtain ⟨size, hsize⟩ := Option.isSome_iff_exists.1 (hplaces place hplace)
    exact h.lt_of_get?_some hsize
  · obtain ⟨events, hrun⟩ := h.performAll_releasing_live hnodup hplaces
    rw [IndexMap.eraseAll_of_perm horder] at hrun
    exact Yields.result_eq ⟨events, hrun⟩

theorem Sized.batch_lost (h : a.Sized)
    (hlive : ∀ place ∈ a.batchStarts offset count, a.Live place) : ∃ lost : List (Nat × Nat),
      lost.map Prod.fst = a.batchStarts offset count ∧ a.allocations.Perm (lost ++
        (a.withAllocations (a.inUse.eraseAll (a.batchStarts offset count))).allocations) :=
  IndexMap.perm_toList_eraseAll ((h.ascending_batchStarts offset count).imp Nat.ne_of_lt)
    fun place hplace => live_iff.1 (hlive place hplace)

end Allocator

namespace Reachable
open Allocator Traced Request
variable {maxSize slotCount : Nat} {a : Allocator}

/-- A batch is released just if each of its places starts an allocation, the first of them one of
the top class. The allocator is then what it would be after single releases at these places, in any
order, and has lost the allocations that started there, of whatever size. -/
theorem releases_batch_in_any_order (h : Reachable maxSize slotCount a) (offset : Nat)
    {count : Nat} (hword : count < 2 ^ indexBits) :
    (count = 0 →
      (a.releaseMany offset count).outcome.result = .ok (a.refuse (.invalidCount 0))) ∧
    (count = 1 → a.releaseMany offset count = a.release offset) ∧
    (2 ≤ count → ¬a.Live offset →
      (a.releaseMany offset count).outcome.result = .ok (a.refuse (.notAllocated offset))) ∧
    (∀ size, 2 ≤ count → (offset, size) ∈ a.allocations →
      (Bits.ceilLog2 size ≠ a.free.top → (a.releaseMany offset count).outcome.result =
        .ok (a.refuse (.unsupported size count))) ∧
      (Bits.ceilLog2 size = a.free.top →
        (a.totalSize ≤ offset + (count - 1) * maxSize →
          (a.releaseMany offset count).outcome.result = .ok (a.refuse (.invalidCount count))) ∧
        (offset + (count - 1) * maxSize < a.totalSize →
          (∀ place, IsLeast {place | place ∈ a.batchStarts offset count ∧ ¬a.Live place} place →
            (a.releaseMany offset count).outcome.result = .ok (a.refuse (.notAllocated place))) ∧
          ((∀ place ∈ a.batchStarts offset count, a.Live place) →
            ∃ b, (a.releaseMany offset count).outcome.result = .ok ⟨.ok (), b⟩)))) ∧
    ∀ b, (a.releaseMany offset count).outcome.result = .ok ⟨.ok (), b⟩ →
      (∀ order : List Nat, order.Perm (a.batchStarts offset count) →
        (∀ request ∈ releasing order, request.InWords) ∧
          (Request.performAll (releasing order) a).outcome.result = .ok (.ok b)) ∧
      ∃ lost : List (Nat × Nat), lost.map Prod.fst = a.batchStarts offset count ∧
        a.allocations.Perm (lost ++ b.allocations) := by
  obtain ⟨hcanonical, rfl, -⟩ := h.canonical
  refine ⟨?_, ?_, fun hcount hdead => ?_, fun size hcount hmem => ⟨fun hclass => ?_,
    fun hclass => ?_⟩, fun b hrun => ?_⟩
  · rintro rfl
    rw [releaseMany_zero]
    exact (yields_pure _).result_eq
  · rintro rfl
    exact releaseMany_one a offset
  · rw [releaseMany_of_none hcount (Option.isNone_iff_eq_none.1 (not_live_iff.1 hdead))]
    exact (yields_pure _).result_eq
  · rw [hcanonical.releaseMany_of_class hcount (IndexMap.mem_toList_iff.1 hmem) hclass]
    exact (yields_pure _).result_eq
  · have hpos : 0 < count := by omega
    have hstart : a.Live offset := ⟨size, hmem⟩
    have hsize := IndexMap.mem_toList_iff.1 hmem
    have hends := (hcanonical.releaseMany_batch hcount hword hsize hclass).result_eq
    refine ⟨fun hreach => ?_, fun hinside => ⟨fun place hleast => ?_, fun hlive => ?_⟩⟩
    · rwa [if_pos hreach] at hends
    · rwa [if_neg (Nat.not_le.2 hinside),
        (hcanonical.vacantPlace?_eq_some_iff hpos hstart).2 hleast] at hends
    · rw [if_neg (Nat.not_le.2 hinside),
        (hcanonical.vacantPlace?_eq_none_iff hpos hstart).2 hlive] at hends
      exact ⟨_, hends⟩
  · obtain ⟨hlive, rfl⟩ := hcanonical.releaseMany_of_ok hword hrun
    exact ⟨fun order horder => hcanonical.release_each hlive horder, hcanonical.batch_lost hlive⟩

theorem unaligned_batch : ∃ a, Reachable 4 4 a ∧
    a.allocations = [(1, 3), (4, 1), (5, 4), (9, 3)] := by
  have hlist : ((((IndexMap.empty.insert 1 3).insert 4 1).insert 5 4).insert 9 3).toList =
      [(1, 3), (4, 1), (5, 4), (9, 3)] := by decide
  have hspaced : Gaps.Spaced (4 * 4) 0
      ((((IndexMap.empty.insert 1 3).insert 4 1).insert 5 4).insert 9 3).toList := by
    rw [hlist]
    simp [Gaps.Spaced]
  exact ⟨_, Reachable.withAllocations ⟨⟨2, by decide, rfl⟩, by decide⟩ hspaced, hlist⟩

theorem releases_batch_in_any_order_unaligned : ∃ a b, Reachable 4 4 a ∧
    a.allocations = [(1, 3), (4, 1), (5, 4), (9, 3)] ∧
    (a.releaseMany 1 3).outcome.result = .ok ⟨.ok (), b⟩ ∧
    (Request.performAll [.release 5, .release 9, .release 1] a).outcome.result = .ok (.ok b) ∧
    (a.releaseMany 1 4).outcome.result = .ok (a.refuse (.notAllocated 13)) := by
  obtain ⟨a, h, hlist⟩ := unaligned_batch
  obtain ⟨hcanonical, hmax, htotal⟩ := h.canonical
  have htop : Bits.ceilLog2 3 = a.free.top := by
    rw [hcanonical.top_eq, hmax]
    decide +kernel
  have hmem : (1, 3) ∈ a.allocations := by simp [hlist]
  have hthree : a.batchStarts 1 3 = [1, 5, 9] := by simp [batchStarts, hmax, List.range_succ]
  have hfour : a.batchStarts 1 4 = [1, 5, 9, 13] := by simp [batchStarts, hmax, List.range_succ]
  obtain ⟨-, -, -, hreleased, hafter⟩ :=
    releases_batch_in_any_order h 1 (show 3 < 2 ^ indexBits by decide)
  obtain ⟨-, -, -, hrefused, -⟩ :=
    releases_batch_in_any_order h 1 (show 4 < 2 ^ indexBits by decide)
  obtain ⟨b, hrun⟩ := (((hreleased 3 (by decide) hmem).2 htop).2 (by omega)).2
    (by simp [hthree, Live, hlist])
  have horder : [5, 9, 1].Perm (a.batchStarts 1 3) := hthree ▸ by decide
  refine ⟨a, b, h, hlist, hrun, ((hafter b hrun).1 _ horder).2, ?_⟩
  refine (((hrefused 3 (by decide) hmem).2 htop).2 (by omega)).1 13 ⟨?_, ?_⟩
  · simp [hfour, Live, hlist]
  · rintro place ⟨hplace, hdead⟩
    simp only [hfour, List.mem_cons, List.not_mem_nil, or_false] at hplace
    simp only [Live, hlist, not_exists] at hdead
    rcases hplace with rfl | rfl | rfl | rfl
    · exact absurd (by decide) (hdead 3)
    · exact absurd (by decide) (hdead 4)
    · exact absurd (by decide) (hdead 3)
    · exact Nat.le_refl _

end Reachable

end AlignedRuns
