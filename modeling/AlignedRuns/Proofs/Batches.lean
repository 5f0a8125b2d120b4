import AlignedRuns.Allocator.Batches
import AlignedRuns.Proofs.Requests
set_option autoImplicit false

namespace AlignedRuns

namespace IndexMap

def insertEvery (m : IndexMap) (size first stride : Nat) : (remaining i : Nat) → IndexMap
  | 0, _ => m
  | remaining + 1, i =>
    (m.insert (first + i * stride) size).insertEvery size first stride remaining (i + 1)

def eraseEvery (m : IndexMap) (first stride : Nat) : (remaining i : Nat) → IndexMap
  | 0, _ => m
  | remaining + 1, i => (m.erase (first + i * stride)).eraseEvery first stride remaining (i + 1)

end IndexMap

namespace Allocator
open Traced

variable {a : Allocator} {size first stride remaining i : Nat}

theorem batchPlace_of_lt (h : first + i * stride < 2 ^ indexBits) :
    batchPlace first stride i = pure (first + i * stride) := by
  rw [batchPlace, Word.mul_of_lt (by omega), pure_bind, Word.add_of_lt h]

theorem next_place_ne (hstride : 0 < stride) (j : Nat) :
    first + (i + 1 + j) * stride ≠ first + i * stride := by
  have := Nat.mul_lt_mul_of_pos_right (show i < i + 1 + j by omega) hstride
  omega

theorem Canonical.fillTopPiece_eq (h : a.Canonical) {p : Piece} (hp : p ∈ a.freePieces)
    (hclass : p.sizeClass = a.free.top) (hsize : 0 < size) (hlen : size ≤ p.len) :
    a.fillTopPiece a.free.top size p.offset =
      (do emit (a.storing (p.offset + size) p.stop)
          pure (a.withAllocations (a.inUse.insert p.offset size))) ∧
      (a.withAllocations (a.inUse.insert p.offset size)).Canonical ∧
      ∀ q ∈ a.freePieces, q ≠ p →
        q ∈ (a.withAllocations (a.inUse.insert p.offset size)).freePieces := by
  have hright : p.offset + size ≤ p.stop := Nat.add_le_add_left hlen _
  have hstop := h.stop_le hp
  have hlt := h.total_lt
  obtain ⟨hv, kept, hkept, hfinal⟩ := h.carve_piece hp hsize (Nat.le_refl _) hright
  have hnothing : Gaps.split a.free.top (p.offset, p.offset) = [] := by
    change Split.pieces _ _ (p.offset - p.offset) = []
    rw [Nat.sub_self, Split.pieces_zero]
  rw [hnothing, List.nil_append] at hfinal
  have hspaced := h.spaced_insert hv hsize
  have hplaces := Gaps.nodup_places a.free.top hspaced
  rw [(hfinal.map _).nodup_iff] at hplaces
  have hrest : (a.free.remove p).toList.Perm kept :=
    ((FreeLists.perm_remove hp).symm.trans hkept).cons_inv
  obtain ⟨t, hbehind, ht, htperm⟩ := FreeLists.insertRun_of_perm
    ((FreeLists.count_remove _ _).trans h.count_eq) h.top_lt
    (show p.offset + size + (p.stop - (p.offset + size)) < _ by omega) hrest hplaces
  have hresult := h.eq_withAllocations hspaced (ht.trans h.count_eq.symm) (htperm.trans hfinal.symm)
  have htake := FreeLists.take_of_mem hp
  rw [hclass] at htake
  rw [show p.stop - (p.offset + size) = p.len - size by unfold Piece.stop; omega] at hbehind
  refine ⟨?_, h.canonical hspaced, ?_⟩
  · simp only [fillTopPiece, htake, pure_bind, Word.sub_of_le hlen,
      Word.add_of_lt (show p.offset + size < 2 ^ indexBits by omega), hbehind, emit_pure_bind]
    rw [markInUse_of_none hv.free, hresult, storing, Gaps.split,
      show p.stop - (p.offset + size) = p.len - size by unfold Piece.stop; omega]
  · intro q hq hne
    have hmem := hkept.mem_iff.1 hq
    have hqkept : q ∈ kept := (List.mem_cons.1 hmem).resolve_left hne
    exact (h.perm_withAllocations hspaced).mem_iff.2
      (hfinal.mem_iff.2 (List.mem_append_right _ hqkept))

theorem Canonical.fillTopPieces_eq (h : a.Canonical) (hsize : 0 < size)
    (hstride : stride = 2 ^ a.free.top)
    (hroom : ∀ j < remaining, a.free.RoomAt size (first + (i + j) * stride)) :
    ∃ events : Journal, (∀ e ∈ events, e.severity = .trace) ∧
      a.fillTopPieces a.free.top size first stride remaining i =
        (do emit events
            pure (a.withAllocations (a.inUse.insertEvery size first stride remaining i))) ∧
      Gaps.Spaced a.totalSize 0 (a.inUse.insertEvery size first stride remaining i).toList := by
  induction remaining generalizing a i with
  | zero =>
    refine ⟨[], nofun, ?_, h.spaced⟩
    rw [IndexMap.insertEvery, h.withAllocations_self]
    rfl
  | succ remaining ih =>
    obtain ⟨hhere, hlater⟩ := forall_places_succ.1 hroom
    obtain ⟨len, hlen, hp⟩ := hhere.exists_piece
    obtain ⟨hrun, hcanonical, hothers⟩ := h.fillTopPiece_eq hp rfl hsize hlen
    simp only at hrun hcanonical hothers
    have hpos : 0 < stride := hstride ▸ Nat.two_pow_pos a.free.top
    have htop := top_withAllocations a (a.inUse.insert (first + i * stride) size)
    have hroom' : ∀ j < remaining, (a.withAllocations
        (a.inUse.insert (first + i * stride) size)).free.RoomAt size
          (first + (i + 1 + j) * stride) := by
      intro j hj
      obtain ⟨len', hlen', hq⟩ := (hlater j hj).exists_piece
      apply FreeLists.RoomAt.of_mem (hlater j hj).1 hlen'
      rw [htop]
      refine hothers _ hq fun heq => ?_
      exact next_place_ne hpos j (congrArg Piece.offset heq)
    obtain ⟨events, htrace, hrest, hspaced⟩ := ih hcanonical (htop.symm ▸ hstride) hroom'
    rw [htop] at hrest
    refine ⟨a.storing (first + i * stride + size) (first + i * stride + len) ++ events,
      ?_, ?_, hspaced⟩
    · exact fun e he => (List.mem_append.1 he).elim storing_severity (htrace e)
    · rw [fillTopPieces, batchPlace_of_lt hhere.1, pure_bind, hrun, emit_pure_bind, hrest,
        emit_bind_emit, withAllocations_withAllocations]
      rfl

theorem Canonical.lt_of_get?_some (h : a.Canonical) {offset : Nat}
    (hsize : a.inUse.get? offset = some size) : offset < 2 ^ indexBits := by
  have := h.bounds_of_get?_some hsize
  have := h.gapRight_le offset
  have := h.total_lt
  omega

theorem Canonical.freeRuns_eq (h : a.Canonical) (hstride : 0 < stride)
    (hlive : ∀ j < remaining, (a.inUse.get? (first + (i + j) * stride)).isSome) :
    ∃ events : Journal, (∀ e ∈ events, e.severity = .trace) ∧
      a.freeRuns first stride remaining i =
        (do emit events
            pure (a.withAllocations (a.inUse.eraseEvery first stride remaining i))) ∧
      Gaps.Spaced a.totalSize 0 (a.inUse.eraseEvery first stride remaining i).toList := by
  induction remaining generalizing a i with
  | zero =>
    refine ⟨[], nofun, ?_, h.spaced⟩
    rw [IndexMap.eraseEvery, h.withAllocations_self]
    rfl
  | succ remaining ih =>
    have hplaces := (forall_places_succ (P := fun place => (a.inUse.get? place).isSome)).1 hlive
    obtain ⟨hhere, hlater⟩ := hplaces
    obtain ⟨size, hsize⟩ := Option.isSome_iff_exists.1 hhere
    have hlive' : ∀ j < remaining, ((a.withAllocations
        (a.inUse.erase (first + i * stride))).inUse.get? (first + (i + 1 + j) * stride)).isSome := by
      intro j hj
      rw [withAllocations_inUse, IndexMap.get?_erase, if_neg (next_place_ne hstride j).symm]
      exact hlater j hj
    obtain ⟨events, htrace, hrest, hspaced⟩ :=
      ih (h.canonical (h.spaced_erase (first + i * stride))) hlive'
    refine ⟨a.freeing (first + i * stride) size ++ events, ?_, ?_, hspaced⟩
    · exact fun e he => (List.mem_append.1 he).elim freeing_severity (htrace e)
    · simp only [freeRuns, batchPlace_of_lt (h.lt_of_get?_some hsize), pure_bind, hsize,
        h.freeRun_eq hsize, emit_pure_bind, hrest, emit_bind_emit, withAllocations_withAllocations]
      rfl

theorem findUnallocated_eq (hbound : ∀ j < remaining, first + (i + j) * stride < 2 ^ indexBits) :
    a.findUnallocated first stride remaining i =
      pure (((List.range' i remaining).map fun j => first + j * stride).find? fun place =>
        (a.inUse.get? place).isNone) := by
  induction remaining generalizing i with
  | zero => rfl
  | succ remaining ih =>
    have hplaces := (forall_places_succ (P := fun place => place < 2 ^ indexBits)).1 hbound
    rw [findUnallocated, batchPlace_of_lt hplaces.1, pure_bind, ih hplaces.2, List.range'_succ,
      List.map_cons, List.find?_cons, IndexMap.contains_eq_isSome]
    cases a.inUse.get? (first + i * stride) <;> rfl

theorem allocateMany_zero (a : Allocator) (size : Nat) :
    a.allocateMany size 0 = pure (a.refuse (.invalidCount 0)) := rfl

theorem allocateMany_one (a : Allocator) (size : Nat) : a.allocateMany size 1 = a.allocate size :=
  rfl

section Many
variable {count : Nat}

theorem allocateMany_of_refusal (hcount : 2 ≤ count) (h : ¬(0 < size ∧ size ≤ a.maxSize)) :
    a.allocateMany size count = pure (a.refuse (.invalidSize size a.maxSize)) := by
  rw [allocateMany, if_neg (by omega), if_neg (by omega), sizeRefusal?_of_not h]

theorem Sized.allocateMany_of_class (h : a.Sized) (hcount : 2 ≤ count) (hsize : 0 < size)
    (hmax : size ≤ a.maxSize) (hclass : Bits.ceilLog2 size ≠ a.free.top) :
    a.allocateMany size count = pure (a.refuse (.unsupported size count)) := by
  rw [allocateMany, if_neg (by omega), if_neg (by omega), sizeRefusal?_eq_none_iff.2 ⟨hsize, hmax⟩]
  simp only [h.ceilLog2_eq hmax, FreeLists.topClass_eq h.count_pos, pure_bind, if_pos hclass]

theorem Sized.mul_stride_lt (h : a.Sized) {n : Nat} (hn : n < 2 ^ indexBits) :
    n * 2 ^ a.free.top < 2 ^ 63 := by
  have htop := h.top_lt
  unfold indexBits at htop
  have hpow : 2 ^ a.free.top ≤ 2 ^ 31 := Nat.pow_le_pow_right (by decide) (by omega)
  have := Nat.mul_lt_mul_of_lt_of_le hn hpow (by decide)
  unfold indexBits at this
  omega

def batchPlace? (a : Allocator) (size count : Nat) : Option Nat :=
  if a.totalSize < 2 ^ a.free.top * count then none
  else a.free.topRuns? size count (2 ^ Bits.ceilLog2 (2 ^ a.free.top * count))

theorem Canonical.allocateMany_eq (h : a.Canonical) (hcount : 2 ≤ count)
    (hword : count < 2 ^ indexBits) (hsize : 0 < size) (hmax : size ≤ a.maxSize)
    (hclass : Bits.ceilLog2 size = a.free.top) :
    a.allocateMany size count =
      (match a.batchPlace? size count with
      | none => pure (a.refuse (.outOfSpace size count))
      | some first => do
        let a ← a.fillTopPieces a.free.top size first (2 ^ a.free.top) count 0
        emit [.allocatedMany count size first]
        pure (a.accept first)) := by
  have htop := h.top_lt
  have hlt := h.total_lt
  have hroom : Word.bit wideBits a.free.top = pure (2 ^ a.free.top) := by
    apply Word.bit_of_lt
    unfold indexBits at htop
    unfold wideBits
    omega
  have hspan : 2 ^ a.free.top * count < 2 ^ wideBits := by
    have := h.mul_stride_lt hword
    rw [Nat.mul_comm] at this
    unfold wideBits
    omega
  have hwords : ∀ p ∈ a.free.toList, p.offset < 2 ^ indexBits := by
    intro p hp
    have := h.stop_le hp
    unfold Piece.stop at this
    omega
  rw [allocateMany, if_neg (by omega), if_neg (by omega), sizeRefusal?_eq_none_iff.2 ⟨hsize, hmax⟩]
  simp only [h.ceilLog2_eq hmax, FreeLists.topClass_eq h.count_pos, hclass, ne_eq,
    not_true_eq_false, if_false, hroom, pure_bind, Word.mul_of_lt hspan, batchPlace?]
  by_cases hfull : a.totalSize < 2 ^ a.free.top * count
  · rw [if_pos hfull, if_pos (.inl hfull)]
  · have halign : Word.bit wideBits (Bits.ceilLog2 (2 ^ a.free.top * count)) =
        pure (2 ^ Bits.ceilLog2 (2 ^ a.free.top * count)) := by
      apply Word.bit_of_lt
      have hle := (Bits.ceilLog2_le_iff (2 ^ a.free.top * count) indexBits).2 (by omega)
      exact Nat.lt_of_le_of_lt hle (by decide)
    rw [if_neg hfull, if_neg (by omega), Word.ceilLog2_eq (by omega), pure_bind, halign, pure_bind,
      FreeLists.findTopClassRuns_eq h.count_pos htop hwords hword
        (Nat.ne_of_gt (Nat.two_pow_pos _)), pure_bind]
    cases a.free.topRuns? size count (2 ^ Bits.ceilLog2 (2 ^ a.free.top * count)) with
    | none => rfl
    | some first => simp only [Word.bit_of_lt htop, pure_bind, record_eq_emit]

theorem room_of_batchPlace? {first : Nat} (h : a.batchPlace? size count = some first) :
    ∀ j < count, a.free.RoomAt size (first + (0 + j) * 2 ^ a.free.top) := by
  unfold batchPlace? at h
  split at h
  · cases h
  · obtain ⟨e, he, rfl⟩ := Option.map_eq_some_iff.1 h
    have hfound := List.find?_some he
    simp only [decide_eq_true_eq] at hfound
    simpa only [Nat.zero_add] using hfound.2

theorem releaseMany_zero (a : Allocator) (offset : Nat) :
    a.releaseMany offset 0 = pure (a.refuse (.invalidCount 0)) := rfl

theorem releaseMany_one (a : Allocator) (offset : Nat) : a.releaseMany offset 1 = a.release offset :=
  rfl

theorem releaseMany_of_none (hcount : 2 ≤ count) {offset : Nat}
    (h : a.inUse.get? offset = none) :
    a.releaseMany offset count = pure (a.refuse (.notAllocated offset)) := by
  rw [releaseMany, if_neg (by omega), if_neg (by omega)]
  simp only [sizeAt, h]

theorem Canonical.ceilLog2_eq_of_get?_some (h : a.Canonical) {offset : Nat}
    (hsize : a.inUse.get? offset = some size) :
    Word.ceilLog2 size = pure (Bits.ceilLog2 size) := by
  have := h.bounds_of_get?_some hsize
  have := h.gapRight_le offset
  have := h.total_lt
  exact Word.ceilLog2_eq (by omega)

theorem Canonical.releaseMany_of_class (h : a.Canonical) (hcount : 2 ≤ count) {offset : Nat}
    (hsize : a.inUse.get? offset = some size) (hclass : Bits.ceilLog2 size ≠ a.free.top) :
    a.releaseMany offset count = pure (a.refuse (.unsupported size count)) := by
  rw [releaseMany, if_neg (by omega), if_neg (by omega)]
  simp only [sizeAt, hsize, FreeLists.topClass_eq h.count_pos, h.ceilLog2_eq_of_get?_some hsize,
    pure_bind, if_pos hclass]

def vacantPlace? (a : Allocator) (offset count : Nat) : Option Nat :=
  ((List.range' 1 (count - 1)).map fun j => offset + j * 2 ^ a.free.top).find? fun place =>
    (a.inUse.get? place).isNone

theorem Canonical.releaseMany_eq (h : a.Canonical) (hcount : 2 ≤ count)
    (hword : count < 2 ^ indexBits) {offset : Nat} (hsize : a.inUse.get? offset = some size)
    (hclass : Bits.ceilLog2 size = a.free.top) :
    a.releaseMany offset count =
      (if a.totalSize ≤ offset + (count - 1) * 2 ^ a.free.top then
        pure (a.refuse (.invalidCount count))
      else match a.vacantPlace? offset count with
      | some place => pure (a.refuse (.notAllocated place))
      | none => do
        let a ← a.freeRuns offset (2 ^ a.free.top) count 0
        emit [.releasedMany count offset size]
        pure (a.accept ())) := by
  have htop := h.top_lt
  have hlt := h.total_lt
  have hoffset := h.lt_of_get?_some hsize
  have hreach := h.mul_stride_lt (show count - 1 < 2 ^ indexBits by omega)
  have hwide : offset + (count - 1) * 2 ^ a.free.top < 2 ^ wideBits := by
    unfold indexBits at hoffset
    unfold wideBits
    omega
  have hspan : (count - 1) * 2 ^ a.free.top < 2 ^ wideBits := by omega
  rw [releaseMany, if_neg (by omega), if_neg (by omega)]
  simp only [sizeAt, hsize, FreeLists.topClass_eq h.count_pos, h.ceilLog2_eq_of_get?_some hsize,
    hclass, ne_eq, not_true_eq_false, if_false, Word.bit_of_lt htop, pure_bind,
    Word.sub_of_le (show 1 ≤ count by omega), Word.mul_of_lt hspan, Word.add_of_lt hwide]
  by_cases hlast : a.totalSize ≤ offset + (count - 1) * 2 ^ a.free.top
  · rw [if_pos hlast, if_pos hlast]
  · have hplaces : ∀ j < count - 1, offset + (1 + j) * 2 ^ a.free.top < 2 ^ indexBits := by
      intro j hj
      have := Nat.mul_le_mul_right (2 ^ a.free.top) (show 1 + j ≤ count - 1 by omega)
      omega
    rw [if_neg hlast, if_neg hlast, findUnallocated_eq hplaces, pure_bind]
    simp only [record_eq_emit]
    rfl

theorem live_of_vacantPlace? {offset : Nat} (h : a.vacantPlace? offset count = none)
    (hlive : (a.inUse.get? offset).isSome) :
    ∀ j < count, (a.inUse.get? (offset + (0 + j) * 2 ^ a.free.top)).isSome := by
  intro j hj
  cases j with
  | zero => simpa using hlive
  | succ j =>
    have hall := List.find?_eq_none.1 h (offset + (j + 1) * 2 ^ a.free.top)
      (List.mem_map.2 ⟨j + 1, List.mem_range'_1.2 (by omega), rfl⟩)
    rw [Nat.zero_add]
    exact Option.isSome_iff_ne_none.2 (by simpa using hall)

end Many

end Allocator

end AlignedRuns
