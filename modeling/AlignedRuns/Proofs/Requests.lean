import AlignedRuns.Allocator.Requests
import AlignedRuns.Proofs.Canonical
import AlignedRuns.Proofs.Searches
set_option autoImplicit false

namespace AlignedRuns.Allocator
open Traced

variable {a : Allocator} {offset size : Nat}

def storing (a : Allocator) (left right : Nat) : Journal :=
  (Gaps.split a.free.top (left, right)).map .stored

def dropping (a : Allocator) (left right : Nat) : Journal :=
  (Gaps.split a.free.top (left, right)).map .dropped

def carving (a : Allocator) (offset size : Nat) : Journal :=
  a.dropping (a.gapLeft offset) (a.gapRight offset) ++
    (a.storing (a.gapLeft offset) offset ++ a.storing (offset + size) (a.gapRight offset))

def freeing (a : Allocator) (offset size : Nat) : Journal :=
  a.dropping (a.gapLeft offset) offset ++
    (a.dropping (offset + size) (a.gapRight offset) ++
      a.storing (a.gapLeft offset) (a.gapRight offset))

theorem storing_severity {left right : Nat} {e : Event} (he : e ∈ a.storing left right) :
    e.severity = .trace := by
  obtain ⟨p, _, rfl⟩ := List.mem_map.1 he
  rfl

theorem dropping_severity {left right : Nat} {e : Event} (he : e ∈ a.dropping left right) :
    e.severity = .trace := by
  obtain ⟨p, _, rfl⟩ := List.mem_map.1 he
  rfl

theorem carving_severity {e : Event} (he : e ∈ a.carving offset size) : e.severity = .trace := by
  rcases List.mem_append.1 he with he | he
  · exact dropping_severity he
  · rcases List.mem_append.1 he with he | he
    · exact storing_severity he
    · exact storing_severity he

theorem freeing_severity {e : Event} (he : e ∈ a.freeing offset size) : e.severity = .trace := by
  rcases List.mem_append.1 he with he | he
  · exact dropping_severity he
  · rcases List.mem_append.1 he with he | he
    · exact dropping_severity he
    · exact storing_severity he

theorem markInUse_of_none (h : a.inUse.get? offset = none) (free : FreeLists) (size : Nat) :
    ({ a with free } : Allocator).markInUse offset size =
      pure { a with free, inUse := a.inUse.insert offset size } := by
  simp only [markInUse, h]

/-- The last steps of taking a vacant run: what is left of a piece or of a gap on either side of the
run is stored, and the run is marked. -/
theorem Canonical.store_sides (h : a.Canonical) (hv : a.Vacant offset size) (hsize : 0 < size)
    {left right : Nat} (hleft : left ≤ offset) (hright : offset + size ≤ right)
    (hlt : right < 2 ^ indexBits) {s : FreeLists} {kept : List Piece}
    (hcount : s.count = a.free.top + 1) (hs : s.toList.Perm kept)
    (hfinal : (Gaps.pieces a.free.top a.totalSize 0 (a.inUse.insert offset size).toList).Perm
      (Gaps.split a.free.top (left, offset) ++
        (Gaps.split a.free.top (offset + size, right) ++ kept))) :
    ∃ t u : FreeLists,
      s.insertRun left (offset - left) = (do emit (a.storing left offset); pure t) ∧
      t.insertRun (offset + size) (right - (offset + size)) =
        (do emit (a.storing (offset + size) right); pure u) ∧
      ({ a with free := u } : Allocator).markInUse offset size =
        pure (a.withAllocations (a.inUse.insert offset size)) := by
  have hspaced := h.spaced_insert hv hsize
  have hfinal := hfinal.trans (List.perm_append_comm_assoc _ _ _)
  have hplaces := Gaps.nodup_places a.free.top hspaced
  rw [(hfinal.map _).nodup_iff] at hplaces
  obtain ⟨t, hbefore, ht, htperm⟩ := FreeLists.insertRun_of_perm hcount h.top_lt
    (show left + (offset - left) < _ by omega) hs
    (by rw [List.map_append] at hplaces; exact (List.nodup_append.1 hplaces).2.1)
  obtain ⟨u, hbehind, hu, huperm⟩ := FreeLists.insertRun_of_perm ht h.top_lt
    (show offset + size + (right - (offset + size)) < _ by omega) htperm hplaces
  refine ⟨t, u, hbefore, hbehind, ?_⟩
  rw [markInUse_of_none hv.free,
    h.eq_withAllocations hspaced (hu.trans h.count_eq.symm) (huperm.trans hfinal.symm)]

theorem Canonical.carveGap_eq (h : a.Canonical) (hv : a.Vacant offset size) (hsize : 0 < size) :
    a.carveGap offset size (a.gapLeft offset) (a.gapRight offset) =
      (do emit (a.carving offset size)
          pure (a.withAllocations (a.inUse.insert offset size))) := by
  have hleft := hv.left
  have hright := hv.right
  have hle := h.gapRight_le offset
  have hlt := h.total_lt
  obtain ⟨s, hremove, hs, hsperm⟩ := FreeLists.removeRun_of_perm h.count_eq h.top_lt
    (show a.gapLeft offset + (a.gapRight offset - a.gapLeft offset) < _ by omega)
    (h.perm_of_get?_none hv.free)
  obtain ⟨t, u, hbefore, hbehind, hmark⟩ := h.store_sides hv hsize hleft hright (by omega) hs hsperm
    (perm_pieces_insert a offset size)
  simp only [carveGap, Word.sub_of_le (show a.gapLeft offset ≤ a.gapRight offset by omega),
    Word.sub_of_le hleft, Word.sub_of_le hright,
    Word.add_of_lt (show offset + size < 2 ^ indexBits by omega), pure_bind, hremove, hbefore,
    hbehind, hmark, emit_pure_bind, emit_bind_emit]
  rfl

theorem Canonical.freeRun_eq (h : a.Canonical) (hsize : a.inUse.get? offset = some size) :
    a.freeRun offset size =
      (do emit (a.freeing offset size)
          pure (a.withAllocations (a.inUse.erase offset))) := by
  obtain ⟨hleft, hpos, hright⟩ := h.bounds_of_get?_some hsize
  have hle := h.gapRight_le offset
  have hlt := h.total_lt
  have hspaced := h.spaced_erase offset
  have hplaces := Gaps.nodup_places a.free.top hspaced
  have hfinal := perm_pieces_erase a offset
  rw [(hfinal.map _).nodup_iff] at hplaces
  obtain ⟨s, hbefore, hs, hsperm⟩ := FreeLists.removeRun_of_perm h.count_eq h.top_lt
    (show a.gapLeft offset + (offset - a.gapLeft offset) < _ by omega)
    (h.perm_of_get?_some hsize)
  obtain ⟨t, hbehind, ht, htperm⟩ := FreeLists.removeRun_of_perm hs h.top_lt
    (show offset + size + (a.gapRight offset - (offset + size)) < _ by omega) hsperm
  obtain ⟨u, hwhole, hu, huperm⟩ := FreeLists.insertRun_of_perm ht h.top_lt
    (show a.gapLeft offset + (a.gapRight offset - a.gapLeft offset) < _ by omega) htperm hplaces
  have hresult := h.eq_withAllocations hspaced (hu.trans h.count_eq.symm)
    (huperm.trans hfinal.symm)
  simp only [freeRun, h.gapAround_eq, Word.sub_of_le hleft, Word.sub_of_le hright,
    Word.sub_of_le (show a.gapLeft offset ≤ a.gapRight offset by omega),
    Word.add_of_lt (show offset + size < 2 ^ indexBits by omega), pure_bind, hbefore, hbehind,
    hwhole, emit_pure_bind, emit_bind_emit]
  rw [← hresult]
  rfl

theorem Canonical.release_of_some (h : a.Canonical) (hsize : a.inUse.get? offset = some size) :
    a.release offset =
      (do emit (a.freeing offset size ++ [.released offset size])
          pure ((a.withAllocations (a.inUse.erase offset)).accept ())) := by
  simp only [release, sizeAt, hsize, h.freeRun_eq hsize, record_eq_emit, emit_pure_bind,
    emit_bind_emit]

theorem release_of_none (h : a.inUse.get? offset = none) :
    a.release offset = pure (a.refuse (.notAllocated offset)) := by
  simp only [release, sizeAt, h]

theorem Canonical.reserve_of_vacant (h : a.Canonical) (hv : a.Vacant offset size)
    (hsize : 0 < size) : a.reserve offset size =
      (do emit (a.carving offset size ++
            [.reserved offset size (a.gapLeft offset) (a.gapRight offset)])
          pure ((a.withAllocations (a.inUse.insert offset size)).accept ())) := by
  have hleft := hv.left
  have hright := hv.right
  have hle := h.gapRight_le offset
  have hlt := h.total_lt
  have hcontains : ¬a.inUse.contains offset = true := by
    simp [IndexMap.contains_eq_isSome, hv.free]
  have hroom : ¬(offset < a.gapLeft offset ∨ a.gapRight offset < offset + size ∨
      2 ^ indexBits ≤ offset + size) := by omega
  rw [reserve, if_neg (Nat.ne_of_gt hsize), if_neg hcontains, h.gapAround_eq, pure_bind]
  simp only [if_neg hroom, h.carveGap_eq hv hsize, record_eq_emit, emit_pure_bind, emit_bind_emit]

theorem Canonical.reserve_of_not_vacant (h : a.Canonical) (hv : ¬a.Vacant offset size)
    (hsize : 0 < size) : a.reserve offset size = pure (a.refuse (.conflict offset size)) := by
  rw [reserve, if_neg (Nat.ne_of_gt hsize)]
  by_cases hcontains : a.inUse.contains offset = true
  · rw [if_pos hcontains]
  · have hfree : a.inUse.get? offset = none := by
      simpa [IndexMap.contains_eq_isSome] using hcontains
    have hconflict : offset < a.gapLeft offset ∨ a.gapRight offset < offset + size ∨
        2 ^ indexBits ≤ offset + size := by
      by_contra hroom
      exact hv ⟨hfree, by omega, by omega⟩
    rw [if_neg hcontains, h.gapAround_eq, pure_bind]
    simp only [if_pos hconflict]

theorem reserve_zero (a : Allocator) (offset : Nat) :
    a.reserve offset 0 = pure (a.refuse (.invalidSize 0 a.totalSize)) := if_pos rfl

def highestPlace (p : Piece) (size : Nat) : Nat :=
  Bits.alignDown (p.stop - size) (2 ^ Bits.ceilLog2 size)

theorem two_pow_dvd_highestPlace (p : Piece) (size : Nat) :
    2 ^ Bits.ceilLog2 size ∣ highestPlace p size :=
  Bits.two_pow_dvd_alignDown _ _

theorem highestPlace_bounds {top : Nat} {p : Piece} (fits : p.Fits top) (hlen : size ≤ p.len)
    (hclass : Bits.ceilLog2 size ≤ p.sizeClass) :
    p.offset ≤ highestPlace p size ∧ highestPlace p size + size ≤ p.stop := by
  have hdvd : 2 ^ Bits.ceilLog2 size ∣ p.offset :=
    Nat.dvd_trans (Nat.pow_dvd_pow 2 hclass) fits.aligned
  have hstop : p.offset + size ≤ p.stop := Nat.add_le_add_left hlen _
  have hhighest : highestPlace p size ≤ p.stop - size := Bits.alignDown_le _ _
  exact ⟨Bits.le_alignDown hdvd (by omega), by omega⟩

theorem Canonical.stop_le (h : a.Canonical) {p : Piece} (hp : p ∈ a.freePieces) :
    p.stop ≤ a.totalSize :=
  (Gaps.bounds_of_mem_pieces h.spaced (h.split.mem_iff.1 hp)).2

theorem Canonical.fits (h : a.Canonical) {p : Piece} (hp : p ∈ a.freePieces) :
    p.Fits a.free.top :=
  Gaps.fits_of_mem_pieces (h.split.mem_iff.1 hp)

theorem Canonical.placeIn_eq (h : a.Canonical) {p : Piece} (hp : p ∈ a.freePieces)
    (hsize : 0 < size) (hlen : size ≤ p.len) (hclass : Bits.ceilLog2 size ≤ p.sizeClass) :
    ({ a with free := a.free.remove p } : Allocator).placeIn size p.offset p.len =
      (do emit (a.storing p.offset (highestPlace p size) ++
            a.storing (highestPlace p size + size) p.stop)
          pure (highestPlace p size,
            a.withAllocations (a.inUse.insert (highestPlace p size) size))) := by
  have hfits := h.fits hp
  obtain ⟨hleft, hright⟩ := highestPlace_bounds hfits hlen hclass
  have hstop := h.stop_le hp
  have hlt := h.total_lt
  have htop := h.top_lt
  have hle := hfits.class_le
  obtain ⟨hv, kept, hkept, hfinal⟩ := h.carve_piece hp hsize hleft hright
  have hrest : (a.free.remove p).toList.Perm kept :=
    ((FreeLists.perm_remove hp).symm.trans hkept).cons_inv
  obtain ⟨t, u, hbefore, hbehind, hmark⟩ := h.store_sides hv hsize hleft hright (by omega)
    ((FreeLists.count_remove _ _).trans h.count_eq) hrest hfinal
  have hadd : Word.add indexBits p.offset p.len = pure p.stop :=
    Word.add_of_lt (Nat.lt_of_le_of_lt hstop hlt)
  have hplace : Bits.alignDown (p.stop - size) (2 ^ Bits.ceilLog2 size) = highestPlace p size := rfl
  have hinside : p.offset ≤ Bits.alignDown (p.stop - size) (2 ^ Bits.ceilLog2 size) := hleft
  simp only [placeIn, hadd, pure_bind, Word.sub_of_le (show size ≤ p.stop by omega),
    Word.ceilLog2_eq (show size < 2 ^ indexBits by omega),
    Word.bit_of_lt (show Bits.ceilLog2 size < indexBits by omega), Word.alignDown_two_pow, hplace,
    require_of hinside, Word.sub_of_le hleft, Word.sub_of_le hright,
    Word.add_of_lt (show highestPlace p size + size < 2 ^ indexBits by omega), hbefore, hbehind,
    emit_pure_bind, emit_bind_emit]
  rw [hmark, pure_bind]

theorem sizeRefusal?_eq_none_iff : a.sizeRefusal? size = none ↔ 0 < size ∧ size ≤ a.maxSize := by
  unfold sizeRefusal?
  split <;> simp <;> omega

theorem sizeRefusal?_of_not (h : ¬(0 < size ∧ size ≤ a.maxSize)) :
    a.sizeRefusal? size = some (.invalidSize size a.maxSize) :=
  if_pos (by omega)

theorem Sized.ceilLog2_le_top (h : a.Sized) (hsize : size ≤ a.maxSize) :
    Bits.ceilLog2 size ≤ a.free.top :=
  (Bits.ceilLog2_le_iff _ _).2 (h.maxSize_eq ▸ hsize)

theorem allocate_of_refusal (h : ¬(0 < size ∧ size ≤ a.maxSize)) :
    a.allocate size = pure (a.refuse (.invalidSize size a.maxSize)) := by
  simp only [allocate, sizeRefusal?_of_not h]

theorem Sized.allocate_of_no_fit (h : a.Sized) (hsize : 0 < size) (hmax : size ≤ a.maxSize)
    (hfit : a.free.firstFit? (Bits.ceilLog2 size) size = none) :
    a.allocate size = pure (a.refuse (.outOfSpace size 1)) := by
  have hclass : Bits.ceilLog2 size ≤ a.free.count := by
    have := h.ceilLog2_le_top hmax
    have := h.count_eq
    omega
  simp only [allocate, sizeRefusal?_eq_none_iff.2 ⟨hsize, hmax⟩, h.ceilLog2_eq hmax,
    FreeLists.takeFit_eq _ hclass, hfit, pure_bind]
  rfl

theorem Canonical.allocate_of_fit (h : a.Canonical) (hsize : 0 < size) (hmax : size ≤ a.maxSize)
    {p : Piece} (hfit : a.free.firstFit? (Bits.ceilLog2 size) size = some p) :
    a.allocate size =
      (do emit (a.storing p.offset (highestPlace p size) ++
            (a.storing (highestPlace p size + size) p.stop ++
              [.allocated size (highestPlace p size) p.offset p.len]))
          pure ((a.withAllocations (a.inUse.insert (highestPlace p size) size)).accept
            (highestPlace p size))) := by
  have hclass : Bits.ceilLog2 size ≤ a.free.count := by
    have := h.ceilLog2_le_top hmax
    have := h.count_eq
    omega
  obtain ⟨hp, hle, hlen⟩ := FreeLists.firstFit?_some hfit
  simp only [allocate, sizeRefusal?_eq_none_iff.2 ⟨hsize, hmax⟩, h.ceilLog2_eq hmax,
    FreeLists.takeFit_eq _ hclass, hfit, FreeLists.taken, pure_bind, h.placeIn_eq hp hsize hlen hle,
    record_eq_emit, emit_pure_bind, emit_bind_emit, List.append_assoc]

end AlignedRuns.Allocator
