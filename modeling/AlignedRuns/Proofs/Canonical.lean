import AlignedRuns.Allocator
import AlignedRuns.Proofs.Entries
import AlignedRuns.Proofs.Gaps
import AlignedRuns.Proofs.Holdings
import Mathlib.Algebra.Ring.Nat
set_option autoImplicit false

/-!
# Canonical allocators

In a canonical allocator the free lists hold just the split of each gap between its allocations. It
is then known by its sizes and its allocations, and every request comes down to a change of these.
-/

namespace AlignedRuns.Allocator

/-- The sizes and the number of classes are those of an allocator that can be created. -/
structure Sized (a : Allocator) : Prop where
  count_pos : 0 < a.free.count
  top_lt : a.free.top < indexBits
  maxSize_eq : a.maxSize = 2 ^ a.free.top
  maxSize_dvd : a.maxSize ∣ a.totalSize
  total_lt : a.totalSize < 2 ^ indexBits

structure Canonical (a : Allocator) : Prop extends a.Sized where
  spaced : Gaps.Spaced a.totalSize 0 a.allocations
  split : a.free.toList.Perm (Gaps.pieces a.free.top a.totalSize 0 a.allocations)

/-- The canonical allocator of the same sizes with other allocations. -/
def withAllocations (a : Allocator) (m : IndexMap) : Allocator :=
  { a with
    free := .ofPieces a.free.count (Gaps.pieces a.free.top a.totalSize 0 m.toList), inUse := m }

@[simp] theorem withAllocations_maxSize (a : Allocator) (m : IndexMap) :
    (a.withAllocations m).maxSize = a.maxSize := rfl

@[simp] theorem withAllocations_totalSize (a : Allocator) (m : IndexMap) :
    (a.withAllocations m).totalSize = a.totalSize := rfl

@[simp] theorem withAllocations_inUse (a : Allocator) (m : IndexMap) :
    (a.withAllocations m).inUse = m := rfl

@[simp] theorem count_withAllocations (a : Allocator) (m : IndexMap) :
    (a.withAllocations m).free.count = a.free.count := FreeLists.count_ofPieces _ _

@[simp] theorem top_withAllocations (a : Allocator) (m : IndexMap) :
    (a.withAllocations m).free.top = a.free.top := by
  rw [FreeLists.top, count_withAllocations, FreeLists.top]

@[simp] theorem withAllocations_withAllocations (a : Allocator) (m n : IndexMap) :
    (a.withAllocations m).withAllocations n = a.withAllocations n := by
  simp [withAllocations, FreeLists.top]

theorem Sized.count_eq {a : Allocator} (h : a.Sized) : a.free.count = a.free.top + 1 :=
  (Nat.sub_add_cancel h.count_pos).symm

theorem Sized.top_eq {a : Allocator} (h : a.Sized) : a.free.top = Bits.ceilLog2 a.maxSize := by
  rw [h.maxSize_eq, Bits.ceilLog2_two_pow]

theorem Sized.maxSize_pos {a : Allocator} (h : a.Sized) : 0 < a.maxSize :=
  h.maxSize_eq ▸ Nat.two_pow_pos _

theorem Sized.ceilLog2_eq {a : Allocator} (h : a.Sized) {size : Nat} (hsize : size ≤ a.maxSize) :
    Word.ceilLog2 size = pure (Bits.ceilLog2 size) := by
  have hmax : a.maxSize < 2 ^ indexBits :=
    h.maxSize_eq ▸ (Nat.pow_lt_pow_iff_right (by decide)).2 h.top_lt
  exact Word.ceilLog2_eq (Nat.lt_of_le_of_lt hsize hmax)

theorem Sized.class_lt {a : Allocator} (h : a.Sized) {p : Piece} (hp : p.Fits a.free.top) :
    p.sizeClass < a.free.count := by
  have := h.count_eq
  have := hp.class_le
  omega

theorem Sized.perm_withAllocations {a : Allocator} (h : a.Sized) {m : IndexMap}
    (hm : Gaps.Spaced a.totalSize 0 m.toList) :
    (a.withAllocations m).free.toList.Perm (Gaps.pieces a.free.top a.totalSize 0 m.toList) :=
  FreeLists.perm_ofPieces (fun _ hp => h.class_lt (Gaps.fits_of_mem_pieces hp))
    (Gaps.nodup_places _ hm)

theorem Sized.withAllocations {a : Allocator} (h : a.Sized) (m : IndexMap) :
    (a.withAllocations m).Sized where
  count_pos := by simpa using h.count_pos
  top_lt := by simpa using h.top_lt
  maxSize_eq := by simpa using h.maxSize_eq
  maxSize_dvd := h.maxSize_dvd
  total_lt := h.total_lt

theorem Sized.canonical {a : Allocator} (h : a.Sized) {m : IndexMap}
    (hm : Gaps.Spaced a.totalSize 0 m.toList) : (a.withAllocations m).Canonical where
  toSized := h.withAllocations m
  spaced := hm
  split := by
    rw [top_withAllocations]
    exact h.perm_withAllocations hm

theorem Sized.eq_withAllocations {a : Allocator} (h : a.Sized) {m : IndexMap}
    (hm : Gaps.Spaced a.totalSize 0 m.toList) {free : FreeLists}
    (hcount : free.count = a.free.count)
    (hperm : free.toList.Perm (Gaps.pieces a.free.top a.totalSize 0 m.toList)) :
    ({ a with free, inUse := m } : Allocator) = a.withAllocations m := by
  have hfree : free = (a.withAllocations m).free :=
    FreeLists.eq_of_perm (hcount.trans (count_withAllocations a m).symm)
      (hperm.trans (h.perm_withAllocations hm).symm)
  rw [hfree]
  rfl

theorem Canonical.withAllocations_self {a : Allocator} (h : a.Canonical) :
    a.withAllocations a.inUse = a :=
  (h.eq_withAllocations h.spaced rfl h.split).symm

theorem Canonical.eq_of_inUse_eq {a b : Allocator} (ha : a.Canonical) (hb : b.Canonical)
    (hmax : a.maxSize = b.maxSize) (htotal : a.totalSize = b.totalSize)
    (hinUse : a.inUse = b.inUse) : a = b := by
  have htop : a.free.top = b.free.top := by
    have h := ha.maxSize_eq.symm.trans (hmax.trans hb.maxSize_eq)
    exact Nat.pow_right_injective (Nat.le_refl 2) h
  have hcount : a.free.count = b.free.count := by rw [ha.count_eq, hb.count_eq, htop]
  rw [← ha.withAllocations_self, ← hb.withAllocations_self]
  simp only [Allocator.withAllocations, hmax, htotal, hinUse, hcount, htop]

def gapLeft (a : Allocator) (offset : Nat) : Nat := Gaps.lastStop 0 (a.inUse.below offset)

def gapRight (a : Allocator) (offset : Nat) : Nat :=
  Gaps.firstStart a.totalSize (a.inUse.above offset)

structure Vacant (a : Allocator) (offset size : Nat) : Prop where
  free : a.inUse.get? offset = none
  left : a.gapLeft offset ≤ offset
  right : offset + size ≤ a.gapRight offset

section Around
variable {a : Allocator} {offset size : Nat}

theorem Canonical.spaced_around (h : a.Canonical) (offset : Nat) :
    Gaps.Spaced a.totalSize 0 (a.inUse.below offset ++ a.inUse.above offset) := by
  have hs := h.spaced
  unfold allocations at hs
  cases hv : a.inUse.get? offset with
  | none => rwa [IndexMap.toList_of_get?_none hv] at hs
  | some v =>
    rw [IndexMap.toList_of_get?_some hv] at hs
    exact hs.erase

theorem Canonical.gapRight_le (h : a.Canonical) (offset : Nat) :
    a.gapRight offset ≤ a.totalSize := by
  have hs := (Gaps.spaced_append_iff.1 (h.spaced_around offset)).2
  unfold gapRight
  cases habove : a.inUse.above offset with
  | nil => exact Nat.le_refl _
  | cons e rest =>
    have := hs.bounds (habove ▸ List.mem_cons_self)
    change e.1 ≤ _
    omega

theorem Canonical.gapLeft_le_gapRight (h : a.Canonical) (offset : Nat) :
    a.gapLeft offset ≤ a.gapRight offset :=
  (Gaps.spaced_append_iff.1 (h.spaced_around offset)).2.le_firstStart

theorem gapLeft_eq_prev? (a : Allocator) (offset : Nat) : a.gapLeft offset =
    match a.inUse.prev? offset with
    | some (start, size) => start + size
    | none => 0 := by
  have h := Gaps.lastStop_eq_getLast? 0 (a.inUse.below offset)
  rw [← IndexMap.prev?_eq_getLast?] at h
  exact h

theorem gapRight_eq_next? (a : Allocator) (offset : Nat) : a.gapRight offset =
    match a.inUse.next? offset with
    | some (start, _) => start
    | none => a.totalSize := by
  have h := Gaps.firstStart_eq_head? a.totalSize (a.inUse.above offset)
  rw [← IndexMap.next?_eq_head?] at h
  exact h

theorem Canonical.gapAround_eq (h : a.Canonical) (offset : Nat) :
    a.gapAround offset = pure (a.gapLeft offset, a.gapRight offset) := by
  have hle := h.gapLeft_le_gapRight offset
  have htotal := h.gapRight_le offset
  have hlt := h.total_lt
  rw [gapAround, gapRight_eq_next?]
  rw [gapLeft_eq_prev?] at hle ⊢
  cases hprev : a.inUse.prev? offset with
  | none => rfl
  | some e =>
    rw [hprev] at hle
    have hadd : Word.add indexBits e.1 e.2 = pure (e.1 + e.2) :=
      Word.add_of_lt (by simp only at hle; omega)
    have hpair (right : Nat) : (do
        let left ← Word.add indexBits e.1 e.2
        pure (left, right)) = (pure (e.1 + e.2, right) : Traced (Nat × Nat)) := by
      rw [hadd, pure_bind]
    exact hpair _

theorem Canonical.spaced_insert (h : a.Canonical) (hv : a.Vacant offset size) (hsize : 0 < size) :
    Gaps.Spaced a.totalSize 0 (a.inUse.insert offset size).toList := by
  rw [IndexMap.toList_insert]
  exact (h.spaced_around offset).insert hsize hv.left hv.right

theorem Canonical.spaced_erase (h : a.Canonical) (offset : Nat) :
    Gaps.Spaced a.totalSize 0 (a.inUse.erase offset).toList := by
  rw [IndexMap.toList_erase]
  exact h.spaced_around offset

def otherPieces (a : Allocator) (offset : Nat) : List Piece :=
  Gaps.others a.free.top a.totalSize 0 (a.inUse.below offset) (a.inUse.above offset)

theorem perm_pieces_insert (a : Allocator) (offset size : Nat) :
    (Gaps.pieces a.free.top a.totalSize 0 (a.inUse.insert offset size).toList).Perm
      (Gaps.split a.free.top (a.gapLeft offset, offset) ++
        (Gaps.split a.free.top (offset + size, a.gapRight offset) ++ a.otherPieces offset)) := by
  rw [IndexMap.toList_insert]
  exact Gaps.perm_pieces_append_cons _ _ _ _ _ _ _

theorem perm_pieces_erase (a : Allocator) (offset : Nat) :
    (Gaps.pieces a.free.top a.totalSize 0 (a.inUse.erase offset).toList).Perm
      (Gaps.split a.free.top (a.gapLeft offset, a.gapRight offset) ++ a.otherPieces offset) := by
  rw [IndexMap.toList_erase]
  exact Gaps.perm_pieces_append _ _ _ _ _

theorem Canonical.perm_of_get?_none (h : a.Canonical) (hfree : a.inUse.get? offset = none) :
    a.free.toList.Perm
      (Gaps.split a.free.top (a.gapLeft offset, a.gapRight offset) ++ a.otherPieces offset) := by
  have hs := h.split
  rw [allocations, IndexMap.toList_of_get?_none hfree] at hs
  exact hs.trans (Gaps.perm_pieces_append _ _ _ _ _)

theorem Canonical.perm_of_get?_some (h : a.Canonical) (hsize : a.inUse.get? offset = some size) :
    a.free.toList.Perm (Gaps.split a.free.top (a.gapLeft offset, offset) ++
      (Gaps.split a.free.top (offset + size, a.gapRight offset) ++ a.otherPieces offset)) := by
  have hs := h.split
  rw [allocations, IndexMap.toList_of_get?_some hsize] at hs
  exact hs.trans (Gaps.perm_pieces_append_cons _ _ _ _ _ _ _)

theorem Canonical.bounds_of_get?_some (h : a.Canonical)
    (hsize : a.inUse.get? offset = some size) :
    a.gapLeft offset ≤ offset ∧ 0 < size ∧ offset + size ≤ a.gapRight offset := by
  have hs := h.spaced
  rw [allocations, IndexMap.toList_of_get?_some hsize] at hs
  obtain ⟨_, hleft, hpos, hback⟩ := Gaps.spaced_append_iff.1 hs
  exact ⟨hleft, hpos, hback.le_firstStart⟩

/-- A run inside a free piece is vacant. Taking it replaces the piece by the splits of what the run
leaves of it: the pieces around it in the same gap stay what they are. -/
theorem Canonical.carve_piece (h : a.Canonical) {p : Piece} (hp : p ∈ a.freePieces)
    (hsize : 0 < size) (hleft : p.offset ≤ offset) (hright : offset + size ≤ p.stop) :
    a.Vacant offset size ∧ ∃ kept, a.free.toList.Perm (p :: kept) ∧
      (Gaps.pieces a.free.top a.totalSize 0 (a.inUse.insert offset size).toList).Perm
        (Gaps.split a.free.top (p.offset, offset) ++
          (Gaps.split a.free.top (offset + size, p.stop) ++ kept)) := by
  obtain ⟨gap, hgap, hin⟩ := List.mem_flatMap.1 (h.split.mem_iff.1 hp)
  obtain ⟨front, back, hlist, rfl⟩ := Gaps.exists_of_mem_between hgap
  have hspaced := h.spaced
  rw [hlist] at hspaced
  obtain ⟨hfront, hback⟩ := Gaps.spaced_append_iff.1 hspaced
  have hgapLe := hback.le_firstStart
  have hbounds := Gaps.bounds_of_mem_split hgapLe hin
  simp only at hbounds
  have hbelow : ∀ e ∈ front, e.1 < offset := by
    intro e he
    have := hfront.bounds he
    omega
  have habove : ∀ e ∈ back, offset < e.1 := by
    intro e he
    have := hback.firstStart_le he
    omega
  obtain ⟨hb, ha, hfree⟩ := IndexMap.around_of_toList_eq hlist hbelow habove
  have hgapLeft : a.gapLeft offset = Gaps.lastStop 0 front := by rw [gapLeft, hb]
  have hgapRight : a.gapRight offset = Gaps.firstStart a.totalSize back := by rw [gapRight, ha]
  rw [← hgapLeft, ← hgapRight] at hin hbounds
  obtain ⟨before, behind, hcut⟩ := List.append_of_mem hin
  have hwhole := h.gapLeft_le_gapRight offset
  have hcutLeft : Gaps.split a.free.top (a.gapLeft offset, offset) =
      before ++ Gaps.split a.free.top (p.offset, offset) := Split.pieces_cut_left hcut hleft
  have hcutRight : Gaps.split a.free.top (offset + size, a.gapRight offset) =
      Gaps.split a.free.top (offset + size, p.stop) ++ behind := by
    have := Split.pieces_cut_right hcut (show p.offset ≤ offset + size by omega) hright
    rwa [Nat.add_sub_cancel' hwhole] at this
  refine ⟨⟨hfree, by omega, by omega⟩, before ++ (behind ++ a.otherPieces offset), ?_, ?_⟩
  · have hperm := h.perm_of_get?_none hfree
    rw [hcut, List.append_assoc] at hperm
    exact hperm.trans List.perm_middle
  · have hperm := perm_pieces_insert a offset size
    rw [hcutLeft, hcutRight, List.append_assoc, List.append_assoc] at hperm
    refine hperm.trans ((List.perm_append_comm_assoc _ _ _).trans ?_)
    exact (List.perm_append_comm_assoc _ _ _).append_left _

end Around

theorem foldlM_sizes {total start used : Nat} {allocations : List (Nat × Nat)}
    (h : Gaps.Spaced total start allocations) (htotal : total < 2 ^ indexBits)
    (hused : used ≤ start) :
    allocations.foldlM (fun sum e => Word.add indexBits sum e.2) used =
      pure (used + (allocations.map Prod.snd).sum) := by
  induction allocations generalizing start used with
  | nil => rfl
  | cons e rest ih =>
    obtain ⟨hle, hpos, hrest⟩ := h
    -- all sizes so far lie below the end of this allocation, so their sum does too
    have hstop := hrest.le_total
    rw [List.foldlM_cons, Word.add_of_lt (show used + e.2 < 2 ^ indexBits by omega), pure_bind,
      ih hrest (by omega), List.map_cons, List.sum_cons, Nat.add_assoc]

theorem Canonical.usage_eq {a : Allocator} (h : a.Canonical) :
    a.usage = pure (a.allocations.map Prod.snd).sum := by
  rw [usage, foldlM_sizes h.spaced h.total_lt (Nat.le_refl 0), Nat.zero_add]

end AlignedRuns.Allocator
