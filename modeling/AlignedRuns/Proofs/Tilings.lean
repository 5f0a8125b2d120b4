import AlignedRuns.Proofs.Vacancy
import Mathlib.Data.Set.Card
set_option autoImplicit false

/-!
# The coarsest tiling

Free space can be cut into pieces of the size classes in many ways. The pieces that the free lists
hold are the coarsest of them: every piece of another way lies in one of these, so no way has fewer
pieces and no other way has as few.
-/

namespace AlignedRuns

theorem Piece.Fits.eq_of_range_eq {top : Nat} {p q : Piece} (hp : p.Fits top) (hq : q.Fits top)
    (hoffset : p.offset = q.offset) (hstop : p.stop = q.stop) : p = q := by
  have hlen : p.len = q.len := by
    unfold Piece.stop at hstop
    omega
  have hclass : p.sizeClass = q.sizeClass := by rw [hp.sizeClass_eq, hq.sizeClass_eq, hlen]
  obtain ⟨_, _, _⟩ := p
  obtain ⟨_, _, _⟩ := q
  simp only at hoffset hlen hclass
  rw [hoffset, hlen, hclass]

namespace Allocator

/-- Pieces of the size classes that do not overlap and together are the indices without an
allocation. -/
structure Tiling (a : Allocator) (tiles : Set Piece) : Prop where
  fits : ∀ p ∈ tiles, p.Fits a.free.top
  apart : ∀ p ∈ tiles, ∀ q ∈ tiles, p ≠ q → p.stop ≤ q.offset ∨ q.stop ≤ p.offset
  covers : ∀ i, (∃ p ∈ tiles, p.offset ≤ i ∧ i < p.stop) ↔ i < a.totalSize ∧ ¬a.Taken i

variable {a : Allocator} {tiles : Set Piece} {p q : Piece}

theorem Canonical.tiling_freePieces (h : a.Canonical) : a.Tiling {p | p ∈ a.freePieces} where
  fits _ hp := h.fits hp
  apart _ hp _ hq hne := h.apart hp hq hne
  covers i := h.mem_free_iff i

theorem Tiling.offset_lt_stop (ht : a.Tiling tiles) (hp : p ∈ tiles) : p.offset < p.stop :=
  Nat.lt_add_of_pos_right (ht.fits p hp).len_pos

theorem Tiling.unused (ht : a.Tiling tiles) (hp : p ∈ tiles) : a.Unused p.offset p.len := by
  have hin : ∀ i, p.offset ≤ i → i < p.stop → i < a.totalSize ∧ ¬a.Taken i :=
    fun i hlow hhigh => (ht.covers i).1 ⟨p, hp, hlow, hhigh⟩
  have hlt := ht.offset_lt_stop hp
  have hlast := (hin (p.stop - 1) (by omega) (by omega)).1
  refine ⟨?_, fun i hlow hhigh => (hin i hlow hhigh).2⟩
  change p.stop ≤ a.totalSize
  omega

/-- For finitely many pieces it is enough to look at the indices of the index space. -/
theorem tiling_iff_of_list {pieces : List Piece} : a.Tiling {p | p ∈ pieces} ↔
    (∀ p ∈ pieces, p.Fits a.free.top ∧ p.stop ≤ a.totalSize) ∧
      (∀ p ∈ pieces, ∀ q ∈ pieces, p ≠ q → p.stop ≤ q.offset ∨ q.stop ≤ p.offset) ∧
      ∀ i < a.totalSize, (∃ p ∈ pieces, p.offset ≤ i ∧ i < p.stop) ↔ ¬a.Taken i := by
  constructor
  · intro ht
    refine ⟨fun p hp => ⟨ht.fits p hp, (ht.unused hp).1⟩, ht.apart, fun i hi => ?_⟩
    exact (ht.covers i).trans (and_iff_right hi)
  · rintro ⟨hfits, hapart, hcovers⟩
    refine ⟨fun p hp => (hfits p hp).1, hapart, fun i => ?_⟩
    by_cases hi : i < a.totalSize
    · exact (hcovers i hi).trans (and_iff_right hi).symm
    · refine iff_of_false ?_ fun hin => hi hin.1
      rintro ⟨p, hp, -, hin⟩
      exact hi (Nat.lt_of_lt_of_le hin (hfits p hp).2)

instance (a : Allocator) (pieces : List Piece) : Decidable (a.Tiling {p | p ∈ pieces}) :=
  decidable_of_iff _ tiling_iff_of_list.symm

theorem Tiling.injOn_offset (ht : a.Tiling tiles) : tiles.InjOn Piece.offset := by
  intro p hp q hq heq
  by_contra hne
  have := ht.apart p hp q hq hne
  have := ht.offset_lt_stop hp
  have := ht.offset_lt_stop hq
  omega

theorem Tiling.finite (ht : a.Tiling tiles) : tiles.Finite := by
  refine Set.Finite.of_injOn (fun p hp => ?_) ht.injOn_offset (Set.finite_lt_nat a.totalSize)
  exact ((ht.covers p.offset).1 ⟨p, hp, Nat.le_refl _, ht.offset_lt_stop hp⟩).1

theorem Canonical.exists_containing_tile (h : a.Canonical) (ht : a.Tiling tiles) (hp : p ∈ tiles) :
    ∃ q ∈ a.freePieces, q.offset ≤ p.offset ∧ p.stop ≤ q.stop :=
  h.exists_containing (ht.fits p hp) (ht.unused hp)

/-- A tile that meets a free piece lies in it. -/
theorem Canonical.tile_inside (h : a.Canonical) (ht : a.Tiling tiles) (hp : p ∈ tiles)
    (hq : q ∈ a.freePieces) {i : Nat} (hfromp : p.offset ≤ i) (hinp : i < p.stop)
    (hfromq : q.offset ≤ i) (hinq : i < q.stop) : q.offset ≤ p.offset ∧ p.stop ≤ q.stop := by
  obtain ⟨r, hr, hfrom, hstop⟩ := h.exists_containing_tile ht hp
  obtain rfl := h.eq_of_mem_both hr hq (hfrom.trans hfromp) (Nat.lt_of_lt_of_le hinp hstop)
    hfromq hinq
  exact ⟨hfrom, hstop⟩

/-- Some tile starts where a free piece starts. -/
theorem Canonical.exists_tile_at (h : a.Canonical) (ht : a.Tiling tiles) (hq : q ∈ a.freePieces) :
    ∃ p ∈ tiles, p.offset = q.offset := by
  have hlt := h.tiling_freePieces.offset_lt_stop hq
  obtain ⟨p, hp, hfrom, hin⟩ :=
    (ht.covers q.offset).2 ((h.mem_free_iff q.offset).1 ⟨q, hq, Nat.le_refl _, hlt⟩)
  have hinside := h.tile_inside ht hp hq hfrom hin (Nat.le_refl _) hlt
  exact ⟨p, hp, Nat.le_antisymm hfrom hinside.1⟩

theorem Canonical.offsets_subset (h : a.Canonical) (ht : a.Tiling tiles) :
    Piece.offset '' {q | q ∈ a.freePieces} ⊆ Piece.offset '' tiles := by
  rintro _ ⟨q, hq, rfl⟩
  exact h.exists_tile_at ht hq

theorem ncard_freePieces (a : Allocator) : {p | p ∈ a.freePieces}.ncard = a.pieceCount := by
  have hset : {p | p ∈ a.freePieces} = (a.freePieces.toFinset : Set Piece) := by
    ext p
    simp
  have hnodup : a.freePieces.Nodup := FreeLists.nodup_toList a.free
  rw [hset, Set.ncard_coe_finset, List.toFinset_card_of_nodup hnodup]
  exact FreeLists.length_toList a.free

theorem Canonical.pieceCount_le_ncard (h : a.Canonical) (ht : a.Tiling tiles) :
    a.pieceCount ≤ tiles.ncard := by
  rw [← ncard_freePieces, ← h.tiling_freePieces.injOn_offset.ncard_image,
    ← ht.injOn_offset.ncard_image]
  exact Set.ncard_le_ncard (h.offsets_subset ht) (ht.finite.image _)

/-- Where tiles start only where free pieces do, what a tile left of its free piece would have no
tile. -/
theorem Canonical.stop_eq_of_starts (h : a.Canonical) (ht : a.Tiling tiles)
    (hstart : ∀ r ∈ tiles, ∃ s ∈ a.freePieces, s.offset = r.offset) (hp : p ∈ tiles)
    (hq : q ∈ a.freePieces) (hoffset : q.offset = p.offset) : p.stop = q.stop := by
  have hfree := h.tiling_freePieces
  have hltp := ht.offset_lt_stop hp
  have hltq := hfree.offset_lt_stop hq
  have hinside := h.tile_inside ht hp hq (Nat.le_refl _) hltp (by omega) (by omega)
  by_contra hne
  obtain ⟨r, hr, hfrom, hin⟩ :=
    (ht.covers p.stop).2 ((h.mem_free_iff p.stop).1 ⟨q, hq, by omega, by omega⟩)
  have hltr := ht.offset_lt_stop hr
  have hnext := h.tile_inside ht hr hq hfrom hin (by omega) (by omega)
  obtain ⟨s, hs, hsoffset⟩ := hstart r hr
  have hlts := hfree.offset_lt_stop hs
  obtain rfl := h.eq_of_mem_both hs hq (Nat.le_of_eq hsoffset) (by omega) hnext.1 (by omega)
  obtain rfl := ht.injOn_offset hr hp (hsoffset.symm.trans hoffset)
  exact Nat.lt_irrefl _ hin

theorem Canonical.eq_of_ncard_eq (h : a.Canonical) (ht : a.Tiling tiles)
    (hcard : tiles.ncard = a.pieceCount) : tiles = {q | q ∈ a.freePieces} := by
  have hoffsets : Piece.offset '' {q | q ∈ a.freePieces} = Piece.offset '' tiles := by
    refine Set.eq_of_subset_of_ncard_le (h.offsets_subset ht) ?_ (ht.finite.image _)
    rw [ht.injOn_offset.ncard_image, h.tiling_freePieces.injOn_offset.ncard_image, ncard_freePieces,
      hcard]
  have hstart : ∀ p ∈ tiles, ∃ q ∈ a.freePieces, q.offset = p.offset :=
    fun p hp => hoffsets.symm.subset ⟨p, hp, rfl⟩
  have hsubset : tiles ⊆ {q | q ∈ a.freePieces} := by
    intro p hp
    obtain ⟨q, hq, hoffset⟩ := hstart p hp
    have hstop := h.stop_eq_of_starts ht hstart hp hq hoffset
    rw [(ht.fits p hp).eq_of_range_eq (h.fits hq) hoffset.symm hstop]
    exact hq
  refine Set.eq_of_subset_of_ncard_le hsubset ?_ h.tiling_freePieces.finite
  rw [ncard_freePieces, hcard]

end Allocator

namespace Reachable
open Allocator

variable {maxSize slotCount : Nat} {a : Allocator}

/-- Free space is never cut finer than the size classes ask for. -/
theorem coarsest_tiling (h : Reachable maxSize slotCount a) :
    a.Tiling {p | p ∈ a.freePieces} ∧ {p | p ∈ a.freePieces}.ncard = a.pieceCount ∧
    ∀ tiles : Set Piece, a.Tiling tiles → tiles.Finite ∧
      (∀ p ∈ tiles, ∃ q ∈ a.freePieces, q.offset ≤ p.offset ∧ p.stop ≤ q.stop) ∧
      a.pieceCount ≤ tiles.ncard ∧
      (tiles.ncard = a.pieceCount → tiles = {p | p ∈ a.freePieces}) := by
  have hcanonical := h.canonical.1
  refine ⟨hcanonical.tiling_freePieces, ncard_freePieces a, fun tiles ht => ⟨ht.finite, ?_, ?_, ?_⟩⟩
  · exact fun p hp => hcanonical.exists_containing_tile ht hp
  · exact hcanonical.pieceCount_le_ncard ht
  · exact fun hcard => hcanonical.eq_of_ncard_eq ht hcard

theorem coarsest_tiling_beside_run :
    ∃ (a : Allocator) (tiles : Set Piece), Reachable 4 4 a ∧ a.allocations = [(1, 2)] ∧
      a.Tiling tiles ∧ ⟨1, 6, 2⟩ ∈ tiles ∧
      (∃ q ∈ a.freePieces, q.offset ≤ 6 ∧ 8 ≤ q.stop) ∧ a.pieceCount ≤ tiles.ncard := by
  obtain ⟨h, hlist⟩ := beside_run
  obtain ⟨-, -, hcoarsest⟩ := coarsest_tiling h
  have htiling : Allocator.Tiling
      ((Allocator.blank 4 4).withAllocations (IndexMap.empty.insert 1 2))
      {p | p ∈ [⟨0, 0, 1⟩, ⟨0, 3, 1⟩, ⟨1, 4, 2⟩, ⟨1, 6, 2⟩, ⟨2, 8, 4⟩, ⟨2, 12, 4⟩]} := by
    decide +kernel
  obtain ⟨-, hnested, hfewest, -⟩ := hcoarsest _ htiling
  exact ⟨_, _, h, hlist, htiling, by decide, hnested ⟨1, 6, 2⟩ (by decide), hfewest⟩

end Reachable

end AlignedRuns
