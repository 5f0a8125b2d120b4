import AlignedRuns.Diagnosis
import AlignedRuns.Proofs.Restoring
set_option autoImplicit false

namespace AlignedRuns

def Piece.range (p : Piece) : Nat × Nat := (p.offset, p.len)

namespace IndexMap

def total (m : IndexMap) : Nat := (m.toList.map Prod.snd).sum

theorem total_insert (m : IndexMap) (i v : Nat) : (m.insert i v).total = v + (m.erase i).total := by
  rw [total, total, toList_insert, toList_erase]
  exact (List.perm_middle.map Prod.snd).sum_nat

theorem total_of_some {m : IndexMap} {i v : Nat} (h : m.get? i = some v) :
    m.total = v + (m.erase i).total :=
  ((perm_toList_erase h).map Prod.snd).sum_nat

end IndexMap

namespace Coverage

/-- The ranges follow one another from `cursor` up to `total`. -/
def Tiles (total : Nat) : (cursor : Nat) → List (Nat × Nat) → Prop
  | cursor, [] => cursor = total
  | cursor, (start, len) :: ranges => start = cursor ∧ Tiles total (start + len) ranges

def covers (i : Nat) (range : Nat × Nat) : Bool := range.1 ≤ i && i < range.1 + range.2

def timeline (top total : Nat) : (start : Nat) → List (Nat × Nat) → List (Nat × Nat)
  | start, [] => (Gaps.split top (start, total)).map Piece.range
  | start, (offset, size) :: rest =>
    (Gaps.split top (start, offset)).map Piece.range ++
      (offset, size) :: timeline top total (offset + size) rest

variable {total middle cursor start : Nat} {ranges allocations : List (Nat × Nat)}

theorem Tiles.append_iff {front back : List (Nat × Nat)} (hfront : Tiles middle cursor front) :
    Tiles total cursor (front ++ back) ↔ Tiles total middle back := by
  induction front generalizing cursor with
  | nil =>
    cases hfront
    exact Iff.rfl
  | cons r front ih =>
    obtain ⟨rfl, hrest⟩ := hfront
    exact (and_iff_right rfl).trans (ih hrest)

theorem Tiles.le (h : Tiles total cursor ranges) : cursor ≤ total := by
  induction ranges generalizing cursor with
  | nil => exact Nat.le_of_eq h
  | cons r ranges ih =>
    have := ih h.2
    have := h.1
    omega

theorem Tiles.sum_eq (h : Tiles total cursor ranges) :
    cursor + (ranges.map Prod.snd).sum = total := by
  induction ranges generalizing cursor with
  | nil => exact h
  | cons r ranges ih =>
    obtain ⟨rfl, hrest⟩ := h
    rw [List.map_cons, List.sum_cons, ← Nat.add_assoc]
    exact ih hrest

/-- Pieces and allocations that follow one another through the index space are as many indices as
there are. -/
theorem Tiles.sum_of_perm {pieces : List Piece} (h : Tiles total 0 ranges)
    (hperm : ranges.Perm (pieces.map Piece.range ++ allocations)) :
    (pieces.map Piece.len).sum + (allocations.map Prod.snd).sum = total := by
  have hsum := h.sum_eq
  rw [(hperm.map Prod.snd).sum_nat, List.map_append, List.sum_append, List.map_map,
    Nat.zero_add] at hsum
  exact hsum

theorem Tiles.spaced (h : Tiles total cursor ranges) (hpos : ∀ r ∈ ranges, 0 < r.2) :
    Gaps.Spaced total cursor ranges := by
  induction ranges generalizing cursor with
  | nil => exact Nat.le_of_eq h
  | cons r ranges ih =>
    have hr := List.forall_mem_cons.1 hpos
    exact ⟨Nat.le_of_eq h.1.symm, hr.1, ih h.2 hr.2⟩

theorem Tiles.countP_covers (h : Tiles total cursor ranges) (i : Nat) :
    ranges.countP (covers i) = if cursor ≤ i ∧ i < total then 1 else 0 := by
  induction ranges generalizing cursor with
  | nil =>
    have hnone : ¬(cursor ≤ i ∧ i < total) := by
      cases h
      omega
    rw [if_neg hnone]
    rfl
  | cons r ranges ih =>
    obtain ⟨rfl, hrest⟩ := h
    have hle := hrest.le
    rw [List.countP_cons, ih hrest]
    by_cases hin : r.1 ≤ i ∧ i < r.1 + r.2
    · have hcovers : covers i r = true := by simpa [covers] using hin
      rw [hcovers, if_neg (by omega), if_pos rfl, if_pos (by omega)]
    · have hcovers : covers i r = false := by simpa [covers] using hin
      simp only [hcovers, Bool.false_eq_true, if_false, Nat.add_zero]
      by_cases hlater : r.1 + r.2 ≤ i ∧ i < total
      · rw [if_pos hlater, if_pos (by omega)]
      · rw [if_neg hlater, if_neg (by omega)]

/-- Of ranges with gaps between them, at most one covers an index. -/
theorem countP_covers_le (h : Gaps.Spaced total start ranges) (i : Nat) :
    ranges.countP (covers i) ≤ if i < start then 0 else 1 := by
  induction ranges generalizing start with
  | nil => exact Nat.zero_le _
  | cons r ranges ih =>
    obtain ⟨hle, hpos, hrest⟩ := h
    have hlater := ih hrest
    rw [List.countP_cons]
    by_cases hin : r.1 ≤ i ∧ i < r.1 + r.2
    · have hcovers : covers i r = true := by simpa [covers] using hin
      rw [if_pos hin.2] at hlater
      rw [if_pos hcovers, if_neg (by omega)]
      omega
    · have hcovers : covers i r = false := by simpa [covers] using hin
      simp only [hcovers, Bool.false_eq_true, if_false, Nat.add_zero]
      refine hlater.trans ?_
      split <;> split <;> omega

theorem tiles_pieces (top offset len : Nat) :
    Tiles (offset + len) offset ((Split.pieces top offset len).map Piece.range) := by
  fun_induction Split.pieces top offset len with
  | case1 => rfl
  | case2 offset len hlen p ih =>
    have hle : p.len ≤ len := Split.carve_len_le top offset len
    rw [show offset + p.len + (len - p.len) = offset + len by omega] at ih
    exact ⟨rfl, ih⟩

theorem tiles_split (top : Nat) {left right : Nat} (hle : left ≤ right) :
    Tiles right left ((Gaps.split top (left, right)).map Piece.range) := by
  have h := tiles_pieces top left (right - left)
  rwa [Nat.add_sub_cancel' hle] at h

theorem tiles_timeline (top : Nat) (h : Gaps.Spaced total start allocations) :
    Tiles total start (timeline top total start allocations) := by
  induction allocations generalizing start with
  | nil => exact tiles_split top h
  | cons e rest ih =>
    obtain ⟨hle, _, hrest⟩ := h
    have hhere : Tiles total e.1 (e :: timeline top total (e.1 + e.2) rest) := ⟨rfl, ih hrest⟩
    exact (tiles_split top hle).append_iff.2 hhere

theorem perm_timeline (top total start : Nat) (allocations : List (Nat × Nat)) :
    (timeline top total start allocations).Perm
      ((Gaps.pieces top total start allocations).map Piece.range ++ allocations) := by
  induction allocations generalizing start with
  | nil =>
    change List.Perm _ (List.map Piece.range (Gaps.split top (start, total) ++ []) ++ [])
    rw [List.append_nil, List.append_nil]
    exact List.Perm.refl _
  | cons e rest ih =>
    change List.Perm ((Gaps.split top (start, e.1)).map Piece.range ++
      e :: timeline top total (e.1 + e.2) rest) ((Gaps.split top (start, e.1) ++
        Gaps.pieces top total (e.1 + e.2) rest).map Piece.range ++ e :: rest)
    rw [List.map_append, List.append_assoc]
    exact (((ih (e.1 + e.2)).cons e).trans List.perm_middle.symm).append_left _

theorem pos_of_mem_timeline {top : Nat} (h : Gaps.Spaced total start allocations) {r : Nat × Nat}
    (hr : r ∈ timeline top total start allocations) : 0 < r.2 := by
  rcases List.mem_append.1 ((perm_timeline top total start allocations).mem_iff.1 hr) with hr | hr
  · obtain ⟨p, hp, rfl⟩ := List.mem_map.1 hr
    exact (Gaps.fits_of_mem_pieces hp).len_pos
  · exact (h.bounds hr).2.1

end Coverage

namespace Allocator
open Coverage

variable {a : Allocator}

def cover (a : Allocator) (i : Nat) : Nat :=
  (a.freePieces.map Piece.range ++ a.allocations).countP (covers i)

theorem cover_pos_iff {i : Nat} : 0 < a.cover i ↔
    ∃ r ∈ a.freePieces.map Piece.range ++ a.allocations, r.1 ≤ i ∧ i < r.1 + r.2 := by
  rw [cover, List.countP_pos_iff]
  simp only [covers, Bool.and_eq_true, decide_eq_true_eq]

theorem perm_ranges (a : Allocator) :
    a.ranges.Perm (a.freePieces.map Piece.range ++ a.allocations) :=
  List.mergeSort_perm _ _

theorem cover_of_tiles (h : Tiles a.totalSize 0 a.ranges) (i : Nat) :
    a.cover i = if i < a.totalSize then 1 else 0 := by
  have hcount := h.countP_covers i
  rw [a.perm_ranges.countP_eq] at hcount
  simpa only [cover, Nat.zero_le, true_and] using hcount

theorem pairwise_ranges (a : Allocator) :
    a.ranges.Pairwise fun x y => x.1 < y.1 ∨ x.1 = y.1 ∧ x.2 ≤ y.2 := by
  refine (List.pairwise_mergeSort ?_ ?_ _).imp ?_
  · intro x y z
    simp only [Bool.or_eq_true, Bool.and_eq_true, decide_eq_true_eq, beq_iff_eq]
    omega
  · intro x y
    simp only [Bool.or_eq_true, Bool.and_eq_true, decide_eq_true_eq, beq_iff_eq]
    omega
  · intro x y
    simp only [Bool.or_eq_true, Bool.and_eq_true, decide_eq_true_eq, beq_iff_eq]
    exact id

theorem ranges_eq_of_spaced {ranges : List (Nat × Nat)} {total start : Nat}
    (hperm : ranges.Perm (a.freePieces.map Piece.range ++ a.allocations))
    (h : Gaps.Spaced total start ranges) : a.ranges = ranges := by
  have hsorted : ranges.Pairwise fun x y => x.1 < y.1 ∨ x.1 = y.1 ∧ x.2 ≤ y.2 := by
    apply h.pairwise.imp_of_mem
    intro x y hx _ hxy
    have := (h.bounds hx).2.1
    omega
  refine List.Perm.eq_of_pairwise ?_ a.pairwise_ranges hsorted (a.perm_ranges.trans hperm.symm)
  intro x y _ _ hxy hyx
  apply Prod.ext <;> omega

theorem Canonical.tiles_ranges (h : a.Canonical) : Tiles a.totalSize 0 a.ranges := by
  have htiles := tiles_timeline a.free.top h.spaced
  have hperm : (timeline a.free.top a.totalSize 0 a.allocations).Perm
      (a.freePieces.map Piece.range ++ a.allocations) :=
    (perm_timeline _ _ _ _).trans ((h.split.symm.map _).append_right _)
  rw [ranges_eq_of_spaced hperm (htiles.spaced fun _ hr => pos_of_mem_timeline h.spaced hr)]
  exact htiles

/-- Free pieces and allocations together are as many indices as there are. -/
theorem Canonical.total_eq (h : a.Canonical) :
    (a.freePieces.map Piece.len).sum + a.inUse.total = a.totalSize :=
  h.tiles_ranges.sum_of_perm a.perm_ranges

/-- A piece that is not wholly on one side of a gap is one of the pieces of the gap. -/
theorem Canonical.mem_split_iff_meets (h : a.Canonical) {gap : Nat × Nat}
    (hgap : gap ∈ Gaps.between a.totalSize 0 a.allocations) (p : Piece) :
    p ∈ a.freePieces ∧ ¬(p.stop ≤ gap.1 ∨ gap.2 ≤ p.offset) ↔ p ∈ Gaps.split a.free.top gap := by
  have hbounds := (Gaps.ordered_between h.spaced).2
  constructor
  · rintro ⟨hp, hmeets⟩
    obtain ⟨own, hown, hin⟩ := List.mem_flatMap.1 (h.split.mem_iff.1 hp)
    have hinside := Gaps.bounds_of_mem_split (hbounds own hown).2.1 hin
    have heq : own = gap := by
      by_contra hne
      have := Gaps.apart_of_mem_between h.spaced hown hgap hne
      omega
    exact heq ▸ hin
  · intro hin
    exact ⟨h.split.mem_iff.2 (List.mem_flatMap.2 ⟨gap, hgap, hin⟩),
      fun hout => Gaps.not_mem_split_of_outside (hbounds gap hgap).2.1 hout hin⟩

theorem Canonical.mem_split_iff (h : a.Canonical) {gap : Nat × Nat}
    (hgap : gap ∈ Gaps.between a.totalSize 0 a.allocations) (p : Piece) :
    p ∈ a.freePieces ∧ gap.1 ≤ p.offset ∧ p.stop ≤ gap.2 ↔ p ∈ Gaps.split a.free.top gap := by
  constructor
  · rintro ⟨hp, hleft, hright⟩
    -- a piece is not empty, so inside the gap it is not on one side of it
    have hpos := (h.fits hp).len_pos
    refine (h.mem_split_iff_meets hgap p).1 ⟨hp, ?_⟩
    unfold Piece.stop at hright ⊢
    omega
  · intro hin
    have hle := ((Gaps.ordered_between h.spaced).2 gap hgap).2.1
    exact ⟨((h.mem_split_iff_meets hgap p).2 hin).1, Gaps.bounds_of_mem_split hle hin⟩

theorem Canonical.exists_gap (h : a.Canonical) {p : Piece} (hp : p ∈ a.freePieces) :
    ∃ gap ∈ Gaps.between a.totalSize 0 a.allocations, gap.1 ≤ p.offset ∧ p.stop ≤ gap.2 := by
  obtain ⟨gap, hgap, hin⟩ := List.mem_flatMap.1 (h.split.mem_iff.1 hp)
  exact ⟨gap, hgap, ((h.mem_split_iff hgap p).2 hin).2⟩

end Allocator

namespace Reachable
open Allocator

/-- Whatever the history, each index is free or allocated just once, and each gap between the
allocations is split as one run. -/
theorem covered_and_split {maxSize slotCount : Nat} {a : Allocator}
    (h : Reachable maxSize slotCount a) :
    (∀ i < maxSize * slotCount, a.cover i = 1) ∧
    (∀ r ∈ a.freePieces.map Piece.range ++ a.allocations, r.1 + r.2 ≤ maxSize * slotCount) ∧
    (∀ e ∈ a.allocations, 1 ≤ e.2) ∧
    (∀ p ∈ a.freePieces, 2 ^ p.sizeClass ∣ p.offset ∧ p.len ≤ 2 ^ p.sizeClass ∧
      2 ^ p.sizeClass < 2 * p.len) ∧
    (∀ gap ∈ Gaps.between (maxSize * slotCount) 0 a.allocations, ∀ p,
      p ∈ a.freePieces ∧ gap.1 ≤ p.offset ∧ p.stop ≤ gap.2 ↔
        p ∈ Split.pieces (Bits.ceilLog2 maxSize) gap.1 (gap.2 - gap.1)) ∧
    ∀ p ∈ a.freePieces, ∃ gap ∈ Gaps.between (maxSize * slotCount) 0 a.allocations,
      gap.1 ≤ p.offset ∧ p.stop ≤ gap.2 := by
  obtain ⟨hcanonical, rfl, htotal⟩ := h.canonical
  rw [← htotal, ← hcanonical.top_eq]
  refine ⟨?_, ?_, ?_, ?_, ?_, ?_⟩
  · intro i hi
    rw [cover_of_tiles hcanonical.tiles_ranges, if_pos hi]
  · intro r hr
    rcases List.mem_append.1 hr with hr | hr
    · obtain ⟨p, hp, rfl⟩ := List.mem_map.1 hr
      exact hcanonical.stop_le hp
    · exact (hcanonical.spaced.bounds hr).2.2
  · intro e he
    exact (hcanonical.spaced.bounds he).2.1
  · intro p hp
    have hfits := hcanonical.fits hp
    exact ⟨hfits.aligned, hfits.len_le, hfits.lt_two_mul_len⟩
  · intro gap hgap p
    exact hcanonical.mem_split_iff hgap p
  · intro p hp
    exact hcanonical.exists_gap hp

theorem covered_and_split_two_runs :
    ∃ a, Reachable 4 2 a ∧ a.allocations = [(3, 2), (6, 1)] ∧ (∀ i < 8, a.cover i = 1) ∧
      ∀ p, p ∈ a.freePieces ∧ 0 ≤ p.offset ∧ p.stop ≤ 3 ↔ p ∈ Split.pieces 2 0 3 := by
  obtain ⟨a, h, hlist⟩ := two_runs
  obtain ⟨hcover, -, -, -, hsplit, -⟩ := covered_and_split h
  rw [hlist] at hsplit
  exact ⟨a, h, hlist, hcover, hsplit (0, 3) List.mem_cons_self⟩

end Reachable

end AlignedRuns
