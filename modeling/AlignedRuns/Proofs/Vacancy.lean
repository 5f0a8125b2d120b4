import AlignedRuns.Proofs.Coverage
set_option autoImplicit false

namespace AlignedRuns

theorem Bits.add_le_of_dvd_of_lt {unit x y : Nat} (hx : unit ∣ x) (hy : unit ∣ y) (h : x < y) :
    x + unit ≤ y := by
  have := Nat.le_of_dvd (by omega) (Nat.dvd_sub hy hx)
  omega

theorem Coverage.Tiles.exists_covers {total cursor i : Nat} {ranges : List (Nat × Nat)}
    (h : Tiles total cursor ranges) (hlow : cursor ≤ i) (hhigh : i < total) :
    ∃ r ∈ ranges, r.1 ≤ i ∧ i < r.1 + r.2 := by
  have hcount := h.countP_covers i
  rw [if_pos ⟨hlow, hhigh⟩] at hcount
  obtain ⟨r, hr, hcovers⟩ := List.countP_pos_iff.1 (hcount ▸ Nat.one_pos)
  exact ⟨r, hr, by simpa [covers] using hcovers⟩

namespace Split

variable {top left right : Nat} {p q : Piece}

/-- A piece that does not end the run is as long as its place allows. -/
theorem stop_eq_or_full {offset len : Nat} (hq : q ∈ pieces top offset len) :
    q.stop = offset + len ∨
      q.sizeClass = alignClass top q.offset ∧ q.len = 2 ^ alignClass top q.offset := by
  obtain ⟨front, back, hsplit⟩ := List.append_of_mem hq
  have hsuffix := pieces_suffix hsplit
  have hrest : offset + len - q.offset ≠ 0 :=
    ne_zero_of_mem_pieces (hsuffix ▸ List.mem_cons_self)
  rw [pieces_of_ne_zero top q.offset hrest] at hsuffix
  have hcarve := (List.cons.inj hsuffix).1
  rcases Nat.le_total (2 ^ alignClass top q.offset) (offset + len - q.offset) with hfull | hlast
  · rw [carve_of_ge hfull] at hcarve
    exact .inr ⟨(congrArg Piece.sizeClass hcarve).symm, (congrArg Piece.len hcarve).symm⟩
  · rw [carve_of_le hlast] at hcarve
    have hlen := congrArg Piece.len hcarve
    simp only at hlen
    refine .inl ?_
    unfold Piece.stop
    omega

/-- A piece of any class that starts inside a piece of the split and does not leave the run does not
leave that piece. -/
theorem stop_le_of_mem_pieces (htop : top ≤ indexBits) (hle : left ≤ right)
    (hq : q ∈ pieces top left (right - left)) (fits : p.Fits top) (hfrom : q.offset ≤ p.offset)
    (hin : p.offset < q.stop) (hright : p.stop ≤ right) : p.stop ≤ q.stop := by
  rcases stop_eq_or_full hq with hlast | ⟨hclass, hfull⟩
  · omega
  · have hstop : q.stop = q.offset + 2 ^ q.sizeClass :=
      Piece.stop_of_full (by rw [hfull, hclass])
    have hqdvd : 2 ^ q.sizeClass ∣ q.offset := (fits_of_mem_pieces hq).aligned
    have hend : p.stop ≤ p.offset + 2 ^ p.sizeClass := Nat.add_le_add_left fits.len_le _
    rcases Nat.lt_or_ge q.sizeClass p.sizeClass with hgt | hle
    · -- a larger class has fewer places, and the only one of them in this piece is its start
      have hpdvd := Nat.dvd_trans (Nat.pow_dvd_pow 2 (Nat.le_of_lt hgt)) fits.aligned
      rcases Nat.eq_or_lt_of_le hfrom with heq | hlt
      · have := (le_alignClass_iff htop p.offset p.sizeClass).2 ⟨fits.class_le, fits.aligned⟩
        rw [← heq] at this
        omega
      · have := Bits.add_le_of_dvd_of_lt hqdvd hpdvd hlt
        omega
    · have hdvd : 2 ^ p.sizeClass ∣ q.stop := by
        rw [hstop]
        exact Nat.dvd_trans (Nat.pow_dvd_pow 2 hle) (Nat.dvd_add hqdvd (Nat.dvd_refl _))
      have := Bits.add_le_of_dvd_of_lt fits.aligned hdvd hin
      omega

theorem exists_containing (htop : top ≤ indexBits) (fits : p.Fits top) (hleft : left ≤ p.offset)
    (hright : p.stop ≤ right) :
    ∃ q ∈ pieces top left (right - left), q.offset ≤ p.offset ∧ p.stop ≤ q.stop := by
  have hpos := fits.len_pos
  unfold Piece.stop at hright
  have hle : left ≤ right := by omega
  obtain ⟨r, hr, hfrom, hin⟩ := (Coverage.tiles_split top hle).exists_covers hleft
    (show p.offset < right by omega)
  obtain ⟨q, hq, rfl⟩ := List.mem_map.1 hr
  exact ⟨q, hq, hfrom, stop_le_of_mem_pieces htop hle hq fits hfrom hin hright⟩

end Split

namespace Allocator
open Coverage

variable {a : Allocator} {offset size i : Nat} {p q : Piece}

def Taken (a : Allocator) (i : Nat) : Prop := ∃ e ∈ a.allocations, e.1 ≤ i ∧ i < e.1 + e.2

instance (a : Allocator) (i : Nat) : Decidable (a.Taken i) :=
  inferInstanceAs (Decidable (∃ e ∈ a.allocations, _))

/-- The range lies in the index space, and no allocation contains an index of it. -/
def Unused (a : Allocator) (offset size : Nat) : Prop :=
  offset + size ≤ a.totalSize ∧ ∀ i, offset ≤ i → i < offset + size → ¬a.Taken i

instance (a : Allocator) (offset size : Nat) : Decidable (a.Unused offset size) :=
  inferInstanceAs (Decidable (_ ∧ _))

theorem taken_of_get? (hget : a.inUse.get? offset = some size) (hlow : offset ≤ i)
    (hhigh : i < offset + size) : a.Taken i :=
  ⟨(offset, size), IndexMap.mem_toList_iff.2 hget, hlow, hhigh⟩

theorem taken_insert_iff (hfree : a.inUse.get? offset = none) :
    (a.withAllocations (a.inUse.insert offset size)).Taken i ↔
      a.Taken i ∨ offset ≤ i ∧ i < offset + size := by
  have hperm := IndexMap.perm_toList_insert hfree size
  unfold Taken allocations
  simp only [withAllocations_inUse, hperm.mem_iff, List.exists_mem_cons_iff, or_comm]

theorem Canonical.get?_of_not_taken (h : a.Canonical) (hfree : ¬a.Taken offset) :
    a.inUse.get? offset = none := by
  cases hget : a.inUse.get? offset with
  | none => rfl
  | some size =>
    have hpos := (h.bounds_of_get?_some hget).2.1
    exact absurd (taken_of_get? hget (Nat.le_refl _) (by omega)) hfree

theorem Canonical.vacant_iff (h : a.Canonical) (hsize : 0 < size) :
    a.Vacant offset size ↔ a.Unused offset size := by
  constructor
  · intro hv
    refine ⟨hv.right.trans (h.gapRight_le offset), ?_⟩
    rintro i hlow hhigh ⟨⟨start, len⟩, he, hfrom, hin⟩
    have hspaced := h.spaced_insert hv hsize
    have hget := IndexMap.mem_toList_iff.1 he
    have hne : offset ≠ start := by
      rintro rfl
      cases hv.free.symm.trans hget
    have hold : (start, len) ∈ (a.inUse.insert offset size).toList := by
      rw [IndexMap.mem_toList_iff, IndexMap.get?_insert, if_neg hne, hget]
    have hnew : (offset, size) ∈ (a.inUse.insert offset size).toList := by
      rw [IndexMap.mem_toList_iff, IndexMap.get?_insert, if_pos rfl]
    rcases Nat.lt_or_gt_of_ne hne with hlt | hgt
    · have := hspaced.apart hnew hold hlt
      simp only at this
      omega
    · have := hspaced.apart hold hnew hgt
      simp only at this
      omega
  · rintro ⟨htotal, hfree⟩
    refine ⟨h.get?_of_not_taken (hfree offset (Nat.le_refl _) (by omega)), ?_, ?_⟩
    · refine Gaps.lastStop_le (Nat.zero_le _) fun e he => ?_
      obtain ⟨hget, hlt⟩ := IndexMap.mem_below_iff.1 he
      by_contra hover
      exact hfree offset (by omega) (by omega) (taken_of_get? hget (by omega) (by omega))
    · refine Gaps.le_firstStart htotal fun e he => ?_
      obtain ⟨hget, hlt⟩ := IndexMap.mem_above_iff.1 he
      have hpos := (h.bounds_of_get?_some hget).2.1
      by_contra hover
      exact hfree e.1 (by omega) (by omega) (taken_of_get? hget (by omega) (by omega))

theorem Canonical.mem_free_iff (h : a.Canonical) (i : Nat) :
    (∃ p ∈ a.freePieces, p.offset ≤ i ∧ i < p.stop) ↔ i < a.totalSize ∧ ¬a.Taken i := by
  have hpieces : (∃ p ∈ a.freePieces, p.offset ≤ i ∧ i < p.stop) ↔
      0 < (a.freePieces.map Piece.range).countP (covers i) := by
    rw [List.countP_pos_iff]
    simp [covers, Piece.range, Piece.stop]
  have htaken : a.Taken i ↔ 0 < a.allocations.countP (covers i) := by
    rw [List.countP_pos_iff]
    simp [covers, Taken]
  have hcover := cover_of_tiles h.tiles_ranges i
  rw [cover, List.countP_append] at hcover
  rw [hpieces, htaken]
  split at hcover <;> omega

theorem Canonical.apart (h : a.Canonical) (hp : p ∈ a.freePieces) (hq : q ∈ a.freePieces)
    (hne : p ≠ q) : p.stop ≤ q.offset ∨ q.stop ≤ p.offset := by
  have hsymm : Std.Symm fun x y : Piece => x.stop ≤ y.offset ∨ y.stop ≤ x.offset :=
    ⟨fun _ _ => Or.symm⟩
  have hpair := (Gaps.ordered_pieces a.free.top h.spaced).imp
    (S := fun x y : Piece => x.stop ≤ y.offset ∨ y.stop ≤ x.offset) Or.inl
  exact hpair.forall (h.split.mem_iff.1 hp) (h.split.mem_iff.1 hq) hne

theorem Canonical.eq_of_mem_both (h : a.Canonical) (hp : p ∈ a.freePieces) (hq : q ∈ a.freePieces)
    (hfromp : p.offset ≤ i) (hinp : i < p.stop) (hfromq : q.offset ≤ i) (hinq : i < q.stop) :
    p = q := by
  by_contra hne
  have := h.apart hp hq hne
  omega

/-- Any piece of a size class on unused indices lies in one free piece. -/
theorem Canonical.exists_containing (h : a.Canonical) (fits : p.Fits a.free.top)
    (hunused : a.Unused p.offset p.len) :
    ∃ q ∈ a.freePieces, q.offset ≤ p.offset ∧ p.stop ≤ q.stop := by
  have hv := (h.vacant_iff fits.len_pos).2 hunused
  obtain ⟨q, hq, hcontains⟩ :=
    Split.exists_containing (Nat.le_of_lt h.top_lt) fits hv.left hv.right
  exact ⟨q, (h.perm_of_get?_none hv.free).mem_iff.2 (List.mem_append_left _ hq), hcontains⟩

end Allocator

end AlignedRuns
