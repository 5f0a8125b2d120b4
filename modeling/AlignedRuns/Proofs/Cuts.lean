import AlignedRuns.Split
import Mathlib.Data.List.Sort
set_option autoImplicit false

namespace AlignedRuns

theorem Piece.stop_of_full {p : Piece} {c : Nat} (h : p.len = 2 ^ c) : p.stop = p.offset + 2 ^ c :=
  congrArg (p.offset + ·) h

namespace Bits

theorem le_ceilLog2 {x k : Nat} (h : 2 ^ k ≤ x) : k ≤ ceilLog2 x :=
  (Nat.pow_le_pow_iff_right (by decide)).1 (h.trans (le_two_pow_ceilLog2 x))

theorem ceilLog2_two_pow (k : Nat) : ceilLog2 (2 ^ k) = k :=
  Nat.le_antisymm ((ceilLog2_le_iff _ _).2 (Nat.le_refl _)) (le_ceilLog2 (Nat.le_refl _))

theorem isPowerOfTwo_iff (x : Nat) : isPowerOfTwo x = true ↔ ∃ k, x = 2 ^ k := by
  have hand := Nat.and_sub_one_eq_zero_iff_isPowerOfTwo (n := x)
  simp only [isPowerOfTwo, Bool.and_eq_true, bne_iff_ne, beq_iff_eq]
  constructor
  · rintro ⟨hx, h⟩
    exact (hand hx).1 h
  · rintro ⟨k, rfl⟩
    have hx : 2 ^ k ≠ 0 := Nat.ne_of_gt (Nat.two_pow_pos k)
    exact ⟨hx, (hand hx).2 ⟨k, rfl⟩⟩

end Bits

theorem Piece.Fits.sizeClass_eq {top : Nat} {p : Piece} (h : p.Fits top) :
    p.sizeClass = Bits.ceilLog2 p.len := by
  have hle := (Bits.ceilLog2_le_iff p.len p.sizeClass).2 h.len_le
  refine Nat.le_antisymm ?_ hle
  by_contra hlt
  have hpow : 2 ^ (Bits.ceilLog2 p.len + 1) ≤ 2 ^ p.sizeClass :=
    Nat.pow_le_pow_right (by decide) (by omega)
  have := Bits.le_two_pow_ceilLog2 p.len
  have := h.lt_two_mul_len
  rw [Nat.pow_succ] at hpow
  omega

namespace Split

def alignClass (top offset : Nat) : Nat := min (Bits.trailingZeros offset) top

theorem le_alignClass_iff {top : Nat} (htop : top ≤ indexBits) (offset k : Nat) :
    k ≤ alignClass top offset ↔ k ≤ top ∧ 2 ^ k ∣ offset := by
  rw [alignClass, Nat.le_min, Bits.le_trailingZeros_iff]
  constructor
  · rintro ⟨⟨_, hd⟩, ht⟩
    exact ⟨ht, hd⟩
  · rintro ⟨ht, hd⟩
    exact ⟨⟨ht.trans htop, hd⟩, ht⟩

theorem alignClass_dvd (top offset : Nat) : 2 ^ alignClass top offset ∣ offset :=
  ((Bits.le_trailingZeros_iff _ _).1 (Nat.min_le_left _ _)).2

theorem alignClass_eq_top {top offset : Nat} (htop : top ≤ indexBits) (h : 2 ^ top ∣ offset) :
    alignClass top offset = top :=
  Nat.le_antisymm (Nat.min_le_right _ _) ((le_alignClass_iff htop offset top).2 ⟨Nat.le_refl _, h⟩)

theorem carve_of_ge {top offset len : Nat} (h : 2 ^ alignClass top offset ≤ len) :
    carve top offset len =
      ⟨alignClass top offset, offset, 2 ^ alignClass top offset⟩ := by
  have hc := Bits.le_ceilLog2 h
  have hmin : min (min (Bits.trailingZeros offset) (Bits.ceilLog2 len)) top =
      alignClass top offset := by
    unfold alignClass at hc ⊢
    omega
  simp only [carve, cut, hmin, Nat.min_eq_right h]

theorem carve_of_le {top offset len : Nat} (h : len ≤ 2 ^ alignClass top offset) :
    carve top offset len = ⟨Bits.ceilLog2 len, offset, len⟩ := by
  have hc := (Bits.ceilLog2_le_iff _ _).2 h
  have hmin : min (min (Bits.trailingZeros offset) (Bits.ceilLog2 len)) top =
      Bits.ceilLog2 len := by
    unfold alignClass at hc
    omega
  simp only [carve, cut, hmin, Nat.min_eq_left (Bits.le_two_pow_ceilLog2 len)]

theorem pieces_of_ge {top offset len : Nat} (h : 2 ^ alignClass top offset ≤ len) :
    pieces top offset len =
      ⟨alignClass top offset, offset, 2 ^ alignClass top offset⟩ ::
        pieces top (offset + 2 ^ alignClass top offset) (len - 2 ^ alignClass top offset) := by
  have hpos := Nat.two_pow_pos (alignClass top offset)
  rw [pieces_of_ne_zero top offset (by omega), carve_of_ge h]

theorem pieces_of_le {top offset len : Nat} (h0 : len ≠ 0) (h : len ≤ 2 ^ alignClass top offset) :
    pieces top offset len = [⟨Bits.ceilLog2 len, offset, len⟩] := by
  rw [pieces_of_ne_zero top offset h0, carve_of_le h, Nat.sub_self, pieces_zero]

theorem pieces_carve (top offset : Nat) {len : Nat} (h0 : len ≠ 0) :
    pieces top offset (carve top offset len).len = [carve top offset len] := by
  rcases Nat.le_total len (2 ^ alignClass top offset) with h | h
  · rw [carve_of_le h, pieces_of_le h0 h]
  · have hpos := Nat.two_pow_pos (alignClass top offset)
    rw [carve_of_ge h, pieces_of_le (Nat.ne_of_gt hpos) (Nat.le_refl _), Bits.ceilLog2_two_pow]

theorem pieces_slots {top : Nat} (htop : top ≤ indexBits) (first count : Nat) :
    pieces top (first * 2 ^ top) (count * 2 ^ top) =
      (List.range' first count).map fun slot => ⟨top, slot * 2 ^ top, 2 ^ top⟩ := by
  induction count generalizing first with
  | zero => rw [Nat.zero_mul, pieces_zero]; rfl
  | succ count ih =>
    have hc := alignClass_eq_top htop (Nat.dvd_mul_left (2 ^ top) first)
    rw [pieces_of_ge (by rw [hc, Nat.succ_mul]; exact Nat.le_add_left _ _), hc,
      show first * 2 ^ top + 2 ^ top = (first + 1) * 2 ^ top by rw [Nat.succ_mul],
      show (count + 1) * 2 ^ top - 2 ^ top = count * 2 ^ top by rw [Nat.succ_mul]; omega,
      ih, List.range'_succ, List.map_cons]

/-- The split of a run that starts shortly before a multiple of `2 ^ c` has a boundary there: no
piece that starts strictly between two such multiples reaches beyond the second. -/
theorem pieces_append_of_dvd {top c x y z : Nat} (hy : 2 ^ c ∣ y) (hxy : x ≤ y)
    (hlt : y < x + 2 ^ c) (hyz : y ≤ z) :
    pieces top x (z - x) = pieces top x (y - x) ++ pieces top y (z - y) := by
  induction hn : y - x using Nat.strong_induction_on generalizing x with
  | _ n ih =>
    subst hn
    rcases Nat.eq_or_lt_of_le hxy with rfl | hxy
    · rw [Nat.sub_self, pieces_zero, List.nil_append]
    · have hx := alignClass_dvd top x
      have hpos := Nat.two_pow_pos (alignClass top x)
      have hlow : alignClass top x ≤ c := by
        by_contra hgt
        have hcx : 2 ^ c ∣ x := Nat.dvd_trans (Nat.pow_dvd_pow 2 (by omega)) hx
        have := Nat.le_of_dvd (by omega) (Nat.dvd_sub hy hcx)
        omega
      have hstep : 2 ^ alignClass top x ≤ y - x :=
        Nat.le_of_dvd (by omega) (Nat.dvd_sub (Nat.dvd_trans (Nat.pow_dvd_pow 2 hlow) hy) hx)
      have hrest := ih (y - (x + 2 ^ alignClass top x)) (by omega)
        (x := x + 2 ^ alignClass top x) (by omega) (by omega) rfl
      rw [pieces_of_ge (show 2 ^ alignClass top x ≤ z - x by omega), pieces_of_ge hstep,
        Nat.sub_sub, Nat.sub_sub, hrest, List.cons_append]

theorem ne_zero_of_mem_pieces {top offset len : Nat} {p : Piece} (h : p ∈ pieces top offset len) :
    len ≠ 0 := by
  rintro rfl
  rw [pieces_zero] at h
  cases h

/-- A piece with indices behind it in the run is as large as its place allows. -/
theorem le_of_rest_ne_nil {top offset len : Nat}
    (h : pieces top (offset + (carve top offset len).len) (len - (carve top offset len).len) ≠ []) :
    2 ^ alignClass top offset ≤ len := by
  by_contra hshort
  rw [carve_of_le (by omega), Nat.sub_self, pieces_zero] at h
  exact h rfl

theorem pieces_suffix {top offset len : Nat} {front back : List Piece} {p : Piece}
    (h : pieces top offset len = front ++ p :: back) :
    pieces top p.offset (offset + len - p.offset) = p :: back := by
  have hmem : p ∈ pieces top offset len := by simp [h]
  have h0 := ne_zero_of_mem_pieces hmem
  induction front generalizing offset len with
  | nil =>
    have hp : carve top offset len = p := by
      rw [pieces_of_ne_zero top offset h0] at h
      exact (List.cons.inj h).1
    rw [← hp] at h ⊢
    change pieces top offset (offset + len - offset) = _
    rw [Nat.add_sub_cancel_left, h, List.nil_append]
  | cons q front ih =>
    rw [pieces_of_ne_zero top offset h0] at h
    have hle := carve_len_le top offset len
    have hrest := (List.cons.inj h).2
    have hmem : p ∈ pieces top (offset + (carve top offset len).len)
        (len - (carve top offset len).len) := by simp [hrest]
    have := ih hrest hmem (ne_zero_of_mem_pieces hmem)
    rwa [show offset + (carve top offset len).len + (len - (carve top offset len).len) =
      offset + len by omega] at this

/-- The pieces before one that is hit stay when the run is cut in it. -/
theorem pieces_cut_left {top offset len x : Nat} {front back : List Piece} {p : Piece}
    (h : pieces top offset len = front ++ p :: back) (hx : p.offset ≤ x) :
    pieces top offset (x - offset) = front ++ pieces top p.offset (x - p.offset) := by
  have hmem : p ∈ pieces top offset len := by simp [h]
  have h0 := ne_zero_of_mem_pieces hmem
  induction front generalizing offset len with
  | nil =>
    rw [pieces_of_ne_zero top offset h0] at h
    rw [← (List.cons.inj h).1]
    rfl
  | cons q front ih =>
    rw [pieces_of_ne_zero top offset h0] at h
    obtain ⟨rfl, htail⟩ := List.cons.inj h
    have hfull : 2 ^ alignClass top offset ≤ len := le_of_rest_ne_nil (by rw [htail]; simp)
    rw [carve_of_ge hfull] at htail ⊢
    have hmem : p ∈ pieces top (offset + 2 ^ alignClass top offset)
        (len - 2 ^ alignClass top offset) := by simp [htail]
    have hp := (bounds_of_mem_pieces hmem).1
    rw [pieces_of_ge (show 2 ^ alignClass top offset ≤ x - offset by omega), Nat.sub_sub,
      ih htail hmem (ne_zero_of_mem_pieces hmem)]
    rfl

theorem pieces_cut_right {top offset len x : Nat} {front back : List Piece} {p : Piece}
    (h : pieces top offset len = front ++ p :: back) (hx : p.offset ≤ x) (hstop : x ≤ p.stop) :
    pieces top x (offset + len - x) = pieces top x (p.stop - x) ++ back := by
  have hsuffix := pieces_suffix h
  have hmem : p ∈ pieces top offset len := by simp [h]
  obtain ⟨_, hend⟩ := bounds_of_mem_pieces hmem
  have hfirst : p ∈ pieces top p.offset (offset + len - p.offset) := by simp [hsuffix]
  have h0 := ne_zero_of_mem_pieces hfirst
  have hsplit := hsuffix
  rw [pieces_of_ne_zero top p.offset h0] at hsplit
  obtain ⟨hp, hback⟩ := List.cons.inj hsplit
  rcases Nat.eq_or_lt_of_le hx with rfl | hlt
  · rw [hsuffix, show p.stop - p.offset = (carve top p.offset (offset + len - p.offset)).len by
      rw [hp]; exact Nat.add_sub_cancel_left _ _, pieces_carve top p.offset h0, hp]
    rfl
  · rcases Nat.le_total (2 ^ alignClass top p.offset) (offset + len - p.offset) with hge | hle
    · -- a full piece ends at a multiple of its length
      rw [carve_of_ge hge] at hp hback
      have hfull : p.stop = p.offset + 2 ^ alignClass top p.offset :=
        Piece.stop_of_full (by rw [← hp])
      rw [← hback, ← hfull, Nat.sub_sub, ← hfull]
      exact pieces_append_of_dvd (c := alignClass top p.offset)
        (hfull ▸ Nat.dvd_add (alignClass_dvd top p.offset) (Nat.dvd_refl _)) hstop (by omega) hend
    · rw [carve_of_le hle] at hp hback
      rw [Nat.sub_self, pieces_zero] at hback
      have hlen : p.stop = p.offset + (offset + len - p.offset) := by rw [← hp]; rfl
      rw [← hback, List.append_nil, show p.stop = offset + len by omega]

theorem ordered_pieces (top offset len : Nat) :
    (pieces top offset len).Pairwise fun p q => p.stop ≤ q.offset := by
  fun_induction pieces top offset len with
  | case1 => exact .nil
  | case2 offset len h0 p ih =>
    exact List.pairwise_cons.2 ⟨fun q hq => (bounds_of_mem_pieces hq).1, ih⟩

theorem result_verified {top offset len : Nat} (htop : top < indexBits)
    (hrun : offset + len < 2 ^ indexBits) :
    (verified top offset len).outcome.result = .ok (pieces top offset len) := by
  rw [verified_eq_pure htop hrun]
  rfl

/-- A run may be cut anywhere in one of its pieces, the ends of the piece included. What is left of
the run on either side is split into the pieces that it had there and the split of its part of the
piece that is hit. -/
theorem cut_keeps_other_pieces {top offset len : Nat} (htop : top < maxClasses)
    (hrun : offset + len < 2 ^ indexBits) :
    ∃ whole, (verified top offset len).outcome.result = .ok whole ∧
      ∀ front p back x, whole = front ++ p :: back → p.offset ≤ x → x ≤ p.stop →
        (∃ last, (verified top p.offset (x - p.offset)).outcome.result = .ok last ∧
          (verified top offset (x - offset)).outcome.result = .ok (front ++ last)) ∧
        ∃ first, (verified top x (p.stop - x)).outcome.result = .ok first ∧
          (verified top x (offset + len - x)).outcome.result = .ok (first ++ back) := by
  refine ⟨_, result_verified htop hrun, ?_⟩
  intro front p back x hwhole hx hstop
  have hmem : p ∈ pieces top offset len := by simp [hwhole]
  obtain ⟨hlow, hhigh⟩ := bounds_of_mem_pieces hmem
  refine ⟨⟨_, result_verified htop (by omega), ?_⟩, ⟨_, result_verified htop (by omega), ?_⟩⟩
  · rw [← pieces_cut_left hwhole hx]
    exact result_verified htop (by omega)
  · rw [← pieces_cut_right hwhole hx hstop]
    exact result_verified htop (by omega)

theorem cut_keeps_other_pieces_inside_eight :
    (verified 3 5 14).outcome.result = .ok [⟨0, 5, 1⟩, ⟨1, 6, 2⟩, ⟨3, 8, 8⟩, ⟨2, 16, 3⟩] ∧
      (verified 3 5 6).outcome.result = .ok [⟨0, 5, 1⟩, ⟨1, 6, 2⟩, ⟨2, 8, 3⟩] ∧
      (verified 3 11 8).outcome.result = .ok [⟨0, 11, 1⟩, ⟨2, 12, 4⟩, ⟨2, 16, 3⟩] := by
  have hsplit : pieces 3 5 14 = [⟨0, 5, 1⟩, ⟨1, 6, 2⟩, ⟨3, 8, 8⟩, ⟨2, 16, 3⟩] := by decide +kernel
  have hlast : pieces 3 8 3 = [⟨2, 8, 3⟩] := by decide +kernel
  have hfirst : pieces 3 11 5 = [⟨0, 11, 1⟩, ⟨2, 12, 4⟩] := by decide +kernel
  have hpiece := result_verified (show 3 < indexBits by decide) (show 8 + 3 < _ by decide)
  have hrest := result_verified (show 3 < indexBits by decide) (show 11 + 5 < _ by decide)
  obtain ⟨whole, hwhole, hcut⟩ :=
    cut_keeps_other_pieces (show 3 < maxClasses by decide) (show 5 + 14 < _ by decide)
  cases hwhole.symm.trans (result_verified (by decide) (by decide))
  obtain ⟨⟨last, hl, hleft⟩, ⟨first, hf, hright⟩⟩ :=
    hcut [⟨0, 5, 1⟩, ⟨1, 6, 2⟩] ⟨3, 8, 8⟩ [⟨2, 16, 3⟩] 11 hsplit (by decide) (by decide)
  cases hl.symm.trans hpiece
  cases hf.symm.trans hrest
  rw [hlast] at hleft
  rw [hfirst] at hright
  exact ⟨hsplit ▸ hwhole, hleft, hright⟩

end Split

end AlignedRuns
