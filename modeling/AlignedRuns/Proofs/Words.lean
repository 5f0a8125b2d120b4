import AlignedRuns.Proofs.Cuts
import Mathlib.Order.Bounds.Basic
set_option autoImplicit false

namespace AlignedRuns.Bits

theorem isGreatest_alignDown (x k : Nat) :
    IsGreatest {y | 2 ^ k ∣ y ∧ y ≤ x} (alignDown x (2 ^ k)) :=
  ⟨⟨two_pow_dvd_alignDown x k, alignDown_le x _⟩, fun _ h => le_alignDown h.1 h.2⟩

theorem ceilLog2_eq_indexBits {x : Nat} (hlarge : maxBaseSize < x) (hword : x < 2 ^ indexBits) :
    ceilLog2 x = indexBits := by
  refine Nat.le_antisymm ((ceilLog2_le_iff x _).2 hword.le) ?_
  by_contra hlt
  have hsmall := (ceilLog2_le_iff x (maxClasses - 1)).1 (Nat.le_sub_one_of_lt (Nat.not_le.1 hlt))
  exact Nat.not_lt.2 hsmall hlarge

theorem two_pow_dvd_iff_testBit {x k : Nat} : 2 ^ k ∣ x ↔ ∀ i < k, x.testBit i = false := by
  constructor
  · rintro ⟨q, rfl⟩ i hi
    rw [Nat.testBit_two_pow_mul, decide_eq_false (Nat.not_le.2 hi), Bool.false_and]
  · intro h
    refine Nat.dvd_of_mod_eq_zero (Nat.eq_of_testBit_eq fun i => ?_)
    rw [Nat.testBit_mod_two_pow, Nat.zero_testBit, Bool.and_eq_false_imp]
    exact fun hi => h i (of_decide_eq_true hi)

section Words
variable {w : Nat} {x unit : BitVec w}

theorem toNat_width (w : Nat) : (w : BitVec w).toNat = w := Nat.mod_eq_of_lt Nat.lt_two_pow_self

theorem toNat_clz_zero (w : Nat) : (0#w).clz.toNat = w := by
  rw [BitVec.clz_eq_iff_eq_zero.2 rfl, toNat_width]

theorem toNat_clz_lt (h : x ≠ 0#w) : x.clz.toNat < w := by
  have hlt := BitVec.lt_def.1 (BitVec.clz_lt_iff_ne_zero.2 h)
  rwa [toNat_width] at hlt

theorem toNat_ctz_le (x : BitVec w) : x.ctz.toNat ≤ w := by
  have hle := BitVec.le_def.1 (BitVec.clz_le (x := x.reverse))
  rwa [toNat_width, ← BitVec.ctz_eq_reverse_clz] at hle

theorem toNat_ctz_lt_iff : x.ctz.toNat < w ↔ x ≠ 0#w := by
  have hlt := BitVec.ctz_lt_iff_ne_zero (x := x)
  rwa [BitVec.lt_def, toNat_width] at hlt

theorem toNat_ne_zero (h : x ≠ 0#w) : x.toNat ≠ 0 :=
  fun hzero => h (BitVec.eq_of_toNat_eq (hzero.trans BitVec.toNat_zero.symm))

theorem toNat_sub_one (h : x ≠ 0#w) : (x - 1#w).toNat = x.toNat - 1 := by
  have hone : (1#w).toNat = 1 := BitVec.toNat_one (Nat.zero_lt_of_lt (toNat_clz_lt h))
  have hle : 1#w ≤ x := by
    rw [BitVec.le_def, hone]
    exact Nat.pos_of_ne_zero (toNat_ne_zero h)
  rw [BitVec.toNat_sub_of_le hle, hone]

/-- The clear bits above the highest set one, that one and those below it make up the word. -/
theorem clz_add_floorLog2 (h : x ≠ 0#w) : x.clz.toNat + floorLog2 x.toNat + 1 = w := by
  have hlt := toNat_clz_lt h
  have hlog : floorLog2 x.toNat = w - 1 - x.clz.toNat := by
    refine (floorLog2_eq_iff (toNat_ne_zero h)).2 ⟨?_, ?_⟩
    · exact BitVec.two_pow_sub_clz_le_toNat_of_ne_zero (by omega) h
    · rw [show w - 1 - x.clz.toNat + 1 = w - x.clz.toNat by omega]
      exact BitVec.toNat_lt_two_pow_sub_clz
  omega

theorem leadingZerosIn_zero (width : Nat) : leadingZerosIn width 0 = width := by
  induction width with
  | zero => rfl
  | succ width ih => simp [leadingZerosIn, ih]

theorem leadingZerosIn_toNat (x : BitVec w) : leadingZerosIn w x.toNat = x.clz.toNat := by
  by_cases h : x = 0#w
  · rw [h, BitVec.toNat_zero, leadingZerosIn_zero, toNat_clz_zero]
  · have hclz := clz_add_floorLog2 h
    have := leadingZerosIn_add_floorLog2 (toNat_ne_zero h) x.isLt
    omega

theorem clz_sub_one_add_ceilLog2 (h : x ≠ 0#w) : (x - 1#w).clz.toNat + ceilLog2 x.toNat = w := by
  have hbelow := toNat_sub_one h
  have hpos := toNat_ne_zero h
  by_cases hone : x.toNat ≤ 1
  · have hzero : x - 1#w = 0#w := by
      refine BitVec.eq_of_toNat_eq ?_
      rw [hbelow, BitVec.toNat_zero]
      omega
    rw [hzero, toNat_clz_zero, ceilLog2, if_pos hone, Nat.add_zero]
  · have hne : x - 1#w ≠ 0#w := by
      intro hzero
      rw [hzero, BitVec.toNat_zero] at hbelow
      omega
    rw [ceilLog2, if_neg hone, ← hbelow]
    exact clz_add_floorLog2 hne

theorem trailingZerosIn_toNat (x : BitVec w) : trailingZerosIn w x.toNat = x.ctz.toNat := by
  obtain ⟨hle, hdvd⟩ := (dvd_iff_le_trailingZerosIn w x.toNat _).1 (Nat.le_refl _)
  refine Nat.le_antisymm ?_ ((dvd_iff_le_trailingZerosIn w _ _).2 ⟨toNat_ctz_le x, ?_⟩)
  · -- the bit where the clear ones end is set, and divisibility would clear it
    by_contra hlt
    have hwidth : x.ctz.toNat < w := by omega
    have hset := BitVec.getLsbD_true_ctz_of_ne_zero (toNat_ctz_lt_iff.1 hwidth)
    have hclear := two_pow_dvd_iff_testBit.1 hdvd x.ctz.toNat (by omega)
    exact Bool.false_ne_true (hclear.symm.trans hset)
  · exact two_pow_dvd_iff_testBit.2 fun i => BitVec.getLsbD_false_of_lt_ctz

theorem isPowerOfTwo_toNat (x : BitVec w) :
    isPowerOfTwo x.toNat = (x != 0#w && x &&& (x - 1#w) == 0#w) := by
  by_cases h : x = 0#w
  · rw [h, BitVec.toNat_zero]
    simp [isPowerOfTwo]
  · have hand : (x &&& (x - 1#w)).toNat = x.toNat &&& (x.toNat - 1) := by
      rw [BitVec.toNat_and, toNat_sub_one h]
    rw [isPowerOfTwo, ← hand, Bool.eq_iff_iff]
    simp [← BitVec.toNat_inj]

/-- Masking with a complement takes away the bits of the mask. -/
theorem toNat_and_not (x mask : BitVec w) :
    (x &&& ~~~mask).toNat = x.toNat - (x.toNat &&& mask.toNat) := by
  have hapart : (x &&& mask) &&& (x &&& ~~~mask) = 0#w := by
    calc (x &&& mask) &&& (x &&& ~~~mask) = (x &&& x) &&& (mask &&& ~~~mask) := by ac_rfl
      _ = 0#w := by rw [BitVec.and_not_self]; exact BitVec.and_zero
  have hsum : (x &&& mask) + (x &&& ~~~mask) = x := by
    rw [BitVec.add_eq_or_of_and_eq_zero _ _ hapart, ← BitVec.and_or_distrib_left,
      BitVec.or_not_self, BitVec.and_allOnes]
  have hrest : x &&& ~~~mask = x - (x &&& mask) :=
    BitVec.eq_sub_iff_add_eq.2 ((BitVec.add_comm _ _).trans hsum)
  have hle : (x &&& mask).toNat ≤ x.toNat := BitVec.toNat_and x mask ▸ Nat.and_le_left
  rw [hrest, BitVec.toNat_sub_of_le (BitVec.le_def.2 hle), BitVec.toNat_and]

theorem alignDown_toNat (h : unit ≠ 0#w) :
    alignDown x.toNat unit.toNat = (x &&& ~~~(unit - 1#w)).toNat := by
  rw [toNat_and_not, toNat_sub_one h, alignDown]

end Words

/-- On every word the operations on its bits compute the bit arithmetic, and each result is the one
that powers of two define. The checks on the way hold: the logarithm is taken of no zero, and no
difference is below zero. -/
theorem bits_agree_with_powers (x : BitVec indexBits) :
    (leadingZeros x.toNat = x.clz.toNat ∧
      (x ≠ 0 → Word.floorLog2 x.toNat = pure (floorLog2 x.toNat)) ∧
      Word.ceilLog2 x.toNat = pure (ceilLog2 x.toNat) ∧
      Word.isPowerOfTwo x.toNat = pure (isPowerOfTwo x.toNat) ∧
      ∀ unit : BitVec indexBits, (∃ j, unit.toNat = 2 ^ j) →
        Word.alignDown x.toNat unit.toNat = pure (alignDown x.toNat unit.toNat)) ∧
    (x ≠ 0 → x.clz.toNat + floorLog2 x.toNat + 1 = indexBits ∧
      2 ^ floorLog2 x.toNat ≤ x.toNat ∧ x.toNat < 2 ^ (floorLog2 x.toNat + 1)) ∧
    (x ≠ 0 → (x - 1).clz.toNat + ceilLog2 x.toNat = indexBits) ∧
    ceilLog2 0 = 0 ∧ (maxBaseSize < x.toNat → ceilLog2 x.toNat = indexBits) ∧
    trailingZeros x.toNat = x.ctz.toNat ∧ trailingZeros x.toNat ≤ indexBits ∧
    (∀ k ≤ indexBits, (ceilLog2 x.toNat ≤ k ↔ x.toNat ≤ 2 ^ k) ∧
      (k ≤ trailingZeros x.toNat ↔ 2 ^ k ∣ x.toNat)) ∧
    isPowerOfTwo x.toNat = (x != 0 && x &&& (x - 1) == 0) ∧
    (isPowerOfTwo x.toNat = true ↔ ∃ j, x.toNat = 2 ^ j) ∧
    ∀ unit : BitVec indexBits, (∃ j, unit.toNat = 2 ^ j) →
      alignDown x.toNat unit.toNat = (x &&& ~~~(unit - 1)).toNat ∧
      IsGreatest {y | unit.toNat ∣ y ∧ y ≤ x.toNat} (alignDown x.toNat unit.toNat) := by
  refine ⟨⟨leadingZerosIn_toNat x, fun h => Word.floorLog2_eq (toNat_ne_zero h) x.isLt,
    Word.ceilLog2_eq x.isLt, Word.isPowerOfTwo_eq _, ?_⟩,
    fun h => ⟨clz_add_floorLog2 h, (floorLog2_eq_iff (toNat_ne_zero h)).1 rfl⟩,
    clz_sub_one_add_ceilLog2, rfl, fun hlarge => ceilLog2_eq_indexBits hlarge x.isLt,
    trailingZerosIn_toNat x, ((le_trailingZeros_iff _ _).1 (Nat.le_refl _)).1, ?_,
    isPowerOfTwo_toNat x, isPowerOfTwo_iff x.toNat, ?_⟩
  · rintro unit ⟨j, hj⟩
    rw [hj]
    exact Word.alignDown_two_pow _ j
  · intro k hk
    exact ⟨ceilLog2_le_iff _ k, (le_trailingZeros_iff _ k).trans (and_iff_right hk)⟩
  · rintro unit ⟨j, hj⟩
    have hunit : unit ≠ 0 := by
      rintro rfl
      exact absurd hj (Nat.two_pow_pos j).ne
    refine ⟨alignDown_toNat hunit, ?_⟩
    rw [hj]
    exact isGreatest_alignDown _ j

/-- A word above the largest size of a run, whose logarithm is that of no class. -/
theorem bits_agree_with_powers_above_maxBaseSize :
    ∃ x unit : BitVec indexBits, x ≠ 0 ∧ maxBaseSize < x.toNat ∧ 20 ≤ indexBits ∧
      unit.toNat = 2 ^ 21 ∧ floorLog2 x.toNat = 31 ∧ ceilLog2 x.toNat = 32 ∧
      20 ≤ trailingZeros x.toNat ∧ isPowerOfTwo x.toNat = false ∧
      alignDown x.toNat unit.toNat = 2 ^ 31 ∧ Word.floorLog2 x.toNat = pure 31 ∧
      Word.ceilLog2 x.toNat = pure 32 ∧ Word.alignDown x.toNat unit.toNat = pure (2 ^ 31) := by
  let x : BitVec indexBits := BitVec.ofNat indexBits (2 ^ 31 + 2 ^ 20)
  let unit : BitVec indexBits := BitVec.ofNat indexBits (2 ^ 21)
  obtain ⟨hchecked, hfloor, -, -, hceil, -, -, hpowers, hpower, -, halign⟩ :=
    bits_agree_with_powers x
  obtain ⟨-, hfloors, hceils, -, haligns⟩ := hchecked
  have hx : x ≠ 0 := by decide
  have hlarge : maxBaseSize < x.toNat := by decide
  have hclz : x.clz.toNat = 0 := by decide
  have hlog : floorLog2 x.toNat = 31 := by
    have hbits := (hfloor hx).1
    rw [hclz] at hbits
    exact Nat.succ.inj ((Nat.zero_add _).symm.trans hbits)
  have hplace : alignDown x.toNat unit.toNat = 2 ^ 31 := (halign unit ⟨21, rfl⟩).1.trans (by decide)
  have hclass : ceilLog2 x.toNat = 32 := hceil hlarge
  refine ⟨x, unit, hx, hlarge, by decide, rfl, hlog, hclass,
    (hpowers 20 (by decide)).2.2 (by decide), hpower.trans (by decide), hplace, ?_, ?_, ?_⟩
  · rw [hfloors hx, hlog]
  · rw [hceils, hclass]
  · rw [haligns unit ⟨21, rfl⟩, hplace]

end AlignedRuns.Bits
