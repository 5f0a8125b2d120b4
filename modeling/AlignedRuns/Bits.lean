set_option autoImplicit false

namespace AlignedRuns

-- a power of numbers is the one that runs, also where an import brings in other powers
@[default_instance 2000]
scoped instance (priority := high) powerOfNat : HPow Nat Nat Nat :=
  @instHPow Nat Nat (@instPowNat Nat instNatPowNat)

/-- Indices, sizes and counts are words of this many bits. -/
def indexBits : Nat := 32

def wideBits : Nat := 64

def maxClasses : Nat := indexBits

def maxBaseSize : Nat := 2 ^ (maxClasses - 1)

namespace Bits

def floorLog2 (x : Nat) : Nat := Nat.log2 x

def leadingZerosIn : (width : Nat) → (x : Nat) → Nat
  | 0, _ => 0
  | width + 1, x => if x.testBit width then 0 else leadingZerosIn width x + 1

def leadingZeros (x : Nat) : Nat := leadingZerosIn indexBits x

def trailingZerosIn : (width : Nat) → (x : Nat) → Nat
  | 0, _ => 0
  | width + 1, x => if x % 2 = 1 then 0 else trailingZerosIn width (x / 2) + 1

/-- Zero has all its bits clear, so it counts as aligned to every size class. -/
def trailingZeros (x : Nat) : Nat := trailingZerosIn indexBits x

def ceilLog2 (x : Nat) : Nat := if x ≤ 1 then 0 else floorLog2 (x - 1) + 1

def isPowerOfTwo (x : Nat) : Bool := x != 0 && x &&& (x - 1) == 0

def alignDown (x unit : Nat) : Nat := x - (x &&& (unit - 1))

theorem floorLog2_eq_iff {x k : Nat} (h : x ≠ 0) :
    floorLog2 x = k ↔ 2 ^ k ≤ x ∧ x < 2 ^ (k + 1) := Nat.log2_eq_iff h

/-- The clear bits above the highest set one, that one and those below it make up the word. -/
theorem leadingZerosIn_add_floorLog2 {width x : Nat} (h : x ≠ 0) (hword : x < 2 ^ width) :
    leadingZerosIn width x + floorLog2 x + 1 = width := by
  induction width with
  | zero => exact absurd (Nat.lt_one_iff.1 hword) h
  | succ width ih =>
    unfold leadingZerosIn
    split
    · rename_i hset
      have hlog := (floorLog2_eq_iff h).2 ⟨Nat.ge_two_pow_of_testBit hset, hword⟩
      omega
    · rename_i hclear
      have hsmall : x < 2 ^ width := by
        refine Nat.lt_pow_two_of_testBit x fun i hi => ?_
        rcases Nat.eq_or_lt_of_le hi with rfl | hlt
        · simpa using hclear
        · have hbound := Nat.pow_le_pow_right (n := 2) (by decide) hlt
          exact Nat.testBit_lt_two_pow (Nat.lt_of_lt_of_le hword hbound)
      have := ih hsmall
      omega

theorem leadingZeros_add_floorLog2 {x : Nat} (h : x ≠ 0) (hword : x < 2 ^ indexBits) :
    leadingZeros x + floorLog2 x + 1 = indexBits := leadingZerosIn_add_floorLog2 h hword

theorem ceilLog2_le_iff (x k : Nat) : ceilLog2 x ≤ k ↔ x ≤ 2 ^ k := by
  have pos : 0 < 2 ^ k := Nat.two_pow_pos k
  unfold ceilLog2
  split
  · omega
  · have := Nat.log2_lt (n := x - 1) (k := k) (by omega)
    unfold floorLog2
    omega

theorem le_two_pow_ceilLog2 (x : Nat) : x ≤ 2 ^ ceilLog2 x :=
  (ceilLog2_le_iff x _).1 (Nat.le_refl _)

theorem dvd_iff_le_trailingZerosIn (width x k : Nat) :
    k ≤ trailingZerosIn width x ↔ k ≤ width ∧ 2 ^ k ∣ x := by
  induction width generalizing x k with
  | zero =>
    unfold trailingZerosIn
    constructor
    · intro h
      simp [Nat.le_zero.1 h]
    · exact fun h => h.1
  | succ width ih =>
    cases k with
    | zero => simp
    | succ k =>
      unfold trailingZerosIn
      by_cases odd : x % 2 = 1
      · simp only [odd, if_true]
        constructor
        · intro h; omega
        · intro ⟨_, h⟩
          have : 2 ∣ x := Nat.dvd_trans ⟨2 ^ k, by rw [Nat.pow_succ, Nat.mul_comm]⟩ h
          omega
      · have half : x = x / 2 * 2 := by omega
        simp only [odd, if_false, Nat.succ_le_succ_iff, ih]
        rw [Nat.pow_succ]
        constructor
        · intro ⟨hk, h⟩
          exact ⟨hk, by rw [half]; exact Nat.mul_dvd_mul_right h 2⟩
        · intro ⟨hk, h⟩
          refine ⟨hk, ?_⟩
          rw [half] at h
          exact Nat.dvd_of_mul_dvd_mul_right (by decide) h

theorem le_trailingZeros_iff (x k : Nat) : k ≤ trailingZeros x ↔ k ≤ indexBits ∧ 2 ^ k ∣ x :=
  dvd_iff_le_trailingZerosIn indexBits x k

theorem isPowerOfTwo_two_pow (k : Nat) : isPowerOfTwo (2 ^ k) = true := by
  simp [isPowerOfTwo, Nat.and_two_pow_sub_one_eq_mod]

theorem alignDown_two_pow (x k : Nat) : alignDown x (2 ^ k) = x / 2 ^ k * 2 ^ k := by
  have := Nat.div_add_mod x (2 ^ k)
  unfold alignDown
  rw [Nat.and_two_pow_sub_one_eq_mod, Nat.mul_comm (x / 2 ^ k)]
  omega

theorem two_pow_dvd_alignDown (x k : Nat) : 2 ^ k ∣ alignDown x (2 ^ k) :=
  alignDown_two_pow x k ▸ Nat.dvd_mul_left _ _

theorem alignDown_le (x unit : Nat) : alignDown x unit ≤ x := Nat.sub_le _ _

theorem le_alignDown {x y k : Nat} (hdvd : 2 ^ k ∣ y) (hle : y ≤ x) : y ≤ alignDown x (2 ^ k) := by
  obtain ⟨units, rfl⟩ := hdvd
  rw [alignDown_two_pow, Nat.mul_comm]
  refine Nat.mul_le_mul_right _ ((Nat.le_div_iff_mul_le (Nat.two_pow_pos k)).2 ?_)
  rwa [Nat.mul_comm]

end Bits

end AlignedRuns
