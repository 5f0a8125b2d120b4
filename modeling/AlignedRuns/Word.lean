import AlignedRuns.Traced
set_option autoImplicit false

namespace AlignedRuns.Word

def add (width a b : Nat) : Traced Nat :=
  if a + b < 2 ^ width then pure (a + b) else Traced.fault (.overflow .add)

def sub (a b : Nat) : Traced Nat :=
  if b ≤ a then pure (a - b) else Traced.fault (.overflow .subtract)

def mul (width a b : Nat) : Traced Nat :=
  if a * b < 2 ^ width then pure (a * b) else Traced.fault (.overflow .multiply)

def bit (width k : Nat) : Traced Nat :=
  if k < width then pure (2 ^ k) else Traced.fault (.overflow .shiftLeft)

/-- The difference, with the proof that it is one: a loop that ends when nothing is left over gets
smaller by it. -/
def subtract (a b : Nat) : Traced { rest : Nat // rest + b = a } :=
  if h : b ≤ a then pure ⟨a - b, Nat.sub_add_cancel h⟩
  else Traced.fault (.overflow .subtract)

def floorLog2 (x : Nat) : Traced Nat := do
  Traced.require (x ≠ 0) .notZero
  let width ← sub indexBits (Bits.leadingZeros x)
  sub width 1

def ceilLog2 (x : Nat) : Traced Nat :=
  if x ≤ 1 then return 0
  else do
    let below ← sub x 1
    let exponent ← floorLog2 below
    add indexBits exponent 1

def isPowerOfTwo (x : Nat) : Traced Bool :=
  if x = 0 then return false
  else do
    let below ← sub x 1
    return x &&& below == 0

def alignDown (x unit : Nat) : Traced Nat := do
  let power ← isPowerOfTwo unit
  Traced.require (power = true) .powerOfTwo
  let mask ← sub unit 1
  return x - (x &&& mask)

variable {width a b k : Nat}

theorem add_of_lt (h : a + b < 2 ^ width) : add width a b = pure (a + b) := if_pos h

theorem sub_of_le (h : b ≤ a) : sub a b = pure (a - b) := if_pos h

theorem mul_of_lt (h : a * b < 2 ^ width) : mul width a b = pure (a * b) := if_pos h

theorem bit_of_lt (h : k < width) : bit width k = pure (2 ^ k) := if_pos h

theorem subtract_of_le (h : b ≤ a) : subtract a b = pure ⟨a - b, Nat.sub_add_cancel h⟩ := dif_pos h

theorem floorLog2_eq {x : Nat} (h : x ≠ 0) (hword : x < 2 ^ indexBits) :
    floorLog2 x = pure (Bits.floorLog2 x) := by
  have hbits := Bits.leadingZeros_add_floorLog2 h hword
  have hlog : indexBits - Bits.leadingZeros x - 1 = Bits.floorLog2 x := by omega
  rw [floorLog2, Traced.require_of h, pure_bind, sub_of_le (by omega), pure_bind,
    sub_of_le (by omega), hlog]

theorem ceilLog2_eq {x : Nat} (hword : x < 2 ^ indexBits) :
    ceilLog2 x = pure (Bits.ceilLog2 x) := by
  unfold ceilLog2 Bits.ceilLog2
  split
  · rfl
  · have hlog : Bits.floorLog2 (x - 1) < indexBits := by
      have := Bits.leadingZeros_add_floorLog2 (x := x - 1) (by omega) (by omega)
      omega
    rw [sub_of_le (by omega), pure_bind, floorLog2_eq (by omega) (by omega), pure_bind,
      add_of_lt (Nat.lt_of_le_of_lt hlog (by decide))]

theorem isPowerOfTwo_eq (x : Nat) : isPowerOfTwo x = pure (Bits.isPowerOfTwo x) := by
  unfold isPowerOfTwo Bits.isPowerOfTwo
  by_cases h : x = 0
  · rw [if_pos h, h]
    rfl
  · rw [if_neg h, sub_of_le (Nat.pos_of_ne_zero h), pure_bind, bne_iff_ne.2 h, Bool.true_and]

theorem alignDown_two_pow (x k : Nat) :
    alignDown x (2 ^ k) = pure (Bits.alignDown x (2 ^ k)) := by
  rw [alignDown, isPowerOfTwo_eq, pure_bind, Traced.require_of (Bits.isPowerOfTwo_two_pow k),
    pure_bind, sub_of_le (Nat.two_pow_pos k), pure_bind, Bits.alignDown]

end AlignedRuns.Word
