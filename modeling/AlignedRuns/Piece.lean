import AlignedRuns.Bits
set_option autoImplicit false

namespace AlignedRuns

structure Piece where
  sizeClass : Nat
  offset : Nat
  len : Nat
deriving DecidableEq, Repr

namespace Piece

def stop (p : Piece) : Nat := p.offset + p.len

/-- The piece belongs to its size class, and the class is not above `top`. -/
structure Fits (top : Nat) (p : Piece) : Prop where
  class_le : p.sizeClass ≤ top
  aligned : 2 ^ p.sizeClass ∣ p.offset
  len_le : p.len ≤ 2 ^ p.sizeClass
  lt_two_mul_len : 2 ^ p.sizeClass < 2 * p.len

theorem fits_iff (top : Nat) (p : Piece) :
    p.Fits top ↔ p.sizeClass ≤ top ∧ 2 ^ p.sizeClass ∣ p.offset ∧ p.len ≤ 2 ^ p.sizeClass ∧
      2 ^ p.sizeClass < 2 * p.len :=
  ⟨fun h => ⟨h.1, h.2, h.3, h.4⟩, fun h => ⟨h.1, h.2.1, h.2.2.1, h.2.2.2⟩⟩

instance (top : Nat) (p : Piece) : Decidable (p.Fits top) :=
  decidable_of_iff _ (fits_iff top p).symm

theorem Fits.len_pos {top : Nat} {p : Piece} (h : p.Fits top) : 0 < p.len := by
  have := h.lt_two_mul_len
  have := Nat.two_pow_pos p.sizeClass
  omega

end Piece

end AlignedRuns
