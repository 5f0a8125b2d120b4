import AlignedRuns.Bits
import AlignedRuns.Word
set_option autoImplicit false

/-!
# Splitting a run

The split of a free run into pieces. Each step carves the largest piece that the run's start is
aligned to and the rest of the run can fill, so the split depends on the run alone and a run can
be taken out of the free lists again without any record of how it went in.
-/

namespace AlignedRuns

def Piece.verify (p : Piece) : Traced Unit := do
  let full ← Word.bit indexBits p.sizeClass
  Traced.require (p.len < full → full / 2 < p.len) .pieceFillsClass
  Traced.require (p.offset % full = 0) .pieceAligned

namespace Split

/-- The piece at the start of a run of `len` indices, of the highest class that is not above `top`
or `fill` and that `offset` is aligned to. -/
def cut (top offset len fill : Nat) : Piece :=
  let c := min (min (Bits.trailingZeros offset) fill) top
  { sizeClass := c, offset, len := min len (2 ^ c) }

def carve (top offset len : Nat) : Piece := cut top offset len (Bits.ceilLog2 len)

theorem cut_len_pos (top offset fill : Nat) {len : Nat} (h : len ≠ 0) :
    0 < (cut top offset len fill).len := by
  simp only [cut, Nat.lt_min]
  exact ⟨Nat.pos_of_ne_zero h, Nat.two_pow_pos _⟩

theorem carve_len_pos (top offset : Nat) {len : Nat} (h : len ≠ 0) :
    0 < (carve top offset len).len := cut_len_pos top offset _ h

theorem carve_len_le (top offset len : Nat) : (carve top offset len).len ≤ len :=
  Nat.min_le_left _ _

def pieces (top offset len : Nat) : List Piece :=
  if len = 0 then []
  else
    let p := carve top offset len
    p :: pieces top (offset + p.len) (len - p.len)
termination_by len
decreasing_by
  have := carve_len_pos top offset ‹¬len = 0›
  omega

theorem pieces_zero (top offset : Nat) : pieces top offset 0 = [] := by
  rw [pieces, if_pos rfl]

theorem pieces_of_ne_zero (top offset : Nat) {len : Nat} (h : len ≠ 0) :
    pieces top offset len =
      carve top offset len :: pieces top (offset + (carve top offset len).len)
        (len - (carve top offset len).len) := by
  rw [pieces, if_neg h]

structure Step (len : Nat) where
  piece : Piece
  start : Nat
  rest : Nat
  rest_lt : rest < len

def step (top offset len : Nat) (h : len ≠ 0) : Traced (Step len) := do
  let fill ← Word.ceilLog2 len
  let p := cut top offset len fill
  p.verify
  let start ← Word.add indexBits offset p.len
  let ⟨rest, hrest⟩ ← Word.subtract len p.len
  have hpos : 0 < p.len := cut_len_pos top offset fill h
  return ⟨p, start, rest, by omega⟩

/-- Takes a computation through the pieces of a run, each one verified first, without listing
them. -/
def walk {σ : Type} (f : σ → Piece → Traced σ) (top offset len : Nat) (state : σ) : Traced σ :=
  if h : len = 0 then return state
  else do
    let next ← step top offset len h
    let state ← f state next.piece
    walk f top next.start next.rest state
termination_by len
decreasing_by exact next.rest_lt

def verified (top offset len : Nat) : Traced (List Piece) := do
  let reversed ← walk (fun seen p => return p :: seen) top offset len []
  return reversed.reverse

theorem carve_fits (top offset : Nat) {len : Nat} (h : len ≠ 0) :
    (carve top offset len).Fits top where
  class_le := Nat.min_le_right _ _
  aligned := ((Bits.le_trailingZeros_iff _ _).1
    (Nat.le_trans (Nat.min_le_left _ _) (Nat.min_le_left _ _))).2
  len_le := Nat.min_le_right _ _
  lt_two_mul_len := by
    have hc : (carve top offset len).sizeClass ≤ Bits.ceilLog2 len :=
      Nat.le_trans (Nat.min_le_left _ _) (Nat.min_le_right _ _)
    change 2 ^ (carve top offset len).sizeClass < 2 * min len (2 ^ (carve top offset len).sizeClass)
    generalize (carve top offset len).sizeClass = c at hc
    cases c with
    | zero => omega
    | succ d =>
      have : ¬ len ≤ 2 ^ d := mt (Bits.ceilLog2_le_iff len d).2 (by omega)
      have := Nat.two_pow_pos d
      omega

theorem fits_of_mem_pieces {top offset len : Nat} {p : Piece} (h : p ∈ pieces top offset len) :
    p.Fits top := by
  fun_induction pieces top offset len with
  | case1 => cases h
  | case2 offset len hlen q ih =>
    rcases List.mem_cons.1 h with rfl | h
    · exact carve_fits top offset hlen
    · exact ih h

theorem bounds_of_mem_pieces {top offset len : Nat} {p : Piece} (h : p ∈ pieces top offset len) :
    offset ≤ p.offset ∧ p.stop ≤ offset + len := by
  fun_induction pieces top offset len with
  | case1 => cases h
  | case2 offset len hlen q ih =>
    have : q.len ≤ len := carve_len_le top offset len
    rcases List.mem_cons.1 h with rfl | h
    · exact ⟨Nat.le_refl _, Nat.add_le_add_left this _⟩
    · have := ih h
      omega

end Split

theorem Piece.verify_of_fits {top : Nat} {p : Piece} (fits : p.Fits top) (htop : top < indexBits) :
    p.verify = pure () := by
  have full : Word.bit indexBits p.sizeClass = pure (2 ^ p.sizeClass) :=
    Word.bit_of_lt (Nat.lt_of_le_of_lt fits.class_le htop)
  have hlen := fits.lt_two_mul_len
  simp only [verify, full, pure_bind,
    Traced.require_of (show p.len < 2 ^ p.sizeClass → 2 ^ p.sizeClass / 2 < p.len by omega),
    Traced.require_of (Nat.mod_eq_zero_of_dvd fits.aligned)]

namespace Split

theorem step_eq {top offset len : Nat} (htop : top < indexBits)
    (h : offset + len < 2 ^ indexBits) (hlen : len ≠ 0) :
    ∃ next : Step len, step top offset len hlen = pure next ∧
      next.piece = carve top offset len ∧ next.start = offset + (carve top offset len).len ∧
      next.rest = len - (carve top offset len).len := by
  have hfill : Word.ceilLog2 len = pure (Bits.ceilLog2 len) := Word.ceilLog2_eq (by omega)
  have hverify : (cut top offset len (Bits.ceilLog2 len)).verify = pure () :=
    Piece.verify_of_fits (carve_fits top offset hlen) htop
  have hle : (cut top offset len (Bits.ceilLog2 len)).len ≤ len := carve_len_le top offset len
  have hstop : offset + (cut top offset len (Bits.ceilLog2 len)).len < 2 ^ indexBits := by omega
  have hpos := carve_len_pos top offset hlen
  refine ⟨⟨carve top offset len, offset + (carve top offset len).len,
    len - (carve top offset len).len, by omega⟩, ?_, rfl, rfl, rfl⟩
  simp only [step, hfill, hverify, Word.add_of_lt hstop, Word.subtract_of_le hle, pure_bind]
  rfl

theorem walk_eq_foldlM_of_lt {σ : Type} (f : σ → Piece → Traced σ) {top offset len : Nat}
    (htop : top < indexBits) (h : offset + len < 2 ^ indexBits) (state : σ) :
    walk f top offset len state = (pieces top offset len).foldlM f state := by
  fun_induction pieces top offset len generalizing state with
  | case1 =>
    rw [walk, dif_pos rfl]
    rfl
  | case2 offset len hlen p ih =>
    obtain ⟨next, hstep, hpiece, hstart, hrest⟩ := step_eq htop h hlen
    have hle : p.len ≤ len := carve_len_le top offset len
    rw [walk, dif_neg hlen, hstep, pure_bind, hpiece, hstart, hrest, List.foldlM_cons]
    exact bind_congr fun state => ih (by omega) state

theorem verified_eq_pure {top offset len : Nat} (htop : top < indexBits)
    (h : offset + len < 2 ^ indexBits) : verified top offset len = pure (pieces top offset len) := by
  have collect (ps seen : List Piece) :
      ps.foldlM (fun seen p => (return p :: seen : Traced (List Piece))) seen =
        pure (ps.reverse ++ seen) := by
    induction ps generalizing seen with
    | nil => rfl
    | cons p ps ih => simp [ih]
  rw [verified, walk_eq_foldlM_of_lt _ htop h, collect]
  simp

end Split

end AlignedRuns
