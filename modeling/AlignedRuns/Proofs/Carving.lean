import AlignedRuns.Proofs.Acceptance
set_option autoImplicit false

namespace AlignedRuns

namespace Piece

def Before (p q : Piece) : Prop :=
  p.sizeClass < q.sizeClass ∨ p.sizeClass = q.sizeClass ∧ p.offset < q.offset

theorem Before.asymm {p q : Piece} (h : p.Before q) : ¬q.Before p := by
  unfold Before at h ⊢
  omega

end Piece

namespace FreeLists

/-- Of the pieces in class `c` or above with room for `size` indices, `p` is the first. -/
structure IsFirstFit (s : FreeLists) (c size : Nat) (p : Piece) : Prop where
  mem : p ∈ s.toList
  le_class : c ≤ p.sizeClass
  le_len : size ≤ p.len
  first : ∀ q ∈ s.toList, c ≤ q.sizeClass → size ≤ q.len → q = p ∨ p.Before q

theorem firstFit?_eq_some_iff {s : FreeLists} {c size : Nat} {p : Piece} :
    s.firstFit? c size = some p ↔ s.IsFirstFit c size p := by
  have hordered : s.toList.Pairwise Piece.Before := s.ordered_toList
  rw [firstFit?, IndexMap.find?_eq_some_iff (fun _ _ => Piece.Before.asymm) hordered]
  simp only [decide_eq_true_eq, and_imp]
  constructor
  · rintro ⟨hmem, ⟨hclass, hlen⟩, hfirst⟩
    exact ⟨hmem, hclass, hlen, hfirst⟩
  · rintro ⟨hmem, hclass, hlen, hfirst⟩
    exact ⟨hmem, ⟨hclass, hlen⟩, hfirst⟩

end FreeLists

namespace Allocator
open Traced

variable {a b : Allocator} {offset size : Nat} {p : Piece}

theorem isGreatest_highestPlace {top : Nat} (fits : p.Fits top) (hlen : size ≤ p.len)
    (hclass : Bits.ceilLog2 size ≤ p.sizeClass) :
    IsGreatest {place | 2 ^ Bits.ceilLog2 size ∣ place ∧ p.offset ≤ place ∧ place + size ≤ p.stop}
      (highestPlace p size) := by
  obtain ⟨hleft, hright⟩ := highestPlace_bounds fits hlen hclass
  refine ⟨⟨two_pow_dvd_highestPlace p size, hleft, hright⟩, ?_⟩
  rintro place ⟨hdvd, -, hend⟩
  exact Bits.le_alignDown hdvd (by omega)

/-- What becomes of the free pieces when a run is taken from one of them. -/
theorem Canonical.perm_carved (h : a.Canonical) (hp : p ∈ a.freePieces) (hsize : 0 < size)
    (hleft : p.offset ≤ offset) (hright : offset + size ≤ p.stop) :
    (a.withAllocations (a.inUse.insert offset size)).freePieces.Perm
      (Gaps.split a.free.top (p.offset, offset) ++
        (Gaps.split a.free.top (offset + size, p.stop) ++ a.freePieces.erase p)) := by
  obtain ⟨hv, kept, hkept, hcarved⟩ := h.carve_piece hp hsize hleft hright
  have hrest : kept.Perm (a.freePieces.erase p) := by
    have := (hkept.erase p).symm
    rwa [List.erase_cons_head] at this
  exact ((h.perm_withAllocations (h.spaced_insert hv hsize)).trans hcarved).trans
    ((hrest.append_left _).append_left _)

/-- All pieces above the class of a size have room for it, so where its own class has none the
search ends in the next class that is not empty. -/
theorem Canonical.first_above (h : a.Canonical)
    (hfit : a.free.IsFirstFit (Bits.ceilLog2 size) size p)
    (hnone : ∀ q ∈ a.freePieces, q.sizeClass = Bits.ceilLog2 size → q.len < size) :
    IsLeast {c | Bits.ceilLog2 size < c ∧ ∃ q ∈ a.freePieces, q.sizeClass = c} p.sizeClass ∧
      IsLeast {o | ∃ q ∈ a.freePieces, q.sizeClass = p.sizeClass ∧ q.offset = o} p.offset := by
  have hclass : Bits.ceilLog2 size < p.sizeClass := by
    refine Nat.lt_of_le_of_ne hfit.le_class fun heq => ?_
    exact Nat.not_lt_of_le hfit.le_len (hnone p hfit.mem heq.symm)
  have hfirst : ∀ q ∈ a.freePieces, Bits.ceilLog2 size < q.sizeClass → q = p ∨ p.Before q := by
    intro q hq hlt
    refine hfit.first q hq (Nat.le_of_lt hlt) ?_
    have hroom := Bits.le_two_pow_ceilLog2 size
    have hpow := Nat.pow_le_pow_right (show 0 < 2 by decide) hlt
    have hlong := (h.fits hq).lt_two_mul_len
    rw [Nat.pow_succ] at hpow
    omega
  refine ⟨⟨⟨hclass, p, hfit.mem, rfl⟩, ?_⟩, ⟨⟨p, hfit.mem, rfl, rfl⟩, ?_⟩⟩
  · rintro _ ⟨hlt, q, hq, rfl⟩
    rcases hfirst q hq hlt with rfl | hbefore
    · exact Nat.le_refl _
    · unfold Piece.Before at hbefore
      omega
  · rintro _ ⟨q, hq, hsame, rfl⟩
    rcases hfirst q hq (hsame ▸ hclass) with rfl | hbefore
    · exact Nat.le_refl _
    · unfold Piece.Before at hbefore
      omega

end Allocator

namespace Reachable
open Allocator

variable {maxSize slotCount : Nat} {a : Allocator}

/-- A run that is allocated is carved from the first piece that fits, at the highest aligned place
in it. The other pieces and the allocations stay, and the rest of this one piece is split. -/
theorem carves_first_fit (h : Reachable maxSize slotCount a) {size offset : Nat} {b : Allocator}
    (hrun : (a.allocate size).outcome.result = .ok ⟨.ok offset, b⟩) :
    ∃ p, a.free.IsFirstFit (Bits.ceilLog2 size) size p ∧
      IsGreatest
        {place | 2 ^ Bits.ceilLog2 size ∣ place ∧ p.offset ≤ place ∧ place + size ≤ p.stop} offset ∧
      b.freePieces.Perm
        (Split.pieces (Bits.ceilLog2 maxSize) p.offset (offset - p.offset) ++
          (Split.pieces (Bits.ceilLog2 maxSize) (offset + size) (p.stop - (offset + size)) ++
            a.freePieces.erase p)) ∧
      b.allocations.Perm ((offset, size) :: a.allocations) ∧
      ((∀ q ∈ a.freePieces, q.sizeClass = Bits.ceilLog2 size → q.len < size) →
        IsLeast {c | Bits.ceilLog2 size < c ∧ ∃ q ∈ a.freePieces, q.sizeClass = c} p.sizeClass ∧
          IsLeast {o | ∃ q ∈ a.freePieces, q.sizeClass = p.sizeClass ∧ q.offset = o} p.offset) := by
  obtain ⟨hcanonical, rfl, -⟩ := h.canonical
  obtain ⟨hsize, -, p, hfit, rfl, rfl⟩ := hcanonical.allocate_ok_iff.1 hrun
  have hfree := (hcanonical.vacant_of_fit hsize hfit).free
  rw [FreeLists.firstFit?_eq_some_iff] at hfit
  have hgreatest :=
    isGreatest_highestPlace (hcanonical.fits hfit.mem) hfit.le_len hfit.le_class
  obtain ⟨-, hleft, hright⟩ := hgreatest.1
  have hcarved := hcanonical.perm_carved hfit.mem hsize hleft hright
  rw [hcanonical.top_eq] at hcarved
  exact ⟨p, hfit, hgreatest, hcarved, IndexMap.perm_toList_insert hfree size,
    hcanonical.first_above hfit⟩

theorem carves_first_fit_beside_run :
    ∃ a b, Reachable 4 4 a ∧ a.allocations = [(1, 2)] ∧
      (a.allocate 2).outcome.result = .ok ⟨.ok 6, b⟩ ∧
      IsGreatest {place | 2 ∣ place ∧ 4 ≤ place ∧ place + 2 ≤ 8} 6 ∧
      b.freePieces.Perm [⟨1, 4, 2⟩, ⟨0, 0, 1⟩, ⟨0, 3, 1⟩, ⟨2, 8, 4⟩, ⟨2, 12, 4⟩] := by
  obtain ⟨h, hlist⟩ := beside_run
  have hfirst : FreeLists.firstFit?
      ((Allocator.blank 4 4).withAllocations (IndexMap.empty.insert 1 2)).free
      (Bits.ceilLog2 2) 2 = some ⟨2, 4, 4⟩ := by
    decide +kernel
  have hpieces : Allocator.freePieces
      ((Allocator.blank 4 4).withAllocations (IndexMap.empty.insert 1 2)) =
        [⟨0, 0, 1⟩, ⟨0, 3, 1⟩, ⟨2, 4, 4⟩, ⟨2, 8, 4⟩, ⟨2, 12, 4⟩] := by
    decide +kernel
  have hrun := h.canonical.1.allocate_ok_iff.2
    ⟨by decide, by decide, ⟨2, 4, 4⟩, hfirst, show 6 = _ by decide, rfl⟩
  obtain ⟨p, hfit, hgreatest, hcarved, -, -⟩ := carves_first_fit h hrun
  cases (FreeLists.firstFit?_eq_some_iff.2 hfit).symm.trans hfirst
  rw [hpieces] at hcarved
  exact ⟨_, _, h, hlist, hrun, hgreatest, hcarved.trans (.of_eq (by decide +kernel))⟩

end Reachable

end AlignedRuns
