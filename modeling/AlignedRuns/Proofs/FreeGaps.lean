import AlignedRuns.Proofs.Acceptance
import AlignedRuns.Proofs.Vacancy
set_option autoImplicit false

namespace AlignedRuns

namespace Allocator
open Traced

variable {a b : Allocator} {offset size left right i : Nat} {p : Piece}

/-- The indices from `left` up to `right` are unused, and neither end can be moved further out. -/
structure FreeGap (a : Allocator) (left right : Nat) : Prop where
  le : left ≤ right
  unused : a.Unused left (right - left)
  left_end : left = 0 ∨ a.Taken (left - 1)
  right_end : right = a.totalSize ∨ a.Taken right

namespace FreeGap

variable {left' right' : Nat}

theorem le_left (h : a.FreeGap left right) (h' : a.FreeGap left' right') (hlow : left ≤ i)
    (hhigh : i < right) (hlow' : left' ≤ i) : left' ≤ left := by
  rcases h'.left_end with hzero | htaken
  · omega
  · by_contra hlt
    exact h.unused.2 (left' - 1) (by omega) (by omega) htaken

theorem right_le (h : a.FreeGap left right) (h' : a.FreeGap left' right') (hlow : left ≤ i)
    (hhigh' : i < right') : right ≤ right' := by
  rcases h'.right_end with htotal | htaken
  · have := h.unused.1
    omega
  · by_contra hlt
    exact h.unused.2 right' (by omega) (by omega) htaken

/-- Two maximal gaps with an index in common are the same. -/
theorem unique (h : a.FreeGap left right) (h' : a.FreeGap left' right') (hlow : left ≤ i)
    (hhigh : i < right) (hlow' : left' ≤ i) (hhigh' : i < right') : left = left' ∧ right = right' :=
  ⟨Nat.le_antisymm (h'.le_left h hlow' hhigh' hlow) (h.le_left h' hlow hhigh hlow'),
    Nat.le_antisymm (h.right_le h' hlow hhigh') (h'.right_le h hlow' hhigh)⟩

end FreeGap

theorem Canonical.gapLeft_end (h : a.Canonical) (offset : Nat) :
    a.gapLeft offset = 0 ∨ a.Taken (a.gapLeft offset - 1) := by
  rw [gapLeft_eq_prev?]
  cases hprev : a.inUse.prev? offset with
  | none => exact .inl rfl
  | some e =>
    have he := (IndexMap.prev?_eq_some_iff.1 hprev).1
    have hpos := (h.spaced.bounds he).2.1
    change e.1 + e.2 = 0 ∨ a.Taken (e.1 + e.2 - 1)
    exact .inr ⟨e, he, by omega, by omega⟩

theorem Canonical.gapRight_end (h : a.Canonical) (offset : Nat) :
    a.gapRight offset = a.totalSize ∨ a.Taken (a.gapRight offset) := by
  rw [gapRight_eq_next?]
  cases hnext : a.inUse.next? offset with
  | none => exact .inl rfl
  | some e =>
    have he := (IndexMap.next?_eq_some_iff.1 hnext).1
    have hpos := (h.spaced.bounds he).2.1
    exact .inr ⟨e, he, Nat.le_refl _, Nat.lt_add_of_pos_right hpos⟩

/-- Around a place where no allocation starts the gap is free of allocations. -/
theorem Canonical.freeGap_around (h : a.Canonical) (hfree : a.inUse.get? offset = none) :
    a.FreeGap (a.gapLeft offset) (a.gapRight offset) := by
  have hle := h.gapLeft_le_gapRight offset
  have htotal := h.gapRight_le offset
  have hspaced := h.spaced_around offset
  refine ⟨hle, ⟨by omega, ?_⟩, h.gapLeft_end offset, h.gapRight_end offset⟩
  rintro i hlow hhigh ⟨⟨start, len⟩, he, hfrom, hin⟩
  rw [Nat.add_sub_cancel' hle] at hhigh
  rw [allocations, IndexMap.toList_of_get?_none hfree] at he
  rcases List.mem_append.1 he with he | he
  · have : start + len ≤ a.gapLeft offset := hspaced.le_lastStop he
    omega
  · have : a.gapRight offset ≤ start := (Gaps.spaced_append_iff.1 hspaced).2.firstStart_le he
    omega

theorem Canonical.mem_insert_of_outside (h : a.Canonical) (hv : a.Vacant offset size)
    (hsize : 0 < size) (hout : p.stop ≤ a.gapLeft offset ∨ a.gapRight offset ≤ p.offset) :
    p ∈ (a.withAllocations (a.inUse.insert offset size)).freePieces ↔ p ∈ a.freePieces := by
  have hleft := hv.left
  have hright := hv.right
  have hbefore := (h.perm_of_get?_none hv.free).mem_iff (a := p)
  have hafter := ((h.perm_withAllocations (h.spaced_insert hv hsize)).trans
    (perm_pieces_insert a offset size)).mem_iff (a := p)
  have hwhole : p ∉ Gaps.split a.free.top (a.gapLeft offset, a.gapRight offset) :=
    Gaps.not_mem_split_of_outside (by simp only; omega) hout
  have hlow : p ∉ Gaps.split a.free.top (a.gapLeft offset, offset) :=
    Gaps.not_mem_split_of_outside hleft (by simp only; omega)
  have hhigh : p ∉ Gaps.split a.free.top (offset + size, a.gapRight offset) :=
    Gaps.not_mem_split_of_outside hright (by simp only; omega)
  rw [List.mem_append, or_iff_right hwhole] at hbefore
  rw [List.mem_append, or_iff_right hlow, List.mem_append, or_iff_right hhigh] at hafter
  exact hafter.trans hbefore.symm

theorem Canonical.reserves_iff (h : a.Canonical) (hsize : 0 < size) :
    (∃ b, (a.reserve offset size).outcome.result = .ok ⟨.ok (), b⟩) ↔ a.Unused offset size := by
  rw [← h.vacant_iff hsize]
  constructor
  · rintro ⟨b, hrun⟩
    exact (h.reserve_ok_iff.1 hrun).2.1
  · intro hv
    exact ⟨_, h.reserve_ok_iff.2 ⟨hsize, hv, rfl⟩⟩

theorem Canonical.reserve_of_used (h : a.Canonical) (hsize : 0 < size)
    (hused : ¬a.Unused offset size) :
    (a.reserve offset size).outcome.result = .ok (a.refuse (.conflict offset size)) := by
  rw [← h.vacant_iff hsize] at hused
  rw [h.reserve_of_not_vacant hused hsize]
  exact (yields_pure _).result_eq

end Allocator

namespace Reachable
open Allocator Traced
variable {maxSize slotCount : Nat} {a : Allocator}

/-- A reservation is accepted just if its whole range is unused. It then adds the one allocation,
and of the free pieces it changes those of the maximal gap around its range and no others. -/
theorem reserves_iff_unused (h : Reachable maxSize slotCount a) (offset size : Nat) :
    (size = 0 →
      (a.reserve offset size).outcome.result = .ok (a.refuse (.invalidSize 0 a.totalSize))) ∧
    (1 ≤ size →
      ((∃ b, (a.reserve offset size).outcome.result = .ok ⟨.ok (), b⟩) ↔ a.Unused offset size) ∧
      (¬a.Unused offset size →
        (a.reserve offset size).outcome.result = .ok (a.refuse (.conflict offset size)))) ∧
    ∀ b, (a.reserve offset size).outcome.result = .ok ⟨.ok (), b⟩ →
      b.allocations.Perm ((offset, size) :: a.allocations) ∧
      (∃ left right, a.FreeGap left right ∧ left ≤ offset ∧ offset + size ≤ right) ∧
      ∀ left right, a.FreeGap left right → left ≤ offset → offset + size ≤ right →
        ∀ p : Piece, p.stop ≤ left ∨ right ≤ p.offset → (p ∈ b.freePieces ↔ p ∈ a.freePieces) := by
  have hcanonical := h.canonical.1
  refine ⟨?_, fun hsize => ⟨hcanonical.reserves_iff hsize, hcanonical.reserve_of_used hsize⟩,
    fun b hrun => ?_⟩
  · rintro rfl
    rw [reserve_zero]
    exact (yields_pure _).result_eq
  · obtain ⟨hsize, hv, rfl⟩ := hcanonical.reserve_ok_iff.1 hrun
    have haround := hcanonical.freeGap_around hv.free
    have hroom := hv.right
    refine ⟨IndexMap.perm_toList_insert hv.free size, ⟨_, _, haround, hv.left, hv.right⟩, ?_⟩
    intro left right hgap hleft hright p hout
    obtain ⟨rfl, rfl⟩ := hgap.unique haround hleft (by omega) hv.left (by omega)
    exact hcanonical.mem_insert_of_outside hv hsize hout

theorem reserves_iff_unused_beside_run :
    ∃ a, Reachable 4 4 a ∧ a.allocations = [(1, 2)] ∧
      (∃ b, (a.reserve 5 7).outcome.result = .ok ⟨.ok (), b⟩ ∧
        b.allocations.Perm [(5, 7), (1, 2)] ∧ ⟨0, 0, 1⟩ ∈ b.freePieces) ∧
      (a.reserve 2 3).outcome.result = .ok (a.refuse (.conflict 2 3)) := by
  obtain ⟨h, hlist⟩ := beside_run
  obtain ⟨-, hserved, hkept⟩ := reserves_iff_unused h 5 7
  obtain ⟨-, hother, -⟩ := reserves_iff_unused h 2 3
  obtain ⟨b, hrun⟩ := (hserved (by decide)).1.2 (by decide)
  obtain ⟨hperm, -, hframe⟩ := hkept b hrun
  have hgap : FreeGap ((Allocator.blank 4 4).withAllocations (IndexMap.empty.insert 1 2)) 3 16 :=
    ⟨by decide, by decide, .inr (by decide), .inl rfl⟩
  have hpiece := (hframe 3 16 hgap (by decide) (by decide) ⟨0, 0, 1⟩ (.inl (by decide))).2
    (by decide +kernel)
  exact ⟨_, h, hlist, ⟨b, hrun, hlist ▸ hperm, hpiece⟩, (hother (by decide)).2 (by decide)⟩

end Reachable

end AlignedRuns
