import AlignedRuns.Proofs.FreeGaps
import AlignedRuns.Proofs.RequestLaws
set_option autoImplicit false

namespace AlignedRuns

namespace Allocator

variable {a : Allocator} {offset size left right i : Nat} {p : Piece}

def TakenBeside (a : Allocator) (offset i : Nat) : Prop :=
  ∃ e ∈ a.allocations, e.1 ≠ offset ∧ e.1 ≤ i ∧ i < e.1 + e.2

instance (a : Allocator) (offset i : Nat) : Decidable (a.TakenBeside offset i) :=
  inferInstanceAs (Decidable (∃ e ∈ a.allocations, _))

/-- The indices from `left` up to `right` are those of the run at `offset` and others that no other
allocation contains, and neither end can be moved further out. -/
structure GapAround (a : Allocator) (offset size left right : Nat) : Prop where
  left_le : left ≤ offset
  le_right : offset + size ≤ right
  le_total : right ≤ a.totalSize
  apart : ∀ i, left ≤ i → i < right → ¬a.TakenBeside offset i
  left_end : left = 0 ∨ a.TakenBeside offset (left - 1)
  right_end : right = a.totalSize ∨ a.TakenBeside offset right

theorem taken_erase_iff :
    (a.withAllocations (a.inUse.erase offset)).Taken i ↔ a.TakenBeside offset i := by
  unfold Taken TakenBeside allocations
  refine exists_congr fun e => ?_
  rw [withAllocations_inUse, IndexMap.mem_toList_iff, IndexMap.get?_erase, IndexMap.mem_toList_iff]
  by_cases heq : offset = e.1
  · simp [heq]
  · simp [heq, Ne.symm heq]

/-- The gap around a run is a gap of the allocator without this run. -/
theorem gapAround_iff : a.GapAround offset size left right ↔
    left ≤ offset ∧ offset + size ≤ right ∧
      (a.withAllocations (a.inUse.erase offset)).FreeGap left right := by
  constructor
  · rintro ⟨hleft, hright, htotal, hapart, hleftEnd, hrightEnd⟩
    have hle : left ≤ right := by omega
    refine ⟨hleft, hright, hle, ⟨?_, fun i hlow hhigh => ?_⟩, ?_, ?_⟩
    · rwa [Nat.add_sub_cancel' hle]
    · rw [taken_erase_iff]
      exact hapart i hlow (by omega)
    · rwa [taken_erase_iff]
    · rwa [taken_erase_iff]
  · rintro ⟨hleft, hright, hle, ⟨htotal, hunused⟩, hleftEnd, hrightEnd⟩
    rw [Nat.add_sub_cancel' hle] at htotal hunused
    simp only [taken_erase_iff] at hunused hleftEnd hrightEnd
    exact ⟨hleft, hright, htotal, hunused, hleftEnd, hrightEnd⟩

theorem mem_between (hfree : a.inUse.get? offset = none) :
    (a.gapLeft offset, a.gapRight offset) ∈ Gaps.between a.totalSize 0 a.allocations := by
  rw [allocations, IndexMap.toList_of_get?_none hfree, Gaps.between_append]
  exact List.mem_append_right _ List.mem_cons_self

/-- Just one gap lies around an allocation. -/
theorem Canonical.gapAround_iff_eq (h : a.Canonical) (hsize : a.inUse.get? offset = some size) :
    a.GapAround offset size left right ↔
      left = (a.withAllocations (a.inUse.erase offset)).gapLeft offset ∧
        right = (a.withAllocations (a.inUse.erase offset)).gapRight offset := by
  have hpos := (h.bounds_of_get?_some hsize).2.1
  have hv := h.vacant_of_released hsize
  have hleft' := hv.left
  have hright' := hv.right
  have haround := (h.canonical (h.spaced_erase offset)).freeGap_around hv.free
  rw [gapAround_iff]
  constructor
  · rintro ⟨hleft, hright, hgap⟩
    exact hgap.unique haround hleft (by omega) hleft' (by omega)
  · rintro ⟨rfl, rfl⟩
    exact ⟨hleft', hright', haround⟩

theorem Canonical.mem_erase_of_outside (h : a.Canonical)
    (hsize : a.inUse.get? offset = some size) (hgap : a.GapAround offset size left right)
    (hout : p.stop ≤ left ∨ right ≤ p.offset) :
    p ∈ (a.withAllocations (a.inUse.erase offset)).freePieces ↔ p ∈ a.freePieces := by
  obtain ⟨rfl, rfl⟩ := (h.gapAround_iff_eq hsize).1 hgap
  have hreserve := (h.canonical (h.spaced_erase offset)).mem_insert_of_outside
    (h.vacant_of_released hsize) (h.bounds_of_get?_some hsize).2.1 hout
  rw [withAllocations_inUse, withAllocations_withAllocations, IndexMap.insert_erase hsize,
    h.withAllocations_self] at hreserve
  exact hreserve.symm

theorem Canonical.mem_erase_of_meets (h : a.Canonical)
    (hsize : a.inUse.get? offset = some size) (hgap : a.GapAround offset size left right)
    (p : Piece) : p ∈ (a.withAllocations (a.inUse.erase offset)).freePieces ∧
      ¬(p.stop ≤ left ∨ right ≤ p.offset) ↔ p ∈ Split.pieces a.free.top left (right - left) := by
  obtain ⟨rfl, rfl⟩ := (h.gapAround_iff_eq hsize).1 hgap
  have hmeets := (h.canonical (h.spaced_erase offset)).mem_split_iff_meets
    (mem_between (h.vacant_of_released hsize).free) p
  rwa [top_withAllocations] at hmeets

/-- No allocation starts at an index inside another one. -/
theorem Canonical.get?_of_inside (h : a.Canonical) {e : Nat × Nat} (he : e ∈ a.allocations)
    (hlow : e.1 < offset) (hhigh : offset < e.1 + e.2) : a.inUse.get? offset = none := by
  cases hsize : a.inUse.get? offset with
  | none => rfl
  | some size =>
    have := h.spaced.apart he (IndexMap.mem_toList_iff.2 hsize) hlow
    simp only at this
    omega

theorem Canonical.releases_iff (h : a.Canonical) :
    (∃ b, (a.release offset).outcome.result = .ok ⟨.ok (), b⟩) ↔
      ∃ size, (offset, size) ∈ a.allocations := by
  constructor
  · rintro ⟨b, hrun⟩
    obtain ⟨⟨size, hsize⟩, -⟩ := h.release_ok_iff.1 hrun
    exact ⟨size, IndexMap.mem_toList_iff.2 hsize⟩
  · rintro ⟨size, he⟩
    exact ⟨_, h.release_ok_iff.2 ⟨⟨size, IndexMap.mem_toList_iff.1 he⟩, rfl⟩⟩

end Allocator

namespace Reachable
open Allocator Traced

variable {maxSize slotCount : Nat} {a : Allocator}

/-- A release is accepted just at the start of an allocation. It takes this one allocation away and
changes the pieces of the gap around it and no others: the whole gap is then split as one run. -/
theorem releases_merge (h : Reachable maxSize slotCount a) (offset : Nat) :
    ((∃ b, (a.release offset).outcome.result = .ok ⟨.ok (), b⟩) ↔
      ∃ size, (offset, size) ∈ a.allocations) ∧
    ((∀ size, (offset, size) ∉ a.allocations) →
      (a.release offset).outcome.result = .ok (a.refuse (.notAllocated offset))) ∧
    ((∃ e ∈ a.allocations, e.1 < offset ∧ offset < e.1 + e.2) ∨ ¬a.Taken offset →
      (a.release offset).outcome.result = .ok (a.refuse (.notAllocated offset))) ∧
    ∀ size b, (offset, size) ∈ a.allocations →
      (a.release offset).outcome.result = .ok ⟨.ok (), b⟩ →
      a.allocations.Perm ((offset, size) :: b.allocations) ∧
      (∃ left right, a.GapAround offset size left right) ∧
      ∀ left right, a.GapAround offset size left right →
        (∀ p : Piece, p.stop ≤ left ∨ right ≤ p.offset →
          (p ∈ b.freePieces ↔ p ∈ a.freePieces)) ∧
        ∀ p : Piece, p ∈ b.freePieces ∧ ¬(p.stop ≤ left ∨ right ≤ p.offset) ↔
          p ∈ Split.pieces (Bits.ceilLog2 maxSize) left (right - left) := by
  obtain ⟨hcanonical, rfl, -⟩ := h.canonical
  have hrefused (hnone : a.inUse.get? offset = none) :
      (a.release offset).outcome.result = .ok (a.refuse (.notAllocated offset)) := by
    rw [release_of_none hnone]
    exact (yields_pure _).result_eq
  refine ⟨hcanonical.releases_iff, fun hnone => hrefused ?_, ?_, fun size b he hrun => ?_⟩
  · refine Option.eq_none_iff_forall_ne_some.2 fun size hsize => ?_
    exact hnone size (IndexMap.mem_toList_iff.2 hsize)
  · rintro (⟨e, he, hlow, hhigh⟩ | hfree)
    · exact hrefused (hcanonical.get?_of_inside he hlow hhigh)
    · exact hrefused (hcanonical.get?_of_not_taken hfree)
  · have hsize := IndexMap.mem_toList_iff.1 he
    obtain ⟨-, rfl⟩ := hcanonical.release_ok_iff.1 hrun
    refine ⟨IndexMap.perm_toList_erase hsize,
      ⟨_, _, (hcanonical.gapAround_iff_eq hsize).2 ⟨rfl, rfl⟩⟩, fun left right hgap => ⟨?_, ?_⟩⟩
    · intro p hout
      exact hcanonical.mem_erase_of_outside hsize hgap hout
    · rw [← hcanonical.top_eq]
      exact hcanonical.mem_erase_of_meets hsize hgap

theorem releases_merge_two_runs :
    ∃ a b, Reachable 4 2 a ∧ a.allocations = [(3, 2), (6, 1)] ∧
      (a.release 3).outcome.result = .ok ⟨.ok (), b⟩ ∧ b.allocations.Perm [(6, 1)] ∧
      (∀ p : Piece, 6 ≤ p.offset → (p ∈ b.freePieces ↔ p ∈ a.freePieces)) ∧
      ⟨2, 0, 4⟩ ∈ b.freePieces ∧ ⟨1, 4, 2⟩ ∈ b.freePieces ∧
      (a.release 4).outcome.result = .ok (a.refuse (.notAllocated 4)) := by
  obtain ⟨a, h, hlist⟩ := two_runs
  have htotal : a.totalSize = 8 := h.canonical.2.2
  have hlive : (3, 2) ∈ a.allocations := by simp [hlist]
  have hgap : a.GapAround 3 2 0 6 := by
    refine ⟨by decide, by decide, by omega, ?_, .inl rfl, .inr ?_⟩
    · unfold TakenBeside
      rw [hlist]
      decide
    · unfold TakenBeside
      rw [hlist]
      decide
  obtain ⟨haccepted, -, -, hmerged⟩ := releases_merge h 3
  obtain ⟨-, -, hinside, -⟩ := releases_merge h 4
  obtain ⟨b, hrun⟩ := haccepted.2 ⟨2, hlive⟩
  obtain ⟨hperm, -, hframe⟩ := hmerged 2 b hlive hrun
  obtain ⟨hkept, hwhole⟩ := hframe 0 6 hgap
  rw [hlist] at hperm
  refine ⟨a, b, h, hlist, hrun, hperm.symm.cons_inv, fun p hout => hkept p (.inr hout),
    ((hwhole _).2 ?_).1, ((hwhole _).2 ?_).1, hinside (.inl ⟨(3, 2), hlive, ?_⟩)⟩
  · decide +kernel
  · decide +kernel
  · decide

end Reachable

end AlignedRuns
