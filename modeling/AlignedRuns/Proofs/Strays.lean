import AlignedRuns.Proofs.Diagnosis
import AlignedRuns.Proofs.Parameters
set_option autoImplicit false

/-!
# No piece is left over

The diagnosis of an allocator comes to an end whatever its parts hold, and its last comparison, of
the pieces it has counted with those there are, never finds anything. When it is reached, the pieces
of the gaps are all held, and with the allocations they are as many indices as there are. So are all
free pieces, and none of these is empty: there is no room for another.
-/

namespace AlignedRuns

/-- Pieces that are among others and no fewer indices than these are all of them, as none of the
others is empty. -/
theorem Piece.perm_of_subperm {ps qs : List Piece} (h : ps.Subperm qs) (hpos : ∀ q ∈ qs, 0 < q.len)
    (hsum : (qs.map len).sum ≤ (ps.map len).sum) : ps.Perm qs := by
  obtain ⟨same, hsame, hsub⟩ := h
  obtain ⟨others, hothers⟩ := hsub.exists_perm_append
  have htotal := (hothers.map len).sum_nat
  rw [List.map_append, List.sum_append, (hsame.map len).sum_nat] at htotal
  cases others with
  | nil => exact hsame.symm.trans (by simpa using hothers.symm)
  | cons q others =>
    have := hpos q (hothers.mem_iff.2 (by simp))
    rw [List.map_cons, List.sum_cons] at htotal
    omega

namespace Allocator
open Traced Coverage

variable {a : Allocator}

/-- Free pieces that cover the index space together with the allocations are the pieces of the gaps
as soon as these are among them. -/
theorem perm_of_held (hpieces : ∀ p ∈ a.freePieces, 0 < p.len)
    (hsizes : ∀ e ∈ a.allocations, 0 < e.2) (htiles : Tiles a.totalSize 0 a.ranges)
    (hheld : ∀ p ∈ Gaps.pieces a.free.top a.totalSize 0 a.allocations, p ∈ a.freePieces) :
    (Gaps.pieces a.free.top a.totalSize 0 a.allocations).Perm a.freePieces := by
  have hspaced := spaced_of_tiles hpieces hsizes htiles
  have hfree := htiles.sum_of_perm a.perm_ranges
  have hgaps := (tiles_timeline a.free.top hspaced).sum_of_perm (perm_timeline _ _ _ _)
  have hnodup := (Gaps.nodup_places a.free.top hspaced).of_map
  exact Piece.perm_of_subperm (List.subperm_of_subset hnodup hheld) hpieces (by omega)

/-- After a sweep without a finding, what the loop over the gaps says is what the last pass says:
where it finds nothing, it has counted all free pieces. -/
theorem Bounded.layoutViolation?_eq (h : a.Bounded) (hpieces : ∀ p ∈ a.freePieces, 0 < p.len)
    (hsizes : ∀ e ∈ a.allocations, 0 < e.2) (htiles : Tiles a.totalSize 0 a.ranges) :
    ∃ found, a.countGaps 0 0 a.allocations = pure found ∧
      ((found = .ok a.pieceCount ∧ a.layoutViolation? = pure none) ∨
        ∃ violation, found = .error violation ∧ a.layoutViolation? = pure (some violation)) := by
  have hspaced := spaced_of_tiles hpieces hsizes htiles
  obtain ⟨found, hrun, ⟨hheld, rfl⟩ | ⟨-, offset, len, rfl⟩⟩ := h.countGaps_eq hspaced 0
  · have hcount : (Gaps.pieces a.free.top a.totalSize 0 a.allocations).length = a.pieceCount :=
      (perm_of_held hpieces hsizes htiles hheld).length_eq.trans (FreeLists.length_toList _)
    rw [Nat.zero_add, hcount] at hrun
    refine ⟨_, hrun, .inl ⟨rfl, ?_⟩⟩
    rw [layoutViolation?, gapsViolation?_eq_countGaps, hrun]
    exact if_pos rfl
  · refine ⟨_, hrun, .inr ⟨_, rfl, ?_⟩⟩
    rw [layoutViolation?, gapsViolation?_eq_countGaps, hrun]
    rfl

/-- The diagnosis of an allocator with the parameters of a new one comes to an end, whatever its
parts hold. Its last pass goes over the gaps and then compares the pieces it has counted with those
there are. Where it comes to the gaps and finds all of them split as they should be, it has counted
all pieces, so the comparison never finds anything. -/
theorem diagnosis_counts_all {maxSize slotCount : Nat} {new : Allocator}
    (hnew : (create maxSize slotCount).outcome.result = .ok (.ok new))
    (hsame : new.SameParameters a) (hwords : a.InWords) :
    ∃ v, a.violation?.outcome.result = .ok v ∧
      a.layoutViolation? = (do
        match ← a.countGaps 0 0 a.allocations with
        | .error violation => return some violation
        | .ok counted =>
          if counted = a.pieceCount then return none else return some (.layout 0 a.totalSize)) ∧
      (a.pieceViolation?.outcome.result = .ok none → a.emptyAllocation? = none →
        a.coverageViolation?.outcome.result = .ok none →
        ∃ found, (a.countGaps 0 0 a.allocations).outcome.result = .ok found ∧
          (∀ counted, found = .ok counted → counted = a.pieceCount ∧ v = none) ∧
          ∀ violation, found = .error violation → v = some violation) := by
  have hsized := hsame.sized_of_create hnew
  have hbounded := hsized.bounded
  obtain ⟨v, hrun, -⟩ := hsized.violation?_eq hwords
  refine ⟨v, by rw [hrun]; rfl, gapsViolation?_eq_countGaps a 0 0 a.allocations,
    fun hpieces hempty hcoverage => ?_⟩
  rw [hbounded.pieceViolation?_eq] at hpieces
  have hfits := hbounded.findSome?_flaw?_eq_none_iff.1 (Except.ok.inj hpieces)
  have hsizes := emptyAllocation?_eq_none_iff.1 hempty
  obtain ⟨swept, hsweep, htiles⟩ := coverageViolation?_eq hwords
  rw [hsweep] at hcoverage
  obtain rfl : swept = none := Except.ok.inj hcoverage
  have hlayout : a.layoutViolation? = pure v := by
    rw [← hrun, hbounded.violation?_of_fits hfits hsizes, hsweep]
    rfl
  obtain ⟨found, hcount, hfound⟩ :=
    hbounded.layoutViolation?_eq (fun p hp => (hfits p hp).len_pos) hsizes (htiles.1 rfl)
  refine ⟨found, by rw [hcount]; rfl, ?_⟩
  have hresult {w : Option Violation} (h : a.layoutViolation? = pure w) : v = w :=
    Except.ok.inj (congrArg (fun x => x.outcome.result) (hlayout.symm.trans h))
  obtain ⟨rfl, hnone⟩ | ⟨violation, rfl, hsome⟩ := hfound
  · refine ⟨fun counted hcounted => ?_, nofun⟩
    cases hcounted
    exact ⟨rfl, hresult hnone⟩
  · refine ⟨nofun, fun other hother => ?_⟩
    cases hother
    exact hresult hsome

theorem diagnosis_counts_all_one_gap :
    ∃ (a b : Allocator) (counted : Nat) (violation : Violation),
      a.freePieces = [⟨2, 0, 4⟩] ∧ a.allocations = [(4, 4)] ∧
      (a.countGaps 0 0 a.allocations).outcome.result = .ok (.ok counted) ∧
      counted = a.pieceCount ∧ a.violation?.outcome.result = .ok none ∧
      b.freePieces = [⟨1, 0, 2⟩, ⟨1, 2, 2⟩] ∧ b.allocations = [(4, 4)] ∧
      (b.countGaps 0 0 b.allocations).outcome.result = .ok (.error violation) ∧
      b.violation?.outcome.result = .ok (some violation) := by
  have hnew : (create 4 2).outcome.result = .ok (.ok (blank 4 2)) :=
    outcome_create_iff.2 ⟨⟨⟨2, by decide, rfl⟩, by decide⟩, rfl⟩
  let a : Allocator := ⟨4, 8, .ofPieces 3 [⟨2, 0, 4⟩], IndexMap.empty.insert 4 4⟩
  let b : Allocator := ⟨4, 8, .ofPieces 3 [⟨1, 0, 2⟩, ⟨1, 2, 2⟩], IndexMap.empty.insert 4 4⟩
  have ha : (blank 4 2).SameParameters a := by constructor <;> decide +kernel
  have hb : (blank 4 2).SameParameters b := by constructor <;> decide +kernel
  have hspaced : Gaps.Spaced 8 0 [(0, 4), (4, 4)] := by simp [Gaps.Spaced]
  have hspaced' : Gaps.Spaced 8 0 [(0, 2), (2, 2), (4, 4)] := by simp [Gaps.Spaced]
  have hcovered : a.coverageViolation?.outcome.result = .ok none := by
    rw [coverageViolation?, ranges_eq_of_spaced (.of_eq (by decide +kernel)) hspaced]
    decide +kernel
  have hcovered' : b.coverageViolation?.outcome.result = .ok none := by
    rw [coverageViolation?, ranges_eq_of_spaced (.of_eq (by decide +kernel)) hspaced']
    decide +kernel
  obtain ⟨v, hv, -, hall⟩ := diagnosis_counts_all hnew ha (by constructor <;> decide +kernel)
  obtain ⟨w, hw, -, hsome⟩ := diagnosis_counts_all hnew hb (by constructor <;> decide +kernel)
  obtain ⟨found, hcount, hfound, -⟩ := hall (by decide +kernel) (by decide +kernel) hcovered
  obtain ⟨other, hother, -, hviolation⟩ :=
    hsome (by decide +kernel) (by decide +kernel) hcovered'
  have hone : (a.countGaps 0 0 a.allocations).outcome.result = .ok (.ok 1) := by decide +kernel
  have hgap : (b.countGaps 0 0 b.allocations).outcome.result = .ok (.error (.layout 0 4)) := by
    decide +kernel
  cases hcount.symm.trans hone
  cases hother.symm.trans hgap
  obtain ⟨hcounted, rfl⟩ := hfound 1 rfl
  obtain rfl := hviolation _ rfl
  exact ⟨a, b, 1, .layout 0 4, by decide +kernel, by decide +kernel, hcount, hcounted, hv,
    by decide +kernel, by decide +kernel, hother, hw⟩

end Allocator

end AlignedRuns
