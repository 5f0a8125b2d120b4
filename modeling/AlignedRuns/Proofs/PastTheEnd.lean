import AlignedRuns.Proofs.Sweep
import AlignedRuns.Tampering
import Mathlib.Data.Finset.Max
set_option autoImplicit false

namespace AlignedRuns.Allocator
open Coverage

variable {a : Allocator} {i m s stop : Nat} {v : Option Violation}

def Stops (a : Allocator) (i : Nat) : Prop :=
  ∃ r ∈ a.freePieces.map Piece.range ++ a.allocations, r.1 + r.2 = i

/-- The index space is covered as it should be, but some range goes on past its end. -/
structure Overruns (a : Allocator) : Prop where
  covered : ∀ i < a.totalSize, a.cover i = 1
  once : ∀ i, a.cover i ≤ 1
  past : ∃ i, a.totalSize ≤ i ∧ 0 < a.cover i

theorem exists_furthest (h : a.Stops i) : ∃ stop, IsGreatest {i | a.Stops i} stop := by
  let stops := ((a.freePieces.map Piece.range ++ a.allocations).map fun r => r.1 + r.2).toFinset
  have hmem (i : Nat) : i ∈ stops ↔ a.Stops i := by
    rw [List.mem_toFinset, List.mem_map, Stops]
  have hsome : stops.Nonempty := ⟨i, (hmem i).2 h⟩
  exact ⟨stops.max' hsome, (hmem _).1 (stops.max'_mem hsome),
    fun j hj => stops.le_max' j ((hmem j).2 hj)⟩

section Furthest
variable (hfar : IsGreatest {i | a.Stops i} stop)
include hfar

theorem lt_furthest_of_cover (hcover : 0 < a.cover i) : i < stop := by
  obtain ⟨r, hr, -, hlt⟩ := cover_pos_iff.1 hcover
  exact hlt.trans_le (hfar.2 ⟨r, hr, rfl⟩)

theorem Starts.le_furthest (hs : a.Starts s) : s ≤ stop := by
  obtain ⟨r, hr, rfl⟩ := hs
  exact (Nat.le_add_right _ _).trans (hfar.2 ⟨r, hr, rfl⟩)

/-- Behind an index that is not covered the furthest range has still to start. -/
theorem exists_start_after (hcover : a.cover m = 0) (hm : m < stop) : ∃ s, m < s ∧ a.Starts s := by
  obtain ⟨r, hr, rfl⟩ := hfar.1
  refine ⟨r.1, ?_, r, hr, rfl⟩
  by_contra hle
  have := cover_pos_iff.2 ⟨r, hr, Nat.not_lt.1 hle, hm⟩
  omega

end Furthest

theorem Overruns.exists_stops (h : a.Overruns) : ∃ i, a.Stops i := by
  obtain ⟨i, -, hcover⟩ := h.past
  obtain ⟨r, hr, -⟩ := cover_pos_iff.1 hcover
  exact ⟨r.1 + r.2, r, hr, rfl⟩

theorem Overruns.total_lt (h : a.Overruns) (hfar : IsGreatest {i | a.Stops i} stop) :
    a.totalSize < stop := by
  obtain ⟨i, hi, hcover⟩ := h.past
  exact hi.trans_lt (lt_furthest_of_cover hfar hcover)

/-- Ranges that fill the index space, with others behind it. -/
theorem overruns_of_perm {front back : List (Nat × Nat)} (hfront : Tiles a.totalSize 0 front)
    (hback : Gaps.Spaced stop a.totalSize back) (hsome : back ≠ [])
    (hperm : (front ++ back).Perm (a.freePieces.map Piece.range ++ a.allocations)) :
    a.Overruns := by
  have hcover (i : Nat) :
      a.cover i = (if i < a.totalSize then 1 else 0) + back.countP (covers i) := by
    rw [cover, ← hperm.countP_eq, List.countP_append, hfront.countP_covers]
    simp only [Nat.zero_le, true_and]
  refine ⟨fun i hi => ?_, fun i => ?_, ?_⟩
  · have hlater := countP_covers_le hback i
    rw [if_pos hi] at hlater
    rw [hcover, if_pos hi, Nat.le_zero.1 hlater]
  · have hlater := countP_covers_le hback i
    rw [hcover]
    by_cases hi : i < a.totalSize
    · rw [if_pos hi] at hlater ⊢
      omega
    · rw [if_neg hi] at hlater ⊢
      omega
  · obtain ⟨r, later, rfl⟩ := List.exists_cons_of_ne_nil hsome
    have hr : r ∈ front ++ r :: later := List.mem_append_right _ List.mem_cons_self
    refine ⟨r.1, hback.1, cover_pos_iff.2 ⟨r, hperm.mem_iff.1 hr, Nat.le_refl _, ?_⟩⟩
    exact Nat.lt_add_of_pos_right hback.2.1

theorem isGreatest_stops_of_spaced {ranges : List (Nat × Nat)}
    (hperm : ranges.Perm (a.freePieces.map Piece.range ++ a.allocations))
    (hspaced : Gaps.Spaced stop 0 ranges) (hstop : a.Stops stop) :
    IsGreatest {i | a.Stops i} stop := by
  refine ⟨hstop, ?_⟩
  rintro _ ⟨r, hr, rfl⟩
  exact (hspaced.bounds (hperm.mem_iff.2 hr)).2.2

theorem Overruns.cover_ne_one_iff (h : a.Overruns) : a.cover m ≠ 1 ↔ a.cover m = 0 := by
  have := h.once m
  omega

theorem Overruns.total_le (h : a.Overruns) (hm : a.cover m = 0) : a.totalSize ≤ m := by
  by_contra hlt
  have := h.covered m (Nat.not_le.1 hlt)
  omega

/-- Either the sweep gets to the furthest end, or there is a hole before it. -/
theorem Overruns.verdict_cases (h : a.Overruns) (hfar : IsGreatest {i | a.Stops i} stop)
    (hleast : IsLeast {i | a.cover i = 0} m) (hv : a.Verdict m v) :
    (m = stop ∧ v = some (.outOfBounds stop)) ∨
      (m < stop ∧ ∃ next, IsLeast {s | m < s ∧ a.Starts s} next ∧ v = some (.gap m next)) := by
  rcases Nat.lt_or_ge m stop with hlt | hge
  · exact .inr ⟨hlt, hv.eq_gap hleast.1 (exists_start_after hfar hleast.1 hlt)⟩
  · -- the furthest end is not covered itself, so the first index that is not cannot lie behind it
    have hstop : a.cover stop = 0 := by
      by_contra hcover
      exact Nat.lt_irrefl _ (lt_furthest_of_cover hfar (Nat.pos_of_ne_zero hcover))
    obtain rfl : m = stop := Nat.le_antisymm (hleast.2 hstop) hge
    exact .inl ⟨rfl, (hv.eq_at_end hleast.1 fun s hs => hs.le_furthest hfar).2.1
      (h.total_lt hfar)⟩

/-- Where ranges run past the end of an index space that is covered just once, the furthest end is
reported if all indices before it are covered. Otherwise the first hole is reported, which lies past
the end as well. -/
theorem Bounded.reports_past_the_end (h : a.Bounded) (hwords : a.InWords)
    (hfits : ∀ p ∈ a.freePieces, p.Fits a.free.top) (hsizes : ∀ e ∈ a.allocations, 0 < e.2)
    (hover : a.Overruns) :
    ∃ stop, IsGreatest {i | a.Stops i} stop ∧ a.totalSize < stop ∧
      (a.violation?.outcome.result = .ok (some (.outOfBounds stop)) ↔
        ∀ i < stop, a.cover i = 1) ∧
      ∀ m < stop, IsLeast {i | a.cover i = 0} m →
        a.totalSize ≤ m ∧ ∃ next, IsLeast {s | m < s ∧ a.Starts s} next ∧
          a.violation?.outcome.result = .ok (some (.gap m next)) := by
  obtain ⟨i, hi⟩ := hover.exists_stops
  obtain ⟨stop, hfar⟩ := exists_furthest hi
  obtain ⟨m, v, hleast, hrun, hverdict⟩ := h.violation?_verdict hwords hfits hsizes
  simp only [hover.cover_ne_one_iff] at hleast
  have hresult : a.violation?.outcome.result = .ok v := by
    rw [hrun]
    rfl
  have hcases := hover.verdict_cases hfar hleast hverdict
  refine ⟨stop, hfar, hover.total_lt hfar, ⟨fun hreport => ?_, fun hall => ?_⟩,
    fun hole hhole hfirst => ?_⟩
  · obtain rfl : v = some (.outOfBounds stop) := Except.ok.inj (hresult.symm.trans hreport)
    obtain ⟨rfl, -⟩ | ⟨-, _, -, hgap⟩ := hcases
    · intro i hlt
      by_contra hcover
      exact absurd (hleast.2 (hover.cover_ne_one_iff.1 hcover)) (Nat.not_le_of_lt hlt)
    · cases hgap
  · obtain ⟨-, rfl⟩ | ⟨hlt, -⟩ := hcases
    · exact hresult
    · exact absurd (hall m hlt) (hover.cover_ne_one_iff.2 hleast.1)
  · obtain rfl := hfirst.unique hleast
    obtain ⟨rfl, -⟩ | ⟨-, next, hnext, rfl⟩ := hcases
    · exact absurd hhole (Nat.lt_irrefl _)
    · exact ⟨hover.total_le hleast.1, next, hnext, hresult⟩

theorem Bounded.reports_past_the_end_behind_pieces :
    ∃ a : Allocator, a.totalSize = 8 ∧ a.freePieces = [⟨2, 0, 4⟩, ⟨2, 4, 4⟩] ∧
      a.allocations = [(8, 3)] ∧ IsGreatest {i | a.Stops i} 11 ∧
      a.violation?.outcome.result = .ok (some (.outOfBounds 11)) := by
  let a : Allocator := ⟨4, 8, .ofPieces 3 [⟨2, 0, 4⟩, ⟨2, 4, 4⟩], IndexMap.empty.insert 8 3⟩
  have hperm : [(0, 4), (4, 4), (8, 3)].Perm (a.freePieces.map Piece.range ++ a.allocations) :=
    .of_eq (by decide +kernel)
  have hspaced : Gaps.Spaced 11 0 [(0, 4), (4, 4), (8, 3)] := by simp [Gaps.Spaced]
  have hfront : Tiles 8 0 [(0, 4), (4, 4)] := ⟨rfl, rfl, rfl⟩
  have hback : Gaps.Spaced 11 8 [(8, 3)] := by simp [Gaps.Spaced]
  have hover : a.Overruns := overruns_of_perm hfront hback (List.cons_ne_nil _ _) hperm
  have hbounded : a.Bounded := by constructor <;> decide +kernel
  have hwords : a.InWords := by constructor <;> decide +kernel
  obtain ⟨stop, hfar, -, hreport, -⟩ :=
    hbounded.reports_past_the_end hwords (by decide +kernel) (by decide +kernel) hover
  obtain rfl := hfar.unique (isGreatest_stops_of_spaced hperm hspaced
    ⟨(8, 3), hperm.mem_iff.1 (by simp), rfl⟩)
  exact ⟨a, rfl, by decide +kernel, by decide +kernel, hfar, hreport.2 (by decide +kernel)⟩

/-- A single allocation far past the end, put there behind the back of the free lists, is not
reported as such. -/
theorem hole_past_the_end_reported :
    ∃ new a : Allocator, (create 4 2).outcome.result = .ok (.ok new) ∧
      (new.putAllocation 100 1).2 = a ∧ a.Overruns ∧
      (∀ p ∈ a.freePieces, p.Fits a.free.top) ∧ (∀ e ∈ a.allocations, 0 < e.2) ∧
      IsGreatest {i | a.Stops i} 101 ∧
      a.violation?.outcome.result = .ok (some (.gap 8 100)) ∧
      a.violation?.outcome.result ≠ .ok (some (.outOfBounds 101)) := by
  let new : Allocator := blank 4 2
  let a : Allocator := (new.putAllocation 100 1).2
  have hcreate : (create 4 2).outcome.result = .ok (.ok new) :=
    outcome_create_iff.2 ⟨⟨⟨2, by decide, rfl⟩, by decide⟩, rfl⟩
  have hperm : [(0, 4), (4, 4), (100, 1)].Perm (a.freePieces.map Piece.range ++ a.allocations) :=
    .of_eq (by decide +kernel)
  have hfront : Tiles 8 0 [(0, 4), (4, 4)] := ⟨rfl, rfl, rfl⟩
  have hback : Gaps.Spaced 101 8 [(100, 1)] := by simp [Gaps.Spaced]
  have hspaced : Gaps.Spaced 101 0 [(0, 4), (4, 4), (100, 1)] := by simp [Gaps.Spaced]
  have hover : a.Overruns := overruns_of_perm hfront hback (List.cons_ne_nil _ _) hperm
  have hbounded : a.Bounded := by constructor <;> decide +kernel
  have hfits : ∀ p ∈ a.freePieces, p.Fits a.free.top := by decide +kernel
  have hsizes : ∀ e ∈ a.allocations, 0 < e.2 := by decide +kernel
  have hfar : IsGreatest {i | a.Stops i} 101 := isGreatest_stops_of_spaced hperm hspaced
    ⟨(100, 1), hperm.mem_iff.1 (by simp), rfl⟩
  have hgap : a.violation?.outcome.result = .ok (some (.gap 8 100)) := by
    rw [hbounded.violation?_of_fits hfits hsizes, coverageViolation?,
      ranges_eq_of_spaced hperm hspaced]
    rfl
  refine ⟨new, a, hcreate, rfl, hover, hfits, hsizes, hfar, hgap, ?_⟩
  rw [hgap]
  simp

end AlignedRuns.Allocator
