import AlignedRuns.Proofs.Diagnosis
import Mathlib.Order.Bounds.Basic
set_option autoImplicit false

/-!
# Where the sweep stops

The sweep passes the ranges that follow one another and stops at the first that does not. In sorted
ranges it has then seen all that could cover an index below that place, so what it reports is about
the first index that is not covered just once.
-/

namespace AlignedRuns

namespace Allocator
open Coverage

variable {a : Allocator} {m stop i s : Nat} {front back : List (Nat × Nat)} {r : Nat × Nat}

def Starts (a : Allocator) (i : Nat) : Prop :=
  ∃ r ∈ a.freePieces.map Piece.range ++ a.allocations, r.1 = i

/-- What is to be reported when `m` is the first index that is not covered just once. -/
inductive Verdict (a : Allocator) (m : Nat) : Option Violation → Prop where
  | overlap (hcover : 2 ≤ a.cover m) : a.Verdict m (some (.overlap m))
  | gap {next : Nat} (hcover : a.cover m = 0) (hnext : IsLeast {s | m < s ∧ a.Starts s} next) :
    a.Verdict m (some (.gap m next))
  | lastGap (hcover : a.cover m = 0) (hlast : ∀ s, a.Starts s → s ≤ m) (hlt : m < a.totalSize) :
    a.Verdict m (some (.gap m a.totalSize))
  | outOfBounds (hcover : a.cover m = 0) (hlast : ∀ s, a.Starts s → s ≤ m)
    (hgt : a.totalSize < m) : a.Verdict m (some (.outOfBounds m))
  | covered {v : Option Violation} (hcover : a.cover m = 0) (hlast : ∀ s, a.Starts s → s ≤ m)
    (heq : m = a.totalSize) (hv : v = none ∨ ∃ offset len, v = some (.layout offset len)) :
    a.Verdict m v

/-- The ranges are not empty, and the sweep has passed those in `front` and is now at `stop`. -/
structure Passed (a : Allocator) (front back : List (Nat × Nat)) (stop : Nat) : Prop where
  ranges_eq : a.ranges = front ++ back
  pos : ∀ r ∈ a.ranges, 0 < r.2
  tiles : Tiles stop 0 front

namespace Passed

theorem cover_eq (h : a.Passed front back stop) (i : Nat) :
    a.cover i = (if i < stop then 1 else 0) + back.countP (covers i) := by
  rw [cover, ← a.perm_ranges.countP_eq, h.ranges_eq, List.countP_append, h.tiles.countP_covers]
  simp only [Nat.zero_le, true_and]

theorem cover_of_lt (h : a.Passed front back stop) (hback : ∀ r ∈ back, i < r.1) :
    a.cover i = if i < stop then 1 else 0 := by
  have hnone : back.countP (covers i) = 0 := by
    refine List.countP_eq_zero.2 fun r hr => ?_
    have := hback r hr
    simp only [covers, Bool.and_eq_true, decide_eq_true_eq]
    omega
  rw [h.cover_eq, hnone, Nat.add_zero]

/-- Up to where the sweep is, and to where the next range starts, each index is covered once. -/
theorem isLeast (h : a.Passed front back stop) (hstop : m ≤ stop) (hback : ∀ r ∈ back, m ≤ r.1)
    (hcover : a.cover m ≠ 1) : IsLeast {i | a.cover i ≠ 1} m := by
  refine ⟨hcover, fun i hi => ?_⟩
  by_contra hlt
  have hlt : i < m := Nat.not_le.1 hlt
  have hone := h.cover_of_lt fun r hr => Nat.lt_of_lt_of_le hlt (hback r hr)
  rw [if_pos (Nat.lt_of_lt_of_le hlt hstop)] at hone
  exact hi hone

theorem start_of_starts (h : a.Passed front back stop) (hs : a.Starts s) :
    s < stop ∨ ∃ r ∈ back, r.1 = s := by
  obtain ⟨r, hr, rfl⟩ := hs
  have hr' : r ∈ front ++ back := h.ranges_eq ▸ a.perm_ranges.mem_iff.2 hr
  rcases List.mem_append.1 hr' with hfront | hback
  · have hpos : ∀ q ∈ front, 0 < q.2 :=
      fun q hq => h.pos q (h.ranges_eq ▸ List.mem_append_left _ hq)
    have := (h.tiles.spaced hpos).bounds hfront
    exact .inl (by omega)
  · exact .inr ⟨r, hback, rfl⟩

theorem starts_of_mem (h : a.Passed front back stop) (hr : r ∈ back) : a.Starts r.1 :=
  ⟨r, a.perm_ranges.mem_iff.1 (h.ranges_eq ▸ List.mem_append_right _ hr), rfl⟩

theorem head_le (h : a.Passed front (r :: back) stop) : ∀ q ∈ r :: back, r.1 ≤ q.1 := by
  have hsorted := a.pairwise_ranges
  rw [h.ranges_eq, List.pairwise_append, List.pairwise_cons] at hsorted
  refine List.forall_mem_cons.2 ⟨Nat.le_refl _, fun q hq => ?_⟩
  have := hsorted.2.1.1 q hq
  omega

theorem overlap (h : a.Passed front (r :: back) stop) (hlt : r.1 < stop) :
    IsLeast {i | a.cover i ≠ 1} r.1 ∧ a.Verdict r.1 (some (.overlap r.1)) := by
  have hpos : 0 < r.2 := h.pos r (h.ranges_eq ▸ List.mem_append_right _ List.mem_cons_self)
  have hcovers : covers r.1 r = true := by simp [covers, hpos]
  have htwo : 2 ≤ a.cover r.1 := by
    rw [h.cover_eq, if_pos hlt, List.countP_cons_of_pos hcovers]
    omega
  exact ⟨h.isLeast (Nat.le_of_lt hlt) h.head_le (by omega), .overlap htwo⟩

theorem gap (h : a.Passed front (r :: back) stop) (hgt : stop < r.1) :
    IsLeast {i | a.cover i ≠ 1} stop ∧ a.Verdict stop (some (.gap stop r.1)) := by
  have hlater : ∀ q ∈ r :: back, stop < q.1 := fun q hq => Nat.lt_of_lt_of_le hgt (h.head_le q hq)
  have hzero := h.cover_of_lt hlater
  rw [if_neg (Nat.lt_irrefl _)] at hzero
  refine ⟨h.isLeast (Nat.le_refl _) (fun q hq => Nat.le_of_lt (hlater q hq)) (by omega),
    .gap hzero ⟨⟨hgt, h.starts_of_mem List.mem_cons_self⟩, ?_⟩⟩
  rintro s ⟨hafter, hs⟩
  rcases h.start_of_starts hs with hbefore | ⟨q, hq, rfl⟩
  · exact absurd hbefore (Nat.lt_asymm hafter)
  · exact h.head_le q hq

/-- After all ranges only the end of the index space is left to compare with. -/
theorem finished (h : a.Passed front [] stop) :
    IsLeast {i | a.cover i ≠ 1} stop ∧ a.cover stop = 0 ∧ ∀ s, a.Starts s → s ≤ stop := by
  have hzero := h.cover_of_lt (i := stop) nofun
  rw [if_neg (Nat.lt_irrefl _)] at hzero
  refine ⟨h.isLeast (Nat.le_refl _) nofun (by omega), hzero, fun s hs => ?_⟩
  rcases h.start_of_starts hs with hbefore | ⟨_, hnone, _⟩
  · exact Nat.le_of_lt hbefore
  · cases hnone

end Passed

theorem coverageViolation?_verdict (hwords : a.InWords) (hpos : ∀ r ∈ a.ranges, 0 < r.2) :
    ∃ m v, IsLeast {i | a.cover i ≠ 1} m ∧ a.coverageViolation? = pure v ∧ a.Verdict m v := by
  obtain ⟨front, back, stop, hlist, htiles, hhead, hrun⟩ :=
    sweep_stops a.totalSize 0 hwords.ranges
  have hpassed : a.Passed front back stop := ⟨hlist, hpos, htiles⟩
  cases back with
  | nil =>
    obtain ⟨hleast, hzero, hlast⟩ := hpassed.finished
    refine ⟨stop, _, hleast, hrun.trans (sweep_nil _ _), ?_⟩
    rcases Nat.lt_trichotomy stop a.totalSize with hlt | heq | hgt
    · rw [if_pos hlt]
      exact .lastGap hzero hlast hlt
    · rw [if_neg (Nat.not_lt_of_le (Nat.le_of_eq heq.symm)),
        if_neg (Nat.not_lt_of_le (Nat.le_of_eq heq))]
      exact .covered hzero hlast heq (.inl rfl)
    · rw [if_neg (Nat.lt_asymm hgt), if_pos hgt]
      exact .outOfBounds hzero hlast hgt
  | cons r back =>
    rcases Nat.lt_or_gt_of_ne (hhead r rfl) with hlt | hgt
    · obtain ⟨hleast, hverdict⟩ := hpassed.overlap hlt
      exact ⟨r.1, _, hleast, hrun.trans (sweep_of_start_lt hlt), hverdict⟩
    · obtain ⟨hleast, hverdict⟩ := hpassed.gap hgt
      exact ⟨stop, _, hleast, hrun.trans (sweep_of_lt_start hgt), hverdict⟩

theorem Bounded.violation?_verdict (h : a.Bounded) (hwords : a.InWords)
    (hfits : ∀ p ∈ a.freePieces, p.Fits a.free.top) (hsizes : ∀ e ∈ a.allocations, 0 < e.2) :
    ∃ m v, IsLeast {i | a.cover i ≠ 1} m ∧ a.violation? = pure v ∧ a.Verdict m v := by
  have hpieces : ∀ p ∈ a.freePieces, 0 < p.len := fun p hp => (hfits p hp).len_pos
  obtain ⟨m, v, hleast, hrun, hverdict⟩ :=
    coverageViolation?_verdict hwords (ranges_pos hpieces hsizes)
  rw [h.violation?_of_fits hfits hsizes, hrun, pure_bind]
  cases v with
  | some v => exact ⟨m, some v, hleast, rfl, hverdict⟩
  | none =>
    -- the sweep has found nothing, so the allocations are spaced and the last pass can go over them
    obtain ⟨found, hfound, htiles⟩ := coverageViolation?_eq hwords
    have hnone := congrArg (fun x => x.outcome.result) (hfound.symm.trans hrun)
    have hspaced := spaced_of_tiles hpieces hsizes (htiles.1 (Except.ok.inj hnone))
    obtain ⟨v, hlast, hlayout, -⟩ := h.gapsViolation?_eq hspaced 0
    cases hverdict with
    | covered hcover hstarts htotal _ =>
      exact ⟨m, v, hleast, hlast, .covered hcover hstarts htotal hlayout⟩

namespace Verdict

variable {v : Option Violation}

theorem eq_overlap (h : a.Verdict m v) (hcover : 2 ≤ a.cover m) : v = some (.overlap m) := by
  cases h with
  | overlap _ => rfl
  | gap hzero _ => omega
  | lastGap hzero _ _ => omega
  | outOfBounds hzero _ _ => omega
  | covered hzero _ _ _ => omega

theorem eq_gap (h : a.Verdict m v) (hcover : a.cover m = 0) (hlater : ∃ s, m < s ∧ a.Starts s) :
    ∃ next, IsLeast {s | m < s ∧ a.Starts s} next ∧ v = some (.gap m next) := by
  obtain ⟨s, hafter, hs⟩ := hlater
  cases h with
  | overlap htwo => omega
  | gap _ hnext => exact ⟨_, hnext, rfl⟩
  | lastGap _ hlast _ => exact absurd (hlast s hs) (Nat.not_le_of_lt hafter)
  | outOfBounds _ hlast _ => exact absurd (hlast s hs) (Nat.not_le_of_lt hafter)
  | covered _ hlast _ _ => exact absurd (hlast s hs) (Nat.not_le_of_lt hafter)

theorem eq_at_end (h : a.Verdict m v) (hcover : a.cover m = 0) (hlast : ∀ s, a.Starts s → s ≤ m) :
    (m < a.totalSize → v = some (.gap m a.totalSize)) ∧
    (a.totalSize < m → v = some (.outOfBounds m)) ∧
    (m = a.totalSize → v = none ∨ ∃ offset len, v = some (.layout offset len)) := by
  cases h with
  | overlap htwo => omega
  | gap _ hnext => exact absurd (hlast _ hnext.1.2) (Nat.not_le_of_lt hnext.1.1)
  | lastGap _ _ hlt =>
    exact ⟨fun _ => rfl, fun hgt => absurd hgt (Nat.lt_asymm hlt),
      fun heq => absurd heq (Nat.ne_of_lt hlt)⟩
  | outOfBounds _ _ hgt =>
    exact ⟨fun hlt => absurd hlt (Nat.lt_asymm hgt), fun _ => rfl,
      fun heq => absurd heq (Nat.ne_of_gt hgt)⟩
  | covered _ _ heq hlayout =>
    exact ⟨fun hlt => absurd heq (Nat.ne_of_lt hlt), fun hgt => absurd heq (Nat.ne_of_gt hgt),
      fun _ => hlayout⟩

theorem covered_of_layout (h : a.Verdict m v)
    (hlayout : v = none ∨ ∃ offset len, v = some (.layout offset len)) :
    m = a.totalSize ∧ ∀ s, a.Starts s → s ≤ m := by
  cases h with
  | covered _ hlast heq _ => exact ⟨heq, hlast⟩
  | overlap _ => simp at hlayout
  | gap _ _ => simp at hlayout
  | lastGap _ _ _ => simp at hlayout
  | outOfBounds _ _ _ => simp at hlayout

theorem isLeast_overlap {index : Nat} (h : a.Verdict m (some (.overlap index)))
    (hleast : IsLeast {i | a.cover i ≠ 1} m) : IsLeast {i | 2 ≤ a.cover i} index := by
  cases h with
  | overlap htwo =>
    refine ⟨htwo, fun i hi => hleast.2 ?_⟩
    change 2 ≤ a.cover i at hi
    change a.cover i ≠ 1
    omega
  | covered _ _ _ hlayout => simp at hlayout

end Verdict

/-- The diagnosis is exact about coverage. Of an allocator whose pieces and allocations are as they
should be by themselves, it reports the first index that is not covered just once. -/
theorem Bounded.reports_first_miscount (h : a.Bounded) (hwords : a.InWords)
    (hfits : ∀ p ∈ a.freePieces, p.Fits a.free.top) (hsizes : ∀ e ∈ a.allocations, 0 < e.2) :
    ∃ m v, IsLeast {i | a.cover i ≠ 1} m ∧ a.violation?.outcome.result = .ok v ∧
      (2 ≤ a.cover m → v = some (.overlap m)) ∧
      (a.cover m = 0 → (∃ s, m < s ∧ a.Starts s) →
        ∃ next, IsLeast {s | m < s ∧ a.Starts s} next ∧ v = some (.gap m next)) ∧
      (a.cover m = 0 → (∀ s, a.Starts s → s ≤ m) →
        (m < a.totalSize → v = some (.gap m a.totalSize)) ∧
        (a.totalSize < m → v = some (.outOfBounds m)) ∧
        (m = a.totalSize → v = none ∨ ∃ offset len, v = some (.layout offset len))) ∧
      ((v = none ∨ ∃ offset len, v = some (.layout offset len)) →
        m = a.totalSize ∧ ∀ s, a.Starts s → s ≤ m) ∧
      ∀ index, v = some (.overlap index) → IsLeast {i | 2 ≤ a.cover i} index := by
  obtain ⟨m, v, hleast, hrun, hverdict⟩ := h.violation?_verdict hwords hfits hsizes
  refine ⟨m, v, hleast, by rw [hrun]; rfl, hverdict.eq_overlap, hverdict.eq_gap,
    hverdict.eq_at_end, hverdict.covered_of_layout, ?_⟩
  rintro index rfl
  exact hverdict.isLeast_overlap hleast

theorem Bounded.reports_first_miscount_same_start :
    ∃ a : Allocator, a.freePieces = [⟨1, 4, 2⟩, ⟨2, 0, 4⟩] ∧ a.allocations = [(4, 4)] ∧
      a.violation?.outcome.result = .ok (some (.overlap 4)) ∧ IsLeast {i | 2 ≤ a.cover i} 4 := by
  let a : Allocator := ⟨4, 8, .ofPieces 3 [⟨2, 0, 4⟩, ⟨1, 4, 2⟩], IndexMap.empty.insert 4 4⟩
  have hbounded : a.Bounded := by constructor <;> decide +kernel
  have hwords : a.InWords := by constructor <;> decide +kernel
  obtain ⟨m, v, hleast, hrun, hoverlap, -, -, -, hfirst⟩ :=
    hbounded.reports_first_miscount hwords (by decide +kernel) (by decide +kernel)
  have hbefore : ∀ i < 4, a.cover i = 1 := by decide +kernel
  have hfour : IsLeast {i | a.cover i ≠ 1} 4 := by
    refine ⟨show a.cover 4 ≠ 1 by decide +kernel, fun i hi => ?_⟩
    by_contra hlt
    exact hi (hbefore i (Nat.not_le.1 hlt))
  obtain rfl := hleast.unique hfour
  obtain rfl := hoverlap (by decide +kernel)
  exact ⟨a, by decide +kernel, by decide +kernel, hrun, hfirst 4 rfl⟩

end Allocator

end AlignedRuns
