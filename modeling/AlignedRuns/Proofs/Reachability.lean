import AlignedRuns.History
import AlignedRuns.Proofs.Batches
set_option autoImplicit false

namespace AlignedRuns

namespace Allocator
open Traced

section Creation
variable {top slotCount : Nat}

structure Admissible (maxSize slotCount : Nat) : Prop where
  exists_class : ∃ top < indexBits, maxSize = 2 ^ top
  total_lt : maxSize * slotCount < 2 ^ indexBits

def blank (maxSize slotCount : Nat) : Allocator :=
  Allocator.withAllocations
    ⟨maxSize, maxSize * slotCount, ⟨List.replicate (Bits.ceilLog2 maxSize + 1) .empty⟩, .empty⟩
    .empty

theorem Admissible.sized {maxSize : Nat} (h : Admissible maxSize slotCount) {free : FreeLists}
    (hcount : free.count = Bits.ceilLog2 maxSize + 1) (inUse : IndexMap) :
    Sized ⟨maxSize, maxSize * slotCount, free, inUse⟩ := by
  obtain ⟨⟨top, htop, rfl⟩, htotal⟩ := h
  rw [Bits.ceilLog2_two_pow] at hcount
  have heq := FreeLists.top_of_count hcount
  refine ⟨?_, ?_, ?_, Nat.dvd_mul_right _ _, htotal⟩
  · rw [hcount]
    exact Nat.succ_pos _
  · rw [heq]
    exact htop
  · rw [heq]

theorem blank_sized {maxSize : Nat} (h : Admissible maxSize slotCount) :
    Sized ⟨maxSize, maxSize * slotCount,
      ⟨List.replicate (Bits.ceilLog2 maxSize + 1) .empty⟩, .empty⟩ :=
  h.sized List.length_replicate _

theorem blank_canonical {maxSize : Nat} (h : Admissible maxSize slotCount) :
    (blank maxSize slotCount).Canonical :=
  (blank_sized h).canonical (by rw [IndexMap.toList_empty]; exact Nat.zero_le _)

/-- Storing slot after slot stores the pieces of the whole index space. -/
theorem foldlM_slots (htop : top < indexBits) (hbound : slotCount * 2 ^ top < 2 ^ indexBits)
    {s : FreeLists} (hcount : s.count = top + 1) (hs : s.toList = []) :
    ∃ t : FreeLists, ((List.range slotCount).foldlM (fun s slot => do
        let start ← Word.mul indexBits slot (2 ^ top)
        s.insertRun start (2 ^ top)) s) =
          (do emit ((Split.pieces top 0 (slotCount * 2 ^ top)).map .stored); pure t) ∧
      t.count = top + 1 ∧ t.toList.Perm (Split.pieces top 0 (slotCount * 2 ^ top)) := by
  induction slotCount with
  | zero =>
    refine ⟨s, ?_, hcount, ?_⟩
    · rw [Nat.zero_mul, Split.pieces_zero]
      rfl
    · rw [Nat.zero_mul, Split.pieces_zero, hs]
  | succ k ih =>
    have hnext : k * 2 ^ top + 2 ^ top < 2 ^ indexBits := by
      rw [← Nat.succ_mul]
      exact hbound
    have hhere : k * 2 ^ top < 2 ^ indexBits := Nat.lt_of_le_of_lt (Nat.le_add_right _ _) hnext
    obtain ⟨t, hrun, ht, hperm⟩ := ih hhere
    have hcut : Split.pieces top 0 ((k + 1) * 2 ^ top) =
        Split.pieces top 0 (k * 2 ^ top) ++ Split.pieces top (k * 2 ^ top) (2 ^ top) := by
      have hall := Split.pieces_slots (Nat.le_of_lt htop) 0
      have hone := Split.pieces_slots (Nat.le_of_lt htop) k 1
      simp only [Nat.zero_mul, Nat.one_mul] at hall hone
      rw [hall, hall, hone, ← List.range_eq_range', List.range_succ, List.map_append,
        List.range_eq_range']
      rfl
    have hplaces := Gaps.nodup_places top
      (show Gaps.Spaced ((k + 1) * 2 ^ top) 0 [] from Nat.zero_le _)
    have hwhole : Gaps.pieces top ((k + 1) * 2 ^ top) 0 [] =
        Split.pieces top 0 (k * 2 ^ top) ++ Split.pieces top (k * 2 ^ top) (2 ^ top) := by
      rw [← hcut]
      exact List.append_nil _
    rw [hwhole, (List.perm_append_comm.map _).nodup_iff] at hplaces
    obtain ⟨u, hstore, hu, huperm⟩ := FreeLists.insertRun_of_perm ht htop hnext hperm hplaces
    refine ⟨u, ?_, hu, ?_⟩
    · simp only [List.range_succ, List.foldlM_append, List.foldlM_cons, List.foldlM_nil, hrun,
        emit_pure_bind, Word.mul_of_lt hhere, pure_bind, hstore, emit_bind_emit, hcut, List.map_append]
    · rw [hcut]
      exact huperm.trans List.perm_append_comm

theorem create_eq {maxSize : Nat} (h : Admissible maxSize slotCount) :
    create maxSize slotCount = (do
      emit ((Split.pieces (Bits.ceilLog2 maxSize) 0 (slotCount * maxSize)).map .stored ++
        [.created slotCount maxSize (Bits.ceilLog2 maxSize + 1)])
      pure (.ok (blank maxSize slotCount))) := by
  have hsized := blank_sized h
  obtain ⟨⟨top, htop, rfl⟩, htotal⟩ := h
  have hclasses : FreeLists.create (top + 1) = pure ⟨List.replicate (top + 1) .empty⟩ := by
    rw [FreeLists.create, require_of (by unfold maxClasses; omega), pure_bind]
  have hcount : FreeLists.count ⟨List.replicate (top + 1) .empty⟩ = top + 1 := List.length_replicate
  obtain ⟨t, hrun, ht, hperm⟩ := foldlM_slots (s := ⟨List.replicate (top + 1) .empty⟩) htop
    (by rw [Nat.mul_comm]; exact htotal) hcount (FreeLists.toList_replicate_empty _)
  have hblank : (⟨2 ^ top, 2 ^ top * slotCount, t, .empty⟩ : Allocator) =
      blank (2 ^ top) slotCount := by
    refine hsized.eq_withAllocations ?_ ?_ ?_
    · rw [IndexMap.toList_empty]
      exact Nat.zero_le _
    · simp only [Bits.ceilLog2_two_pow]
      exact ht.trans hcount.symm
    · simp only [Bits.ceilLog2_two_pow, FreeLists.top_of_count hcount, IndexMap.toList_empty]
      rw [Nat.mul_comm]
      exact hperm.trans (List.Perm.of_eq (List.append_nil _).symm)
  have hword : 2 ^ top < 2 ^ indexBits := (Nat.pow_lt_pow_iff_right (by decide)).2 htop
  have hadd : Word.add indexBits top 1 = pure (top + 1) :=
    Word.add_of_lt (Nat.lt_of_le_of_lt htop (by decide))
  simp only [create, Word.isPowerOfTwo_eq, Bits.isPowerOfTwo_two_pow, Bool.true_eq_false, if_false,
    if_neg (Nat.not_le.2 htotal), Word.ceilLog2_eq hword, Bits.ceilLog2_two_pow, hadd, hclasses,
    pure_bind, hrun, emit_pure_bind, ht, record_eq_emit, emit_bind_emit, hblank]

theorem create_of_not_power {maxSize : Nat} (h : Bits.isPowerOfTwo maxSize = false)
    (slotCount : Nat) : create maxSize slotCount = pure (.error (.notPowerOfTwo maxSize)) := by
  rw [create, Word.isPowerOfTwo_eq, pure_bind, if_pos h]

theorem create_of_large {top : Nat} (h : 2 ^ indexBits ≤ 2 ^ top * slotCount) :
    create (2 ^ top) slotCount = pure (.error (.tooLarge (2 ^ top) slotCount)) := by
  rw [create, Word.isPowerOfTwo_eq, Bits.isPowerOfTwo_two_pow, pure_bind, if_neg (by decide),
    if_pos h]

/-- A power of two that no word holds has no size class. -/
theorem ceilLog2_of_indexBits_le {k : Nat} (h : indexBits ≤ k) :
    Word.ceilLog2 (2 ^ k) = pure indexBits := by
  have htwo : 2 ^ 1 ≤ 2 ^ k := Nat.pow_le_pow_right (by decide) (Nat.le_trans (by decide) h)
  have hclear : Bits.leadingZeros (2 ^ k - 1) = 0 := by
    change Bits.leadingZerosIn (31 + 1) _ = 0
    have hset : (2 ^ k - 1).testBit 31 = true := by
      rw [Nat.testBit_two_pow_sub_one]
      exact decide_eq_true h
    rw [Bits.leadingZerosIn, if_pos hset]
  have hlog : Word.floorLog2 (2 ^ k - 1) = pure 31 := by
    rw [Word.floorLog2, require_of (by omega), pure_bind, hclear]
    rfl
  rw [Word.ceilLog2, if_neg (by omega), Word.sub_of_le (by omega), pure_bind, hlog, pure_bind]
  rfl

theorem outcome_create_iff {maxSize : Nat} {a : Allocator} :
    (create maxSize slotCount).outcome.result = .ok (.ok a) ↔
      Admissible maxSize slotCount ∧ a = blank maxSize slotCount := by
  constructor
  · intro hrun
    have hadmissible : Admissible maxSize slotCount := by
      by_cases hpower : Bits.isPowerOfTwo maxSize = false
      · rw [create_of_not_power hpower] at hrun
        cases hrun
      obtain ⟨top, rfl⟩ := (Bits.isPowerOfTwo_iff _).1 (Bool.eq_true_of_not_eq_false hpower)
      by_cases htotal : 2 ^ indexBits ≤ 2 ^ top * slotCount
      · rw [create_of_large htotal] at hrun
        cases hrun
      refine ⟨⟨top, ?_, rfl⟩, Nat.lt_of_not_le htotal⟩
      by_contra hbig
      -- one list more than there are classes is asked for
      rw [create, Word.isPowerOfTwo_eq, pure_bind, if_neg hpower, if_neg htotal,
        ceilLog2_of_indexBits_le (Nat.le_of_not_lt hbig)] at hrun
      cases hrun
    refine ⟨hadmissible, ?_⟩
    rw [create_eq hadmissible, outcome_emit_pure] at hrun
    cases hrun
    rfl
  · rintro ⟨hadmissible, rfl⟩
    rw [create_eq hadmissible, outcome_emit_pure]

end Creation
inductive Answers {α : Type} (a : Allocator) (x : Traced (Reply α)) : Prop where
  | refused (refusal : Refusal) (run : x = pure (a.refuse refusal))
  | accepted (value : α) (m : IndexMap) (changes : Journal) (entry : Event)
    (spaced : Gaps.Spaced a.totalSize 0 m.toList)
    (trace : ∀ e ∈ changes, e.severity = .trace) (debug : entry.severity = .debug)
    (run : x = do emit (changes ++ [entry]); pure ((a.withAllocations m).accept value))

theorem Answers.map {α β : Type} {a : Allocator} {x : Traced (Reply α)} (h : a.Answers x)
    (f : α → β) : a.Answers (Reply.map f <$> x) := by
  cases h with
  | refused refusal run =>
    rw [run]
    exact .refused refusal rfl
  | accepted value m changes entry spaced trace debug run =>
    rw [run]
    exact .accepted (f value) m changes entry spaced trace debug rfl

theorem Answers.exists_reply {α : Type} {a : Allocator} {x : Traced (Reply α)} (h : a.Answers x)
    (hcanonical : a.Canonical) :
    ∃ reply : Reply α, x.outcome.result = .ok reply ∧ reply.after.Canonical ∧
      reply.after.maxSize = a.maxSize ∧ reply.after.totalSize = a.totalSize := by
  cases h with
  | refused refusal run => exact ⟨_, by rw [run]; rfl, hcanonical, rfl, rfl⟩
  | accepted value m changes entry spaced trace debug run =>
    exact ⟨_, by rw [run, outcome_emit_pure], hcanonical.canonical spaced, rfl, rfl⟩

theorem Answers.after_of_refused {α : Type} {a b : Allocator} {x : Traced (Reply α)}
    {refusal : Refusal} (h : a.Answers x)
    (hrun : x.outcome.result = .ok ⟨.error refusal, b⟩) : b = a := by
  cases h with
  | refused _ run =>
    rw [run] at hrun
    cases hrun
    rfl
  | accepted value m changes entry spaced trace debug run =>
    rw [run, outcome_emit_pure] at hrun
    cases hrun

section Steps
variable {a : Allocator} {offset size count : Nat}

theorem Canonical.allocate_answers (h : a.Canonical) (size : Nat) :
    a.Answers (a.allocate size) := by
  by_cases hsize : 0 < size ∧ size ≤ a.maxSize
  · cases hfit : a.free.firstFit? (Bits.ceilLog2 size) size with
    | none => exact .refused _ (h.allocate_of_no_fit hsize.1 hsize.2 hfit)
    | some p =>
      obtain ⟨hp, hclass, hlen⟩ := FreeLists.firstFit?_some hfit
      obtain ⟨hleft, hright⟩ := highestPlace_bounds (h.fits hp) hlen hclass
      have hv := (h.carve_piece hp hsize.1 hleft hright).1
      have hrun := h.allocate_of_fit hsize.1 hsize.2 hfit
      rw [← List.append_assoc] at hrun
      refine .accepted _ _ _ _ (h.spaced_insert hv hsize.1) ?_ rfl hrun
      intro e he
      exact (List.mem_append.1 he).elim storing_severity storing_severity
  · exact .refused _ (allocate_of_refusal hsize)

theorem Canonical.release_answers (h : a.Canonical) (offset : Nat) :
    a.Answers (a.release offset) := by
  cases hsize : a.inUse.get? offset with
  | none => exact .refused _ (release_of_none hsize)
  | some size =>
    exact .accepted _ _ _ _ (h.spaced_erase offset) (fun _ he => freeing_severity he) rfl
      (h.release_of_some hsize)

theorem Canonical.reserve_answers (h : a.Canonical) (offset size : Nat) :
    a.Answers (a.reserve offset size) := by
  rcases Nat.eq_zero_or_pos size with rfl | hsize
  · exact .refused _ (reserve_zero a offset)
  by_cases hv : a.Vacant offset size
  · exact .accepted _ _ _ _ (h.spaced_insert hv hsize) (fun _ he => carving_severity he) rfl
      (h.reserve_of_vacant hv hsize)
  · exact .refused _ (h.reserve_of_not_vacant hv hsize)

theorem Canonical.allocateMany_answers (h : a.Canonical) (size : Nat)
    (hword : count < 2 ^ indexBits) : a.Answers (a.allocateMany size count) := by
  rcases Nat.lt_or_ge count 2 with hfew | hcount
  · rcases Nat.lt_or_ge count 1 with hzero | hone
    · obtain rfl : count = 0 := by omega
      exact .refused _ (allocateMany_zero a size)
    · obtain rfl : count = 1 := by omega
      exact allocateMany_one a size ▸ h.allocate_answers size
  by_cases hsize : 0 < size ∧ size ≤ a.maxSize
  · by_cases hclass : Bits.ceilLog2 size = a.free.top
    · have hrun := h.allocateMany_eq hcount hword hsize.1 hsize.2 hclass
      cases hplace : a.batchPlace? size count with
      | none =>
        rw [hplace] at hrun
        exact .refused _ hrun
      | some first =>
        obtain ⟨events, htrace, hfill, hspaced⟩ :=
          h.fillTopPieces_eq hsize.1 rfl (room_of_batchPlace? hplace)
        simp only [hplace, hfill, emit_pure_bind, emit_bind_emit] at hrun
        exact .accepted _ _ _ _ hspaced htrace rfl hrun
    · exact .refused _ (h.allocateMany_of_class hcount hsize.1 hsize.2 hclass)
  · exact .refused _ (allocateMany_of_refusal hcount hsize)

theorem Canonical.releaseMany_answers (h : a.Canonical) (offset : Nat)
    (hword : count < 2 ^ indexBits) : a.Answers (a.releaseMany offset count) := by
  rcases Nat.lt_or_ge count 2 with hfew | hcount
  · rcases Nat.lt_or_ge count 1 with hzero | hone
    · obtain rfl : count = 0 := by omega
      exact .refused _ (releaseMany_zero a offset)
    · obtain rfl : count = 1 := by omega
      exact releaseMany_one a offset ▸ h.release_answers offset
  cases hsize : a.inUse.get? offset with
  | none => exact .refused _ (releaseMany_of_none hcount hsize)
  | some size =>
    by_cases hclass : Bits.ceilLog2 size = a.free.top
    · have hrun := h.releaseMany_eq hcount hword hsize hclass
      split at hrun
      · exact .refused _ hrun
      · cases hvacant : a.vacantPlace? offset count with
        | some place =>
          rw [hvacant] at hrun
          exact .refused _ hrun
        | none =>
          obtain ⟨events, htrace, hfree, hspaced⟩ := h.freeRuns_eq (Nat.two_pow_pos a.free.top)
            (live_of_vacantPlace? hvacant (Option.isSome_iff_exists.2 ⟨size, hsize⟩))
          simp only [hvacant, hfree, emit_pure_bind, emit_bind_emit] at hrun
          exact .accepted _ _ _ _ hspaced htrace rfl hrun
    · exact .refused _ (h.releaseMany_of_class hcount hsize hclass)

theorem Canonical.perform_answers (h : a.Canonical) {request : Request}
    (hwords : request.InWords) : a.Answers (request.perform a) := by
  cases request with
  | allocate size => exact (h.allocate_answers size).map some
  | release offset => exact (h.release_answers offset).map _
  | reserve offset size => exact (h.reserve_answers offset size).map _
  | allocateMany size count => exact (h.allocateMany_answers size hwords.2).map some
  | releaseMany offset count => exact (h.releaseMany_answers offset hwords.2).map _

end Steps

end Allocator

namespace Reachable
open Allocator
variable {maxSize slotCount : Nat} {a : Allocator}

theorem admissible (h : Reachable maxSize slotCount a) : Admissible maxSize slotCount := by
  induction h with
  | fresh h => exact (outcome_create_iff.1 h).1
  | step _ _ _ ih => exact ih

/-- What a new allocator is and what every request keeps. -/
theorem canonical (h : Reachable maxSize slotCount a) :
    a.Canonical ∧ a.maxSize = maxSize ∧ a.totalSize = maxSize * slotCount := by
  induction h with
  | fresh h =>
    obtain ⟨hadmissible, rfl⟩ := outcome_create_iff.1 h
    exact ⟨blank_canonical hadmissible, rfl, rfl⟩
  | step _ words performed ih =>
    obtain ⟨hcanonical, hmax, htotal⟩ := ih
    obtain ⟨reply, hreply, hafter, hmax', htotal'⟩ :=
      (hcanonical.perform_answers words).exists_reply hcanonical
    cases hreply.symm.trans performed
    exact ⟨hafter, hmax'.trans hmax, htotal'.trans htotal⟩

theorem blank (h : Admissible maxSize slotCount) :
    Reachable maxSize slotCount (blank maxSize slotCount) :=
  .fresh (outcome_create_iff.2 ⟨h, rfl⟩)

end Reachable

end AlignedRuns
