import AlignedRuns.Proofs.Coverage
set_option autoImplicit false

namespace AlignedRuns
open Traced

theorem Traced.findSomeM?_eq {α β : Type} {f : α → Traced (Option β)} {g : α → Option β}
    {xs : List α} (h : ∀ x ∈ xs, f x = pure (g x)) : xs.findSomeM? f = pure (xs.findSome? g) := by
  induction xs with
  | nil => rfl
  | cons x xs ih =>
    obtain ⟨hx, hxs⟩ := List.forall_mem_cons.1 h
    rw [List.findSomeM?_cons, hx, pure_bind, List.findSome?_cons]
    cases g x with
    | none => exact ih hxs
    | some y => rfl

namespace Piece

def flaw? (p : Piece) : Option Violation :=
  if p.len = 0 ∨ 2 ^ p.sizeClass < p.len ∨ p.len ≤ 2 ^ p.sizeClass / 2 then
    some (.classBound p.sizeClass p.offset p.len)
  else if p.offset ≠ 0 ∧ Bits.trailingZeros p.offset < p.sizeClass then
    some (.misaligned p.sizeClass p.offset)
  else none

theorem violation?_eq {p : Piece} (h : p.sizeClass < wideBits) : p.violation? = pure p.flaw? := by
  rw [violation?, Word.bit_of_lt h, pure_bind, flaw?]
  split
  · rfl
  · split <;> rfl

theorem flaw?_eq_none_iff {top : Nat} (htop : top < indexBits) {p : Piece}
    (hclass : p.sizeClass ≤ top) : p.flaw? = none ↔ p.Fits top := by
  have halign : ¬(p.offset ≠ 0 ∧ Bits.trailingZeros p.offset < p.sizeClass) ↔
      2 ^ p.sizeClass ∣ p.offset := by
    by_cases hzero : p.offset = 0
    · simp [hzero]
    · have hle := Bits.le_trailingZeros_iff p.offset p.sizeClass
      rw [and_iff_right (show p.sizeClass ≤ indexBits by omega)] at hle
      rw [← hle]
      omega
  unfold flaw?
  split
  · rename_i hlen
    refine iff_of_false nofun fun hfits => ?_
    have := hfits.len_le
    have := hfits.lt_two_mul_len
    omega
  · rename_i hlen
    split
    · rename_i hmisaligned
      exact iff_of_false nofun fun hfits => halign.2 hfits.aligned hmisaligned
    · rename_i haligned
      refine iff_of_true rfl ⟨hclass, halign.1 haligned, ?_, ?_⟩ <;> omega

end Piece

namespace Allocator
open Coverage

/-- All that the maps of the allocator hold is words. -/
structure InWords (a : Allocator) : Prop where
  pieces : ∀ p ∈ a.freePieces, p.offset < 2 ^ indexBits ∧ p.len < 2 ^ indexBits
  allocations : ∀ e ∈ a.allocations, e.1 < 2 ^ indexBits ∧ e.2 < 2 ^ indexBits

/-- There is a size class, and all classes and the index space are within those of words. -/
structure Bounded (a : Allocator) : Prop where
  count_pos : 0 < a.free.count
  top_lt : a.free.top < indexBits
  total_lt : a.totalSize < 2 ^ indexBits

variable {a : Allocator}

theorem Sized.bounded (h : a.Sized) : a.Bounded := ⟨h.count_pos, h.top_lt, h.total_lt⟩

theorem Bounded.count_eq (h : a.Bounded) : a.free.count = a.free.top + 1 :=
  (Nat.sub_add_cancel h.count_pos).symm

theorem Bounded.class_le_of_mem (h : a.Bounded) {p : Piece} (hp : p ∈ a.freePieces) :
    p.sizeClass ≤ a.free.top := by
  have := FreeLists.class_lt_of_mem hp
  have := h.count_eq
  omega

theorem Bounded.pieceViolation?_eq (h : a.Bounded) :
    a.pieceViolation? = pure (a.freePieces.findSome? Piece.flaw?) := by
  refine findSomeM?_eq fun p hp => Piece.violation?_eq ?_
  have := h.class_le_of_mem hp
  have := h.top_lt
  have : indexBits < wideBits := by decide
  omega

theorem Bounded.findSome?_flaw?_eq_none_iff (h : a.Bounded) :
    a.freePieces.findSome? Piece.flaw? = none ↔ ∀ p ∈ a.freePieces, p.Fits a.free.top := by
  rw [List.findSome?_eq_none_iff]
  exact forall₂_congr fun p hp => Piece.flaw?_eq_none_iff h.top_lt (h.class_le_of_mem hp)

theorem emptyAllocation?_eq_none_iff :
    a.emptyAllocation? = none ↔ ∀ e ∈ a.allocations, 0 < e.2 := by
  rw [emptyAllocation?, Option.map_eq_none_iff, List.find?_eq_none]
  refine forall₂_congr fun e _ => ?_
  rw [beq_iff_eq]
  omega

section Sweep
variable {total cursor start len : Nat} {ranges : List (Nat × Nat)}

theorem sweep_nil (total cursor : Nat) : sweep total cursor [] =
    pure (if cursor < total then some (.gap cursor total)
      else if total < cursor then some (.outOfBounds cursor) else none) := by
  unfold sweep
  split
  · rfl
  · split <;> rfl

theorem sweep_of_start_lt (h : start < cursor) :
    sweep total cursor ((start, len) :: ranges) = pure (some (.overlap start)) := if_pos h

theorem sweep_of_lt_start (h : cursor < start) :
    sweep total cursor ((start, len) :: ranges) = pure (some (.gap cursor start)) :=
  (if_neg (Nat.lt_asymm h)).trans (if_pos h)

theorem sweep_of_start_eq (hstart : start < 2 ^ indexBits) (hlen : len < 2 ^ indexBits) :
    sweep total start ((start, len) :: ranges) = sweep total (start + len) ranges := by
  have hwide : start + len < 2 ^ wideBits := by
    unfold indexBits at hstart hlen
    unfold wideBits
    omega
  rw [sweep, if_neg (Nat.lt_irrefl _), if_neg (Nat.lt_irrefl _), Word.add_of_lt hwide, pure_bind]

/-- The sweep gets to the first range that does not start where those before it end. -/
theorem sweep_stops (total cursor : Nat)
    (hwords : ∀ r ∈ ranges, r.1 < 2 ^ indexBits ∧ r.2 < 2 ^ indexBits) :
    ∃ front back stop, ranges = front ++ back ∧ Tiles stop cursor front ∧
      (∀ r ∈ back.head?, r.1 ≠ stop) ∧ sweep total cursor ranges = sweep total stop back := by
  induction ranges generalizing cursor with
  | nil => exact ⟨[], [], cursor, rfl, rfl, nofun, rfl⟩
  | cons r ranges ih =>
    obtain ⟨hr, hrest⟩ := List.forall_mem_cons.1 hwords
    by_cases hstart : r.1 = cursor
    · obtain ⟨front, back, stop, rfl, htiles, hhead, hrun⟩ := ih (r.1 + r.2) hrest
      subst hstart
      exact ⟨r :: front, back, stop, rfl, ⟨rfl, htiles⟩, hhead,
        (sweep_of_start_eq hr.1 hr.2).trans hrun⟩
    · refine ⟨[], r :: ranges, cursor, rfl, rfl, fun q hq => ?_, rfl⟩
      cases hq
      exact hstart

theorem sweep_eq (hwords : ∀ r ∈ ranges, r.1 < 2 ^ indexBits ∧ r.2 < 2 ^ indexBits) :
    ∃ v, sweep total cursor ranges = pure v ∧ (v = none ↔ Tiles total cursor ranges) := by
  obtain ⟨front, back, stop, rfl, htiles, hhead, hrun⟩ := sweep_stops total cursor hwords
  rw [hrun, htiles.append_iff]
  cases back with
  | nil =>
    refine ⟨_, sweep_nil total stop, ?_⟩
    rcases Nat.lt_trichotomy stop total with hlt | rfl | hgt
    · exact iff_of_false (by simp [hlt]) (Nat.ne_of_lt hlt)
    · exact iff_of_true (by simp) rfl
    · exact iff_of_false (by simp [hgt, Nat.lt_asymm hgt]) (Nat.ne_of_gt hgt)
  | cons r back =>
    have hnot : ¬Tiles total stop (r :: back) := fun h => hhead r rfl h.1
    rcases Nat.lt_or_gt_of_ne (hhead r rfl) with hlt | hgt
    · exact ⟨_, sweep_of_start_lt hlt, iff_of_false nofun hnot⟩
    · exact ⟨_, sweep_of_lt_start hgt, iff_of_false nofun hnot⟩

end Sweep

theorem InWords.ranges (h : a.InWords) :
    ∀ r ∈ a.ranges, r.1 < 2 ^ indexBits ∧ r.2 < 2 ^ indexBits := by
  intro r hr
  rcases List.mem_append.1 (a.perm_ranges.mem_iff.1 hr) with hr | hr
  · obtain ⟨p, hp, rfl⟩ := List.mem_map.1 hr
    exact h.pieces p hp
  · exact h.allocations r hr

theorem coverageViolation?_eq (hwords : a.InWords) :
    ∃ v, a.coverageViolation? = pure v ∧ (v = none ↔ Tiles a.totalSize 0 a.ranges) :=
  sweep_eq hwords.ranges

/-- No range is empty if no free piece and no allocation is. -/
theorem ranges_pos (hpieces : ∀ p ∈ a.freePieces, 0 < p.len)
    (hsizes : ∀ e ∈ a.allocations, 0 < e.2) : ∀ r ∈ a.ranges, 0 < r.2 := by
  intro r hr
  rcases List.mem_append.1 (a.perm_ranges.mem_iff.1 hr) with hr | hr
  · obtain ⟨p, hp, rfl⟩ := List.mem_map.1 hr
    exact hpieces p hp
  · exact hsizes r hr

theorem Bounded.holds_eq (h : a.Bounded) {p : Piece} (fits : p.Fits a.free.top) :
    a.holds p = pure (decide (p ∈ a.freePieces)) := by
  have hclass : p.sizeClass < a.free.count := h.count_eq ▸ Nat.lt_succ_of_le fits.class_le
  have hlist := FreeLists.list_eq_listOf hclass
  rw [holds, hlist, pure_bind]
  congr 1
  rw [Bool.eq_iff_iff, beq_iff_eq, decide_eq_true_eq, ← FreeLists.get?_eq_listOf]
  exact FreeLists.mem_toList_iff.symm

theorem Bounded.countPieces_eq (h : a.Bounded) {offset len : Nat}
    (hbound : offset + len < 2 ^ indexBits) (counted : Nat) :
    a.countPieces a.free.top offset len counted =
      pure (if ∀ p ∈ Split.pieces a.free.top offset len, p ∈ a.freePieces then
        some (counted + (Split.pieces a.free.top offset len).length) else none) := by
  fun_induction Split.pieces a.free.top offset len generalizing counted with
  | case1 offset =>
    rw [countPieces, dif_pos rfl]
    simp
  | case2 offset len hlen p ih =>
    obtain ⟨next, hstep, hpiece, hstart, hrest⟩ := Split.step_eq h.top_lt hbound hlen
    have hfits : p.Fits a.free.top := Split.carve_fits a.free.top offset hlen
    have hle : p.len ≤ len := Split.carve_len_le a.free.top offset len
    rw [countPieces, dif_neg hlen, hstep, pure_bind, hpiece, hstart, hrest]
    change (a.holds p >>= _) = _
    rw [h.holds_eq hfits, pure_bind]
    by_cases hp : p ∈ a.freePieces
    · rw [decide_eq_true hp, if_pos rfl, ih (by omega)]
      simp only [List.forall_mem_cons, hp, true_and, List.length_cons, Nat.add_assoc,
        Nat.add_comm 1]
    · rw [decide_eq_false hp, if_neg (by simp), if_neg fun hall => hp (hall p List.mem_cons_self)]

theorem Bounded.gapPieces_eq (h : a.Bounded) {start stop : Nat} (hle : start ≤ stop)
    (hstop : stop < 2 ^ indexBits) (counted : Nat) :
    a.gapPieces start stop counted =
      pure (if ∀ p ∈ Gaps.split a.free.top (start, stop), p ∈ a.freePieces then
        .ok (counted + (Gaps.split a.free.top (start, stop)).length)
      else .error (.layout start (stop - start))) := by
  have hcount : a.countPieces a.free.top start (stop - start) counted =
      pure (if ∀ p ∈ Gaps.split a.free.top (start, stop), p ∈ a.freePieces then
        some (counted + (Gaps.split a.free.top (start, stop)).length) else none) :=
    h.countPieces_eq (by omega) counted
  rw [gapPieces, Word.sub_of_le hle, pure_bind, FreeLists.topClass_eq h.count_pos, pure_bind,
    hcount, pure_bind]
  by_cases hall : ∀ p ∈ Gaps.split a.free.top (start, stop), p ∈ a.freePieces
  · rw [if_pos hall, if_pos hall]
  · rw [if_neg hall, if_neg hall]

def countGaps (a : Allocator) (start counted : Nat) :
    (allocations : List (Nat × Nat)) → Traced (Except Violation Nat)
  | [] => a.gapPieces start a.totalSize counted
  | (offset, size) :: allocations => do
    let next ← Word.add indexBits offset size
    match ← a.gapPieces start offset counted with
    | .error violation => return .error violation
    | .ok counted => a.countGaps next counted allocations

/-- The last pass is its loop and then a comparison of the two numbers of pieces. -/
theorem gapsViolation?_eq_countGaps (a : Allocator) (start counted : Nat)
    (allocations : List (Nat × Nat)) :
    a.gapsViolation? start counted allocations = (do
      match ← a.countGaps start counted allocations with
      | .error violation => return some violation
      | .ok counted =>
        if counted = a.pieceCount then return none else return some (.layout 0 a.totalSize)) := by
  induction allocations generalizing start counted with
  | nil => rfl
  | cons e rest ih =>
    rw [gapsViolation?, countGaps, bind_assoc]
    refine bind_congr fun next => ?_
    rw [bind_assoc]
    refine bind_congr fun found => ?_
    cases found with
    | error violation => rfl
    | ok counted => exact ih next counted

/-- On spaced allocations the loop comes to its end. Either the free lists hold all pieces of all
gaps, and it has counted them, or it has found a gap. -/
theorem Bounded.countGaps_eq (h : a.Bounded) {start : Nat} {allocations : List (Nat × Nat)}
    (hspaced : Gaps.Spaced a.totalSize start allocations) (counted : Nat) :
    ∃ found, a.countGaps start counted allocations = pure found ∧
      (((∀ p ∈ Gaps.pieces a.free.top a.totalSize start allocations, p ∈ a.freePieces) ∧
          found =
            .ok (counted + (Gaps.pieces a.free.top a.totalSize start allocations).length)) ∨
        (¬∀ p ∈ Gaps.pieces a.free.top a.totalSize start allocations, p ∈ a.freePieces) ∧
          ∃ offset len, found = .error (.layout offset len)) := by
  have hlt := h.total_lt
  induction allocations generalizing start counted with
  | nil =>
    have hpieces : Gaps.pieces a.free.top a.totalSize start [] =
        Gaps.split a.free.top (start, a.totalSize) := List.append_nil _
    rw [countGaps, h.gapPieces_eq hspaced hlt, hpieces]
    by_cases hall : ∀ p ∈ Gaps.split a.free.top (start, a.totalSize), p ∈ a.freePieces
    · exact ⟨_, rfl, .inl ⟨hall, if_pos hall⟩⟩
    · exact ⟨_, rfl, .inr ⟨hall, _, _, if_neg hall⟩⟩
  | cons e rest ih =>
    obtain ⟨hle, hpos, hrest⟩ := hspaced
    have hstop := hrest.le_total
    have hpieces : Gaps.pieces a.free.top a.totalSize start (e :: rest) =
        Gaps.split a.free.top (start, e.1) ++
          Gaps.pieces a.free.top a.totalSize (e.1 + e.2) rest := rfl
    rw [countGaps, Word.add_of_lt (show e.1 + e.2 < 2 ^ indexBits by omega), pure_bind,
      h.gapPieces_eq hle (by omega), pure_bind, hpieces, List.forall_mem_append, List.length_append,
      ← Nat.add_assoc]
    by_cases hall : ∀ p ∈ Gaps.split a.free.top (start, e.1), p ∈ a.freePieces
    · rw [if_pos hall, and_iff_right hall]
      exact ih hrest _
    · rw [if_neg hall]
      exact ⟨_, rfl, .inr ⟨fun hboth => hall hboth.1, _, _, rfl⟩⟩

/-- The last pass comes to an end, and all it can find is a gap that is not split as one run. -/
theorem Bounded.gapsViolation?_eq (h : a.Bounded) {start : Nat} {allocations : List (Nat × Nat)}
    (hspaced : Gaps.Spaced a.totalSize start allocations) (counted : Nat) :
    ∃ v, a.gapsViolation? start counted allocations = pure v ∧
      (v = none ∨ ∃ offset len, v = some (.layout offset len)) ∧
      (v = none ↔ (∀ p ∈ Gaps.pieces a.free.top a.totalSize start allocations, p ∈ a.freePieces) ∧
        counted + (Gaps.pieces a.free.top a.totalSize start allocations).length =
          a.pieceCount) := by
  obtain ⟨found, hrun, ⟨hall, rfl⟩ | ⟨hmissing, offset, len, rfl⟩⟩ := h.countGaps_eq hspaced counted
  · rw [gapsViolation?_eq_countGaps, hrun, pure_bind, and_iff_right hall]
    by_cases hcount : counted +
        (Gaps.pieces a.free.top a.totalSize start allocations).length = a.pieceCount
    · exact ⟨none, if_pos hcount, .inl rfl, iff_of_true rfl hcount⟩
    · exact ⟨some (.layout 0 a.totalSize), if_neg hcount, .inr ⟨_, _, rfl⟩,
        iff_of_false nofun hcount⟩
  · rw [gapsViolation?_eq_countGaps, hrun]
    exact ⟨_, rfl, .inr ⟨_, _, rfl⟩, iff_of_false nofun fun hv => hmissing hv.1⟩

theorem spaced_of_tiles (hpieces : ∀ p ∈ a.freePieces, 0 < p.len)
    (hsizes : ∀ e ∈ a.allocations, 0 < e.2) (h : Tiles a.totalSize 0 a.ranges) :
    Gaps.Spaced a.totalSize 0 a.allocations := by
  have hmem : ∀ e ∈ a.allocations, e ∈ a.ranges := by
    intro e he
    exact a.perm_ranges.mem_iff.2 (List.mem_append_right _ he)
  have hranges := h.spaced (ranges_pos hpieces hsizes)
  refine Gaps.spaced_of_pairwise (Nat.zero_le _) ?_ fun e he => hranges.bounds (hmem e he)
  apply a.inUse.ascending_toList.imp_of_mem
  intro e d he hd hlt
  exact hranges.apart (hmem e he) (hmem d hd) hlt

/-- What the passes look for, taken together, is that the allocator is canonical. -/
theorem Sized.canonical_iff (h : a.Sized) : a.Canonical ↔
    (∀ p ∈ a.freePieces, p.Fits a.free.top) ∧ (∀ e ∈ a.allocations, 0 < e.2) ∧
      Tiles a.totalSize 0 a.ranges ∧
      (∀ p ∈ Gaps.pieces a.free.top a.totalSize 0 a.allocations, p ∈ a.freePieces) ∧
      (Gaps.pieces a.free.top a.totalSize 0 a.allocations).length = a.pieceCount := by
  constructor
  · intro hcanonical
    refine ⟨fun p hp => hcanonical.fits hp, fun e he => (hcanonical.spaced.bounds he).2.1,
      hcanonical.tiles_ranges, fun p hp => hcanonical.split.mem_iff.2 hp, ?_⟩
    exact hcanonical.split.length_eq.symm.trans (FreeLists.length_toList _)
  · rintro ⟨hfits, hsizes, htiles, hheld, hcount⟩
    have hspaced := spaced_of_tiles (fun p hp => (hfits p hp).len_pos) hsizes htiles
    have hnodup := (Gaps.nodup_places a.free.top hspaced).of_map
    have hsub := List.subperm_of_subset hnodup hheld
    refine ⟨h, hspaced, (hsub.perm_of_length_le ?_).symm⟩
    rw [hcount]
    exact Nat.le_of_eq (FreeLists.length_toList _)

/-- Where the pieces and the allocations are as they should be by themselves, the two later passes
decide. -/
theorem Bounded.violation?_of_fits (h : a.Bounded) (hfits : ∀ p ∈ a.freePieces, p.Fits a.free.top)
    (hsizes : ∀ e ∈ a.allocations, 0 < e.2) :
    a.violation? = (do
      match ← a.coverageViolation? with
      | some violation => pure (some violation)
      | none => a.layoutViolation?) := by
  rw [violation?, h.pieceViolation?_eq, pure_bind, h.findSome?_flaw?_eq_none_iff.2 hfits,
    emptyAllocation?_eq_none_iff.2 hsizes]
  refine bind_congr fun v => ?_
  cases v <;> rfl

/-- The diagnosis of an allocator that can hold its contents at all comes to an end, and it finds
nothing just if the allocator is canonical. -/
theorem Sized.violation?_eq (h : a.Sized) (hwords : a.InWords) :
    ∃ v, a.violation? = pure v ∧ (v = none ↔ a.Canonical) := by
  have hbounded := h.bounded
  rw [h.canonical_iff, ← hbounded.findSome?_flaw?_eq_none_iff, ← emptyAllocation?_eq_none_iff]
  cases hpieces : a.freePieces.findSome? Piece.flaw? with
  | some v =>
    rw [violation?, hbounded.pieceViolation?_eq, pure_bind, hpieces]
    exact ⟨some v, rfl, iff_of_false nofun nofun⟩
  | none =>
    have hfits := hbounded.findSome?_flaw?_eq_none_iff.1 hpieces
    cases hempty : a.emptyAllocation? with
    | some v =>
      rw [violation?, hbounded.pieceViolation?_eq, pure_bind, hpieces, hempty]
      exact ⟨some v, rfl, iff_of_false nofun nofun⟩
    | none =>
      have hsizes := emptyAllocation?_eq_none_iff.1 hempty
      obtain ⟨v, hrun, hv⟩ := coverageViolation?_eq hwords
      rw [and_iff_right rfl, and_iff_right rfl, hbounded.violation?_of_fits hfits hsizes, hrun,
        pure_bind]
      cases v with
      | some v => exact ⟨some v, rfl, iff_of_false nofun fun hall => nomatch hv.2 hall.1⟩
      | none =>
        have htiles := hv.1 rfl
        have hspaced := spaced_of_tiles (fun p hp => (hfits p hp).len_pos) hsizes htiles
        obtain ⟨v, hlast, -, hv⟩ := hbounded.gapsViolation?_eq hspaced 0
        rw [Nat.zero_add] at hv
        exact ⟨v, hlast, hv.trans (and_iff_right htiles).symm⟩

end Allocator

namespace Reachable
open Allocator

variable {maxSize slotCount : Nat} {a : Allocator}

theorem inWords (h : Reachable maxSize slotCount a) : a.InWords := by
  have hcanonical := h.canonical.1
  have hlt := hcanonical.total_lt
  constructor
  · intro p hp
    have := hcanonical.stop_le hp
    unfold Piece.stop at this
    omega
  · intro e he
    have := hcanonical.spaced.bounds he
    omega

theorem no_violation (h : Reachable maxSize slotCount a) :
    a.violation?.outcome.result = .ok none := by
  have hcanonical := h.canonical.1
  obtain ⟨v, hrun, hv⟩ := hcanonical.toSized.violation?_eq h.inWords
  rw [hrun, hv.2 hcanonical]
  rfl

/-- No request, query or diagnosis of a reachable allocator ends in a fault. -/
theorem no_fault (h : Reachable maxSize slotCount a) :
    (∀ request : Request, request.InWords →
      ∃ reply, (request.perform a).outcome.result = .ok reply) ∧
    a.violation?.outcome.result = .ok none ∧
    a.usage.outcome.result = .ok (a.allocations.map Prod.snd).sum := by
  have hcanonical := h.canonical.1
  refine ⟨fun request hwords => ?_, h.no_violation, ?_⟩
  · obtain ⟨reply, hrun, _⟩ := (hcanonical.perform_answers hwords).exists_reply hcanonical
    exact ⟨reply, hrun⟩
  · rw [hcanonical.usage_eq]
    rfl

theorem no_fault_two_runs :
    ∃ a, Reachable 4 2 a ∧
      (∃ reply, ((Request.allocate 3).perform a).outcome.result = .ok reply) ∧
      (∃ reply, ((Request.allocateMany 4 4294967295).perform a).outcome.result = .ok reply) ∧
      a.usage.outcome.result = .ok 3 := by
  obtain ⟨a, h, hlist⟩ := two_runs
  obtain ⟨hrequests, -, husage⟩ := no_fault h
  rw [hlist] at husage
  have hsize : (Request.allocate 3).InWords := show 3 < 2 ^ indexBits by decide
  exact ⟨a, h, hrequests _ hsize,
    hrequests (.allocateMany 4 4294967295) (by constructor <;> decide), husage⟩

/-- The diagnosis is exact: of all contents that the free lists and the map of allocations can have,
it passes just those that some history leads to. -/
theorem iff_no_violation {new : Allocator}
    (hnew : (create maxSize slotCount).outcome.result = .ok (.ok new)) (free : FreeLists)
    (inUse : IndexMap) (hcount : free.count = Bits.ceilLog2 maxSize + 1)
    (hwords : InWords ⟨maxSize, maxSize * slotCount, free, inUse⟩) :
    (⟨maxSize, maxSize * slotCount, free, inUse⟩ : Allocator).violation?.outcome.result =
        .ok none ↔
      Reachable maxSize slotCount ⟨maxSize, maxSize * slotCount, free, inUse⟩ := by
  obtain ⟨hadmissible, -⟩ := outcome_create_iff.1 hnew
  have hsized := hadmissible.sized hcount inUse
  constructor
  · intro hnone
    obtain ⟨v, hrun, hv⟩ := hsized.violation?_eq hwords
    rw [hrun] at hnone
    have hv' : v = none := Except.ok.inj hnone
    exact of_canonical hadmissible (hv.1 hv') rfl rfl
  · exact no_violation

/-- The gap behind the run is kept as two pieces. Under the wrong class, or cut up further, they
cover the same indices and are found out. -/
theorem iff_no_violation_split_gap :
    Reachable 4 2 ⟨4, 8, .ofPieces 3 [⟨0, 0, 1⟩, ⟨0, 3, 1⟩, ⟨2, 4, 4⟩], IndexMap.empty.insert 1 2⟩ ∧
      ¬Reachable 4 2
        ⟨4, 8, .ofPieces 3 [⟨0, 0, 1⟩, ⟨1, 3, 1⟩, ⟨2, 4, 4⟩], IndexMap.empty.insert 1 2⟩ ∧
      ¬Reachable 4 2
        ⟨4, 8, .ofPieces 3 [⟨0, 0, 1⟩, ⟨0, 3, 1⟩, ⟨1, 4, 2⟩, ⟨1, 6, 2⟩], IndexMap.empty.insert 1 2⟩
    := by
  have hnew : (create 4 2).outcome.result = .ok (.ok (Allocator.blank 4 2)) :=
    outcome_create_iff.2 ⟨⟨⟨2, by decide, rfl⟩, by decide⟩, rfl⟩
  refine ⟨(iff_no_violation hnew _ _ rfl ⟨?_, ?_⟩).1 ?passed,
    (iff_no_violation hnew _ _ rfl ⟨?_, ?_⟩).not.1 ?misfiled,
    (iff_no_violation hnew _ _ rfl ⟨?_, ?_⟩).not.1 ?cutUp⟩
  case passed =>
    have hspaced : Gaps.Spaced 8 0 [(0, 1), (1, 2), (3, 1), (4, 4)] := by simp [Gaps.Spaced]
    rw [violation?, coverageViolation?, ranges_eq_of_spaced (by decide +kernel) hspaced]
    decide +kernel
  case cutUp =>
    have hspaced : Gaps.Spaced 8 0 [(0, 1), (1, 2), (3, 1), (4, 2), (6, 2)] := by simp [Gaps.Spaced]
    rw [violation?, coverageViolation?, ranges_eq_of_spaced (by decide +kernel) hspaced]
    decide +kernel
  all_goals decide +kernel

end Reachable

end AlignedRuns
