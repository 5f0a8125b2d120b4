import AlignedRuns.Proofs.Clashes
set_option autoImplicit false

namespace AlignedRuns

namespace Split

/-- Two neighbours among the pieces meet at the index. -/
def BoundaryAt (ps : List Piece) (x : Nat) : Prop :=
  ∃ front p q back, ps = front ++ p :: q :: back ∧ p.stop = x ∧ q.offset = x

variable {top offset len m : Nat} {front back : List Piece} {p q : Piece}

theorem pieces_before (h : pieces top offset len = front ++ q :: back) :
    pieces top offset (q.offset - offset) = front := by
  rw [pieces_cut_left h (Nat.le_refl _), Nat.sub_self, pieces_zero, List.append_nil]

theorem pieces_behind (h : pieces top offset len = front ++ p :: back) :
    pieces top p.stop (offset + len - p.stop) = back := by
  have hcut := pieces_cut_right h (show p.offset ≤ p.stop from Nat.le_add_right _ _) (Nat.le_refl _)
  rwa [Nat.sub_self, pieces_zero, List.nil_append] at hcut

theorem offset_of_pieces_eq_cons (h : pieces top offset len = p :: back) : p.offset = offset := by
  have hmem : p ∈ pieces top offset len := h ▸ List.mem_cons_self
  have hne := ne_zero_of_mem_pieces hmem
  rw [pieces_of_ne_zero top offset hne] at h
  rw [← (List.cons.inj h).1]
  rfl

theorem boundaryAt_offset (hq : q ∈ pieces top offset len) (hlt : offset < q.offset) :
    BoundaryAt (pieces top offset len) q.offset := by
  obtain ⟨front, back, hcut⟩ := List.append_of_mem hq
  rcases List.eq_nil_or_concat front with rfl | ⟨init, p, rfl⟩
  · have := offset_of_pieces_eq_cons hcut
    omega
  · rw [List.concat_eq_append, List.append_assoc] at hcut
    exact ⟨init, p, q, back, hcut, (offset_of_pieces_eq_cons (pieces_behind hcut)).symm, rfl⟩

theorem boundaryAt_stop (hp : p ∈ pieces top offset len) (hlt : p.stop < offset + len) :
    BoundaryAt (pieces top offset len) p.stop := by
  obtain ⟨front, back, hcut⟩ := List.append_of_mem hp
  have hbehind := pieces_behind hcut
  rw [pieces_of_ne_zero _ _ (by omega)] at hbehind
  rw [← hbehind] at hcut
  exact ⟨front, p, _, _, hcut, rfl, rfl⟩

/-- A run that is not empty has a last piece, which ends where the run ends. -/
theorem exists_last (top offset : Nat) (h : len ≠ 0) :
    ∃ p ∈ pieces top offset len, p.stop = offset + len := by
  rcases List.eq_nil_or_concat (pieces top offset len) with hnil | ⟨front, p, hcut⟩
  · rw [pieces_of_ne_zero top offset h] at hnil
    cases hnil
  · rw [List.concat_eq_append] at hcut
    have hmem : p ∈ pieces top offset len := by simp [hcut]
    have hbehind := pieces_behind hcut
    have hstop := (bounds_of_mem_pieces hmem).2
    refine ⟨p, hmem, Nat.le_antisymm hstop ?_⟩
    by_contra hlt
    rw [pieces_of_ne_zero _ _ (by omega)] at hbehind
    cases hbehind

theorem pieces_of_boundaryAt (h : BoundaryAt (pieces top offset len) (offset + m)) :
    pieces top offset len = pieces top offset m ++ pieces top (offset + m) (len - m) := by
  obtain ⟨front, p, q, back, hcut, -, hq⟩ := h
  have hcut' : pieces top offset len = (front ++ [p]) ++ q :: back := by simpa using hcut
  have hbefore := pieces_before hcut'
  have hfrom := pieces_suffix hcut'
  rw [hq] at hbefore hfrom
  rw [Nat.add_sub_cancel_left] at hbefore
  rw [show offset + len - (offset + m) = len - m by omega] at hfrom
  rw [hbefore, hfrom, hcut']

/-- A cut is a boundary just if the pieces of what is before it are pieces of the run. -/
theorem boundaryAt_iff_before (hm : 0 < m) (hlt : m < len) :
    BoundaryAt (pieces top offset len) (offset + m) ↔
      ∀ q ∈ pieces top offset m, q ∈ pieces top offset len := by
  constructor
  · intro h q hq
    rw [pieces_of_boundaryAt h]
    exact List.mem_append_left _ hq
  · intro h
    obtain ⟨p, hp, hstop⟩ := exists_last top offset (Nat.ne_of_gt hm)
    rw [← hstop]
    exact boundaryAt_stop (h p hp) (by omega)

theorem boundaryAt_iff_behind (hm : 0 < m) (hlt : m < len) :
    BoundaryAt (pieces top offset len) (offset + m) ↔
      ∀ q ∈ pieces top (offset + m) (len - m), q ∈ pieces top offset len := by
  constructor
  · intro h q hq
    rw [pieces_of_boundaryAt h]
    exact List.mem_append_right _ hq
  · intro h
    have hfirst : carve top (offset + m) (len - m) ∈ pieces top (offset + m) (len - m) := by
      rw [pieces_of_ne_zero _ _ (by omega)]
      exact List.mem_cons_self
    exact boundaryAt_offset (h _ hfirst) (Nat.lt_add_of_pos_right hm)

end Split

namespace FreeLists
open Traced

section Runs
variable {s t : FreeLists} {offset len m : Nat}

def NoneStarts (s : FreeLists) (offset len : Nat) : Prop :=
  ∀ p ∈ s.toList, ¬(offset ≤ p.offset ∧ p.offset < offset + len)

theorem NoneStarts.held_eq_none (h : s.NoneStarts offset len) {p : Piece}
    (hp : p ∈ Split.pieces s.top offset len) : s.held p = none := by
  obtain ⟨hlow, hhigh⟩ := Split.bounds_of_mem_pieces hp
  have hpos := (Split.fits_of_mem_pieces hp).len_pos
  unfold Piece.stop at hhigh
  cases hheld : s.held p with
  | none => rfl
  | some old =>
    have hmem : (⟨p.sizeClass, p.offset, old⟩ : Piece) ∈ s.toList := mem_toList_iff.2 hheld
    exact absurd ⟨hlow, show p.offset < offset + len by omega⟩ (h _ hmem)

/-- A run that no piece starts in goes into the free lists, which then hold its pieces besides what
they held before. -/
theorem insertRun_of_noneStarts (hpos : 0 < s.count) (htop : s.top < indexBits)
    (hrun : offset + len < 2 ^ indexBits) (h : s.NoneStarts offset len) :
    ∃ t : FreeLists, (s.insertRun offset len).outcome.result = .ok t ∧ t.count = s.count ∧
      t.toList.Perm (Split.pieces s.top offset len ++ s.toList) := by
  have hclear := fun p hp => h.held_eq_none (p := p) hp
  obtain ⟨t, hok, hcount, hleft, hother⟩ := store_steps.changeRun_goes hpos htop hrun
    fun p hp => Option.map_eq_none_iff.2 (hclear p hp)
  refine ⟨t, congrArg Outcome.result hok, hcount, ?_⟩
  have hnodup : (Split.pieces s.top offset len ++ s.toList).Nodup := by
    refine List.nodup_append.2 ⟨(Split.nodup_offsets _ _ _).of_map, nodup_toList s, ?_⟩
    rintro p hp q hq rfl
    exact nomatch (hclear p hp).symm.trans (mem_toList_iff.1 hq)
  refine (List.perm_ext_iff_of_nodup (nodup_toList t) hnodup).2 fun q => ?_
  rw [List.mem_append]
  constructor
  · intro hq
    by_cases hplace : ∃ p ∈ Split.pieces s.top offset len,
        p.sizeClass = q.sizeClass ∧ p.offset = q.offset
    · obtain ⟨p, hp, hc, ho⟩ := hplace
      exact .inl (eq_of_mem_toList (mem_toList_iff.2 (hleft p hp)) hq hc ho ▸ hp)
    · rw [mem_toList_iff, hother _ _ fun p hp heq => hplace ⟨p, hp, heq⟩] at hq
      exact .inr (mem_toList_iff.2 hq)
  · rintro (hq | hq)
    · exact mem_toList_iff.2 (hleft q hq)
    · rw [mem_toList_iff] at hq ⊢
      rw [hother _ _ fun p hp heq => ?_, hq]
      rw [← heq.1, ← heq.2] at hq
      exact nomatch (hclear p hp).symm.trans hq

theorem dropClash?_eq_none_iff (p : Piece) (held : Option Nat) :
    dropClash? p held = none ↔ held = some p.len := by
  cases held with
  | none => exact iff_of_false nofun nofun
  | some stored => simp [dropClash?]

theorem removeRun_ok_iff (hpos : 0 < s.count) (htop : s.top < indexBits)
    (hrun : offset + len < 2 ^ indexBits) :
    (∃ u, (s.removeRun offset len).outcome.result = .ok u) ↔
      ∀ p ∈ Split.pieces s.top offset len, p ∈ s.toList := by
  have hfault := (drop_steps.changeRun_fault_iff hpos htop hrun).not
  simp only [not_exists, not_and, Option.not_isSome_iff_eq_none, dropClash?_eq_none_iff] at hfault
  refine Iff.trans ?_ (hfault.trans (forall₂_congr fun p _ => mem_toList_iff.symm))
  change _ ↔ ∀ e, ¬(s.removeRun offset len).outcome.result = .error e
  cases (s.removeRun offset len).outcome.result with
  | error e => exact iff_of_false nofun fun h => h e rfl
  | ok u => exact iff_of_true ⟨u, rfl⟩ nofun

theorem removeRun_of_perm_append {kept : List Piece} (hpos : 0 < s.count) (htop : s.top < indexBits)
    (hrun : offset + len < 2 ^ indexBits)
    (hs : s.toList.Perm (Split.pieces s.top offset len ++ kept)) :
    ∃ u : FreeLists, (s.removeRun offset len).outcome.result = .ok u ∧ u.count = s.count ∧
      u.toList.Perm kept := by
  have hcount : s.count = s.top + 1 := (Nat.sub_add_cancel hpos).symm
  obtain ⟨u, hok, hcount', hperm⟩ := removeRun_of_perm hcount htop hrun hs
  exact ⟨u, by rw [hok, outcome_emit_pure], hcount'.trans hcount.symm, hperm⟩

/-- Two runs that the lists hold come out one after the other. -/
theorem removeRun_twice {offset' len' : Nat} {kept : List Piece} (hpos : 0 < s.count)
    (htop : s.top < indexBits) (hrun : offset + len < 2 ^ indexBits)
    (hrun' : offset' + len' < 2 ^ indexBits)
    (hs : s.toList.Perm
      (Split.pieces s.top offset len ++ (Split.pieces s.top offset' len' ++ kept))) :
    ∃ u v : FreeLists, (s.removeRun offset len).outcome.result = .ok u ∧
      (u.removeRun offset' len').outcome.result = .ok v ∧ v.count = s.count ∧
      v.toList.Perm kept := by
  obtain ⟨u, hfirst, hcount, hperm⟩ := removeRun_of_perm_append hpos htop hrun hs
  rw [← top_eq_of_count_eq hcount] at hperm htop
  obtain ⟨v, hsecond, hcount', hperm'⟩ :=
    removeRun_of_perm_append (hcount ▸ hpos) htop hrun' hperm
  exact ⟨u, v, hfirst, hsecond, hcount'.trans hcount, hperm'⟩

/-- Two runs apart from each other, in neither of which a piece starts, go in one after the
other. -/
theorem insertRun_twice {offset' len' : Nat} (hpos : 0 < s.count) (htop : s.top < indexBits)
    (hrun : offset + len < 2 ^ indexBits) (hrun' : offset' + len' < 2 ^ indexBits)
    (h : s.NoneStarts offset len) (h' : s.NoneStarts offset' len')
    (hapart : offset + len ≤ offset' ∨ offset' + len' ≤ offset) :
    ∃ u v : FreeLists, (s.insertRun offset len).outcome.result = .ok u ∧
      (u.insertRun offset' len').outcome.result = .ok v ∧ v.count = s.count ∧
      v.toList.Perm
        (Split.pieces s.top offset' len' ++ (Split.pieces s.top offset len ++ s.toList)) := by
  obtain ⟨u, hfirst, hcount, hperm⟩ := insertRun_of_noneStarts hpos htop hrun h
  have hnone : u.NoneStarts offset' len' := by
    intro p hp
    rcases List.mem_append.1 (hperm.mem_iff.1 hp) with hnew | hold
    · obtain ⟨hlow, hhigh⟩ := Split.bounds_of_mem_pieces hnew
      have := (Split.fits_of_mem_pieces hnew).len_pos
      unfold Piece.stop at hhigh
      omega
    · exact h' p hold
  have heq := top_eq_of_count_eq hcount
  obtain ⟨v, hsecond, hcount', hperm'⟩ :=
    insertRun_of_noneStarts (hcount ▸ hpos) (heq ▸ htop) hrun' hnone
  rw [heq] at hperm'
  exact ⟨u, v, hfirst, hsecond, hcount'.trans hcount, hperm'.trans (hperm.append_left _)⟩

/-- A part of a run that has just gone in comes out again if its pieces are pieces of the run. -/
theorem removeRun_part_ok_iff {start size : Nat} (hpos : 0 < s.count) (htop : s.top < indexBits)
    (hrun : offset + len < 2 ^ indexBits) (hnone : s.NoneStarts offset len)
    (hcount : t.count = s.count) (hperm : t.toList.Perm (Split.pieces s.top offset len ++ s.toList))
    (hlow : offset ≤ start) (hhigh : start + size ≤ offset + len) :
    (∃ u, (t.removeRun start size).outcome.result = .ok u) ↔
      ∀ q ∈ Split.pieces s.top start size, q ∈ Split.pieces s.top offset len := by
  have heq := top_eq_of_count_eq hcount
  rw [removeRun_ok_iff (hcount ▸ hpos) (heq ▸ htop) (Nat.lt_of_le_of_lt hhigh hrun), heq]
  refine forall₂_congr fun q hq => ?_
  obtain ⟨hstart, hstop⟩ := Split.bounds_of_mem_pieces hq
  have hlen := (Split.fits_of_mem_pieces hq).len_pos
  unfold Piece.stop at hstop
  rw [hperm.mem_iff, List.mem_append]
  refine or_iff_left fun hold => hnone q hold ?_
  omega

/-- What has gone in as one run comes out as one run, and it comes out as two just if they meet at a
boundary of its split. There it does not matter which of the two is first, nor whether the run has
gone in as one or as two. -/
theorem removes_part_iff_boundary (hpos : 1 ≤ s.count) (hcount : s.count ≤ maxClasses)
    (hrun : offset + len < 2 ^ indexBits)
    (hnone : ∀ p ∈ s.toList, ¬(offset ≤ p.offset ∧ p.offset < offset + len))
    (hm : 0 < m) (hlt : m < len) :
    ∃ split t, (Split.verified s.top offset len).outcome.result = .ok split ∧
      (s.insertRun offset len).outcome.result = .ok t ∧
      (t.removeRun offset len).outcome.result = .ok s ∧
      ((∃ u, (t.removeRun offset m).outcome.result = .ok u) ↔
        Split.BoundaryAt split (offset + m)) ∧
      ((∃ u, (t.removeRun (offset + m) (len - m)).outcome.result = .ok u) ↔
        Split.BoundaryAt split (offset + m)) ∧
      (Split.BoundaryAt split (offset + m) →
        (∃ u, (t.removeRun offset m).outcome.result = .ok u ∧
          (u.removeRun (offset + m) (len - m)).outcome.result = .ok s) ∧
        (∃ u, (t.removeRun (offset + m) (len - m)).outcome.result = .ok u ∧
          (u.removeRun offset m).outcome.result = .ok s) ∧
        (∃ u, (s.insertRun offset m).outcome.result = .ok u ∧
          (u.insertRun (offset + m) (len - m)).outcome.result = .ok t) ∧
        ∃ u, (s.insertRun (offset + m) (len - m)).outcome.result = .ok u ∧
          (u.insertRun offset m).outcome.result = .ok t) := by
  have htop := top_lt_of_count_le hpos hcount
  obtain ⟨t, hinsert, hsame, hperm⟩ := insertRun_of_noneStarts hpos htop hrun hnone
  have heq := top_eq_of_count_eq hsame
  have hpos' : 0 < t.count := hsame ▸ hpos
  have htop' : t.top < indexBits := heq ▸ htop
  refine ⟨_, t, Split.result_verified htop hrun, hinsert, ?_, ?_, ?_, fun hboundary => ?_⟩
  · obtain ⟨u, hremove, hcount', hkept⟩ :=
      removeRun_of_perm_append hpos' htop' hrun (heq.symm ▸ hperm)
    rw [hremove, eq_of_perm (hcount'.trans hsame) hkept]
  · rw [removeRun_part_ok_iff hpos htop hrun hnone hsame hperm (Nat.le_refl _) (by omega)]
    exact (Split.boundaryAt_iff_before hm hlt).symm
  · rw [removeRun_part_ok_iff hpos htop hrun hnone hsame hperm (by omega) (by omega)]
    exact (Split.boundaryAt_iff_behind hm hlt).symm
  · have hbefore : s.NoneStarts offset m := fun p hp hin => hnone p hp (by omega)
    have hbehind : s.NoneStarts (offset + m) (len - m) := fun p hp hin => hnone p hp (by omega)
    have hparts := hperm
    rw [Split.pieces_of_boundaryAt hboundary, List.append_assoc] at hparts
    have hswapped := hparts.trans (List.perm_append_comm_assoc _ _ _)
    refine ⟨?_, ?_, ?_, ?_⟩
    · obtain ⟨u, v, hu, hv, hcount', hkept⟩ :=
        removeRun_twice hpos' htop' (by omega) (by omega) (heq.symm ▸ hparts)
      exact ⟨u, hu, by rw [hv, eq_of_perm (hcount'.trans hsame) hkept]⟩
    · obtain ⟨u, v, hu, hv, hcount', hkept⟩ :=
        removeRun_twice hpos' htop' (by omega) (by omega) (heq.symm ▸ hswapped)
      exact ⟨u, hu, by rw [hv, eq_of_perm (hcount'.trans hsame) hkept]⟩
    · obtain ⟨u, v, hu, hv, hcount', hheld⟩ := insertRun_twice hpos htop (by omega) (by omega)
        hbefore hbehind (.inl (Nat.le_refl _))
      exact ⟨u, hu, by rw [hv, eq_of_perm (hcount'.trans hsame.symm) (hheld.trans hswapped.symm)]⟩
    · obtain ⟨u, v, hu, hv, hcount', hheld⟩ := insertRun_twice hpos htop (by omega) (by omega)
        hbehind hbefore (.inr (Nat.le_refl _))
      exact ⟨u, hu, by rw [hv, eq_of_perm (hcount'.trans hsame.symm) (hheld.trans hparts.symm)]⟩

/-- The run from 5 to 19 has a boundary at 12, and none at 10, where a piece of it would be cut. -/
theorem removes_part_iff_boundary_in_five_pieces :
    ∃ s t : FreeLists, s.toList = [⟨2, 0, 4⟩] ∧ (s.insertRun 5 14).outcome.result = .ok t ∧
      (∃ u, (t.removeRun 5 7).outcome.result = .ok u ∧
        (u.removeRun 12 7).outcome.result = .ok s) ∧
      ¬∃ u, (t.removeRun 5 5).outcome.result = .ok u := by
  let s : FreeLists := .ofPieces 3 [⟨2, 0, 4⟩]
  have hnone : ∀ p ∈ s.toList, ¬(5 ≤ p.offset ∧ p.offset < 5 + 14) := by decide +kernel
  have hsplit : Split.pieces s.top 5 14 =
      [⟨0, 5, 1⟩, ⟨1, 6, 2⟩, ⟨2, 8, 4⟩, ⟨2, 12, 4⟩, ⟨2, 16, 3⟩] := by decide +kernel
  have hrun : 5 + 14 < 2 ^ indexBits := by decide
  obtain ⟨split, t, hverified, hinsert, -, -, -, hparts⟩ :=
    removes_part_iff_boundary (s := s) (m := 7) (by decide) (by decide) hrun hnone (by decide)
      (by decide)
  obtain ⟨split', t', hverified', hinsert', -, hfive, -⟩ :=
    removes_part_iff_boundary (s := s) (m := 5) (by decide) (by decide) hrun hnone (by decide)
      (by decide)
  cases hinsert.symm.trans hinsert'
  cases hverified.symm.trans (Split.result_verified (by decide) (by decide))
  cases hverified'.symm.trans (Split.result_verified (by decide) (by decide))
  rw [hsplit] at hparts hfive
  refine ⟨s, t, by decide +kernel, hinsert, ?_, hfive.not.2 ?_⟩
  · exact (hparts ⟨[⟨0, 5, 1⟩, ⟨1, 6, 2⟩], ⟨2, 8, 4⟩, ⟨2, 12, 4⟩, [⟨2, 16, 3⟩], rfl, rfl, rfl⟩).1
  · rintro ⟨front, p, q, back, hcut, -, hq⟩
    have hnowhere : ∀ r ∈ [⟨0, 5, 1⟩, ⟨1, 6, 2⟩, ⟨2, 8, 4⟩, ⟨2, 12, 4⟩, (⟨2, 16, 3⟩ : Piece)],
      r.offset ≠ 5 + 5 := by decide
    exact hnowhere q (by rw [hcut]; simp) hq

end Runs

end FreeLists

end AlignedRuns
