import AlignedRuns.Proofs.Cuts
import Mathlib.Algebra.Ring.Nat
import Mathlib.Data.List.Chain
set_option autoImplicit false

namespace AlignedRuns.Split

/-- The pieces follow one another from `offset` on, `len` indices in all, each of them in a class
that it fits. All but the last are full and in the largest class that their place allows. -/
structure Shaped (top offset len : Nat) (ps : List Piece) : Prop where
  first : ∀ p ∈ ps.head?, p.offset = offset
  adjacent : ps.IsChain fun p q => p.stop = q.offset
  total : (ps.map Piece.len).sum = len
  fits : ∀ p ∈ ps, p.Fits top
  full : ∀ p ∈ ps.dropLast,
    p.sizeClass = min (Bits.trailingZeros p.offset) top ∧ p.len = 2 ^ p.sizeClass

variable {top offset len : Nat} {p : Piece} {ps : List Piece}

theorem shaped_nil_iff : Shaped top offset len [] ↔ len = 0 := by
  constructor
  · exact fun h => h.total.symm
  · rintro rfl
    exact ⟨nofun, .nil, rfl, nofun, nofun⟩

theorem shaped_cons_iff : Shaped top offset len (p :: ps) ↔
    p.offset = offset ∧ p.Fits top ∧ p.len ≤ len ∧
      (ps ≠ [] → p.sizeClass = alignClass top offset ∧ p.len = 2 ^ alignClass top offset) ∧
      Shaped top (offset + p.len) (len - p.len) ps := by
  constructor
  · rintro ⟨hfirst, hadjacent, htotal, hfits, hfull⟩
    obtain rfl : p.offset = offset := hfirst p rfl
    obtain ⟨hnext, hchain⟩ := List.isChain_cons.1 hadjacent
    obtain ⟨hp, hrest⟩ := List.forall_mem_cons.1 hfits
    rw [List.map_cons, List.sum_cons] at htotal
    refine ⟨rfl, hp, by omega, fun hne => ?_, fun q hq => (hnext q hq).symm, hchain, by omega,
      hrest, fun q hq => ?_⟩
    · obtain ⟨hclass, hlen⟩ := hfull p (by rw [List.dropLast_cons_of_ne_nil hne]; simp)
      exact ⟨hclass, hlen.trans (congrArg (2 ^ ·) hclass)⟩
    · have hne : ps ≠ [] := by
        rintro rfl
        cases hq
      exact hfull q (by rw [List.dropLast_cons_of_ne_nil hne]; exact List.mem_cons_of_mem _ hq)
  · rintro ⟨rfl, hp, hle, hlarge, hrest⟩
    refine ⟨?_, ?_, ?_, List.forall_mem_cons.2 ⟨hp, hrest.fits⟩, ?_⟩
    · rintro q hq
      cases hq
      rfl
    · exact List.isChain_cons.2 ⟨fun q hq => (hrest.first q hq).symm, hrest.adjacent⟩
    · rw [List.map_cons, List.sum_cons, hrest.total]
      omega
    · intro q hq
      by_cases hne : ps = []
      · rw [hne] at hq
        cases hq
      · rw [List.dropLast_cons_of_ne_nil hne] at hq
        rcases List.mem_cons.1 hq with rfl | hq
        · obtain ⟨hclass, hlen⟩ := hlarge hne
          exact ⟨hclass, hclass ▸ hlen⟩
        · exact hrest.full q hq

/-- Of all lists of pieces just the split of the run has its shape. -/
theorem shaped_iff (htop : top ≤ indexBits) :
    Shaped top offset len ps ↔ ps = pieces top offset len := by
  induction ps generalizing offset len with
  | nil =>
    rw [shaped_nil_iff]
    constructor
    · rintro rfl
      exact (pieces_zero top offset).symm
    · intro h
      by_contra hne
      rw [pieces_of_ne_zero top offset hne] at h
      cases h
  | cons p ps ih =>
    rw [shaped_cons_iff, ih]
    constructor
    · rintro ⟨rfl, hp, hle, hlarge, hrest⟩
      have hpos := hp.len_pos
      have hcarve : carve top p.offset len = p := by
        by_cases hne : ps = []
        · -- nothing is left behind this piece, so it is the whole run
          have hend : len = p.len := by
            by_contra hshort
            rw [hne, pieces_of_ne_zero top _ (by omega)] at hrest
            cases hrest
          have halign := (le_alignClass_iff htop p.offset p.sizeClass).2 ⟨hp.class_le, hp.aligned⟩
          have hroom := hp.len_le.trans (Nat.pow_le_pow_right (by decide) halign)
          rw [hend, carve_of_le hroom, ← hp.sizeClass_eq]
        · obtain ⟨hclass, hlen⟩ := hlarge hne
          rw [carve_of_ge (hlen ▸ hle), ← hlen, ← hclass]
      rw [pieces_of_ne_zero top p.offset (by omega), hcarve, ← hrest]
    · intro h
      have hne : len ≠ 0 := by
        rintro rfl
        rw [pieces_zero] at h
        cases h
      rw [pieces_of_ne_zero top offset hne] at h
      obtain ⟨rfl, rfl⟩ := List.cons.inj h
      refine ⟨rfl, carve_fits top offset hne, carve_len_le top offset len, fun hrest => ?_, rfl⟩
      rw [carve_of_ge (le_of_rest_ne_nil hrest)]
      exact ⟨rfl, rfl⟩

theorem alignClass_next_of_lt (htop : top ≤ indexBits) (h : alignClass top offset < top) :
    alignClass top offset < alignClass top (offset + 2 ^ alignClass top offset) := by
  obtain ⟨m, hm⟩ := alignClass_dvd top offset
  have hlarger := (le_alignClass_iff htop offset (alignClass top offset + 1)).not.1 (by omega)
  refine (le_alignClass_iff htop _ _).2 ⟨h, ?_⟩
  have hodd : ¬2 ∣ m := by
    rintro ⟨n, rfl⟩
    exact hlarger ⟨h, n, by rw [Nat.pow_succ, Nat.mul_assoc]; exact hm⟩
  obtain ⟨n, hn⟩ : 2 ∣ m + 1 := by omega
  refine ⟨n, ?_⟩
  calc offset + 2 ^ alignClass top offset
      = 2 ^ alignClass top offset * (m + 1) := by rw [Nat.mul_succ, ← hm]
    _ = 2 ^ (alignClass top offset + 1) * n := by rw [hn, Nat.pow_succ, Nat.mul_assoc]

theorem alignClass_next_of_eq (htop : top ≤ indexBits) (h : alignClass top offset = top) :
    alignClass top (offset + 2 ^ alignClass top offset) = top := by
  have hdvd := alignClass_dvd top offset
  rw [h] at hdvd ⊢
  exact alignClass_eq_top htop (Nat.dvd_add hdvd (Nat.dvd_refl _))

/-- Before the last piece the classes rise from that of the first, and where they come to the top
class they stay there. -/
theorem exists_rising (htop : top ≤ indexBits) (offset len : Nat) :
    ∃ (rising : List Nat) (n : Nat),
      (pieces top offset len).dropLast.map Piece.sizeClass = rising ++ List.replicate n top ∧
      rising.Pairwise (· < ·) ∧ (∀ c ∈ rising, alignClass top offset ≤ c ∧ c < top) ∧
      n * 2 ^ top ≤ len := by
  fun_induction pieces top offset len with
  | case1 => exact ⟨[], 0, rfl, .nil, List.forall_mem_nil _, by omega⟩
  | case2 offset len hlen p ih =>
    by_cases hne : pieces top (offset + p.len) (len - p.len) = []
    · rw [hne]
      exact ⟨[], 0, rfl, .nil, List.forall_mem_nil _, by omega⟩
    obtain ⟨rising, n, hclasses, hrising, hbounds, hcount⟩ := ih
    have hle := le_of_rest_ne_nil hne
    have hp : p = ⟨alignClass top offset, offset, 2 ^ alignClass top offset⟩ := carve_of_ge hle
    rw [List.dropLast_cons_of_ne_nil hne, List.map_cons, hclasses]
    rw [hp] at hbounds hcount ⊢
    simp only at hbounds hcount ⊢
    rcases Nat.lt_or_ge (alignClass top offset) top with hlt | hge
    · have hnext := alignClass_next_of_lt htop hlt
      refine ⟨alignClass top offset :: rising, n, rfl, ?_, ?_, hcount.trans (Nat.sub_le _ _)⟩
      · exact List.pairwise_cons.2 ⟨fun c hc => by have := hbounds c hc; omega, hrising⟩
      · refine List.forall_mem_cons.2 ⟨⟨Nat.le_refl _, hlt⟩, fun c hc => ?_⟩
        have := hbounds c hc
        omega
    · have heq : alignClass top offset = top := Nat.le_antisymm (Nat.min_le_right _ _) hge
      have hnext := alignClass_next_of_eq htop heq
      have hnone : rising = [] := by
        refine List.eq_nil_iff_forall_not_mem.2 fun c hc => ?_
        have := hbounds c hc
        omega
      rw [heq] at hcount hle ⊢
      refine ⟨[], n + 1, by rw [hnone]; rfl, .nil, List.forall_mem_nil _, ?_⟩
      rw [Nat.succ_mul]
      omega

theorem length_pieces_le (htop : top ≤ indexBits) (offset len : Nat) :
    (pieces top offset len).length ≤ top + len / 2 ^ top + 1 := by
  obtain ⟨rising, n, hclasses, hrising, hbounds, hcount⟩ := exists_rising htop offset len
  have hnodup : rising.Nodup := hrising.imp Nat.ne_of_lt
  have hfew : rising.length ≤ (List.range top).length :=
    hnodup.length_le_of_subset fun c hc => List.mem_range.2 (hbounds c hc).2
  have htops := (Nat.le_div_iff_mul_le (Nat.two_pow_pos top)).2 hcount
  have hlength := congrArg List.length hclasses
  rw [List.length_map, List.length_dropLast, List.length_append, List.length_replicate] at hlength
  rw [List.length_range] at hfew
  omega

/-- The split of a run that ends at an index comes to its end, with each piece verified, and it is
the one list of pieces that follow one another as large as possible. -/
theorem only_shaped_list (htop : top < maxClasses) (hrun : offset + len < 2 ^ indexBits) :
    ∃ split, (verified top offset len).outcome.result = .ok split ∧
      (∀ ps, Shaped top offset len ps ↔ ps = split) ∧
      (∃ (rising : List Nat) (n : Nat),
        split.dropLast.map Piece.sizeClass = rising ++ List.replicate n top ∧
          rising.Pairwise (· < ·) ∧ ∀ c ∈ rising, c < top) ∧
      split.length ≤ top + len / 2 ^ top + 1 := by
  have hle : top ≤ indexBits := Nat.le_of_lt htop
  obtain ⟨rising, n, hclasses, hrising, hbounds, -⟩ := exists_rising hle offset len
  exact ⟨_, result_verified htop hrun, fun ps => shaped_iff hle,
    ⟨rising, n, hclasses, hrising, fun c hc => (hbounds c hc).2⟩, length_pieces_le hle offset len⟩

theorem only_shaped_list_short_end :
    (verified 2 5 14).outcome.result =
        .ok [⟨0, 5, 1⟩, ⟨1, 6, 2⟩, ⟨2, 8, 4⟩, ⟨2, 12, 4⟩, ⟨2, 16, 3⟩] ∧
      ∀ ps, Shaped 2 5 14 ps ↔
        ps = [⟨0, 5, 1⟩, ⟨1, 6, 2⟩, ⟨2, 8, 4⟩, ⟨2, 12, 4⟩, ⟨2, 16, 3⟩] := by
  have hsplit : pieces 2 5 14 = [⟨0, 5, 1⟩, ⟨1, 6, 2⟩, ⟨2, 8, 4⟩, ⟨2, 12, 4⟩, ⟨2, 16, 3⟩] := by
    decide +kernel
  have hrun := result_verified (show 2 < indexBits by decide) (show 5 + 14 < _ by decide)
  obtain ⟨split, hends, honly, -⟩ :=
    only_shaped_list (show 2 < maxClasses by decide) (show 5 + 14 < _ by decide)
  cases hends.symm.trans hrun
  rw [hsplit] at hends honly
  exact ⟨hends, honly⟩

end AlignedRuns.Split
