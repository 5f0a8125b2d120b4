import AlignedRuns.Proofs.Cuts
import Mathlib.Data.List.Pairwise
set_option autoImplicit false

namespace AlignedRuns.Gaps

def between (total : Nat) : (start : Nat) → List (Nat × Nat) → List (Nat × Nat)
  | start, [] => [(start, total)]
  | start, (offset, size) :: rest => (start, offset) :: between total (offset + size) rest

/-- The allocations are not empty and follow one another from `start` on, up to `total`. -/
def Spaced (total : Nat) : (start : Nat) → List (Nat × Nat) → Prop
  | start, [] => start ≤ total
  | start, (offset, size) :: rest =>
    start ≤ offset ∧ 0 < size ∧ Spaced total (offset + size) rest

def lastStop : (start : Nat) → List (Nat × Nat) → Nat
  | start, [] => start
  | _, (offset, size) :: rest => lastStop (offset + size) rest

def firstStart (total : Nat) : List (Nat × Nat) → Nat
  | [] => total
  | (offset, _) :: _ => offset

def before : (start : Nat) → List (Nat × Nat) → List (Nat × Nat)
  | _, [] => []
  | start, (offset, size) :: rest => (start, offset) :: before (offset + size) rest

def behind (total : Nat) : List (Nat × Nat) → List (Nat × Nat)
  | [] => []
  | (offset, size) :: rest => between total (offset + size) rest

def split (top : Nat) (gap : Nat × Nat) : List Piece := Split.pieces top gap.1 (gap.2 - gap.1)

def pieces (top total start : Nat) (allocations : List (Nat × Nat)) : List Piece :=
  (between total start allocations).flatMap (split top)

variable {top total start : Nat}

/-- The gap between two lists of allocations is the only one that both of them bound. -/
theorem between_append (total start : Nat) (front back : List (Nat × Nat)) :
    between total start (front ++ back) =
      before start front ++ (lastStop start front, firstStart total back) :: behind total back := by
  induction front generalizing start with
  | nil =>
    cases back with
    | nil => rfl
    | cons e back => rfl
  | cons e front ih =>
    change (start, e.1) :: between total (e.1 + e.2) (front ++ back) = _
    rw [ih]
    rfl

theorem pieces_append (top total start : Nat) (front back : List (Nat × Nat)) :
    pieces top total start (front ++ back) =
      (before start front).flatMap (split top) ++
        (split top (lastStop start front, firstStart total back) ++
          (behind total back).flatMap (split top)) := by
  rw [pieces, between_append, List.flatMap_append, List.flatMap_cons]

theorem pieces_append_cons (top total start offset size : Nat) (front back : List (Nat × Nat)) :
    pieces top total start (front ++ (offset, size) :: back) =
      (before start front).flatMap (split top) ++
        (split top (lastStop start front, offset) ++
          (split top (offset + size, firstStart total back) ++
            (behind total back).flatMap (split top))) := by
  rw [pieces_append]
  change _ ++ (_ ++ pieces top total (offset + size) back) = _
  rw [← List.nil_append back, pieces_append top total (offset + size) [] back]
  rfl

def others (top total start : Nat) (front back : List (Nat × Nat)) : List Piece :=
  (before start front).flatMap (split top) ++ (behind total back).flatMap (split top)

theorem perm_pieces_append (top total start : Nat) (front back : List (Nat × Nat)) :
    (pieces top total start (front ++ back)).Perm
      (split top (lastStop start front, firstStart total back) ++
        others top total start front back) := by
  rw [pieces_append]
  exact List.perm_append_comm_assoc _ _ _

theorem perm_pieces_append_cons (top total start offset size : Nat)
    (front back : List (Nat × Nat)) :
    (pieces top total start (front ++ (offset, size) :: back)).Perm
      (split top (lastStop start front, offset) ++
        (split top (offset + size, firstStart total back) ++
          others top total start front back)) := by
  rw [pieces_append_cons]
  exact (List.perm_append_comm_assoc _ _ _).trans
    ((List.perm_append_comm_assoc _ _ _).append_left _)

theorem exists_of_mem_between {allocations : List (Nat × Nat)} {gap : Nat × Nat}
    (h : gap ∈ between total start allocations) : ∃ front back, allocations = front ++ back ∧
      gap = (lastStop start front, firstStart total back) := by
  induction allocations generalizing start with
  | nil => exact ⟨[], [], rfl, List.mem_singleton.1 h⟩
  | cons e rest ih =>
    rcases List.mem_cons.1 h with rfl | h
    · exact ⟨[], e :: rest, rfl, rfl⟩
    · obtain ⟨front, back, rfl, rfl⟩ := ih h
      exact ⟨e :: front, back, rfl, rfl⟩

theorem lastStop_eq_getLast? (start : Nat) (allocations : List (Nat × Nat)) :
    lastStop start allocations =
      match allocations.getLast? with
      | some (offset, size) => offset + size
      | none => start := by
  induction allocations generalizing start with
  | nil => rfl
  | cons e rest ih =>
    rw [lastStop, ih, List.getLast?_cons]
    cases rest.getLast? <;> rfl

theorem firstStart_eq_head? (total : Nat) (allocations : List (Nat × Nat)) :
    firstStart total allocations =
      match allocations.head? with
      | some (offset, _) => offset
      | none => total := by
  cases allocations <;> rfl

theorem Spaced.le_firstStart {allocations : List (Nat × Nat)} (h : Spaced total start allocations) :
    start ≤ firstStart total allocations := by
  cases allocations with
  | nil => exact h
  | cons e rest => exact h.1

theorem Spaced.le_total {allocations : List (Nat × Nat)} (h : Spaced total start allocations) :
    start ≤ total := by
  induction allocations generalizing start with
  | nil => exact h
  | cons e rest ih =>
    obtain ⟨hle, _, hrest⟩ := h
    have := ih hrest
    omega

theorem Spaced.of_le {start' : Nat} {allocations : List (Nat × Nat)}
    (h : Spaced total start allocations) (hle : start' ≤ firstStart total allocations) :
    Spaced total start' allocations := by
  cases allocations with
  | nil => exact hle
  | cons e rest => exact ⟨hle, h.2⟩

theorem spaced_append_iff {front back : List (Nat × Nat)} :
    Spaced total start (front ++ back) ↔
      Spaced (lastStop start front) start front ∧ Spaced total (lastStop start front) back := by
  induction front generalizing start with
  | nil => exact ⟨fun h => ⟨Nat.le_refl _, h⟩, fun h => h.2⟩
  | cons e front ih =>
    change _ ∧ _ ∧ Spaced total (e.1 + e.2) (front ++ back) ↔ (_ ∧ _ ∧ _) ∧ _
    rw [ih, and_assoc, and_assoc]
    rfl

theorem Spaced.insert {front back : List (Nat × Nat)} {offset size : Nat}
    (h : Spaced total start (front ++ back)) (hsize : 0 < size)
    (hleft : lastStop start front ≤ offset) (hright : offset + size ≤ firstStart total back) :
    Spaced total start (front ++ (offset, size) :: back) := by
  obtain ⟨hfront, hback⟩ := spaced_append_iff.1 h
  exact spaced_append_iff.2 ⟨hfront, hleft, hsize, hback.of_le hright⟩

theorem Spaced.erase {front back : List (Nat × Nat)} {e : Nat × Nat}
    (h : Spaced total start (front ++ e :: back)) : Spaced total start (front ++ back) := by
  obtain ⟨hfront, hle, _, hback⟩ := spaced_append_iff.1 h
  have := hback.le_firstStart
  exact spaced_append_iff.2 ⟨hfront, hback.of_le (by omega)⟩

theorem Spaced.bounds {allocations : List (Nat × Nat)} (h : Spaced total start allocations)
    {e : Nat × Nat} (he : e ∈ allocations) : start ≤ e.1 ∧ 0 < e.2 ∧ e.1 + e.2 ≤ total := by
  induction allocations generalizing start with
  | nil => cases he
  | cons d rest ih =>
    obtain ⟨hle, hpos, hrest⟩ := h
    rcases List.mem_cons.1 he with rfl | he
    · exact ⟨hle, hpos, hrest.le_total⟩
    · have := ih hrest he
      omega

theorem Spaced.le_lastStop {front back : List (Nat × Nat)}
    (h : Spaced total start (front ++ back)) {e : Nat × Nat} (he : e ∈ front) :
    e.1 + e.2 ≤ lastStop start front :=
  ((spaced_append_iff.1 h).1.bounds he).2.2

theorem Spaced.apart {allocations : List (Nat × Nat)} (h : Spaced total start allocations)
    {e d : Nat × Nat} (he : e ∈ allocations) (hd : d ∈ allocations) (hlt : e.1 < d.1) :
    e.1 + e.2 ≤ d.1 := by
  induction allocations generalizing start with
  | nil => cases he
  | cons f rest ih =>
    obtain ⟨_, _, hrest⟩ := h
    rcases List.mem_cons.1 he with rfl | he' <;> rcases List.mem_cons.1 hd with rfl | hd'
    · exact absurd hlt (Nat.lt_irrefl _)
    · exact (hrest.bounds hd').1
    · have := (hrest.bounds he').1
      omega
    · exact ih hrest he' hd'

theorem Spaced.pairwise {allocations : List (Nat × Nat)} (h : Spaced total start allocations) :
    allocations.Pairwise fun e d => e.1 + e.2 ≤ d.1 := by
  induction allocations generalizing start with
  | nil => exact .nil
  | cons e rest ih => exact .cons (fun d hd => (h.2.2.bounds hd).1) (ih h.2.2)

theorem spaced_of_pairwise {allocations : List (Nat × Nat)} (hle : start ≤ total)
    (h : allocations.Pairwise fun e d => e.1 + e.2 ≤ d.1)
    (hbounds : ∀ e ∈ allocations, start ≤ e.1 ∧ 0 < e.2 ∧ e.1 + e.2 ≤ total) :
    Spaced total start allocations := by
  induction allocations generalizing start with
  | nil => exact hle
  | cons e rest ih =>
    obtain ⟨hfirst, hrest⟩ := List.pairwise_cons.1 h
    obtain ⟨he, hlater⟩ := List.forall_mem_cons.1 hbounds
    refine ⟨he.1, he.2.1, ih he.2.2 hrest fun d hd => ⟨hfirst d hd, (hlater d hd).2⟩⟩

theorem Spaced.firstStart_le {allocations : List (Nat × Nat)} (h : Spaced total start allocations)
    {e : Nat × Nat} (he : e ∈ allocations) : firstStart total allocations ≤ e.1 := by
  cases allocations with
  | nil => cases he
  | cons d rest =>
    rcases List.mem_cons.1 he with rfl | he
    · exact Nat.le_refl _
    · exact Nat.le_trans (Nat.le_add_right _ _) (h.2.2.bounds he).1

theorem lastStop_le {allocations : List (Nat × Nat)} {bound : Nat} (hstart : start ≤ bound)
    (h : ∀ e ∈ allocations, e.1 + e.2 ≤ bound) : lastStop start allocations ≤ bound := by
  induction allocations generalizing start with
  | nil => exact hstart
  | cons e rest ih =>
    have he := List.forall_mem_cons.1 h
    exact ih he.1 he.2

theorem le_firstStart {allocations : List (Nat × Nat)} {bound : Nat} (htotal : bound ≤ total)
    (h : ∀ e ∈ allocations, bound ≤ e.1) : bound ≤ firstStart total allocations := by
  cases allocations with
  | nil => exact htotal
  | cons e rest => exact h e List.mem_cons_self

theorem fits_of_mem_pieces {allocations : List (Nat × Nat)} {p : Piece}
    (h : p ∈ pieces top total start allocations) : p.Fits top := by
  obtain ⟨gap, _, hp⟩ := List.mem_flatMap.1 h
  exact Split.fits_of_mem_pieces hp

theorem bounds_of_mem_split {gap : Nat × Nat} (hle : gap.1 ≤ gap.2) {p : Piece}
    (h : p ∈ split top gap) : gap.1 ≤ p.offset ∧ p.stop ≤ gap.2 := by
  have := Split.bounds_of_mem_pieces h
  omega

theorem not_mem_split_of_outside {gap : Nat × Nat} (hle : gap.1 ≤ gap.2) {p : Piece}
    (hout : p.stop ≤ gap.1 ∨ gap.2 ≤ p.offset) : p ∉ split top gap := by
  intro hp
  have hbounds := bounds_of_mem_split hle hp
  have hpos := (Split.fits_of_mem_pieces hp).len_pos
  unfold Piece.stop at hbounds hout
  omega

theorem ordered_between {allocations : List (Nat × Nat)} (h : Spaced total start allocations) :
    (between total start allocations).Pairwise (fun g g' => g.2 ≤ g'.1) ∧
      ∀ g ∈ between total start allocations, start ≤ g.1 ∧ g.1 ≤ g.2 ∧ g.2 ≤ total := by
  induction allocations generalizing start with
  | nil => simpa [between, Spaced] using h
  | cons e rest ih =>
    obtain ⟨hle, hpos, hrest⟩ := h
    obtain ⟨hpair, hbounds⟩ := ih hrest
    have htotal := hrest.le_total
    refine ⟨List.pairwise_cons.2 ⟨fun g hg => ?_, hpair⟩, List.forall_mem_cons.2 ⟨?_, ?_⟩⟩
    · have := hbounds g hg
      change e.1 ≤ g.1
      omega
    · change start ≤ start ∧ start ≤ e.1 ∧ e.1 ≤ total
      omega
    · intro g hg
      have := hbounds g hg
      omega

theorem apart_of_mem_between {allocations : List (Nat × Nat)} (h : Spaced total start allocations)
    {g g' : Nat × Nat} (hg : g ∈ between total start allocations)
    (hg' : g' ∈ between total start allocations) (hne : g ≠ g') : g.2 ≤ g'.1 ∨ g'.2 ≤ g.1 := by
  have hsymm : Std.Symm fun x y : Nat × Nat => x.2 ≤ y.1 ∨ y.2 ≤ x.1 := ⟨fun _ _ => Or.symm⟩
  have hpair : (between total start allocations).Pairwise fun x y => x.2 ≤ y.1 ∨ y.2 ≤ x.1 :=
    (ordered_between h).1.imp Or.inl
  exact hpair.forall hg hg' hne

theorem bounds_of_mem_pieces {allocations : List (Nat × Nat)} (h : Spaced total start allocations)
    {p : Piece} (hp : p ∈ pieces top total start allocations) :
    start ≤ p.offset ∧ p.stop ≤ total := by
  obtain ⟨gap, hgap, hp⟩ := List.mem_flatMap.1 hp
  have hb := (ordered_between h).2 gap hgap
  have := bounds_of_mem_split hb.2.1 hp
  omega

theorem ordered_pieces (top : Nat) {allocations : List (Nat × Nat)}
    (h : Spaced total start allocations) :
    (pieces top total start allocations).Pairwise fun p q => p.stop ≤ q.offset := by
  obtain ⟨hpair, hbounds⟩ := ordered_between h
  refine List.pairwise_flatMap.2 ⟨fun gap _ => Split.ordered_pieces _ _ _, ?_⟩
  apply hpair.imp_of_mem
  intro g g' hg hg' hlt p hp q hq
  have := (bounds_of_mem_split (hbounds g hg).2.1 hp).2
  have := (bounds_of_mem_split (hbounds g' hg').2.1 hq).1
  omega

theorem nodup_places (top : Nat) {allocations : List (Nat × Nat)}
    (h : Spaced total start allocations) :
    ((pieces top total start allocations).map Piece.offset).Nodup := by
  refine List.pairwise_map.2 ((ordered_pieces top h).imp_of_mem ?_)
  intro p q hp _ hle heq
  have := (fits_of_mem_pieces hp).len_pos
  unfold Piece.stop at hle
  omega

end AlignedRuns.Gaps
