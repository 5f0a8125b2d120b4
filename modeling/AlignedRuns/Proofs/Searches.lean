import AlignedRuns.IndexMap.Neighbours
import AlignedRuns.Proofs.Holdings
import Mathlib.Order.Bounds.Basic
set_option autoImplicit false

namespace AlignedRuns

/-- What holds at all places from number `i` on holds at the first of them and at the later ones. -/
theorem forall_places_succ {P : Nat → Prop} {first stride remaining i : Nat} :
    (∀ j < remaining + 1, P (first + (i + j) * stride)) ↔
      P (first + i * stride) ∧ ∀ j < remaining, P (first + (i + 1 + j) * stride) := by
  rw [Nat.forall_lt_succ_left]
  simp only [Nat.add_zero, Nat.add_assoc, Nat.add_comm 1]

/-- What a search in ascending order finds first is the least that suits. -/
theorem find?_eq_some_iff_isLeast {places : List Nat} (ascending : places.Pairwise (· < ·))
    (p : Nat → Bool) {place : Nat} :
    places.find? p = some place ↔ IsLeast {i | i ∈ places ∧ p i} place := by
  rw [IndexMap.find?_eq_some_iff (fun i j => Nat.lt_asymm) ascending, ← and_assoc]
  refine and_congr_right fun _ => ⟨fun h i hi => ?_, fun h i hmem hi => ?_⟩
  · rcases h i hi.1 hi.2 with rfl | hlt
    · exact Nat.le_refl _
    · exact Nat.le_of_lt hlt
  · exact (Nat.eq_or_lt_of_le (h ⟨hmem, hi⟩)).imp_left Eq.symm

namespace FreeLists
open Traced

/-- The first piece of class `c` or above, by class and then by offset, with room for `size`. -/
def firstFit? (s : FreeLists) (c size : Nat) : Option Piece :=
  s.toList.find? fun p => c ≤ p.sizeClass ∧ size ≤ p.len

def taken (s : FreeLists) : Option Piece → Option (Nat × Nat) × FreeLists
  | some p => (some (p.offset, p.len), s.remove p)
  | none => (none, s)

def piecesOf (s : FreeLists) (c : Nat) : List Piece :=
  (s.listOf c).toList.map fun (offset, len) => ⟨c, offset, len⟩

theorem takeFirstFit_eq {s : FreeLists} {c : Nat} (hc : c < s.count) (size : Nat) :
    s.takeFirstFit c size = pure (s.taken ((s.piecesOf c).find? fun p => size ≤ p.len)) := by
  rw [takeFirstFit, list_eq_listOf hc, pure_bind, piecesOf, List.find?_map]
  change _ = pure (s.taken (((s.listOf c).toList.find? fun e => size ≤ e.2).map _))
  cases (s.listOf c).toList.find? fun e => size ≤ e.2 <;> rfl

theorem takeFirstFitAmong_eq {s : FreeLists} {classes : List Nat}
    (h : ∀ c ∈ classes, c < s.count) (size : Nat) : s.takeFirstFitAmong size classes =
      pure (s.taken (classes.findSome? fun c => (s.piecesOf c).find? fun p => size ≤ p.len)) := by
  induction classes with
  | nil => rfl
  | cons c classes ih =>
    obtain ⟨hc, hrest⟩ := List.forall_mem_cons.1 h
    rw [takeFirstFitAmong, takeFirstFit_eq hc, pure_bind, List.findSome?_cons]
    cases (s.piecesOf c).find? fun p => size ≤ p.len with
    | none => exact ih hrest
    | some p => rfl

theorem firstFit?_eq_findSome? (s : FreeLists) {c : Nat} (hc : c ≤ s.count) (size : Nat) :
    s.firstFit? c size = (List.range' c (s.count - c)).findSome? fun d =>
      (s.piecesOf d).find? fun p => size ≤ p.len := by
  have hsplit : List.range s.count = List.range' 0 c ++ List.range' c (s.count - c) := by
    rw [List.range_eq_range', show s.count = c + (s.count - c) by omega, ← List.range'_append_1,
      Nat.zero_add, Nat.add_sub_cancel_left]
  have hfind : ∀ d, (s.piecesOf d).find? (fun p => c ≤ p.sizeClass ∧ size ≤ p.len) =
      if c ≤ d then (s.piecesOf d).find? fun p => size ≤ p.len else none := by
    intro d
    simp only [piecesOf, List.find?_map]
    split
    · rename_i hle
      congr 2
      funext e
      simp [hle]
    · rename_i hlt
      rw [List.find?_eq_none.2]
      · rfl
      · intro e _
        simp [hlt]
  have hlow : (List.range' 0 c).findSome? (fun d =>
      (s.piecesOf d).find? fun p => c ≤ p.sizeClass ∧ size ≤ p.len) = none := by
    refine List.findSome?_eq_none_iff.2 fun d hd => ?_
    rw [hfind, if_neg]
    have := (List.mem_range'_1.1 hd).2
    omega
  have hhigh : ∀ classes : List Nat, (∀ d ∈ classes, c ≤ d) → (classes.findSome? fun d =>
      (s.piecesOf d).find? fun p => c ≤ p.sizeClass ∧ size ≤ p.len) =
        classes.findSome? fun d => (s.piecesOf d).find? fun p => size ≤ p.len := by
    intro classes hclasses
    induction classes with
    | nil => rfl
    | cons d classes ih =>
      obtain ⟨hd, hrest⟩ := List.forall_mem_cons.1 hclasses
      rw [List.findSome?_cons, List.findSome?_cons, hfind, if_pos hd, ih hrest]
  rw [firstFit?, toList_eq_flatMap, List.find?_flatMap, hsplit, List.findSome?_append]
  change (List.findSome? (fun d => (s.piecesOf d).find? _) _).or
    (List.findSome? (fun d => (s.piecesOf d).find? _) _) = _
  rw [hlow, Option.none_or]
  exact hhigh _ fun d hd => (List.mem_range'_1.1 hd).1

theorem takeFit_eq (s : FreeLists) {c : Nat} (hc : c ≤ s.count) (size : Nat) :
    s.takeFit c size = pure (s.taken (s.firstFit? c size)) := by
  rw [takeFit, takeFirstFitAmong_eq, firstFit?_eq_findSome? s hc]
  intro d hd
  have := (List.mem_range'_1.1 hd).2
  omega

theorem firstFit?_some {s : FreeLists} {c size : Nat} {p : Piece}
    (h : s.firstFit? c size = some p) : p ∈ s.toList ∧ c ≤ p.sizeClass ∧ size ≤ p.len :=
  ⟨List.mem_of_find?_eq_some h, by simpa using List.find?_some h⟩

/-- A top class piece starts at `place`, which is an index, and has room for `size`. -/
def RoomAt (s : FreeLists) (size place : Nat) : Prop :=
  place < 2 ^ indexBits ∧ hasRoom (s.listOf s.top) size place = true

instance (s : FreeLists) (size place : Nat) : Decidable (s.RoomAt size place) :=
  inferInstanceAs (Decidable (_ ∧ _))

theorem RoomAt.exists_piece {s : FreeLists} {size place : Nat} (h : s.RoomAt size place) :
    ∃ len, size ≤ len ∧ (⟨s.top, place, len⟩ : Piece) ∈ s.toList := by
  obtain ⟨_, hroom⟩ := h
  unfold hasRoom at hroom
  split at hroom
  · rename_i len hget
    refine ⟨len, of_decide_eq_true hroom, ?_⟩
    rw [mem_toList_iff, get?_eq_listOf]
    exact hget
  · cases hroom

theorem RoomAt.of_mem {s : FreeLists} {size place len : Nat} (hplace : place < 2 ^ indexBits)
    (hlen : size ≤ len) (hp : (⟨s.top, place, len⟩ : Piece) ∈ s.toList) : s.RoomAt size place := by
  rw [mem_toList_iff, get?_eq_listOf] at hp
  refine ⟨hplace, ?_⟩
  simp only at hp
  simp only [hasRoom, hp]
  exact decide_eq_true hlen

def topRuns? (s : FreeLists) (size count align : Nat) : Option Nat :=
  ((s.listOf s.top).toList.find? fun e =>
    e.1 % align = 0 ∧ ∀ i < count, s.RoomAt size (e.1 + i * 2 ^ s.top)).map (·.1)

theorem findM?_eq_find? {α : Type} {f : α → Traced Bool} {g : α → Bool} {xs : List α}
    (h : ∀ x ∈ xs, f x = pure (g x)) : xs.findM? f = pure (xs.find? g) := by
  induction xs with
  | nil => rfl
  | cons x xs ih =>
    obtain ⟨hx, hrest⟩ := List.forall_mem_cons.1 h
    rw [List.findM?, hx, pure_bind, List.find?_cons, ih hrest]
    cases g x <;> rfl

theorem hasRoomEvery_eq {s : FreeLists} {offset stride : Nat} (size remaining i : Nat)
    (hbound : offset + (i + remaining) * stride < 2 ^ wideBits) :
    hasRoomEvery (s.listOf s.top) size offset stride remaining i =
      pure (decide (∀ j < remaining, s.RoomAt size (offset + (i + j) * stride))) := by
  induction remaining generalizing i with
  | zero => rw [hasRoomEvery]; simp
  | succ remaining ih =>
    have hplace : offset + i * stride < 2 ^ wideBits :=
      Nat.lt_of_le_of_lt
        (Nat.add_le_add_left (Nat.mul_le_mul_right stride (Nat.le_add_right _ _)) _) hbound
    have hstep : i * stride < 2 ^ wideBits := by omega
    have hnext := ih (i + 1) (by rwa [show i + 1 + remaining = i + (remaining + 1) by omega])
    rw [hasRoomEvery, Word.mul_of_lt hstep, pure_bind, Word.add_of_lt hplace, pure_bind, hnext]
    change (if s.RoomAt size (offset + i * stride) then _ else _) = _
    simp only [forall_places_succ (P := s.RoomAt size)]
    by_cases hroom : s.RoomAt size (offset + i * stride)
    · simp [hroom]
    · simp [hroom]

theorem findTopClassRuns_eq {s : FreeLists} {count align : Nat} (hcount : 0 < s.count)
    (htop : s.top < indexBits) (hwords : ∀ p ∈ s.toList, p.offset < 2 ^ indexBits)
    (hnumber : count < 2 ^ indexBits) (halign : align ≠ 0) (size : Nat) :
    s.findTopClassRuns size count align = pure (s.topRuns? size count align) := by
  have htop' : s.top < s.count := by
    unfold top
    omega
  have hstride : Word.bit wideBits s.top = pure (2 ^ s.top) := by
    apply Word.bit_of_lt
    unfold indexBits at htop
    unfold wideBits
    omega
  have hspan : count * 2 ^ s.top < 2 ^ indexBits * 2 ^ 31 :=
    Nat.mul_lt_mul_of_lt_of_le hnumber
      (Nat.pow_le_pow_right (by decide) (by unfold indexBits at htop; omega)) (by decide)
  have hfound : (s.listOf s.top).toList.findM? (fun e : Nat × Nat => (do
      if align = 0 then Traced.fault .remainderByZero
      else if e.1 % align = 0 then
        hasRoomEvery (s.listOf s.top) size e.1 (2 ^ s.top) count 0
      else return false : Traced Bool)) =
      pure ((s.listOf s.top).toList.find? fun e =>
        e.1 % align = 0 ∧ ∀ i < count, s.RoomAt size (e.1 + i * 2 ^ s.top)) := by
    refine findM?_eq_find? fun e he => ?_
    have hword : e.1 < 2 ^ indexBits := by
      refine hwords ⟨s.top, e.1, e.2⟩ ?_
      rw [mem_toList_iff, get?_eq_listOf]
      exact IndexMap.mem_toList_iff.1 he
    have hbound : e.1 + (0 + count) * 2 ^ s.top < 2 ^ wideBits := by
      rw [Nat.zero_add]
      unfold indexBits at hword hspan
      unfold wideBits
      omega
    rw [if_neg halign, hasRoomEvery_eq size count 0 hbound]
    by_cases hdvd : e.1 % align = 0
    · simp [hdvd]
    · simp [hdvd]
  rw [findTopClassRuns, topClass_eq hcount, pure_bind, list_eq_listOf htop', pure_bind, hstride,
    pure_bind]
  change (List.findM? (fun e : Nat × Nat => _) _ >>= _) = _
  rw [hfound, pure_bind]
  rfl

end FreeLists

end AlignedRuns
