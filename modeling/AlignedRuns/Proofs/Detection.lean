import AlignedRuns.Proofs.Diagnosis
import AlignedRuns.Proofs.Parameters
set_option autoImplicit false

namespace AlignedRuns
open Traced

namespace Allocator

inductive Tampered (a : Allocator) : Allocator → Prop where
  | free {s : FreeLists} (count : s.count = a.free.count)
    (words : ∀ p ∈ s.toList, p.offset < 2 ^ indexBits ∧ p.len < 2 ^ indexBits) :
    a.Tampered { a with free := s }
  | entry {offset size : Nat} (words : offset < 2 ^ indexBits ∧ size < 2 ^ indexBits) :
    a.Tampered { a with inUse := a.inUse.insert offset size }
  | noEntry (offset : Nat) : a.Tampered { a with inUse := a.inUse.erase offset }

variable {a b : Allocator}

theorem Tampered.sameParameters (h : a.Tampered b) : a.SameParameters b := by
  cases h with
  | free count words => exact ⟨rfl, rfl, count⟩
  | entry words => exact ⟨rfl, rfl, rfl⟩
  | noEntry offset => exact ⟨rfl, rfl, rfl⟩

theorem Tampered.sized (h : a.Tampered b) (ha : a.Sized) : b.Sized := h.sameParameters.sized ha

theorem Tampered.inWords (h : a.Tampered b) (ha : a.InWords) : b.InWords := by
  cases h with
  | free count words => exact ⟨words, ha.allocations⟩
  | entry words =>
    refine ⟨ha.pieces, fun e he => ?_⟩
    rcases IndexMap.mem_toList_of_insert he with rfl | he
    · exact words
    · exact ha.allocations e he
  | noEntry offset =>
    exact ⟨ha.pieces, fun e he => ha.allocations e (IndexMap.mem_toList_of_erase he)⟩

/-- No two canonical allocators are one change to one part apart. -/
theorem Tampered.eq_of_canonical (h : a.Tampered b) (ha : a.Canonical) (hb : b.Canonical) :
    b = a := by
  have htotal : (b.freePieces.map Piece.len).sum + b.inUse.total = b.totalSize := hb.total_eq
  have htotal' := ha.total_eq
  cases h with
  | free count words => exact hb.eq_of_inUse_eq ha rfl rfl rfl
  | @entry offset size words =>
    have hkept : (a.inUse.insert offset size).total = a.inUse.total := by
      simp only [freePieces] at htotal htotal'
      omega
    rw [IndexMap.total_insert] at hkept
    cases hold : a.inUse.get? offset with
    | none =>
      have hget : (a.inUse.insert offset size).get? offset = some size := by
        rw [IndexMap.get?_insert, if_pos rfl]
      have hpos : 0 < size := (hb.bounds_of_get?_some hget).2.1
      rw [IndexMap.erase_of_none hold] at hkept
      omega
    | some old =>
      rw [IndexMap.total_of_some hold] at hkept
      rw [Nat.add_right_cancel hkept, IndexMap.insert_of_some hold]
  | noEntry offset =>
    cases hold : a.inUse.get? offset with
    | none => rw [IndexMap.erase_of_none hold]
    | some old =>
      have hkept := IndexMap.total_of_some hold
      have hpos : 0 < old := (ha.bounds_of_get?_some hold).2.1
      simp only [freePieces] at htotal htotal'
      omega

end Allocator

namespace Tampering
open Allocator

/-- A run that goes into the free lists brings its pieces there, and one that comes out of them
brings nothing. -/
theorem perform_ensures {a : Allocator} {tampering : Tampering} (words : tampering.InWords)
    (ha : a.InWords) : (tampering.perform a).Ensures fun b _ => a.Tampered b := by
  cases tampering with
  | putAllocation offset size => exact ensures_pure (.entry words)
  | dropAllocation offset => exact ensures_pure (.noEntry offset)
  | putPiece sizeClass offset len =>
    refine Ensures.map ((FreeLists.silently_list _ _).bind fun pieces hpieces => ensures_pure ?_)
    obtain ⟨hclass, rfl⟩ := hpieces
    refine .free (FreeLists.count_put a.free ⟨sizeClass, offset, len⟩) fun q hq => ?_
    rcases FreeLists.mem_toList_of_put (p := ⟨sizeClass, offset, len⟩) hclass hq with rfl | hold
    · exact words.2
    · exact ha.pieces q hold
  | takePiece sizeClass offset =>
    refine Ensures.map ?_
    unfold Allocator.takePiece FreeLists.take
    rw [bind_assoc]
    refine (FreeLists.silently_list _ _).bind fun pieces hpieces => ?_
    obtain ⟨hclass, rfl⟩ := hpieces
    refine ensures_pure ?_
    refine .free (FreeLists.count_remove a.free ⟨sizeClass, offset, 0⟩) fun q hq => ?_
    exact ha.pieces q (FreeLists.mem_toList_of_remove (p := ⟨sizeClass, offset, 0⟩) hclass hq)
  | insertFreeRun offset len =>
    refine (FreeLists.insertRun_ensures _ _ _).bind fun s events hs => ensures_pure ?_
    obtain ⟨hreplayed, ps, rfl, hwithin⟩ := hs
    refine .free (FreeLists.count_replay hreplayed) fun q hq => ?_
    rcases FreeLists.mem_of_replay hreplayed hq with hold | hnew
    · exact ha.pieces q hold
    · obtain ⟨p, hp, heq⟩ := List.mem_map.1 hnew
      cases heq
      have hstop := hwithin q hp
      have hend : offset + len < 2 ^ indexBits := words
      unfold Piece.stop at hstop
      omega
  | removeFreeRun offset len =>
    refine (FreeLists.removeRun_ensures _ _ _).bind fun s events hs => ensures_pure ?_
    obtain ⟨hreplayed, ps, rfl, -⟩ := hs
    refine .free (FreeLists.count_replay hreplayed) fun q hq => ?_
    rcases FreeLists.mem_of_replay hreplayed hq with hold | hnew
    · exact ha.pieces q hold
    · obtain ⟨p, -, heq⟩ := List.mem_map.1 hnew
      cases heq

end Tampering

namespace Reachable
open Allocator

/-- No single change goes unnoticed: a reachable allocator that one change to one of its parts has
made a different one does not pass the diagnosis. -/
theorem tampering_found {maxSize slotCount : Nat} {a b : Allocator}
    (h : Reachable maxSize slotCount a) {tampering : Tampering} (words : tampering.InWords)
    (changed : (tampering.perform a).outcome.result = .ok b) (different : b ≠ a) :
    ∃ violation, b.violation?.outcome.result = .ok (some violation) := by
  have hcanonical := h.canonical.1
  have htampered := (Tampering.perform_ensures words h.inWords).of_outcome changed
  obtain ⟨found, hrun, hfound⟩ := (htampered.sized hcanonical.toSized).violation?_eq
    (htampered.inWords h.inWords)
  cases found with
  | some violation =>
    rw [hrun]
    exact ⟨violation, rfl⟩
  | none => exact absurd (htampered.eq_of_canonical hcanonical (hfound.1 rfl)) different

theorem tampering_found_beside_run :
    ∃ a b c violation violation', Reachable 4 4 a ∧ a.allocations = [(1, 2)] ∧
      ((Tampering.putAllocation 1 3).perform a).outcome.result = .ok b ∧
      b.violation?.outcome.result = .ok (some violation) ∧
      ((Tampering.putPiece 1 2 2).perform a).outcome.result = .ok c ∧
      c.violation?.outcome.result = .ok (some violation') := by
  obtain ⟨h, hlist⟩ := beside_run
  let a := (Allocator.blank 4 4).withAllocations (IndexMap.empty.insert 1 2)
  have hwords : (Tampering.putAllocation 1 3).InWords := by constructor <;> decide
  have hwords' : (Tampering.putPiece 1 2 2).InWords := by refine ⟨?_, ?_, ?_⟩ <;> decide
  have hput : ((Tampering.putPiece 1 2 2).perform a).outcome.result =
      .ok { a with free := a.free.put ⟨1, 2, 2⟩ } := by
    rw [Tampering.perform, putPiece, FreeLists.list_eq_listOf (by decide +kernel)]
    rfl
  obtain ⟨violation, hfound⟩ := tampering_found h hwords rfl fun heq =>
    absurd (congrArg (fun b : Allocator => b.inUse.get? 1) heq) (by decide)
  obtain ⟨violation', hfound'⟩ := tampering_found h hwords' hput fun heq =>
    absurd (congrArg (fun b : Allocator => b.free.get? 1 2) heq) (by decide +kernel)
  exact ⟨a, _, _, violation, violation', h, hlist, rfl, hfound, hput, hfound'⟩

end Reachable

end AlignedRuns
