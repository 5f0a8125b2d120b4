import AlignedRuns.Description
import AlignedRuns.Proofs.Ink
import AlignedRuns.Proofs.Parameters
set_option autoImplicit false

namespace AlignedRuns

namespace IndexMap

theorem isEmpty_of_mem {m : IndexMap} {e : Nat × Nat} (h : e ∈ m.toList) : m.isEmpty = false := by
  rw [isEmpty, ← Std.ExtTreeMap.isEmpty_toList]
  exact List.isEmpty_eq_false_iff.2 (List.ne_nil_of_mem h)

theorem unambiguous_entry (layout : Layout) : Unambiguous fun e : Nat × Nat =>
    ink (layout.record "Piece" [("offset", toString e.1), ("len", toString e.2)]) := by
  intro e d rest others h
  have hlen (text : List Char) : EndsNumber (ink "len" ++ text) := endsNumber_of_head? rfl rfl
  have hend (text : List Char) : EndsNumber ('\x7d' :: text) := endsNumber_of_head? rfl rfl
  simp only [Layout.ink_record, List.flatMap_cons, List.flatMap_nil, ink_toString,
    List.append_assoc, List.cons_append, List.nil_append] at h
  obtain ⟨hoffset, h⟩ :=
    field_append_inj (List.cons.inj (List.append_cancel_left h)).2 (hlen _) (hlen _)
  obtain ⟨hsize, h⟩ := field_append_inj h (hend _) (hend _)
  exact ⟨Prod.ext hoffset hsize, (List.cons.inj h).2⟩

theorem unambiguous_describe (layout : Layout) :
    Unambiguous fun m : IndexMap => ink (m.describe layout) := by
  have hentry (e : Nat × Nat) : ∃ c text,
      ink (layout.record "Piece" [("offset", toString e.1), ("len", toString e.2)]) = c :: text ∧
        c ≠ ']' := by
    rw [Layout.ink_record]
    exact ⟨'P', _, rfl, by decide⟩
  intro m n rest others h
  simp only [describe, Layout.ink_list, List.flatMap_map, List.cons_append] at h
  obtain ⟨hentries, hrest⟩ :=
    (unambiguous_entry layout).until_stop hentry _ _ _ _ (List.cons.inj h).2
  exact ⟨eq_of_toList_eq hentries, hrest⟩

end IndexMap

namespace FreeLists

def inhabited (s : FreeLists) : List (IndexMap × Nat) :=
  s.lists.zipIdx.filter fun e => !e.1.isEmpty

variable {s t : FreeLists}

theorem get?_of_inhabited (h : s.inhabited = t.inhabited) {c offset len : Nat}
    (hget : s.get? c offset = some len) : t.get? c offset = some len := by
  obtain ⟨pieces, hlist, hpiece⟩ := Option.bind_eq_some_iff.1 hget
  have hempty := IndexMap.isEmpty_of_mem (IndexMap.mem_toList_iff.2 hpiece)
  have hmem : (pieces, c) ∈ s.inhabited :=
    List.mem_filter.2 ⟨List.mem_zipIdx_iff_getElem?.2 hlist, by rw [hempty]; rfl⟩
  rw [h] at hmem
  have hother := List.mem_zipIdx_iff_getElem?.1 (List.mem_filter.1 hmem).1
  exact Option.bind_eq_some_iff.2 ⟨pieces, hother, hpiece⟩

/-- As many lists, of which the same hold the same, are the same lists. -/
theorem eq_of_inhabited (hcount : s.count = t.count) (h : s.inhabited = t.inhabited) : s = t := by
  refine ext_get? hcount fun c offset => Option.ext fun len => ?_
  exact ⟨get?_of_inhabited h, get?_of_inhabited h.symm⟩

theorem unambiguous_class (layout : Layout) : Unambiguous fun e : IndexMap × Nat =>
    ink (toString e.2) ++ ':' :: ink (e.1.describe layout) := by
  have hcolon (text : List Char) : EndsNumber (':' :: text) := endsNumber_of_head? rfl rfl
  intro e d rest others h
  simp only [ink_toString, List.append_assoc, List.cons_append] at h
  obtain ⟨hclass, h⟩ := toString_append_inj h (hcolon _) (hcolon _)
  obtain ⟨hpieces, hrest⟩ :=
    IndexMap.unambiguous_describe layout _ _ _ _ (List.cons.inj h).2
  exact ⟨Prod.ext hpieces hclass, hrest⟩

/-- The free lists can be read but for those that are empty. -/
theorem describe_append_inj (layout : Layout) {rest others : List Char}
    (h : ink (s.describe layout) ++ rest = ink (t.describe layout) ++ others) :
    s.inhabited = t.inhabited ∧ rest = others := by
  have hclass (e : IndexMap × Nat) : ∃ c text,
      ink (toString e.2) ++ ':' :: ink (e.1.describe layout) = c :: text ∧ c ≠ '\x7d' := by
    obtain ⟨c, text, hdigits, hdigit⟩ := exists_digit e.2
    rw [ink_toString, hdigits]
    refine ⟨c, _, rfl, ?_⟩
    rintro rfl
    cases hdigit
  simp only [describe, Layout.ink_table, List.flatMap_map, List.cons_append] at h
  exact (unambiguous_class layout).until_stop hclass _ _ _ _ (List.cons.inj h).2

end FreeLists

namespace Allocator

variable {a b : Allocator}

theorem eq_of_describe_eq (layout : Layout) (ha : a.free.count = Bits.ceilLog2 a.maxSize + 1)
    (hb : b.free.count = Bits.ceilLog2 b.maxSize + 1)
    (h : a.describe layout = b.describe layout) : a = b := by
  have htotal (text : List Char) : EndsNumber (ink "total_size" ++ text) :=
    endsNumber_of_head? rfl rfl
  have hfree (text : List Char) : EndsNumber (ink "free" ++ text) := endsNumber_of_head? rfl rfl
  have hink := congrArg ink h
  simp only [describe, Layout.ink_record, List.flatMap_cons, List.flatMap_nil, ink_toString,
    List.append_assoc, List.cons_append, List.nil_append] at hink
  have hfields := (List.cons.inj (List.append_cancel_left hink)).2
  obtain ⟨hmax, hfields⟩ := field_append_inj hfields (htotal _) (htotal _)
  obtain ⟨hsize, hfields⟩ := field_append_inj hfields (hfree _) (hfree _)
  obtain ⟨hlists, hfields⟩ :=
    FreeLists.describe_append_inj layout (List.cons.inj (List.append_cancel_left hfields)).2
  obtain ⟨hused, -⟩ := IndexMap.unambiguous_describe layout _ _ _ _
    (List.cons.inj (List.append_cancel_left hfields)).2
  -- the text does not say how many free lists there are, but the largest size does
  have hcount : a.free.count = b.free.count := by rw [ha, hb, hmax]
  have hsame := FreeLists.eq_of_inhabited hcount hlists
  obtain ⟨maxSize, totalSize, free, inUse⟩ := a
  obtain ⟨otherMax, otherTotal, otherFree, otherInUse⟩ := b
  cases hmax
  cases hsize
  cases hsame
  cases hused
  rfl

end Allocator

namespace Disturbed
open Allocator

variable {maxSize slotCount otherMax otherCount : Nat} {a b : Allocator}

theorem count_eq (h : Disturbed maxSize slotCount a) :
    a.free.count = Bits.ceilLog2 a.maxSize + 1 := by
  obtain ⟨new, hnew, hsame⟩ := h.sameParameters
  have hsized := hsame.sized_of_create hnew
  rw [hsized.count_eq, hsized.top_eq]

/-- The descriptions of two allocators are the same just if the allocators are, whatever has
happened to them. -/
theorem describe_eq_iff (ha : Disturbed maxSize slotCount a) (hb : Disturbed otherMax otherCount b)
    (layout : Layout) : a.describe layout = b.describe layout ↔ a = b :=
  ⟨eq_of_describe_eq layout ha.count_eq hb.count_eq, congrArg (describe layout)⟩

theorem describe_eq_iff_piece_taken :
    ∃ a b : Allocator, Disturbed 4 1 a ∧
      ((Tampering.takePiece 2 0).perform a).outcome.result = .ok b ∧ Disturbed 4 1 b ∧
      ∀ layout, a.describe layout ≠ b.describe layout := by
  have hnew : (create 4 1).outcome.result = .ok (.ok (blank 4 1)) :=
    outcome_create_iff.2 ⟨⟨⟨2, by decide, rfl⟩, by decide⟩, rfl⟩
  let b : Allocator := { blank 4 1 with free := (blank 4 1).free.setList 2 .empty }
  have performed : ((Tampering.takePiece 2 0).perform (blank 4 1)).outcome.result = .ok b := by
    decide +kernel
  have ha : Disturbed 4 1 (blank 4 1) := .fresh hnew
  have hb : Disturbed 4 1 b := ha.tampered performed
  have hne : blank 4 1 ≠ b := by decide +kernel
  exact ⟨blank 4 1, b, ha, performed, hb,
    fun layout heq => hne ((describe_eq_iff ha hb layout).1 heq)⟩

end Disturbed

end AlignedRuns
