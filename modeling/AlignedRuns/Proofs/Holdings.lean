import AlignedRuns.FreeLists
import AlignedRuns.Proofs.Cuts
set_option autoImplicit false

namespace AlignedRuns

namespace Traced

variable {α β : Type}

theorem emit_pure_bind (events : Journal) (a : α) (f : α → Traced β) :
    ((do emit events; pure a : Traced α) >>= f) = (do emit events; f a) := by
  rw [bind_assoc]
  simp only [pure_bind]

end Traced

namespace FreeLists
open Traced

def listOf (s : FreeLists) (c : Nat) : IndexMap := s.lists[c]?.getD .empty

def put (s : FreeLists) (p : Piece) : FreeLists :=
  s.setList p.sizeClass ((s.listOf p.sizeClass).insert p.offset p.len)

def remove (s : FreeLists) (p : Piece) : FreeLists :=
  s.setList p.sizeClass ((s.listOf p.sizeClass).erase p.offset)

def ofPieces (classes : Nat) (ps : List Piece) : FreeLists :=
  ps.foldl put ⟨List.replicate classes .empty⟩

theorem list_eq_listOf {s : FreeLists} {c : Nat} (h : c < s.count) : s.list c = pure (s.listOf c) := by
  have hget : s.lists[c]? = some s.lists[c] := List.getElem?_eq_getElem h
  rw [list_eq_pure hget, listOf, hget]
  rfl

theorem get?_eq_listOf (s : FreeLists) (c offset : Nat) :
    s.get? c offset = (s.listOf c).get? offset := by
  unfold get? listOf
  cases s.lists[c]? <;> simp

theorem class_lt_of_mem {s : FreeLists} {p : Piece} (h : p ∈ s.toList) : p.sizeClass < s.count := by
  rw [mem_toList_iff, get?] at h
  obtain ⟨m, hm, _⟩ := Option.bind_eq_some_iff.1 h
  exact (List.getElem?_eq_some_iff.1 hm).1

theorem eq_of_mem_toList {s : FreeLists} {p q : Piece} (hp : p ∈ s.toList) (hq : q ∈ s.toList)
    (hc : p.sizeClass = q.sizeClass) (ho : p.offset = q.offset) : p = q := by
  rw [mem_toList_iff] at hp hq
  rw [hc, ho] at hp
  have hlen := Option.some.inj (hp.symm.trans hq)
  obtain ⟨_, _, _⟩ := p
  obtain ⟨_, _, _⟩ := q
  simp only at hc ho hlen
  rw [hc, ho, hlen]

theorem toList_eq_flatMap (s : FreeLists) :
    s.toList = (List.range s.count).flatMap fun c =>
      (s.listOf c).toList.map fun (offset, len) => ⟨c, offset, len⟩ := by
  have hzip : s.lists.zipIdx = (List.range s.count).map fun c => (s.listOf c, c) := by
    apply List.ext_getElem
    · simp [count]
    · intro c hc _
      simp only [List.length_zipIdx] at hc
      simp [listOf, hc]
  rw [toList, hzip, List.flatMap_map]

theorem ordered_toList (s : FreeLists) : s.toList.Pairwise fun p q =>
    p.sizeClass < q.sizeClass ∨ p.sizeClass = q.sizeClass ∧ p.offset < q.offset := by
  rw [toList_eq_flatMap]
  refine List.pairwise_flatMap.2 ⟨fun c _ => ?_, List.pairwise_lt_range.imp ?_⟩
  · refine List.pairwise_map.2 ((s.listOf c).ascending_toList.imp fun h => .inr ⟨rfl, h⟩)
  · intro c d hcd p hp q hq
    obtain ⟨_, _, rfl⟩ := List.mem_map.1 hp
    obtain ⟨_, _, rfl⟩ := List.mem_map.1 hq
    exact .inl hcd

theorem nodup_toList (s : FreeLists) : s.toList.Nodup :=
  s.ordered_toList.imp fun {p q} h => by
    rintro rfl
    omega

theorem length_toList (s : FreeLists) : s.toList.length = s.size := by
  have hzip : ∀ (ls : List IndexMap) (k : Nat),
      ((ls.zipIdx k).flatMap fun e =>
        e.1.toList.map fun d => (⟨e.2, d.1, d.2⟩ : Piece)).length =
        ls.foldr (fun pieces n => pieces.size + n) 0 := by
    intro ls
    induction ls with
    | nil => intro k; rfl
    | cons m ls ih =>
      intro k
      rw [List.zipIdx_cons, List.flatMap_cons, List.length_append, ih, List.length_map,
        IndexMap.length_toList, List.foldr_cons]
  exact hzip s.lists 0

theorem eq_of_perm {s t : FreeLists} (hcount : s.count = t.count) (h : s.toList.Perm t.toList) :
    s = t := by
  refine ext_get? hcount fun c offset => Option.ext fun len => ?_
  have := h.mem_iff (a := ⟨c, offset, len⟩)
  rwa [mem_toList_iff, mem_toList_iff] at this

@[simp] theorem count_put (s : FreeLists) (p : Piece) : (s.put p).count = s.count :=
  count_setList _ _ _

@[simp] theorem count_remove (s : FreeLists) (p : Piece) : (s.remove p).count = s.count :=
  count_setList _ _ _

theorem count_foldl_put (ps : List Piece) (s : FreeLists) : (ps.foldl put s).count = s.count := by
  induction ps generalizing s with
  | nil => rfl
  | cons p ps ih => rw [List.foldl_cons, ih, count_put]

theorem count_foldl_remove (ps : List Piece) (s : FreeLists) :
    (ps.foldl remove s).count = s.count := by
  induction ps generalizing s with
  | nil => rfl
  | cons p ps ih => rw [List.foldl_cons, ih, count_remove]

@[simp] theorem count_ofPieces (classes : Nat) (ps : List Piece) :
    (ofPieces classes ps).count = classes := by
  rw [ofPieces, count_foldl_put, count, List.length_replicate]

theorem get?_put {s : FreeLists} {p : Piece} (h : p.sizeClass < s.count) (c offset : Nat) :
    (s.put p).get? c offset =
      if p.sizeClass = c ∧ p.offset = offset then some p.len else s.get? c offset := by
  rw [put, get?_setList h, IndexMap.get?_insert, ← get?_eq_listOf]
  by_cases hc : p.sizeClass = c
  · subst hc
    simp
  · simp [hc]

theorem get?_remove {s : FreeLists} {p : Piece} (h : p.sizeClass < s.count) (c offset : Nat) :
    (s.remove p).get? c offset =
      if p.sizeClass = c ∧ p.offset = offset then none else s.get? c offset := by
  rw [remove, get?_setList h, IndexMap.get?_erase, ← get?_eq_listOf]
  by_cases hc : p.sizeClass = c
  · subst hc
    simp
  · simp [hc]

theorem mem_toList_of_put {s : FreeLists} {p q : Piece} (hclass : p.sizeClass < s.count)
    (hq : q ∈ (s.put p).toList) : q = p ∨ q ∈ s.toList := by
  rw [mem_toList_iff, get?_put hclass] at hq
  split at hq
  · rename_i hkey
    obtain ⟨c, offset, len⟩ := q
    obtain ⟨rfl, rfl⟩ := hkey
    cases hq
    exact .inl rfl
  · exact .inr (mem_toList_iff.2 hq)

theorem mem_toList_of_remove {s : FreeLists} {p q : Piece} (hclass : p.sizeClass < s.count)
    (hq : q ∈ (s.remove p).toList) : q ∈ s.toList := by
  rw [mem_toList_iff, get?_remove hclass] at hq
  split at hq
  · cases hq
  · exact mem_toList_iff.2 hq

theorem perm_put {s : FreeLists} {p : Piece} (h : p.sizeClass < s.count)
    (hfree : s.get? p.sizeClass p.offset = none) : (s.put p).toList.Perm (p :: s.toList) := by
  have hnot : p ∉ s.toList := by
    rw [mem_toList_iff, hfree]
    exact nofun
  refine (List.perm_ext_iff_of_nodup (nodup_toList _)
    (List.nodup_cons.2 ⟨hnot, nodup_toList s⟩)).2 fun q => ?_
  rw [List.mem_cons, mem_toList_iff, mem_toList_iff, get?_put h]
  obtain ⟨c, offset, len⟩ := p
  obtain ⟨d, start, size⟩ := q
  simp only at hfree ⊢
  by_cases hkey : c = d ∧ offset = start
  · obtain ⟨rfl, rfl⟩ := hkey
    simp [hfree, eq_comm]
  · rw [if_neg hkey]
    constructor
    · exact .inr
    · rintro (heq | hq)
      · cases heq
        exact absurd ⟨rfl, rfl⟩ hkey
      · exact hq

theorem perm_remove {s : FreeLists} {p : Piece} (hp : p ∈ s.toList) :
    s.toList.Perm (p :: (s.remove p).toList) := by
  have h := class_lt_of_mem hp
  have hnot : p ∉ (s.remove p).toList := by
    rw [mem_toList_iff, get?_remove h, if_pos ⟨rfl, rfl⟩]
    exact nofun
  refine (List.perm_ext_iff_of_nodup (nodup_toList s)
    (List.nodup_cons.2 ⟨hnot, nodup_toList _⟩)).2 fun q => ?_
  rw [List.mem_cons, mem_toList_iff (s := s.remove p), get?_remove h]
  by_cases hkey : p.sizeClass = q.sizeClass ∧ p.offset = q.offset
  · rw [if_pos hkey]
    constructor
    · exact fun hq => .inl (eq_of_mem_toList hp hq hkey.1 hkey.2).symm
    · rintro (rfl | hq)
      · exact hp
      · cases hq
  · rw [if_neg hkey, ← mem_toList_iff]
    constructor
    · exact .inr
    · rintro (rfl | hq)
      · exact absurd ⟨rfl, rfl⟩ hkey
      · exact hq

theorem store_of_free {s : FreeLists} {p : Piece} (h : p.sizeClass < s.count)
    (hfree : s.get? p.sizeClass p.offset = none) :
    s.store p = (do emit [.stored p]; pure (s.put p)) := by
  rw [get?_eq_listOf] at hfree
  simp only [store, list_eq_listOf h, pure_bind, hfree, record_eq_emit, put]

theorem drop_of_mem {s : FreeLists} {p : Piece} (hp : p ∈ s.toList) :
    s.drop p = (do emit [.dropped p]; pure (s.remove p)) := by
  have hget := mem_toList_iff.1 hp
  rw [get?_eq_listOf] at hget
  simp only [drop, list_eq_listOf (class_lt_of_mem hp), pure_bind, hget, record_eq_emit, remove,
    if_true]

theorem take_of_mem {s : FreeLists} {p : Piece} (hp : p ∈ s.toList) :
    s.take p.sizeClass p.offset = pure (some p.len, s.remove p) := by
  have hget := mem_toList_iff.1 hp
  rw [get?_eq_listOf] at hget
  simp only [take, list_eq_listOf (class_lt_of_mem hp), pure_bind, hget, remove]

theorem get?_eq_none_of_offset {s : FreeLists} {kept : List Piece} (hs : s.toList.Perm kept)
    {offset : Nat} (h : offset ∉ kept.map Piece.offset) (c : Nat) : s.get? c offset = none := by
  cases hget : s.get? c offset with
  | none => rfl
  | some len =>
    have hmem : (⟨c, offset, len⟩ : Piece) ∈ kept := hs.mem_iff.1 (mem_toList_iff.2 hget)
    exact absurd (List.mem_map_of_mem hmem) h

theorem foldlM_store {s : FreeLists} {ps kept : List Piece} (hs : s.toList.Perm kept)
    (hclass : ∀ p ∈ ps, p.sizeClass < s.count)
    (hplaces : ((ps ++ kept).map Piece.offset).Nodup) :
    ps.foldlM store s = (do emit (ps.map .stored); pure (ps.foldl put s)) ∧
      (ps.foldl put s).toList.Perm (ps ++ kept) := by
  induction ps generalizing s kept with
  | nil => exact ⟨rfl, hs⟩
  | cons p ps ih =>
    have hp := List.forall_mem_cons.1 hclass
    rw [List.cons_append, List.map_cons, List.nodup_cons] at hplaces
    have hnew : p.offset ∉ kept.map Piece.offset := fun h =>
      hplaces.1 (by rw [List.map_append]; exact List.mem_append_right _ h)
    have hfree := get?_eq_none_of_offset hs hnew p.sizeClass
    have hmid : (ps ++ p :: kept).Perm (p :: (ps ++ kept)) := List.perm_middle
    obtain ⟨hrun, hperm⟩ := ih ((perm_put hp.1 hfree).trans (hs.cons p)) (by simpa using hp.2)
      (((hmid.map _).nodup_iff).2 (List.nodup_cons.2 hplaces))
    refine ⟨?_, hperm.trans hmid⟩
    rw [List.foldlM_cons, store_of_free hp.1 hfree, emit_pure_bind, hrun, emit_bind_emit]
    rfl

theorem foldlM_drop {s : FreeLists} {ps kept : List Piece} (hs : s.toList.Perm (ps ++ kept)) :
    ps.foldlM drop s = (do emit (ps.map .dropped); pure (ps.foldl remove s)) ∧
      (ps.foldl remove s).toList.Perm kept := by
  induction ps generalizing s with
  | nil => exact ⟨rfl, hs⟩
  | cons p ps ih =>
    have hp : p ∈ s.toList := hs.mem_iff.2 List.mem_cons_self
    obtain ⟨hrun, hperm⟩ := ih (((perm_remove hp).symm.trans hs).cons_inv)
    refine ⟨?_, hperm⟩
    rw [List.foldlM_cons, drop_of_mem hp, emit_pure_bind, hrun, emit_bind_emit]
    rfl

theorem toList_replicate_empty (classes : Nat) :
    (⟨List.replicate classes .empty⟩ : FreeLists).toList = [] := by
  refine List.eq_nil_iff_forall_not_mem.2 fun p hp => ?_
  rw [mem_toList_iff, get?, List.getElem?_replicate] at hp
  split at hp <;> simp at hp

theorem perm_ofPieces {classes : Nat} {ps : List Piece} (hclass : ∀ p ∈ ps, p.sizeClass < classes)
    (hplaces : (ps.map Piece.offset).Nodup) : (ofPieces classes ps).toList.Perm ps := by
  have hempty : (⟨List.replicate classes .empty⟩ : FreeLists).toList.Perm [] := by
    rw [toList_replicate_empty]
  have hclass' : ∀ p ∈ ps, p.sizeClass < (⟨List.replicate classes .empty⟩ : FreeLists).count := by
    simpa only [count, List.length_replicate] using hclass
  have h := (foldlM_store hempty hclass' (by simpa using hplaces)).2
  rwa [List.append_nil] at h

section Runs
variable {s : FreeLists} {top offset len : Nat} {kept : List Piece}

theorem top_eq_of_count_eq {t : FreeLists} (h : t.count = s.count) : t.top = s.top :=
  congrArg (· - 1) h

theorem top_lt_of_count_le (hpos : 1 ≤ s.count) (hcount : s.count ≤ maxClasses) :
    s.top < indexBits := by
  change s.count - 1 < maxClasses
  omega

theorem top_of_count (hcount : s.count = top + 1) : s.top = top := by
  rw [FreeLists.top, hcount, Nat.add_sub_cancel]

theorem insertRun_of_perm (hcount : s.count = top + 1) (htop : top < indexBits)
    (hbound : offset + len < 2 ^ indexBits) (hs : s.toList.Perm kept)
    (hplaces : ((Split.pieces top offset len ++ kept).map Piece.offset).Nodup) :
    ∃ t : FreeLists, s.insertRun offset len =
        (do emit ((Split.pieces top offset len).map .stored); pure t) ∧
      t.count = top + 1 ∧ t.toList.Perm (Split.pieces top offset len ++ kept) := by
  have hclass : ∀ p ∈ Split.pieces top offset len, p.sizeClass < s.count := by
    intro p hp
    have := (Split.fits_of_mem_pieces hp).class_le
    omega
  obtain ⟨hrun, hperm⟩ := foldlM_store hs hclass hplaces
  refine ⟨_, ?_, (count_foldl_put _ _).trans hcount, hperm⟩
  have htop' := top_of_count hcount
  rw [insertRun, changeRun_eq_foldlM (by omega) (htop' ▸ htop) hbound, htop', hrun]

theorem removeRun_of_perm (hcount : s.count = top + 1) (htop : top < indexBits)
    (hbound : offset + len < 2 ^ indexBits)
    (hs : s.toList.Perm (Split.pieces top offset len ++ kept)) :
    ∃ t : FreeLists, s.removeRun offset len =
        (do emit ((Split.pieces top offset len).map .dropped); pure t) ∧
      t.count = top + 1 ∧ t.toList.Perm kept := by
  obtain ⟨hrun, hperm⟩ := foldlM_drop hs
  refine ⟨_, ?_, (count_foldl_remove _ _).trans hcount, hperm⟩
  have htop' := top_of_count hcount
  rw [removeRun, changeRun_eq_foldlM (by omega) (htop' ▸ htop) hbound, htop', hrun]

end Runs

end FreeLists

end AlignedRuns
