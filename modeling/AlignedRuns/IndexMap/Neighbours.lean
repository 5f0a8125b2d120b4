import AlignedRuns.IndexMap
set_option autoImplicit false

namespace AlignedRuns.IndexMap
open Std.DTreeMap.Internal

/-- A search for the first entry above `k` in an ordered tree falls back on `best`. -/
theorem getEntryGT?_go (k : Nat) (best : Option (Nat × Nat)) (t : Impl Nat fun _ => Nat)
    (h : t.Ordered) : Impl.Const.getEntryGT?.go k best t =
      ((t.toListModel.find? (k < ·.1)).map fun e => (e.1, e.2)).or best := by
  induction t generalizing best with
  | leaf => rfl
  | inner size i v l r ihl ihr =>
    rw [Impl.Ordered, Impl.toListModel_inner, List.pairwise_append, List.pairwise_cons] at h
    obtain ⟨hl, ⟨_, hr⟩, below⟩ := h
    rw [Impl.Const.getEntryGT?.go, Impl.toListModel_inner, List.find?_append, List.find?_cons]
    split
    · rename_i hlt
      rw [ihl _ hl]
      cases List.find? (fun e => decide (k < e.1)) l.toListModel <;> simp [Nat.compare_eq_lt.1 hlt]
    · rename_i hlt
      have hik : i ≤ k := Nat.le_of_not_lt (hlt ∘ Nat.compare_eq_lt.2)
      have left : List.find? (fun e => decide (k < e.1)) l.toListModel = none :=
        List.find?_eq_none.2 fun e he => by
          have := Nat.compare_eq_lt.1 (below e he _ List.mem_cons_self)
          simp only [decide_eq_true_eq] at this ⊢
          omega
      rw [ihr _ hr, left]
      simp [Nat.not_lt_of_le hik]

theorem getEntryLT?_go (k : Nat) (best : Option (Nat × Nat)) (t : Impl Nat fun _ => Nat)
    (h : t.Ordered) : Impl.Const.getEntryLT?.go k best t =
      ((t.toListModel.reverse.find? (·.1 < k)).map fun e => (e.1, e.2)).or best := by
  induction t generalizing best with
  | leaf => rfl
  | inner size i v l r ihl ihr =>
    rw [Impl.Ordered, Impl.toListModel_inner, List.pairwise_append, List.pairwise_cons] at h
    obtain ⟨hl, ⟨above, hr⟩, _⟩ := h
    rw [Impl.Const.getEntryLT?.go, Impl.toListModel_inner, List.reverse_append, List.reverse_cons,
      List.find?_append, List.find?_append, List.find?_cons, List.find?_nil]
    split
    · rename_i hgt
      rw [ihr _ hr]
      cases List.find? (fun e => decide (e.1 < k)) r.toListModel.reverse <;>
        simp [Nat.compare_eq_gt.1 hgt]
    · rename_i hgt
      have hik : k ≤ i := Nat.le_of_not_lt (hgt ∘ Nat.compare_eq_gt.2)
      have right : List.find? (fun e => decide (e.1 < k)) r.toListModel.reverse = none :=
        List.find?_eq_none.2 fun e he => by
          have := Nat.compare_eq_lt.1 (above e (List.mem_reverse.1 he))
          simp only [decide_eq_true_eq] at this ⊢
          omega
      rw [ihl _ hl, right]
      simp [Nat.not_lt_of_le hik]

theorem next?_eq_find? (m : IndexMap) (i : Nat) : m.next? i = m.toList.find? (i < ·.1) := by
  obtain ⟨⟨tree⟩⟩ := m
  induction tree using Std.ExtDTreeMap.inductionOn with
  | _ tree =>
    change Impl.Const.getEntryGT? i tree.inner = (Impl.Const.toList tree.inner).find? (i < ·.1)
    rw [Impl.Const.getEntryGT?, getEntryGT?_go i none _ tree.wf.ordered,
      Impl.Const.toList_eq_toListModel_map, List.find?_map, Option.or_none]
    rfl

theorem prev?_eq_find? (m : IndexMap) (i : Nat) : m.prev? i = m.toList.reverse.find? (·.1 < i) := by
  obtain ⟨⟨tree⟩⟩ := m
  induction tree using Std.ExtDTreeMap.inductionOn with
  | _ tree =>
    change Impl.Const.getEntryLT? i tree.inner =
      (Impl.Const.toList tree.inner).reverse.find? (·.1 < i)
    rw [Impl.Const.getEntryLT?, getEntryLT?_go i none _ tree.wf.ordered,
      Impl.Const.toList_eq_toListModel_map, ← List.map_reverse, List.find?_map, Option.or_none]
    rfl

/-- In an ordered list the first entry with a property is the least one. -/
theorem find?_eq_some_iff {α : Type} {lt : α → α → Prop} (asymm : ∀ a b, lt a b → ¬lt b a)
    {entries : List α} (ordered : entries.Pairwise lt) (p : α → Bool) {e : α} :
    entries.find? p = some e ↔ e ∈ entries ∧ p e ∧ ∀ d ∈ entries, p d → d = e ∨ lt e d := by
  have least {e : α} (h : entries.find? p = some e) :
      e ∈ entries ∧ p e ∧ ∀ d ∈ entries, p d → d = e ∨ lt e d := by
    refine ⟨List.mem_of_find?_eq_some h, List.find?_some h, fun d hd hp => ?_⟩
    obtain ⟨_, front, back, rfl, before⟩ := List.find?_eq_some_iff_append.1 h
    rcases List.mem_append.1 hd with hd | hd
    · have := before d hd
      simp [hp] at this
    · rcases List.mem_cons.1 hd with hd | hd
      · exact .inl hd
      · exact .inr ((List.pairwise_cons.1 (List.pairwise_append.1 ordered).2.1).1 d hd)
  refine ⟨least, fun ⟨he, hp, h⟩ => ?_⟩
  cases hf : entries.find? p with
  | none => exact absurd hp (List.find?_eq_none.1 hf e he)
  | some d =>
    obtain ⟨hd, hpd, hleast⟩ := least hf
    rcases h d hd hpd with rfl | hed
    · rfl
    · rcases hleast e he hp with rfl | hde
      · rfl
      · exact absurd hde (asymm e d hed)

theorem next?_eq_some_iff {m : IndexMap} {i : Nat} {e : Nat × Nat} :
    m.next? i = some e ↔ e ∈ m.toList ∧ i < e.1 ∧ ∀ d ∈ m.toList, i < d.1 → e.1 ≤ d.1 := by
  rw [next?_eq_find?, find?_eq_some_iff (fun a b => Nat.lt_asymm) m.ascending_toList]
  simp only [decide_eq_true_eq]
  refine and_congr_right fun he => and_congr_right fun _ =>
    forall_congr' fun d => forall_congr' fun hd => imp_congr_right fun _ => ?_
  exact ⟨fun h => h.elim (fun h => h ▸ Nat.le_refl _) Nat.le_of_lt,
    fun h => (Nat.eq_or_lt_of_le h).imp (fun h => eq_of_mem_toList hd he h.symm) id⟩

theorem prev?_eq_some_iff {m : IndexMap} {i : Nat} {e : Nat × Nat} :
    m.prev? i = some e ↔ e ∈ m.toList ∧ e.1 < i ∧ ∀ d ∈ m.toList, d.1 < i → d.1 ≤ e.1 := by
  rw [prev?_eq_find?, find?_eq_some_iff (fun a b => Nat.lt_asymm)
    (List.pairwise_reverse.2 m.ascending_toList)]
  simp only [decide_eq_true_eq, List.mem_reverse]
  refine and_congr_right fun he => and_congr_right fun _ =>
    forall_congr' fun d => forall_congr' fun hd => imp_congr_right fun _ => ?_
  exact ⟨fun h => h.elim (fun h => h ▸ Nat.le_refl _) Nat.le_of_lt,
    fun h => (Nat.eq_or_lt_of_le h).imp (fun h => eq_of_mem_toList hd he h) id⟩

theorem next?_eq_none_iff {m : IndexMap} {i : Nat} :
    m.next? i = none ↔ ∀ e ∈ m.toList, e.1 ≤ i := by
  simp [next?_eq_find?, List.find?_eq_none]

theorem prev?_eq_none_iff {m : IndexMap} {i : Nat} :
    m.prev? i = none ↔ ∀ e ∈ m.toList, i ≤ e.1 := by
  simp [prev?_eq_find?, List.find?_eq_none]

end AlignedRuns.IndexMap
