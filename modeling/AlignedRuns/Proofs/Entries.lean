import AlignedRuns.IndexMap.Neighbours
import Mathlib.Data.List.Sort
set_option autoImplicit false

namespace AlignedRuns.IndexMap

instance : Std.Antisymm fun a b : Nat × Nat => a.1 < b.1 :=
  ⟨fun _ _ h h' => absurd h' (Nat.lt_asymm h)⟩

instance : Std.Irrefl fun a b : Nat × Nat => a.1 < b.1 := ⟨fun _ => Nat.lt_irrefl _⟩

theorem toList_eq_of_mem_iff {m : IndexMap} {entries : List (Nat × Nat)}
    (ascending : entries.Pairwise fun a b => a.1 < b.1)
    (h : ∀ i v, m.get? i = some v ↔ (i, v) ∈ entries) : m.toList = entries := by
  apply m.ascending_toList.eq_of_mem_iff ascending
  rintro ⟨i, v⟩
  rw [mem_toList_iff]
  exact h i v

theorem eq_of_toList_eq {m n : IndexMap} (h : m.toList = n.toList) : m = n := by
  apply ext_get?
  intro i
  apply Option.ext
  intro v
  rw [← mem_toList_iff, ← mem_toList_iff, h]

@[simp] theorem toList_empty : empty.toList = [] := by
  apply toList_eq_of_mem_iff .nil
  intro i v
  simp

def below (m : IndexMap) (i : Nat) : List (Nat × Nat) := m.toList.filter (·.1 < i)

def above (m : IndexMap) (i : Nat) : List (Nat × Nat) := m.toList.filter (i < ·.1)

theorem mem_below_iff {m : IndexMap} {i : Nat} {e : Nat × Nat} :
    e ∈ m.below i ↔ m.get? e.1 = some e.2 ∧ e.1 < i := by
  simp [below, ← mem_toList_iff]

theorem mem_above_iff {m : IndexMap} {i : Nat} {e : Nat × Nat} :
    e ∈ m.above i ↔ m.get? e.1 = some e.2 ∧ i < e.1 := by
  simp [above, ← mem_toList_iff]

theorem ascending_around (m : IndexMap) (i : Nat) (here : Option Nat) :
    (m.below i ++ (here.toList.map (Prod.mk i) ++ m.above i)).Pairwise fun a b => a.1 < b.1 := by
  refine List.pairwise_append.2 ⟨m.ascending_toList.filter _, ?_, ?_⟩
  · refine List.pairwise_append.2 ⟨?_, m.ascending_toList.filter _, ?_⟩
    · cases here <;> simp
    · intro a ha b hb
      obtain ⟨v, _, rfl⟩ := List.mem_map.1 ha
      exact (mem_above_iff.1 hb).2
  · intro a ha b hb
    have hlow := (mem_below_iff.1 ha).2
    rcases List.mem_append.1 hb with hb | hb
    · obtain ⟨v, _, rfl⟩ := List.mem_map.1 hb
      exact hlow
    · exact hlow.trans (mem_above_iff.1 hb).2

theorem mem_around_iff {m : IndexMap} {i : Nat} {here : Option Nat} {j v : Nat} :
    (j, v) ∈ m.below i ++ (here.toList.map (Prod.mk i) ++ m.above i) ↔
      (if i = j then here else m.get? j) = some v := by
  rw [List.mem_append, List.mem_append, mem_below_iff, mem_above_iff]
  simp only [List.mem_map, Option.mem_toList, Prod.mk.injEq]
  by_cases h : i = j
  · subst h
    rw [if_pos rfl]
    constructor
    · rintro (⟨_, hlt⟩ | ⟨w, hw, _, rfl⟩ | ⟨_, hlt⟩)
      · exact absurd hlt (Nat.lt_irrefl i)
      · exact hw
      · exact absurd hlt (Nat.lt_irrefl i)
    · exact fun hv => .inr (.inl ⟨v, hv, rfl, rfl⟩)
  · rw [if_neg h]
    constructor
    · rintro (⟨hv, _⟩ | ⟨w, _, hij, _⟩ | ⟨hv, _⟩)
      · exact hv
      · exact absurd hij h
      · exact hv
    · intro hv
      rcases Nat.lt_or_gt_of_ne h with hlt | hlt
      · exact .inr (.inr ⟨hv, hlt⟩)
      · exact .inl ⟨hv, hlt⟩

theorem toList_eq_around (m : IndexMap) (i : Nat) :
    m.toList = m.below i ++ ((m.get? i).toList.map (Prod.mk i) ++ m.above i) := by
  apply toList_eq_of_mem_iff (ascending_around m i _)
  intro j v
  rw [mem_around_iff]
  split <;> simp_all

theorem toList_of_get?_none {m : IndexMap} {i : Nat} (h : m.get? i = none) :
    m.toList = m.below i ++ m.above i := by
  rw [toList_eq_around m i, h]
  rfl

theorem toList_of_get?_some {m : IndexMap} {i v : Nat} (h : m.get? i = some v) :
    m.toList = m.below i ++ (i, v) :: m.above i := by
  rw [toList_eq_around m i, h]
  rfl

theorem toList_insert (m : IndexMap) (i v : Nat) :
    (m.insert i v).toList = m.below i ++ (i, v) :: m.above i := by
  apply toList_eq_of_mem_iff (ascending_around m i (some v))
  intro j w
  rw [get?_insert]
  exact mem_around_iff.symm

theorem toList_erase (m : IndexMap) (i : Nat) :
    (m.erase i).toList = m.below i ++ m.above i := by
  apply toList_eq_of_mem_iff (ascending_around m i none)
  intro j w
  rw [get?_erase]
  exact mem_around_iff.symm

theorem perm_toList_insert {m : IndexMap} {i : Nat} (h : m.get? i = none) (v : Nat) :
    (m.insert i v).toList.Perm ((i, v) :: m.toList) := by
  rw [toList_insert, toList_of_get?_none h]
  exact List.perm_middle

theorem perm_toList_erase {m : IndexMap} {i v : Nat} (h : m.get? i = some v) :
    m.toList.Perm ((i, v) :: (m.erase i).toList) := by
  rw [toList_erase, toList_of_get?_some h]
  exact List.perm_middle

theorem nodup_indices (m : IndexMap) : (m.toList.map Prod.fst).Nodup :=
  List.pairwise_map.2 (m.ascending_toList.imp Nat.ne_of_lt)

def eraseAll (m : IndexMap) (indices : List Nat) : IndexMap := indices.foldl erase m

theorem get?_eraseAll (m : IndexMap) (indices : List Nat) (i : Nat) :
    (m.eraseAll indices).get? i = if i ∈ indices then none else m.get? i := by
  induction indices generalizing m with
  | nil => simp [eraseAll]
  | cons j indices ih =>
    change ((m.erase j).eraseAll indices).get? i = _
    rw [ih, get?_erase]
    by_cases hlater : i ∈ indices
    · simp [hlater]
    · simp [hlater, eq_comm]

/-- What is left does not depend on the order in which the entries go. -/
theorem eraseAll_of_perm {indices order : List Nat} (h : order.Perm indices) (m : IndexMap) :
    m.eraseAll order = m.eraseAll indices := by
  apply ext_get?
  intro i
  rw [get?_eraseAll, get?_eraseAll]
  simp only [h.mem_iff]

theorem isSome_erase {m : IndexMap} {i : Nat} {indices : List Nat} (hi : i ∉ indices)
    (h : ∀ j ∈ indices, (m.get? j).isSome) : ∀ j ∈ indices, ((m.erase i).get? j).isSome := by
  intro j hj
  have hne : i ≠ j := fun heq => hi (heq ▸ hj)
  rw [get?_erase, if_neg hne]
  exact h j hj

theorem perm_toList_eraseAll {m : IndexMap} {indices : List Nat} (hnodup : indices.Nodup)
    (h : ∀ i ∈ indices, (m.get? i).isSome) : ∃ lost : List (Nat × Nat),
      lost.map Prod.fst = indices ∧ m.toList.Perm (lost ++ (m.eraseAll indices).toList) := by
  induction indices generalizing m with
  | nil => exact ⟨[], rfl, .refl _⟩
  | cons i indices ih =>
    obtain ⟨hi, hnodup⟩ := List.nodup_cons.1 hnodup
    obtain ⟨hhere, hlater⟩ := List.forall_mem_cons.1 h
    obtain ⟨v, hv⟩ := Option.isSome_iff_exists.1 hhere
    obtain ⟨lost, hlost, hperm⟩ := ih hnodup (isSome_erase hi hlater)
    exact ⟨(i, v) :: lost, congrArg (i :: ·) hlost, (perm_toList_erase hv).trans (hperm.cons _)⟩

theorem mem_toList_of_insert {m : IndexMap} {i v : Nat} {e : Nat × Nat}
    (he : e ∈ (m.insert i v).toList) : e = (i, v) ∨ e ∈ m.toList := by
  rw [mem_toList_iff, get?_insert] at he
  split at he
  · rename_i hi
    exact .inl (Prod.ext hi.symm (Option.some.inj he).symm)
  · exact .inr (mem_toList_iff.2 he)

theorem mem_toList_of_erase {m : IndexMap} {i : Nat} {e : Nat × Nat}
    (he : e ∈ (m.erase i).toList) : e ∈ m.toList := by
  rw [mem_toList_iff, get?_erase] at he
  split at he
  · cases he
  · exact mem_toList_iff.2 he

theorem insert_of_some {m : IndexMap} {i v : Nat} (h : m.get? i = some v) : m.insert i v = m := by
  apply ext_get?
  intro j
  rw [get?_insert]
  split
  · rename_i hj
    rw [← hj, h]
  · rfl

theorem erase_of_none {m : IndexMap} {i : Nat} (h : m.get? i = none) : m.erase i = m := by
  apply ext_get?
  intro j
  rw [get?_erase]
  split
  · rename_i hj
    rw [← hj, h]
  · rfl

/-- Where the entries are cut in two at an index, it has none itself. -/
theorem around_of_toList_eq {m : IndexMap} {i : Nat} {front back : List (Nat × Nat)}
    (h : m.toList = front ++ back) (hfront : ∀ e ∈ front, e.1 < i) (hback : ∀ e ∈ back, i < e.1) :
    m.below i = front ∧ m.above i = back ∧ m.get? i = none := by
  refine ⟨?_, ?_, ?_⟩
  · rw [below, h, List.filter_append, List.filter_eq_self.2 fun e he => by simpa using hfront e he,
      List.filter_eq_nil_iff.2 fun e he => by simpa using Nat.le_of_lt (hback e he),
      List.append_nil]
  · rw [above, h, List.filter_append,
      List.filter_eq_nil_iff.2 fun e he => by simpa using Nat.le_of_lt (hfront e he),
      List.filter_eq_self.2 fun e he => by simpa using hback e he, List.nil_append]
  · cases hv : m.get? i with
    | none => rfl
    | some v =>
      have hmem := mem_toList_iff.2 hv
      rw [h] at hmem
      rcases List.mem_append.1 hmem with he | he
      · exact absurd (hfront _ he) (Nat.lt_irrefl i)
      · exact absurd (hback _ he) (Nat.lt_irrefl i)

theorem next?_eq_head? (m : IndexMap) (i : Nat) : m.next? i = (m.above i).head? := by
  rw [next?_eq_find?, above, List.head?_filter]

theorem prev?_eq_getLast? (m : IndexMap) (i : Nat) : m.prev? i = (m.below i).getLast? := by
  rw [prev?_eq_find?, below, List.getLast?_filter]

end AlignedRuns.IndexMap
