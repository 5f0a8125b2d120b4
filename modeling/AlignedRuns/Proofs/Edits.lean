import AlignedRuns.Proofs.Entries
import Mathlib.Data.Set.Card
import Mathlib.Order.Bounds.Basic
set_option autoImplicit false

namespace AlignedRuns.IndexMap

def ofEdits (edits : List Edit) : IndexMap := edits.foldl (fun m edit => (edit.perform m).2) empty

def domain (f : Nat → Option Nat) : Set Nat := {i | (f i).isSome}

namespace Edit

def index : Edit → Nat
  | insert i _ | erase i => i

def value : Edit → Option Nat
  | insert _ v => some v
  | erase _ => none

theorem perform_fst (edit : Edit) (m : IndexMap) : (edit.perform m).1 = m.get? edit.index := by
  cases edit <;> rfl

theorem get?_perform (edit : Edit) (m : IndexMap) :
    (edit.perform m).2.get? = Function.update m.get? edit.index edit.value := by
  funext j
  rw [Function.update_apply]
  cases edit with
  | insert i v => exact (get?_insert m i v j).trans (if_congr eq_comm rfl rfl)
  | erase i => exact (get?_erase m i j).trans (if_congr eq_comm rfl rfl)

end Edit

/-- The partial function that edits denote; of two edits of one index the later one counts. -/
def denoted (edits : List Edit) : Nat → Option Nat :=
  edits.foldl (fun f edit => Function.update f edit.index edit.value) fun _ => none

theorem get?_foldl_perform (edits : List Edit) (m : IndexMap) :
    (edits.foldl (fun m edit => (edit.perform m).2) m).get? =
      edits.foldl (fun f edit => Function.update f edit.index edit.value) m.get? := by
  induction edits generalizing m with
  | nil => rfl
  | cons edit edits ih => rw [List.foldl_cons, List.foldl_cons, ih, Edit.get?_perform]

theorem get?_ofEdits (edits : List Edit) : (ofEdits edits).get? = denoted edits := by
  rw [ofEdits, get?_foldl_perform, funext get?_empty]
  rfl

variable {m n : IndexMap} {i v x : Nat}

theorem mem_domain_iff : i ∈ domain m.get? ↔ ∃ v, (i, v) ∈ m.toList := by
  simp [domain, Option.isSome_iff_exists, mem_toList_iff]

theorem fst_mem_domain {e : Nat × Nat} (he : e ∈ m.toList) : e.1 ∈ domain m.get? :=
  mem_domain_iff.2 ⟨e.2, he⟩

theorem forall_mem_domain_iff {P : Nat → Prop} :
    (∀ j ∈ domain m.get?, P j) ↔ ∀ e ∈ m.toList, P e.1 := by
  constructor
  · intro h e he
    exact h e.1 (fst_mem_domain he)
  · intro h j hj
    obtain ⟨v, hv⟩ := mem_domain_iff.1 hj
    exact h (j, v) hv

theorem eq_iff_get?_eq : m = n ↔ m.get? = n.get? :=
  ⟨fun h => h ▸ rfl, fun h => ext_get? (congrFun h)⟩

theorem size_eq_ncard (m : IndexMap) : m.size = (domain m.get?).ncard := by
  have hdomain : domain m.get? = ((m.toList.map Prod.fst).toFinset : Set Nat) := by
    ext i
    simp [mem_domain_iff]
  rw [hdomain, Set.ncard_coe_finset, List.toFinset_card_of_nodup m.nodup_indices, List.length_map,
    length_toList]

theorem domain_eq_empty_iff : domain m.get? = ∅ ↔ m.toList = [] := by
  rw [Set.eq_empty_iff_forall_notMem, List.eq_nil_iff_forall_not_mem]
  exact forall_mem_domain_iff (P := fun _ => False)

theorem isEmpty_iff : m.isEmpty = true ↔ domain m.get? = ∅ := by
  rw [isEmpty, ← Std.ExtTreeMap.isEmpty_toList, List.isEmpty_iff, domain_eq_empty_iff]
  rfl

theorem first?_eq_none_iff : m.first? = none ↔ domain m.get? = ∅ := by
  rw [first?, List.head?_eq_none_iff, domain_eq_empty_iff]

theorem isLeast_of_first? {e : Nat × Nat} (h : m.first? = some e) :
    e ∈ m.toList ∧ IsLeast (domain m.get?) e.1 := by
  obtain ⟨later, hlist⟩ := List.head?_eq_some_iff.1 h
  have hascending := m.ascending_toList
  rw [hlist, List.pairwise_cons] at hascending
  have he : e ∈ m.toList := hlist ▸ List.mem_cons_self
  refine ⟨he, fst_mem_domain he, forall_mem_domain_iff.2 ?_⟩
  rw [hlist, List.forall_mem_cons]
  exact ⟨Nat.le_refl _, fun d hd => Nat.le_of_lt (hascending.1 d hd)⟩

theorem first?_eq_some_iff_isLeast :
    m.first? = some (i, v) ↔ m.get? i = some v ∧ IsLeast (domain m.get?) i := by
  constructor
  · intro h
    obtain ⟨he, hleast⟩ := isLeast_of_first? h
    exact ⟨mem_toList_iff.1 he, hleast⟩
  · rintro ⟨hget, hleast⟩
    cases hfirst : m.first? with
    | none => exact absurd hleast.1 (first?_eq_none_iff.1 hfirst ▸ Set.notMem_empty i)
    | some e =>
      obtain ⟨he, hother⟩ := isLeast_of_first? hfirst
      rw [eq_of_mem_toList he (mem_toList_iff.2 hget) (hother.unique hleast)]

theorem next?_eq_some_iff_isLeast :
    m.next? x = some (i, v) ↔ m.get? i = some v ∧ IsLeast {j ∈ domain m.get? | x < j} i := by
  have hbound : i ∈ lowerBounds {j ∈ domain m.get? | x < j} ↔
      ∀ e ∈ m.toList, x < e.1 → i ≤ e.1 := by
    rw [← forall_mem_domain_iff (P := fun j => x < j → i ≤ j)]
    exact forall_congr' fun j => and_imp
  rw [next?_eq_some_iff, mem_toList_iff, IsLeast, hbound]
  refine and_congr_right fun hget => and_congr_left fun _ => ?_
  exact (and_iff_right (fst_mem_domain (mem_toList_iff.2 hget))).symm

theorem prev?_eq_some_iff_isGreatest :
    m.prev? x = some (i, v) ↔ m.get? i = some v ∧ IsGreatest {j ∈ domain m.get? | j < x} i := by
  have hbound : i ∈ upperBounds {j ∈ domain m.get? | j < x} ↔
      ∀ e ∈ m.toList, e.1 < x → e.1 ≤ i := by
    rw [← forall_mem_domain_iff (P := fun j => j < x → j ≤ i)]
    exact forall_congr' fun j => and_imp
  rw [prev?_eq_some_iff, mem_toList_iff, IsGreatest, hbound]
  refine and_congr_right fun hget => and_congr_left fun _ => ?_
  exact (and_iff_right (fst_mem_domain (mem_toList_iff.2 hget))).symm

theorem next?_eq_none_iff_domain : m.next? x = none ↔ ∀ j ∈ domain m.get?, j ≤ x :=
  next?_eq_none_iff.trans (forall_mem_domain_iff (P := fun j => j ≤ x)).symm

theorem prev?_eq_none_iff_domain : m.prev? x = none ↔ ∀ j ∈ domain m.get?, x ≤ j :=
  prev?_eq_none_iff.trans (forall_mem_domain_iff (P := fun j => x ≤ j)).symm

/-- Whatever edits made a map, it is the partial function that they denote: each edit answers with
the value before it, each query is exact at every index, with an entry or without, and two maps are
equal just if their functions are. -/
theorem edits_denote (edits : List Edit) :
    (∀ edit : Edit, (edit.perform (ofEdits edits)).1 = denoted edits edit.index) ∧
    (∀ i, (ofEdits edits).get? i = denoted edits i ∧
      (ofEdits edits).contains i = (denoted edits i).isSome) ∧
    ((ofEdits edits).toList.Pairwise fun e d => e.1 < d.1) ∧
    (∀ i v, (i, v) ∈ (ofEdits edits).toList ↔ denoted edits i = some v) ∧
    (ofEdits edits).size = (domain (denoted edits)).ncard ∧
    ((ofEdits edits).isEmpty = true ↔ domain (denoted edits) = ∅) ∧
    ((ofEdits edits).first? = none ↔ domain (denoted edits) = ∅) ∧
    (∀ i v, (ofEdits edits).first? = some (i, v) ↔
      denoted edits i = some v ∧ IsLeast (domain (denoted edits)) i) ∧
    (∀ x, ((ofEdits edits).next? x = none ↔ ∀ j ∈ domain (denoted edits), j ≤ x) ∧
      ∀ i v, (ofEdits edits).next? x = some (i, v) ↔ denoted edits i = some v ∧
        IsLeast {j ∈ domain (denoted edits) | x < j} i) ∧
    (∀ x, ((ofEdits edits).prev? x = none ↔ ∀ j ∈ domain (denoted edits), x ≤ j) ∧
      ∀ i v, (ofEdits edits).prev? x = some (i, v) ↔ denoted edits i = some v ∧
        IsGreatest {j ∈ domain (denoted edits) | j < x} i) ∧
    ∀ others : List Edit,
      ofEdits edits = ofEdits others ↔ denoted edits = denoted others := by
  rw [← get?_ofEdits edits]
  exact ⟨fun edit => edit.perform_fst _, fun i => ⟨rfl, contains_eq_isSome _ i⟩,
    ascending_toList _, fun i v => mem_toList_iff, size_eq_ncard _, isEmpty_iff, first?_eq_none_iff,
    fun i v => first?_eq_some_iff_isLeast,
    fun x => ⟨next?_eq_none_iff_domain, fun i v => next?_eq_some_iff_isLeast⟩,
    fun x => ⟨prev?_eq_none_iff_domain, fun i v => prev?_eq_some_iff_isGreatest⟩,
    fun others => (get?_ofEdits others) ▸ eq_iff_get?_eq⟩

end AlignedRuns.IndexMap
