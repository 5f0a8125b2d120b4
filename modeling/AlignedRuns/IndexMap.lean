import Std.Data.ExtTreeMap
set_option autoImplicit false

namespace AlignedRuns

structure IndexMap where
  tree : Std.ExtTreeMap Nat Nat
deriving DecidableEq

namespace IndexMap

def empty : IndexMap := ⟨∅⟩

def toList (m : IndexMap) : List (Nat × Nat) := m.tree.toList

def size (m : IndexMap) : Nat := m.tree.size

def isEmpty (m : IndexMap) : Bool := m.tree.isEmpty

def get? (m : IndexMap) (i : Nat) : Option Nat := m.tree[i]?

def contains (m : IndexMap) (i : Nat) : Bool := m.tree.contains i

def insert (m : IndexMap) (i v : Nat) : IndexMap := ⟨m.tree.insert i v⟩

def erase (m : IndexMap) (i : Nat) : IndexMap := ⟨m.tree.erase i⟩

def first? (m : IndexMap) : Option (Nat × Nat) := m.toList.head?

def next? (m : IndexMap) (i : Nat) : Option (Nat × Nat) := m.tree.getEntryGT? i

def prev? (m : IndexMap) (i : Nat) : Option (Nat × Nat) := m.tree.getEntryLT? i

inductive Edit where
  | insert (i v : Nat)
  | erase (i : Nat)
deriving DecidableEq, Repr

def Edit.perform (edit : Edit) (m : IndexMap) : Option Nat × IndexMap :=
  match edit with
  | .insert i v => (m.get? i, m.insert i v)
  | .erase i => (m.get? i, m.erase i)

theorem ascending_toList (m : IndexMap) : m.toList.Pairwise fun a b => a.1 < b.1 :=
  Std.ExtTreeMap.ordered_keys_toList.imp Nat.compare_eq_lt.1

theorem mem_toList_iff {m : IndexMap} {i v : Nat} : (i, v) ∈ m.toList ↔ m.get? i = some v :=
  Std.ExtTreeMap.mem_toList_iff_getElem?_eq_some

theorem eq_of_mem_toList {m : IndexMap} {a b : Nat × Nat} (ha : a ∈ m.toList) (hb : b ∈ m.toList)
    (h : a.1 = b.1) : a = b := by
  obtain ⟨i, v⟩ := a
  obtain ⟨j, w⟩ := b
  obtain rfl : i = j := h
  rw [Option.some.inj ((mem_toList_iff.1 ha).symm.trans (mem_toList_iff.1 hb))]

@[simp] theorem get?_empty (i : Nat) : empty.get? i = none := Std.ExtTreeMap.getElem?_empty

theorem get?_insert (m : IndexMap) (i v j : Nat) :
    (m.insert i v).get? j = if i = j then some v else m.get? j := by
  simp [get?, insert, Std.ExtTreeMap.getElem?_insert]

theorem get?_erase (m : IndexMap) (i j : Nat) :
    (m.erase i).get? j = if i = j then none else m.get? j := by
  simp [get?, erase, Std.ExtTreeMap.getElem?_erase]

theorem contains_eq_isSome (m : IndexMap) (i : Nat) : m.contains i = (m.get? i).isSome :=
  Std.ExtTreeMap.contains_eq_isSome_getElem?

theorem ext_get? {m n : IndexMap} (h : ∀ i, m.get? i = n.get? i) : m = n := by
  obtain ⟨tree⟩ := m
  obtain ⟨other⟩ := n
  exact congrArg mk (Std.ExtTreeMap.ext_getElem? h)

theorem length_toList (m : IndexMap) : m.toList.length = m.size := Std.ExtTreeMap.length_toList

end IndexMap

end AlignedRuns
