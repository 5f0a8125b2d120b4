import AlignedRuns.Layout
import AlignedRuns.Proofs.Lines
set_option autoImplicit false

/-!
# The ink of a text

The layouts of a value differ in spaces, line breaks and commas alone. All else that a text is
written with, its ink, is the same in both of them, and it is enough to read the value again: a
number ends where there is no digit, and items end at the bracket that none of them begins with.
-/

namespace AlignedRuns

def isInk (c : Char) : Bool := c ≠ ' ' ∧ c ≠ '\n' ∧ c ≠ ','

/-- The text without spaces, line breaks and commas. -/
def ink (text : String) : List Char := text.toList.filter isInk

theorem ink_append (s t : String) : ink (s ++ t) = ink s ++ ink t := by
  rw [ink, String.toList_append, List.filter_append]
  rfl

theorem isDigit_of_mem_toString {n : Nat} {c : Char} (h : c ∈ (toString n).toList) :
    c.isDigit = true := by
  rw [Nat.toString_eq_ofList_toDigits, String.toList_ofList] at h
  exact Nat.isDigit_of_mem_toDigits (by decide) (by decide) h

theorem ink_toString (n : Nat) : ink (toString n) = (toString n).toList := by
  refine List.filter_eq_self.2 fun c hc => ?_
  have hdigit := isDigit_of_mem_toString hc
  refine decide_eq_true ⟨?_, ?_, ?_⟩ <;>
  · rintro rfl
    cases hdigit

theorem ink_join (items : List String) : ink (String.join items) = items.flatMap ink := by
  rw [ink, String.toList_join, List.filter_flatMap]
  rfl

theorem ink_intercalate {separator : String} (h : ink separator = []) (items : List String) :
    ink (separator.intercalate items) = items.flatMap ink := by
  induction items with
  | nil => rfl
  | cons item items ih =>
    cases items with
    | nil => simp
    | cons next items =>
      rw [String.intercalate_cons_cons, ink_append, ink_append, h, ih]
      simp

namespace Layout

theorem ink_deepen (text : String) : ink (deepen text) = ink text := by
  have hchar : ∀ c, (if c = '\n' then '\n' :: List.replicate 4 ' ' else [c]).filter isInk =
      [c].filter isInk := by
    intro c
    split
    · rename_i hbreak
      rw [hbreak]
      rfl
    · rfl
  rw [ink, deepen, String.toList_ofList, List.filter_flatMap]
  simp only [hchar]
  rw [← List.filter_flatMap, List.flatMap_singleton', ink]

variable (layout : Layout)

/-- Both layouts write a group with the same ink. -/
theorem ink_group {pad : String} (h : ink pad = []) (opening closing : String)
    (items : List String) : ink (layout.group opening pad closing items) =
      ink opening ++ (items.flatMap ink ++ ink closing) := by
  have hcomma : ink ", " = [] := by decide
  have hend : ink ",\n" = [] := by decide
  have hbreak : ink "\n" = [] := by decide
  have hindent : ink "    " = [] := by decide
  cases items with
  | nil => exact ink_append opening closing
  | cons item items =>
    cases layout with
    | oneLine =>
      change ink (opening ++ pad ++ String.intercalate ", " (item :: items) ++ pad ++ closing) = _
      simp only [ink_append, ink_intercalate hcomma, h, List.append_assoc, List.nil_append]
    | indented =>
      change ink (opening ++ "\n" ++ String.join ((item :: items).map fun item =>
        "    " ++ deepen item ++ ",\n") ++ closing) = _
      simp only [ink_append, ink_join, hbreak, List.flatMap_map, hindent, hend, ink_deepen,
        List.append_nil, List.nil_append, List.append_assoc]

theorem ink_list (items : List String) :
    ink (layout.list items) = '[' :: (items.flatMap ink ++ [']']) :=
  layout.ink_group rfl "[" "]" items

theorem ink_labelled (label value : String) :
    ink (label ++ ": " ++ value) = ink label ++ ':' :: ink value := by
  rw [ink_append, ink_append, List.append_assoc]
  rfl

theorem ink_table (entries : List (String × String)) : ink (layout.table entries) =
    '\x7b' :: ((entries.flatMap fun e => ink e.1 ++ ':' :: ink e.2) ++ ['\x7d']) := by
  refine (layout.ink_group rfl "\x7b" "\x7d" _).trans ?_
  rw [List.flatMap_map]
  simp only [ink_labelled]
  rfl

theorem ink_record (name : String) (fields : List (String × String)) :
    ink (layout.record name fields) =
      ink name ++ '\x7b' :: ((fields.flatMap fun f => ink f.1 ++ ':' :: ink f.2) ++ ['\x7d']) := by
  refine (layout.ink_group rfl (name ++ " \x7b") "\x7d" _).trans ?_
  rw [List.flatMap_map, ink_append, List.append_assoc]
  simp only [ink_labelled]
  rfl

end Layout

/-- What is written can be read again, whatever comes after it. -/
def Unambiguous {α : Type} (write : α → List Char) : Prop :=
  ∀ (x y : α) (rest others : List Char), write x ++ rest = write y ++ others →
    x = y ∧ rest = others

namespace Unambiguous

variable {α : Type} {write : α → List Char}

/-- Items can be read one after another up to a character that none of them begins with. -/
theorem until_stop (h : Unambiguous write) {stop : Char}
    (hstop : ∀ x, ∃ c text, write x = c :: text ∧ c ≠ stop) :
    Unambiguous fun xs : List α => xs.flatMap write ++ [stop] := by
  intro xs
  induction xs with
  | nil =>
    intro ys rest others heq
    cases ys with
    | nil => exact ⟨rfl, (List.cons.inj heq).2⟩
    | cons y ys =>
      -- one text has come to the stop where the other goes on with an item
      obtain ⟨c, text, hy, hne⟩ := hstop y
      simp only [List.flatMap_cons, hy] at heq
      exact absurd (List.cons.inj heq).1.symm hne
  | cons x xs ih =>
    intro ys rest others heq
    cases ys with
    | nil =>
      obtain ⟨c, text, hx, hne⟩ := hstop x
      simp only [List.flatMap_cons, hx] at heq
      exact absurd (List.cons.inj heq).1 hne
    | cons y ys =>
      simp only [List.flatMap_cons, List.append_assoc] at heq
      obtain ⟨rfl, hlater⟩ := h x y _ _ heq
      obtain ⟨rfl, hrest⟩ := ih ys rest others (by simpa only [List.append_assoc] using hlater)
      exact ⟨rfl, hrest⟩

end Unambiguous

def EndsNumber (text : List Char) : Prop := ∀ c ∈ text.head?, c.isDigit = false

theorem endsNumber_of_head? {text : List Char} {c : Char} (h : text.head? = some c)
    (hc : c.isDigit = false) : EndsNumber text := by
  intro d hd
  rw [h] at hd
  cases hd
  exact hc

theorem toString_append_inj {n m : Nat} {rest others : List Char}
    (h : (toString n).toList ++ rest = (toString m).toList ++ others) (hrest : EndsNumber rest)
    (hothers : EndsNumber others) : n = m ∧ rest = others := by
  have hread := number?_append n hrest
  rw [h, number?_append m hothers] at hread
  obtain ⟨hnumber, htext⟩ := Prod.mk.inj (Option.some.inj hread)
  exact ⟨hnumber.symm, htext.symm⟩

/-- A field that holds a number can be read when its name is known. -/
theorem field_append_inj {field : String} {n m : Nat} {rest others : List Char}
    (h : ink field ++ ':' :: ((toString n).toList ++ rest) =
      ink field ++ ':' :: ((toString m).toList ++ others))
    (hrest : EndsNumber rest) (hothers : EndsNumber others) : n = m ∧ rest = others :=
  toString_append_inj (List.cons.inj (List.append_cancel_left h)).2 hrest hothers

theorem exists_digit (n : Nat) :
    ∃ c text, (toString n).toList = c :: text ∧ c.isDigit = true := by
  have hne : (toString n).toList ≠ [] := by
    rw [Nat.toString_eq_ofList_toDigits, String.toList_ofList]
    exact Nat.toDigits_ne_nil
  obtain ⟨c, text, h⟩ := List.exists_cons_of_ne_nil hne
  exact ⟨c, text, h, isDigit_of_mem_toString (h ▸ List.mem_cons_self)⟩

end AlignedRuns
