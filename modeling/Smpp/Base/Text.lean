-- SUMMARY: Text made of lines and of fields between separators, and reading the lines and fields back.
import Mathlib

/-!
# Lines and fields

A text that is written line by line, or field by field with a separator in between, can
be taken apart again as long as the separator does not occur in the parts.
-/

namespace Text

/-- The parts of a text between the separators. -/
def split (sep : Char) (text : String) : List String :=
  (text.toList.splitOn sep).map String.ofList

/-- Each line with the newline that ends it. -/
def unlines (lines : List String) : String := String.join (lines.map (· ++ "\n"))

/-- The lines of a text; what stands after the last newline is not a line. -/
def lines (text : String) : List String := (split '\n' text).dropLast

/-! ## Fields -/

section Fields

variable {sep : Char} {fields : List String} {field rest : String}

/-- Fields come back if they do not contain the separator. -/
theorem split_intercalate (hne : fields ≠ []) (h : ∀ s ∈ fields, sep ∉ s.toList) :
    split sep (String.intercalate (String.singleton sep) fields) = fields := by
  have hlists : ∀ l ∈ fields.map String.toList, sep ∉ l := by
    intro l hl
    obtain ⟨s, hs, rfl⟩ := List.mem_map.mp hl
    exact h s hs
  have hback : String.ofList ∘ String.toList = id := funext fun s => String.ofList_toList
  rw [split, String.toList_intercalate, String.toList_singleton,
    List.splitOn_intercalate sep hlists (by simpa using hne), List.map_map, hback, List.map_id]

theorem split_of_notMem (h : sep ∉ field.toList) : split sep field = [field] := by
  rw [split, List.splitOn_eq_singleton h, List.map_singleton, String.ofList_toList]

/-- A field, a separator and the rest. -/
theorem split_append (h : sep ∉ field.toList) :
    split sep (field ++ (String.singleton sep ++ rest)) = field :: split sep rest := by
  rw [split, String.toList_append, String.toList_append, String.toList_singleton,
    List.singleton_append, List.splitOn_append_cons_self_of_not_mem h, List.map_cons,
    String.ofList_toList]
  rfl

/-- A loop that writes a separator and the next field in each round. -/
theorem foldl_append_intercalate {α : Type*} (sep : String) (f : α → String) (rest : List α)
    (start : String) : rest.foldl (fun text y => text ++ sep ++ f y) start =
      String.intercalate sep (start :: rest.map f) := by
  induction rest generalizing start with
  | nil => exact String.intercalate_singleton.symm
  | cons y rest ih =>
    rw [List.foldl_cons, ih, List.map_cons, String.intercalate_cons_append,
      String.intercalate_cons_cons]

theorem notMem_append {c : Char} {s t : String} (hs : c ∉ s.toList) (ht : c ∉ t.toList) :
    c ∉ (s ++ t).toList := by
  rw [String.toList_append, List.mem_append, not_or]
  exact ⟨hs, ht⟩

/-- A character that is neither in the fields nor in the separator is not in the text. -/
theorem notMem_intercalate {c : Char} {sep : String} (hsep : c ∉ sep.toList)
    (h : ∀ s ∈ fields, c ∉ s.toList) : c ∉ (String.intercalate sep fields).toList := by
  induction fields with
  | nil => simp
  | cons field fields ih =>
    obtain ⟨hfield, hrest⟩ := List.forall_mem_cons.mp h
    rcases eq_or_ne fields [] with rfl | hne
    · rwa [String.intercalate_singleton]
    · rw [String.intercalate_cons_of_ne_nil hne]
      exact notMem_append (notMem_append hfield hsep) (ih hrest)

end Fields

/-! ## Lines -/

section Lines

variable {ls ls' : List String} {line : String}

@[simp] theorem unlines_nil : unlines [] = "" := rfl

@[simp] theorem unlines_cons : unlines (line :: ls) = line ++ "\n" ++ unlines ls := by
  rw [unlines, List.map_cons, String.join_cons]
  rfl

theorem unlines_append : unlines (ls ++ ls') = unlines ls ++ unlines ls' := by
  rw [unlines, List.map_append, String.join_append]
  rfl

theorem split_unlines (h : ∀ l ∈ ls, '\n' ∉ l.toList) : split '\n' (unlines ls) = ls ++ [""] := by
  induction ls with
  | nil => rfl
  | cons line ls ih =>
    obtain ⟨hline, hrest⟩ := List.forall_mem_cons.mp h
    have hsplit : split '\n' (line ++ (String.singleton '\n' ++ unlines ls)) =
        line :: split '\n' (unlines ls) :=
      split_append hline
    rw [unlines_cons, String.append_assoc, List.cons_append, ← ih hrest]
    exact hsplit

/-- Lines come back if they do not contain a newline. -/
theorem lines_unlines (h : ∀ l ∈ ls, '\n' ∉ l.toList) : lines (unlines ls) = ls := by
  rw [lines, split_unlines h, List.dropLast_concat]

end Lines

/-! ## Numbers -/

/-- A number is written in digits. -/
theorem isDigit_of_mem_toString {c : Char} {n : ℕ} (hmem : c ∈ (toString n).toList) :
    c.isDigit = true := by
  rw [Nat.toString_eq_repr, Nat.toList_repr] at hmem
  exact Nat.isDigit_of_mem_toDigits (by decide) (by decide) hmem

theorem notMem_toString {c : Char} (hc : c.isDigit = false) (n : ℕ) : c ∉ (toString n).toList := by
  intro hmem
  rw [isDigit_of_mem_toString hmem] at hc
  cases hc

theorem notMem_toString_int {c : Char} (hc : c.isDigit = false) (hminus : c ≠ '-') (n : ℤ) :
    c ∉ (toString n).toList := by
  cases n with
  | ofNat n => exact notMem_toString hc n
  | negSucc n =>
    apply notMem_append _ (notMem_toString hc (n + 1))
    simpa using hminus

theorem toInt?_toString (n : ℤ) : (toString n).toInt? = some n := Int.toInt?_repr n

theorem toNat?_toString (n : ℕ) : (toString n).toNat? = some n := Nat.toNat?_repr n

/-- The digits of a number end where something else begins. -/
theorem takeWhile_toString (n : ℕ) {c : Char} (hc : c.isDigit = false) (rest : List Char) :
    ((toString n).toList ++ c :: rest).takeWhile Char.isDigit = (toString n).toList := by
  rw [List.takeWhile_append_of_pos (fun a ha => isDigit_of_mem_toString ha),
    List.takeWhile_cons_of_neg (by simp [hc]), List.append_nil]

theorem toString_append_inj {n n' : ℕ} {c c' : Char} (hc : c.isDigit = false)
    (hc' : c'.isDigit = false) {rest rest' : List Char}
    (h : (toString n).toList ++ c :: rest = (toString n').toList ++ c' :: rest') :
    n = n' ∧ c :: rest = c' :: rest' := by
  have hdigits : (toString n).toList = (toString n').toList := by
    rw [← takeWhile_toString n hc rest, h, takeWhile_toString n' hc' rest']
  have hnumber : n = n' := by
    apply Option.some.inj
    rw [← toNat?_toString n, ← toNat?_toString n', String.toList_inj.mp hdigits]
  rw [hdigits] at h
  exact ⟨hnumber, List.append_cancel_left h⟩

end Text
