import Mathlib.Tactic.Common

/-!
# Joined and split texts

Results:

* `intercalate_cons_eq`, `toList_intercalate_cons`: a joined list is its first
  text, and each later one behind a separator.
* `intercalate_intercalate_append`: the first part of a list may be joined before
  the rest.
* `not_mem_of_mem_splitOn`: the parts of a text are free of the separator.
-/

namespace PolicyDialects.Text

section

variable {α : Type}

theorem intercalate_cons_eq (separator first : List α) (more : List (List α)) :
    separator.intercalate (first :: more) = first ++ more.flatMap (separator ++ ·) := by
  induction more generalizing first with
  | nil => simp
  | cons next more ih =>
    rw [List.intercalate_cons_cons, ih, List.flatMap_cons]
    simp

theorem toList_intercalate_cons (separator first : String) (more : List String) :
    (separator.intercalate (first :: more)).toList =
      first.toList ++ more.flatMap fun s => separator.toList ++ s.toList := by
  rw [String.toList_intercalate, List.map_cons, intercalate_cons_eq, List.flatMap_map]

/-- The first part of a list may be joined before the rest. -/
theorem intercalate_intercalate_append (separator : String) {parts : List String}
    (h : parts ≠ []) (rest : List String) :
    separator.intercalate (separator.intercalate parts :: rest) =
      separator.intercalate (parts ++ rest) := by
  obtain ⟨first, more, rfl⟩ := List.exists_cons_of_ne_nil h
  apply String.toList_inj.mp
  simp only [List.cons_append, toList_intercalate_cons, List.flatMap_append, List.append_assoc]

/-- What stands between separators holds none. -/
theorem not_mem_of_mem_splitOn [BEq α] [LawfulBEq α] {a : α} {cs part : List α}
    (h : part ∈ cs.splitOn a) : a ∉ part := by
  induction cs generalizing part with
  | nil =>
    rw [List.splitOn_nil] at h
    rw [List.mem_singleton.mp h]
    exact List.not_mem_nil
  | cons c cs ih =>
    rw [List.splitOn_cons_eq_if_modifyHead] at h
    by_cases hc : (c == a) = true
    · rw [if_pos hc] at h
      rcases List.mem_cons.mp h with rfl | h
      · exact List.not_mem_nil
      · exact ih h
    · rw [if_neg hc] at h
      obtain ⟨first, more, hparts⟩ := List.exists_cons_of_ne_nil (List.splitOn_ne_nil a cs)
      rw [hparts, List.modifyHead_cons] at h
      rw [hparts] at ih
      rcases List.mem_cons.mp h with rfl | h
      · intro hmem
        rcases List.mem_cons.mp hmem with rfl | hmem
        · exact hc (beq_self_eq_true a)
        · exact ih List.mem_cons_self hmem
      · exact ih (List.mem_cons_of_mem _ h)

end

end PolicyDialects.Text
