import Mathlib.Data.List.Basic

/-!
# Texts with separators

What stands between separators can be told apart again where it does not contain them.
-/
namespace FlatXor

/-- What is in a joined text is in the separator or in one of the parts. -/
theorem mem_of_mem_intercalate {α : Type} {sep : List α} {l : List (List α)} {c : α}
    (h : c ∈ sep.intercalate l) : c ∈ sep ∨ ∃ a ∈ l, c ∈ a := by
  induction l with
  | nil => cases h
  | cons a l ih =>
    cases l with
    | nil =>
      rw [List.intercalate_singleton] at h
      exact .inr ⟨a, List.mem_cons_self, h⟩
    | cons b l =>
      rw [List.intercalate_cons_cons, List.mem_append, List.mem_append] at h
      obtain (ha | hsep) | hrest := h
      · exact .inr ⟨a, List.mem_cons_self, ha⟩
      · exact .inl hsep
      · obtain hsep | ⟨d, hd, hc⟩ := ih hrest
        · exact .inl hsep
        · exact .inr ⟨d, List.mem_cons_of_mem a hd, hc⟩

/-- Texts without a line end, each followed by one, are split at the line ends. -/
theorem splitOn_lines {lines : List (List Char)} (h : ∀ line ∈ lines, '\n' ∉ line) :
    (lines.flatMap (· ++ ['\n'])).splitOn '\n' = lines ++ [[]] := by
  induction lines with
  | nil => rfl
  | cons line lines ih =>
    have hline := h line List.mem_cons_self
    have hrest := ih fun l hl => h l (List.mem_cons_of_mem _ hl)
    rw [List.flatMap_cons, List.append_assoc, List.singleton_append,
      List.splitOn_append_cons_self_of_not_mem hline, hrest, List.cons_append]

end FlatXor
