import Mathlib.Data.List.Basic

/-!
# Printed lines

Text of lines that are each ended by a separator, and what a reader finds in
it: the values after a label, line by line. A line may itself contain the
separator, and then prints as several; the reader sees those, not the lines
that were written. So every result says what is printed for *any* lines, and
only the last ones ask for lines without the separator.
-/

namespace Lines

variable {α : Type}

theorem mem_intercalate {c : α} {ls : List (List α)} {sep : List α} (hc : c ∈ sep.intercalate ls) :
    c ∈ sep ∨ ∃ l ∈ ls, c ∈ l := by
  induction ls with
  | nil => cases hc
  | cons l ls ih =>
      by_cases hnil : ls = []
      · subst hnil
        rw [List.intercalate_singleton] at hc
        exact .inr ⟨l, List.mem_cons_self .., hc⟩
      rw [List.intercalate_cons_of_ne_nil hnil, List.mem_append, List.mem_append] at hc
      rcases hc with (hl | hsep) | hrest
      · exact .inr ⟨l, List.mem_cons_self .., hl⟩
      · exact .inl hsep
      · rcases ih hrest with hsep | ⟨l', hl', hc⟩
        · exact .inl hsep
        · exact .inr ⟨l', List.mem_cons_of_mem _ hl', hc⟩

variable [DecidableEq α] {x : α}

/-- `x.join(lines) + x`. -/
def text (x : α) (lines : List (List α)) : List α := [x].intercalate lines ++ [x]

/-- What follows a label where it starts a line. -/
def values (x : α) (label s : List α) : List (List α) :=
  (s.splitOn x).filterMap (·.dropPrefix? label)

/-- A text is split where its lines are, and at the end. -/
theorem splitOn_text {ls : List (List α)} (hne : ls ≠ []) :
    (text x ls).splitOn x = ls.flatMap (·.splitOn x) ++ [[]] := by
  induction ls with
  | nil => exact absurd rfl hne
  | cons l ls ih =>
      by_cases hnil : ls = []
      · subst hnil
        rw [text, List.intercalate_singleton, List.splitOn_append_cons_self, List.splitOn_nil,
          List.flatMap_singleton]
      · have hshape : text x (l :: ls) = l ++ x :: text x ls := by
          rw [text, List.intercalate_cons_of_ne_nil hnil, text]
          simp only [List.append_assoc, List.cons_append, List.nil_append]
        rw [hshape, List.splitOn_append_cons_self, ih hnil, List.flatMap_cons, List.append_assoc]

/-- **The values in a text are those in its lines.** -/
theorem values_text {label : List α} (hlabel : label ≠ []) {ls : List (List α)} (hne : ls ≠ []) :
    values x label (text x ls) = ls.flatMap (values x label) := by
  have hlast : ([[]] : List (List α)).filterMap (·.dropPrefix? label) = [] := by
    obtain ⟨c, label, rfl⟩ := List.exists_cons_of_ne_nil hlabel
    rfl
  rw [values, splitOn_text hne, List.filterMap_append, hlast, List.append_nil,
    List.filterMap_flatMap]
  rfl

/-- Text without the separator lengthens the first line of what follows it. -/
theorem splitOn_append {s : List α} (hs : x ∉ s) (t : List α) :
    ∃ first rest, t.splitOn x = first :: rest ∧ (s ++ t).splitOn x = (s ++ first) :: rest := by
  obtain ⟨first, rest, ht⟩ := List.exists_cons_of_ne_nil (List.splitOn_ne_nil x t)
  refine ⟨first, rest, ht, ?_⟩
  induction s with
  | nil => exact ht
  | cons c s ih =>
      have hc : (c == x) = false := beq_eq_false_iff_ne.mpr fun h => hs (h ▸ List.mem_cons_self ..)
      rw [List.cons_append, List.splitOn_cons_eq_if_modifyHead, hc,
        ih fun h => hs (List.mem_cons_of_mem _ h)]
      rfl

/-- The values of a line whose own label has no separator: its value, when the
label is the one that is read, and those of the lines hidden in it. -/
theorem values_append {label own : List α} (hown : x ∉ own) (s : List α) :
    ∃ first rest, s.splitOn x = first :: rest ∧ values x label (own ++ s) =
      ((own ++ first).dropPrefix? label).toList ++ rest.filterMap (·.dropPrefix? label) := by
  obtain ⟨first, rest, hs, hsplit⟩ := splitOn_append hown s
  refine ⟨first, rest, hs, ?_⟩
  rw [values, hsplit, List.filterMap_cons]
  cases (own ++ first).dropPrefix? label <;> rfl

theorem values_one {label s : List α} (hs : x ∉ s) :
    values x label s = (s.dropPrefix? label).toList := by
  rw [values, List.splitOn_eq_singleton hs]
  cases h : s.dropPrefix? label <;> simp [h]

/-! ## Labels -/

/-- What a label and a colon are found in front of. -/
theorem dropPrefix_label {colon : α} {k own rest s : List α} (hk : colon ∉ k) (hown : colon ∉ own) :
    (own ++ colon :: rest ++ s).dropPrefix? (k ++ colon :: rest) =
      if own = k then some s else none := by
  split
  next heq =>
    rw [heq]
    exact List.dropPrefix?_append_of_beq s (beq_self_eq_true _)
  next hne =>
    refine Option.eq_none_iff_forall_ne_some.mpr fun t ht => hne ?_
    obtain ⟨p, hp, heq⟩ := List.dropPrefix?_eq_some_iff.mp ht
    have hsplit := congrArg (List.splitOn colon) hp
    rw [LawfulBEq.eq_of_beq heq, List.append_assoc, List.append_assoc, List.cons_append,
      List.cons_append, List.splitOn_append_cons_self_of_not_mem hown,
      List.splitOn_append_cons_self_of_not_mem hk] at hsplit
    exact (List.cons.inj hsplit).1

end Lines
