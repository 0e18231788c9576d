import Mathlib.Data.List.Basic

/-!
# The first occurrence of a pattern

`find` as strings and byte strings have it: the position of the first
occurrence.

`Within` says that the pattern begins inside a given first part and may run
over its end. A text that is made of parts is searched part by part: an
occurrence in it begins in exactly one of them.
-/

namespace SwarmPointer.Search

variable {α : Type}

section
variable [BEq α]

/-- The position of the first occurrence of a pattern. -/
def find (p : List α) : List α → Option Nat
  | [] => if p.isEmpty then some 0 else none
  | x :: xs => if p.isPrefixOf (x :: xs) then some 0 else (find p xs).map (· + 1)

variable [LawfulBEq α]

/-- What is found is an occurrence. -/
theorem find_sound {p xs : List α} {n : Nat} (h : find p xs = some n) :
    ∃ a b, xs = a ++ p ++ b ∧ a.length = n := by
  induction xs generalizing n with
  | nil =>
      rw [find] at h
      split at h
      · rename_i hp
        obtain rfl := Option.some.inj h
        exact ⟨[], [], by rw [List.isEmpty_iff.mp hp]; rfl, rfl⟩
      · cases h
  | cons x xs ih =>
      rw [find] at h
      split at h
      · rename_i hp
        obtain rfl := Option.some.inj h
        obtain ⟨b, hb⟩ := List.isPrefixOf_iff_prefix.mp hp
        exact ⟨[], b, hb.symm, rfl⟩
      · obtain ⟨m, hm, rfl⟩ := Option.map_eq_some_iff.mp h
        obtain ⟨a, b, rfl, rfl⟩ := ih hm
        exact ⟨x :: a, b, rfl, rfl⟩

/-- An occurrence is found, or one before it. -/
theorem find_le {p a b : List α} : ∃ n ≤ a.length, find p (a ++ p ++ b) = some n := by
  induction a with
  | nil =>
      have hp : p.isPrefixOf (p ++ b) = true := List.isPrefixOf_iff_prefix.mpr ⟨b, rfl⟩
      refine ⟨0, Nat.le_refl 0, ?_⟩
      rw [List.nil_append]
      cases h : p ++ b with
      | nil =>
          rw [(List.append_eq_nil_iff.mp h).1]
          rfl
      | cons x xs =>
          rw [h] at hp
          rw [find, if_pos hp]
  | cons x a ih =>
      obtain ⟨n, hn, hfind⟩ := ih
      by_cases hp : p.isPrefixOf (x :: (a ++ p ++ b)) = true
      · exact ⟨0, Nat.zero_le _, if_pos hp⟩
      · refine ⟨n + 1, Nat.succ_le_succ hn, ?_⟩
        rw [List.cons_append, List.cons_append, find, if_neg hp, hfind]
        rfl

/-- **The first occurrence is found.** -/
theorem find_first {p a b : List α}
    (h : ∀ c d, a ++ p ++ b = c ++ p ++ d → a.length ≤ c.length) :
    find p (a ++ p ++ b) = some a.length := by
  obtain ⟨n, hn, hfind⟩ := find_le (p := p) (a := a) (b := b)
  obtain ⟨c, d, heq, rfl⟩ := find_sound hfind
  rw [hfind, Nat.le_antisymm hn (h c d heq)]

end

/-! ## Occurrences that begin in a part -/

/-- An occurrence of `p` in `t ++ r` that begins in `t`. -/
def Within (p t r : List α) : Prop := ∃ a b, t ++ r = a ++ p ++ b ∧ a.length < t.length

theorem not_within_nil (p r : List α) : ¬ Within p [] r := fun ⟨_, _, _, h⟩ => nomatch h

theorem Within.append {p t u r : List α} (h : Within p (t ++ u) r) :
    Within p t (u ++ r) ∨ Within p u r := by
  obtain ⟨a, b, heq, hlen⟩ := h
  by_cases ht : a.length < t.length
  · exact .inl ⟨a, b, by rw [← List.append_assoc, heq], ht⟩
  · rw [List.append_assoc, List.append_assoc] at heq
    rw [List.length_append] at hlen
    rcases List.append_eq_append_iff.mp heq with ⟨c, rfl, hu⟩ | ⟨c, rfl, -⟩
    · rw [List.length_append] at hlen
      exact .inr ⟨c, b, by rw [hu, List.append_assoc], by omega⟩
    · -- then `a` is a prefix of `t` of its length
      rw [List.length_append] at ht
      have hc : c = [] := List.eq_nil_of_length_eq_zero (by omega)
      subst hc
      rw [List.append_nil] at heq
      have hu : u ++ r = p ++ b := List.append_cancel_left heq
      refine .inr ⟨[], b, by rw [hu]; rfl, ?_⟩
      rw [List.append_nil] at hlen
      rw [List.length_nil]
      omega

/-- A part without the first element of the pattern has no such occurrence. -/
theorem not_within_of_not_mem {x : α} {p t r : List α} (h : x ∉ t) : ¬ Within (x :: p) t r := by
  rintro ⟨a, b, heq, hlen⟩
  have hmem : x ∈ t := by
    have hget : (t ++ r)[a.length]? = some x := by
      rw [heq, List.append_assoc, List.getElem?_append_right (Nat.le_refl _), Nat.sub_self]
      rfl
    rw [List.getElem?_append_left hlen] at hget
    exact List.mem_of_getElem? hget
  exact h hmem

end SwarmPointer.Search
