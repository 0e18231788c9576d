import Mathlib.Data.List.Sort

/-!
# Keyset pagination

Rows are listed by strictly increasing keys. A page holds the first rows
after a key and, when more follow, the key of its last row to go on from.
Rows may be appended between the reads of a walk; the walk still lists every
row that was there when it began exactly once, in order.

The snapshots of a walk are a list, one for each page, of which each grows
into the next (`Grows`); nothing else is assumed of what happens between two
reads. Completeness is relative to the first snapshot, order and uniqueness
hold of everything listed. Termination is a fact of its own, about walks during
which nothing is appended: a reader can be kept waiting for as long as rows
arrive faster than pages are read.
-/

namespace Keyset

variable {α : Type*}

/-- Keys increase strictly along the list. -/
def Sorted (rows : List (Nat × α)) : Prop := rows.Pairwise fun a b => a.1 < b.1

/-- The rows after the key `k`. -/
def after (k : Nat) (rows : List (Nat × α)) : List (Nat × α) := rows.filter fun r => k < r.1

/-- The first `size` rows after `k`, found by looking one row ahead, and the
key to go on from. -/
def page (size k : Nat) (rows : List (Nat × α)) : List (Nat × α) × Option Nat :=
  let sel := (after k rows).take (size + 1)
  (sel.take size, if size < sel.length then (sel.take size).getLast?.map Prod.fst else none)

/-- `rows'` is `rows` with further rows at the end. -/
def Grows (rows rows' : List (Nat × α)) : Prop := Sorted rows' ∧ rows <+: rows'

/-- Follow the keys from `k` on, each page read from the next snapshot: the
pages, and whether the last one had no key to go on from. -/
def walk (size : Nat) : Nat → List (List (Nat × α)) → List (List (Nat × α)) × Bool
  | _, [] => ([], false)
  | k, rows :: snaps =>
      match (page size k rows).2 with
      | none => ([(page size k rows).1], true)
      | some j => ((page size k rows).1 :: (walk size j snaps).1, (walk size j snaps).2)

theorem Sorted.after {rows : List (Nat × α)} (h : Sorted rows) (k : Nat) : Sorted (after k rows) :=
  h.filter _

theorem mem_after {rows : List (Nat × α)} {k : Nat} {r : Nat × α} :
    r ∈ after k rows ↔ r ∈ rows ∧ k < r.1 := by
  rw [after, List.mem_filter, decide_eq_true_eq]

theorem page_rows (size k : Nat) (rows : List (Nat × α)) :
    (page size k rows).1 = (after k rows).take size := by
  rw [page, List.take_take, Nat.min_eq_left (Nat.le_succ size)]

theorem page_next (size k : Nat) (rows : List (Nat × α)) :
    (page size k rows).2 = if size < (after k rows).length then
      ((after k rows).take size).getLast?.map Prod.fst else none := by
  have hlen : size < ((after k rows).take (size + 1)).length ↔ size < (after k rows).length := by
    rw [List.length_take]
    omega
  rw [page, List.take_take, Nat.min_eq_left (Nat.le_succ size)]
  simp only [hlen]

/-- Without a key to go on from the page holds every row after `k`. -/
theorem page_last {size k : Nat} (hsize : 0 < size) {rows : List (Nat × α)}
    (h : (page size k rows).2 = none) : (page size k rows).1 = after k rows := by
  rw [page_rows]
  rw [page_next] at h
  refine List.take_of_length_le ?_
  by_contra hlt
  rw [if_pos (not_le.mp hlt), Option.map_eq_none_iff, List.getLast?_eq_none_iff,
    List.take_eq_nil_iff] at h
  rcases h with h | h
  · omega
  · rw [h] at hlt
    exact hlt (Nat.zero_le _)

/-- With a key to go on from the page is full, ends at that key, and a row is
left. -/
theorem page_more {size k j : Nat} {rows : List (Nat × α)} (h : (page size k rows).2 = some j) :
    size < (after k rows).length ∧
      ((after k rows).take size).getLast?.map Prod.fst = some j := by
  rw [page_next] at h
  split at h
  · rename_i hlt
    exact ⟨hlt, h⟩
  · cases h

/-- The rows after the last key of a full page are those the page left. -/
theorem after_last {size j : Nat} {l : List (Nat × α)} (h : Sorted l)
    (hj : (l.take size).getLast?.map Prod.fst = some j) : after j l = l.drop size := by
  obtain ⟨r, hr, rfl⟩ := Option.map_eq_some_iff.mp hj
  obtain ⟨init, hinit⟩ := List.getLast?_eq_some_iff.mp hr
  have hsplit : l = init ++ [r] ++ l.drop size := by
    rw [← hinit, List.take_append_drop]
  have hs := h
  rw [hsplit, Sorted, List.pairwise_append, List.pairwise_append] at hs
  obtain ⟨⟨-, -, hlast⟩, -, hrest⟩ := hs
  conv_lhs => rw [hsplit]
  rw [after, List.filter_append, List.filter_append]
  have hnone : init.filter (fun x => decide (r.1 < x.1)) = [] := by
    rw [List.filter_eq_nil_iff]
    intro a ha
    have := hlast a ha r (List.mem_singleton_self r)
    simp only [decide_eq_true_eq]
    omega
  have hself : [r].filter (fun x => decide (r.1 < x.1)) = [] := by simp
  have hall : (l.drop size).filter (fun x => decide (r.1 < x.1)) = l.drop size := by
    rw [List.filter_eq_self]
    intro a ha
    exact decide_eq_true (hrest r (by simp) a ha)
  rw [hnone, hself, hall, List.nil_append, List.nil_append]

theorem after_after {j k : Nat} (h : k ≤ j) (rows : List (Nat × α)) :
    after j (after k rows) = after j rows := by
  rw [after, after, List.filter_filter, after]
  refine List.filter_congr fun r _ => ?_
  simp only [Bool.and_eq_left_iff_imp, decide_eq_true_eq]
  omega

/-- A snapshot sequence: every one extends the one before. -/
def Snapshots (snaps : List (List (Nat × α))) : Prop :=
  (∀ rows ∈ snaps, Sorted rows) ∧ snaps.IsChain Grows

theorem last_key {size k j : Nat} {rows : List (Nat × α)}
    (h : ((after k rows).take size).getLast?.map Prod.fst = some j) :
    k < j ∧ ∃ r ∈ (after k rows).take size, r.1 = j := by
  obtain ⟨r, hr, rfl⟩ := Option.map_eq_some_iff.mp h
  have hmem := List.mem_of_getLast? hr
  exact ⟨(mem_after.mp (List.mem_of_mem_take hmem)).2, r, hmem, rfl⟩

theorem Snapshots.tail {rows : List (Nat × α)} {snaps : List (List (Nat × α))}
    (h : Snapshots (rows :: snaps)) : Snapshots snaps :=
  ⟨fun r hr => h.1 r (List.mem_cons_of_mem _ hr), List.isChain_of_isChain_cons h.2⟩

/-- **A walk lists rows in strictly increasing order of keys**, all after its start. -/
theorem walk_sorted {size k : Nat} {snaps : List (List (Nat × α))} (h : Snapshots snaps) :
    Sorted (walk size k snaps).1.flatten ∧ ∀ r ∈ (walk size k snaps).1.flatten, k < r.1 := by
  induction snaps generalizing k with
  | nil => exact ⟨List.Pairwise.nil, nofun⟩
  | cons rows snaps ih =>
      have hs := h.1 rows (List.mem_cons_self ..)
      have hpage : Sorted (page size k rows).1 ∧ ∀ r ∈ (page size k rows).1, k < r.1 := by
        rw [page_rows]
        exact ⟨(hs.after k).sublist (List.take_sublist ..), fun r hr =>
          (mem_after.mp (List.mem_of_mem_take hr)).2⟩
      rw [walk]
      split
      · rw [List.flatten_singleton]
        exact hpage
      · rename_i j hj
        obtain ⟨-, hlast⟩ := page_more hj
        obtain ⟨hkj, -⟩ := last_key hlast
        obtain ⟨ihs, ihk⟩ := ih (k := j) h.tail
        refine ⟨List.pairwise_append.mpr ⟨hpage.1, ihs, fun a ha b hb => ?_⟩, fun r hr => ?_⟩
        · -- every row of the page is at most its last, and the rest is after it
          have hle : a.1 ≤ j := by
            by_contra hlt
            rw [page_rows] at ha
            have hmem : a ∈ after j (after k rows) :=
              mem_after.mpr ⟨List.mem_of_mem_take ha, not_le.mp hlt⟩
            rw [after_last (hs.after k) hlast] at hmem
            have hnodup : (after k rows).Nodup := (hs.after k).imp fun h heq => by
              rw [heq] at h
              exact lt_irrefl _ h
            exact (List.disjoint_take_drop hnodup le_rfl) ha hmem
          exact hle.trans_lt (ihk b hb)
        · rw [List.flatten_cons, List.mem_append] at hr
          exact hr.elim (hpage.2 r) fun hr => hkj.trans (ihk r hr)

/-- **A walk that ends lists every row there was when it began.** -/
theorem walk_complete {size k : Nat} (hsize : 0 < size) {rows : List (Nat × α)}
    {snaps : List (List (Nat × α))} (h : Snapshots (rows :: snaps))
    (hend : (walk size k (rows :: snaps)).2 = true) :
    ∀ r ∈ rows, k < r.1 → r ∈ (walk size k (rows :: snaps)).1.flatten := by
  induction snaps generalizing k rows with
  | nil =>
      intro r hr hk
      rw [walk] at hend ⊢
      split at hend
      · rename_i hnone
        rw [List.flatten_singleton, page_last hsize hnone]
        exact mem_after.mpr ⟨hr, hk⟩
      · cases hend
  | cons rows' snaps ih =>
      intro r hr hk
      have hs := h.1 rows (List.mem_cons_self ..)
      rw [walk] at hend ⊢
      split at hend
      · rename_i hnone
        rw [List.flatten_singleton, page_last hsize hnone]
        exact mem_after.mpr ⟨hr, hk⟩
      · rename_i j hj
        rw [List.flatten_cons, List.mem_append, page_rows]
        obtain ⟨-, hlast⟩ := page_more hj
        obtain ⟨hkj, -⟩ := last_key hlast
        by_cases hrj : j < r.1
        · have hgrow : Grows rows rows' := List.rel_of_isChain_cons_cons h.2
          exact .inr (ih h.tail hend r (hgrow.2.mem hr) hrj)
        · left
          have hmem : r ∈ after k rows := mem_after.mpr ⟨hr, hk⟩
          rw [← List.take_append_drop size (after k rows), List.mem_append] at hmem
          refine hmem.resolve_right fun hd => hrj ?_
          rw [← after_last (hs.after k) hlast] at hd
          exact (mem_after.mp hd).2

/-- **Without appends a walk ends**: one snapshot more than rows is enough. -/
theorem walk_ends {size k : Nat} (hsize : 0 < size) {rows : List (Nat × α)} (h : Sorted rows)
    {n : Nat} (hn : (after k rows).length < n) :
    (walk size k (List.replicate n rows)).2 = true := by
  induction n generalizing k with
  | zero => exact absurd hn (Nat.not_lt_zero _)
  | succ n ih =>
      rw [List.replicate_succ, walk]
      split
      · rfl
      · rename_i j hj
        obtain ⟨hlt, hlast⟩ := page_more hj
        obtain ⟨hkj, -⟩ := last_key hlast
        refine ih ?_
        rw [← after_after hkj.le, after_last (h.after k) hlast, List.length_drop]
        omega

/-- **Without appends a walk that ends lists exactly the rows after its start.** -/
theorem walk_exact {size k : Nat} (hsize : 0 < size) {rows : List (Nat × α)} (h : Sorted rows)
    {n : Nat} (hend : (walk size k (List.replicate n rows)).2 = true) :
    (walk size k (List.replicate n rows)).1.flatten = after k rows := by
  induction n generalizing k with
  | zero => cases hend
  | succ n ih =>
      rw [List.replicate_succ, walk] at hend ⊢
      split
      · rename_i hnone
        rw [List.flatten_singleton, page_last hsize hnone]
      · rename_i j hj
        rw [hj] at hend
        obtain ⟨-, hlast⟩ := page_more hj
        obtain ⟨hkj, -⟩ := last_key hlast
        rw [List.flatten_cons, ih hend, page_rows, ← after_after hkj.le, after_last (h.after k) hlast,
          List.take_append_drop]

end Keyset
