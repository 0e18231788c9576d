import Mathlib.Data.List.Basic

/-!
# Reading a list page by page

A client follows the cursors of the pages until there is none. Pages that
are slices at a position, with the position as the cursor, give the list.

Two layers: `Complete` is about any pages a client may be given, `Lists` about
pages made from one list. The slices of the second section are the pages of an
index that is kept in memory, where the cursor is the position after the page
and a page without a rest has none.
-/

namespace SwarmPointer.Paging

variable {α β ε C : Type}

/-- The pages from a cursor to the last one. -/
inductive Complete (read : Option C → Except ε (List α × Option C)) :
    Option C → List (List α) → Prop
  | last {c : Option C} {items : List α} (h : read c = .ok (items, none)) : Complete read c [items]
  | more {c : Option C} {items : List α} {next : C} {pages : List (List α)}
      (h : read c = .ok (items, some next)) (rest : Complete read (some next) pages) :
      Complete read c (items :: pages)

theorem Complete.unique {read : Option C → Except ε (List α × Option C)} {c : Option C}
    {pages pages' : List (List α)} (h : Complete read c pages) (h' : Complete read c pages') :
    pages = pages' := by
  induction h generalizing pages' with
  | last h =>
      cases h' with
      | last h' => rw [(Prod.mk.inj (Except.ok.inj (h.symm.trans h'))).1]
      | more h' _ => cases (Prod.mk.inj (Except.ok.inj (h.symm.trans h'))).2
  | more h _ ih =>
      cases h' with
      | last h' => cases (Prod.mk.inj (Except.ok.inj (h.symm.trans h'))).2
      | more h' rest' =>
          obtain ⟨rfl, hnext⟩ := Prod.mk.inj (Except.ok.inj (h.symm.trans h'))
          obtain rfl := Option.some.inj hnext
          rw [ih rest']

/-- A complete traversal exists, and it reads these names in this order. -/
def Lists (read : Option C → Except ε (List α × Option C)) (name : α → β) (names : List β) : Prop :=
  (∃ pages, Complete read none pages) ∧
    ∀ pages, Complete read none pages → pages.flatten.map name = names

theorem Lists.of_complete {read : Option C → Except ε (List α × Option C)}
    {pages : List (List α)} (h : Complete read none pages) (name : α → β) :
    Lists read name (pages.flatten.map name) :=
  ⟨⟨pages, h⟩, fun pages' h' => by rw [h.unique h']⟩

/-- There is one such list of names. -/
theorem Lists.unique {read : Option C → Except ε (List α × Option C)} {name : α → β}
    {names names' : List β} (h : Lists read name names) (h' : Lists read name names') :
    names = names' := by
  obtain ⟨pages, hpages⟩ := h.1
  exact (h.2 pages hpages).symm.trans (h'.2 pages hpages)

/-! ## Slices -/

/-- At most `size` elements from a position on, and the position after them
unless that is the end. -/
def slice (size start : Nat) (items : List α) : List α × Option Nat :=
  let chunk := (items.drop start).take size
  let stop := start + chunk.length
  (chunk, if stop < items.length then some stop else none)

/-- The cursor of a position: none for the first page. -/
def cursorAt (encode : Nat → C) (n : Nat) : Option C := if n = 0 then none else some (encode n)

theorem slice_last {size start : Nat} {items : List α} (hstart : start ≤ items.length) (h : (slice size start items).2 = none) :
    (slice size start items).1 = items.drop start := by
  have hstop : ¬ start + ((items.drop start).take size).length < items.length := by
    intro hlt
    rw [slice, if_pos hlt] at h
    cases h
  rw [List.length_take, List.length_drop] at hstop
  refine List.take_of_length_le ?_
  rw [List.length_drop]
  omega

theorem slice_more {size start stop : Nat} {items : List α}
    (h : (slice size start items).2 = some stop) :
    stop = start + size ∧ stop < items.length ∧
      (slice size start items).1 ++ items.drop stop = items.drop start := by
  have hstop : start + ((items.drop start).take size).length < items.length ∧
      start + ((items.drop start).take size).length = stop := by
    rw [slice] at h
    split at h
    · rename_i hlt
      exact ⟨hlt, Option.some.inj h⟩
    · cases h
  obtain ⟨hlt, heq⟩ := hstop
  rw [List.length_take, List.length_drop] at hlt heq
  have hsize : stop = start + size := by omega
  refine ⟨hsize, by omega, ?_⟩
  rw [hsize, ← List.drop_drop]
  exact List.take_append_drop size (items.drop start)

/-- **Slices at their positions give the list**, from any position of it. -/
theorem complete_slices {read : Option C → Except ε (List α × Option C)} {encode : Nat → C}
    {size : Nat} {items : List α} (hsize : 0 < size)
    (hread : ∀ n ≤ items.length, read (cursorAt encode n) =
      .ok ((slice size n items).1, (slice size n items).2.map encode))
    {n : Nat} (hn : n ≤ items.length) :
    ∃ pages, Complete read (cursorAt encode n) pages ∧ pages.flatten = items.drop n := by
  -- the rest gets shorter with every page
  induction hrest : items.length - n using Nat.strongRecOn generalizing n with
  | _ rest ih =>
      have hpage := hread n hn
      cases hnext : (slice size n items).2 with
      | none =>
          rw [hnext] at hpage
          exact ⟨_, .last hpage, by rw [List.flatten_singleton, slice_last hn hnext]⟩
      | some stop =>
          obtain ⟨hstop, hlt, happend⟩ := slice_more hnext
          obtain ⟨pages, hpages, hflatten⟩ := ih (items.length - stop) (by omega) (by omega) rfl
          have hcursor : cursorAt encode stop = some (encode stop) := if_neg (by omega)
          rw [hcursor] at hpages
          rw [hnext] at hpage
          exact ⟨_, .more hpage hpages, by rw [List.flatten_cons, hflatten, happend]⟩

/-- A list that is read in slices lists its elements. -/
theorem lists_slices {read : Option C → Except ε (List α × Option C)} {encode : Nat → C}
    {size : Nat} {items : List α} (hsize : 0 < size)
    (hread : ∀ n ≤ items.length, read (cursorAt encode n) =
      .ok ((slice size n items).1, (slice size n items).2.map encode)) (name : α → β) :
    Lists read name (items.map name) := by
  obtain ⟨pages, hpages, hflatten⟩ := complete_slices hsize hread (Nat.zero_le _)
  have hlists := Lists.of_complete (show Complete read none pages from hpages) name
  rwa [hflatten, List.drop_zero] at hlists

end SwarmPointer.Paging
