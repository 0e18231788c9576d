import Mathlib.Data.List.Basic

/-!
# Lists under keys

An association list whose values are lists that grow at the end, as a
dictionary of lists does.

`push` is `d.setdefault(k, []).append(x)`, or the same on a `Map` of arrays. A
key keeps its place once it has one. A key that was never pushed has no list,
and `get` reads it as the empty one; so a key whose list is empty and a key
that is missing cannot be told apart through `get`.
-/

namespace SwarmPointer.Multimap

variable {K V : Type} [BEq K] [LawfulBEq K]

/-- The value of a key: in place when the key is there, at the end otherwise. -/
def set (m : List (K × V)) (k : K) (v : V) : List (K × V) :=
  if (m.lookup k).isSome then m.map fun x => if x.1 == k then (k, v) else x else m ++ [(k, v)]

/-- The list of a key, empty when there is none. -/
def get (m : List (K × List V)) (k : K) : List V := (m.lookup k).getD []

/-- One more element under a key. -/
def push (m : List (K × List V)) (k : K) (v : V) : List (K × List V) := set m k (get m k ++ [v])

theorem lookup_map_replace (m : List (K × V)) (k j : K) (v : V) :
    (m.map fun x => if x.1 == k then (k, v) else x).lookup j =
      if j == k then (m.lookup k).map fun _ => v else m.lookup j := by
  induction m with
  | nil => cases j == k <;> rfl
  | cons x m ih =>
      rw [List.map_cons, List.lookup_cons, ih, List.lookup_cons, List.lookup_cons]
      by_cases hx : x.1 = k
      · rw [hx, beq_self_eq_true k, if_pos rfl]
        cases hj : j == k <;> rfl
      · have hxk : (x.1 == k) = false := beq_eq_false_iff_ne.mpr hx
        have hkx : (k == x.1) = false := beq_eq_false_iff_ne.mpr (Ne.symm hx)
        rw [hxk, hkx, if_neg Bool.false_ne_true]
        by_cases hj : j = k
        · rw [hj, beq_self_eq_true k, hkx]
        · have hjk : (j == k) = false := beq_eq_false_iff_ne.mpr hj
          rw [hjk]
          rfl

theorem lookup_set (m : List (K × V)) (k j : K) (v : V) :
    (set m k v).lookup j = if j == k then some v else m.lookup j := by
  rw [set]
  split
  · rename_i h
    obtain ⟨w, hw⟩ := Option.isSome_iff_exists.mp h
    rw [lookup_map_replace, hw]
    rfl
  · rename_i h
    have hnone : m.lookup k = none := Option.not_isSome_iff_eq_none.mp h
    rw [List.lookup_append, List.lookup_cons, List.lookup_nil]
    by_cases hj : j = k
    · rw [hj, hnone, beq_self_eq_true k]
      rfl
    · have hjk : (j == k) = false := beq_eq_false_iff_ne.mpr hj
      rw [hjk]
      exact Option.or_none

/-- **Pushing under a key changes the list of that key only.** -/
theorem get_push (m : List (K × List V)) (k j : K) (v : V) :
    get (push m k v) j = if j == k then get m j ++ [v] else get m j := by
  rw [get, push, lookup_set]
  by_cases hj : j = k
  · rw [hj, beq_self_eq_true k]
    rfl
  · have hjk : (j == k) = false := beq_eq_false_iff_ne.mpr hj
    rw [hjk]
    rfl

end SwarmPointer.Multimap
