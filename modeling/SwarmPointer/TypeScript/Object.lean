import Mathlib.Data.List.Sort
import SwarmPointer.Json

/-!
# ECMAScript strings and objects

Strings are UTF-16 code units. An object lists its properties in the
host's order: array indices ascending, then the other names in the order
they were added. A `Json Units` stands for a parsed object when its members
are in that order, which `ofJson` establishes.

Only the order of properties is modelled, since only it differs from the order
of insertion: no prototype, no attributes. Looking a name up is not affected by
the order, and neither is the set of members, so the results here are that
`ownMembers` is a permutation and keeps what a filter keeps.
-/

namespace SwarmPointer.TypeScript

open Json

/-- A string: UTF-16 code units. -/
abbrev Units := List UInt16

/-- An ASCII character. -/
def ascii (c : Char) : UInt16 := UInt16.ofNat c.toNat

/-- An ASCII literal. -/
def lit (s : Str) : Units := s.map ascii

/-- An array index: a canonical decimal numeral below `2^32 - 1`. -/
def arrayIndex (k : Units) : Option Nat :=
  let n := Nat.ofDigitChars 10 (k.map fun u => Char.ofNat u.toNat) 0
  if n < 2 ^ 32 - 1 ∧ lit (Nat.toDigits 10 n) = k then some n else none

/-- Array indices by value, everything else after them. -/
def rank (k : Units) : Nat := (arrayIndex k).getD (2 ^ 32)

/-- Properties in `Object.keys` order, given the order they were added in;
the sort is stable. -/
def ownOrder {K V : Type} (name : K → Units) (ms : List (K × V)) : List (K × V) :=
  ms.insertionSort fun a b => rank (name a.1) ≤ rank (name b.1)

mutual

/-- The object the host holds for a parsed value. -/
def ofJson : Json Str → Json Units
  | .null => .null
  | .bool b => .bool b
  | .num x => .num x
  | .str s => .str (Unicode.utf16 s)
  | .arr vs => .arr (ofList vs)
  | .obj ms => .obj (ownOrder id (ofMembers ms))

def ofList : List (Json Str) → List (Json Units)
  | [] => []
  | v :: vs => ofJson v :: ofList vs

def ofMembers : Members Str → Members Units
  | [] => []
  | (k, v) :: ms => (Unicode.utf16 k, ofJson v) :: ofMembers ms

end

theorem ofList_eq (vs : List (Json Str)) : ofList vs = vs.map ofJson := by
  induction vs with
  | nil => rfl
  | cons v vs ih => rw [ofList, ih, List.map_cons]

theorem ofMembers_eq (ms : Members Str) :
    ofMembers ms = ms.map fun m => (Unicode.utf16 m.1, ofJson m.2) := by
  induction ms with
  | nil => rfl
  | cons m ms ih => rw [ofMembers, ih, List.map_cons]

/-- The members of the object the host holds for parsed members. -/
def ownMembers (ms : Members Str) : Members Units := ownOrder id (ofMembers ms)

/-! ## The order is a permutation, kept by filtering -/

theorem ownOrder_perm {K V : Type} (name : K → Units) (ms : List (K × V)) :
    (ownOrder name ms).Perm ms :=
  List.perm_insertionSort _ ms

/-- Listing properties commutes with renaming them and mapping their values. -/
theorem ownOrder_map {K K' V V' : Type} (name : K' → Units) (f : K → K') (g : V → V')
    (ms : List (K × V)) :
    ownOrder name (ms.map fun m => (f m.1, g m.2)) =
      (ownOrder (fun k => name (f k)) ms).map fun m => (f m.1, g m.2) :=
  (List.map_insertionSort (fun a b : K × V => rank (name (f a.1)) ≤ rank (name (f b.1)))
    (fun a b : K' × V' => rank (name a.1) ≤ rank (name b.1)) (fun m => (f m.1, g m.2)) ms
    fun _ _ _ _ => Iff.rfl).symm

theorem lookup_ofMembers (ms : Members Str) (k : Str) :
    (ofMembers ms).lookup (Unicode.utf16 k) = (ms.lookup k).map ofJson := by
  induction ms with
  | nil => rfl
  | cons m ms ih =>
      obtain ⟨j, v⟩ := m
      rw [ofMembers, List.lookup_cons, List.lookup_cons, ih]
      by_cases h : k = j
      · rw [h, beq_self_eq_true, beq_self_eq_true]
        rfl
      · have hne : Unicode.utf16 k ≠ Unicode.utf16 j := fun heq => h (Unicode.utf16_inj heq)
        rw [beq_eq_false_iff_ne.mpr h, beq_eq_false_iff_ne.mpr hne]

theorem ofMembers_nodup {ms : Members Str} (h : (ms.map Prod.fst).Nodup) :
    ((ofMembers ms).map Prod.fst).Nodup := by
  have hnames : (ofMembers ms).map Prod.fst = (ms.map Prod.fst).map Unicode.utf16 := by
    rw [ofMembers_eq, List.map_map, List.map_map]
    rfl
  rw [hnames]
  exact h.map fun _ _ => Unicode.utf16_inj

/-- **A member is found in the object as it is in the members.** -/
theorem lookup_ownMembers {ms : Members Str} (h : (ms.map Prod.fst).Nodup) (k : Str) :
    (ownMembers ms).lookup (Unicode.utf16 k) = (ms.lookup k).map ofJson := by
  rw [← lookup_ofMembers]
  exact (lookup_perm (ownOrder_perm id (ofMembers ms)).symm (ofMembers_nodup h) _).symm

end SwarmPointer.TypeScript
