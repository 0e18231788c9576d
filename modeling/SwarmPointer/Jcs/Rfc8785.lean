import Mathlib.Data.List.Sort
import SwarmPointer.Json
import SwarmPointer.Lib.Decimal

/-!
# RFC 8785 — the recursive definition

Canonical JSON text, by recursion on the value: no white space, members in
increasing order of the UTF-16 code units of their names, the seven short
escapes and `\u00xx` for the other controls, ECMAScript numbers.

This is the text the three programs have to write, and the only place where it
is defined. It is over strings of scalar values; the bytes are its UTF-8. The
members are sorted as names with finished texts, so that the recursion is over
the value and not over a sorted copy of it.
-/

namespace SwarmPointer.Rfc8785

open Json

def escape (c : Char) : Str :=
  if c = '"' then ['\\', '"']
  else if c = '\\' then ['\\', '\\']
  else if c = '\x08' then ['\\', 'b']
  else if c = '\x0c' then ['\\', 'f']
  else if c = '\n' then ['\\', 'n']
  else if c = '\x0d' then ['\\', 'r']
  else if c = '\t' then ['\\', 't']
  else if c.toNat < 0x20 then
    ['\\', 'u', '0', '0', hexDigit (c.toNat / 16), hexDigit (c.toNat % 16)]
  else [c]

def quote (s : Str) : Str := '"' :: s.flatMap escape ++ ['"']

/-- The UTF-16 code units a name is ordered by. -/
def units (s : Str) : List Nat := (Unicode.utf16 s).map UInt16.toNat

/-- The order members are written in. -/
def nameLe {V : Type} (a b : Str × V) : Prop := units a.1 ≤ units b.1

instance {V : Type} : DecidableRel (nameLe (V := V)) := fun _ _ =>
  inferInstanceAs (Decidable (_ ≤ _))

/-- Members sorted by name. -/
def sortByName {V : Type} (ms : List (Str × V)) : List (Str × V) := ms.insertionSort nameLe

def member (m : Str × Str) : Str := quote m.1 ++ ':' :: m.2

mutual

/-- The canonical text of a value. -/
def text : Json Str → Str
  | .null => "null".toList
  | .bool true => "true".toList
  | .bool false => "false".toList
  | .num x => Decimal.ecmaString x
  | .str s => quote s
  | .arr vs => '[' :: [','].intercalate (textList vs) ++ [']']
  | .obj ms => '{' :: [','].intercalate ((sortByName (textMembers ms)).map member) ++ ['}']

def textList : List (Json Str) → List Str
  | [] => []
  | v :: vs => text v :: textList vs

def textMembers : Members Str → List (Str × Str)
  | [] => []
  | (k, v) :: ms => (k, text v) :: textMembers ms

end

/-- The canonical bytes. -/
def bytes (v : Json Str) : Bytes := Unicode.utf8 (text v)

theorem textList_eq (vs : List (Json Str)) : textList vs = vs.map text := by
  induction vs with
  | nil => rfl
  | cons v vs ih => rw [textList, ih, List.map_cons]

theorem textMembers_eq (ms : Members Str) : textMembers ms = ms.map fun m => (m.1, text m.2) := by
  induction ms with
  | nil => rfl
  | cons m ms ih => rw [textMembers, ih, List.map_cons]

/-! ## The order of names -/

theorem units_inj {a b : Str} (h : units a = units b) : a = b :=
  Unicode.utf16_inj (List.map_injective_iff.mpr (fun _ _ => UInt16.toNat_inj.mp) h)

instance {V : Type} : Std.Total (nameLe (V := V)) := ⟨fun a b => le_total (units a.1) (units b.1)⟩

instance {V : Type} : IsTrans (Str × V) nameLe := ⟨fun _ _ _ => le_trans⟩

theorem sortByName_perm {V : Type} (ms : List (Str × V)) : (sortByName ms).Perm ms :=
  List.perm_insertionSort _ ms

/-- Sorting looks at names only. -/
theorem sortByName_map {V W : Type} (f : V → W) (ms : List (Str × V)) :
    sortByName (ms.map fun m => (m.1, f m.2)) = (sortByName ms).map fun m => (m.1, f m.2) :=
  (List.map_insertionSort nameLe nameLe (fun m => (m.1, f m.2)) ms fun _ _ _ _ => Iff.rfl).symm

theorem nodup_names {V : Type} {ms ns : List (Str × V)} (hperm : ns.Perm ms)
    (h : (ms.map Prod.fst).Nodup) : ns.Pairwise fun a b => a.1 ≠ b.1 := by
  have hn : (ns.map Prod.fst).Nodup := (hperm.map Prod.fst).nodup_iff.mpr h
  exact List.pairwise_map.mp hn

/-- **Distinct names come out in strictly increasing order.** -/
theorem sortByName_strict {V : Type} {ms : List (Str × V)} (h : (ms.map Prod.fst).Nodup) :
    (sortByName ms).Pairwise fun a b => units a.1 < units b.1 := by
  have hle : (sortByName ms).Pairwise nameLe := List.pairwise_insertionSort nameLe ms
  refine (hle.and (nodup_names (sortByName_perm ms) h)).imp ?_
  rintro a b ⟨hab, hne⟩
  exact lt_of_le_of_ne hab fun heq => hne (units_inj heq)

/-- Any listing of the members in increasing order is the sorted one. -/
theorem eq_sortByName {V : Type} {ms ns : List (Str × V)} (hperm : ns.Perm ms)
    (hsorted : ns.Pairwise fun a b => units a.1 < units b.1) : ns = sortByName ms := by
  have hperm' := hperm.trans (sortByName_perm ms).symm
  have hdistinct : (ns.map Prod.fst).Nodup :=
    List.pairwise_map.mpr (hsorted.imp fun h heq => (ne_of_lt h) (congrArg units heq))
  have hstrict := sortByName_strict ((hperm.map Prod.fst).nodup_iff.mp hdistinct)
  refine hperm'.eq_of_pairwise ?_ hsorted hstrict
  intro a b _ _ hab hba
  exact absurd (hab.trans hba) (lt_irrefl _)

end SwarmPointer.Rfc8785
