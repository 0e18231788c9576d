import SwarmPointer.Lib.Binary64
import SwarmPointer.Lib.Unicode

/-!
# JSON values

The value tree the three implementations build. It is generic in the type
of strings, which differs between them: scalar values in Python, UTF-8
bytes in Go, UTF-16 code units in TypeScript. Objects are association
lists in insertion order; the parsers build only those with distinct
names. Numbers are finite doubles by type, so the `isfinite` tests of the
source hold of every value here.
-/

namespace SwarmPointer

/-- A byte string. -/
abbrev Bytes := List UInt8

/-- A Python `str` without surrogates. -/
abbrev Str := List Char

instance lawfulBEqStr : LawfulBEq (List Char) := List.instLawfulBEq

/-- One lower-case hexadecimal digit. -/
def hexDigit (n : Nat) : Char := if n < 10 then Char.ofNat (48 + n) else Char.ofNat (87 + n)

/-- Two digits for each byte. -/
def hex (bs : Bytes) : Str := bs.flatMap fun b => [hexDigit (b.toNat / 16), hexDigit (b.toNat % 16)]

/-- A 256-bit digest. -/
abbrev Digest := {bs : Bytes // bs.length = 32}

inductive Json (S : Type) where
  | null
  | bool (b : Bool)
  | num (x : Binary64)
  | str (s : S)
  | arr (vs : List (Json S))
  | obj (ms : List (S × Json S))

namespace Json
variable {S T : Type}

/-- The members of an object. -/
abbrev Members (S : Type) := List (S × Json S)

/-! ## Change of string type -/

mutual

/-- The same tree over another representation of strings. -/
def map (f : S → T) : Json S → Json T
  | null => null
  | bool b => bool b
  | num x => num x
  | str s => str (f s)
  | arr vs => arr (mapList f vs)
  | obj ms => obj (mapMembers f ms)

def mapList (f : S → T) : List (Json S) → List (Json T)
  | [] => []
  | v :: vs => map f v :: mapList f vs

def mapMembers (f : S → T) : Members S → Members T
  | [] => []
  | (k, v) :: ms => (f k, map f v) :: mapMembers f ms

end

theorem mapList_eq (f : S → T) (vs : List (Json S)) : mapList f vs = vs.map (map f) := by
  induction vs with
  | nil => rfl
  | cons v vs ih => rw [mapList, ih, List.map_cons]

theorem mapMembers_eq (f : S → T) (ms : Members S) :
    mapMembers f ms = ms.map fun m => (f m.1, map f m.2) := by
  induction ms with
  | nil => rfl
  | cons m ms ih => rw [mapMembers, ih, List.map_cons]

/-! ## Properties of every part of a value -/

mutual

/-- Every number satisfies `p`, every string and name satisfies `q`, and
every object has distinct names. -/
def All (p : Binary64 → Prop) (q : S → Prop) : Json S → Prop
  | null => True
  | bool _ => True
  | num x => p x
  | str s => q s
  | arr vs => AllList p q vs
  | obj ms => (ms.map Prod.fst).Nodup ∧ AllMembers p q ms

def AllList (p : Binary64 → Prop) (q : S → Prop) : List (Json S) → Prop
  | [] => True
  | v :: vs => All p q v ∧ AllList p q vs

def AllMembers (p : Binary64 → Prop) (q : S → Prop) : Members S → Prop
  | [] => True
  | (k, v) :: ms => q k ∧ All p q v ∧ AllMembers p q ms

end

theorem allList_iff {p : Binary64 → Prop} {q : S → Prop} {vs : List (Json S)} :
    AllList p q vs ↔ ∀ v ∈ vs, All p q v := by
  induction vs with
  | nil => simp [AllList]
  | cons v vs ih => simp [AllList, ih]

theorem allMembers_iff {p : Binary64 → Prop} {q : S → Prop} {ms : Members S} :
    AllMembers p q ms ↔ ∀ m ∈ ms, q m.1 ∧ All p q m.2 := by
  induction ms with
  | nil => simp [AllMembers]
  | cons m ms ih => simp [AllMembers, ih, and_assoc]

/-! ## Equality up to the order of members -/

mutual

/-- The same value, the members of objects in any order. -/
def Same : Json S → Json S → Prop
  | null, w => w = null
  | bool b, w => w = bool b
  | num x, w => w = num x
  | str s, w => w = str s
  | arr vs, w => ∃ ws, w = arr ws ∧ SameList vs ws
  | obj ms, w => ∃ ns ns', w = obj ns ∧ ns'.Perm ns ∧ SameMembers ms ns'

def SameList : List (Json S) → List (Json S) → Prop
  | [], ws => ws = []
  | v :: vs, ws => ∃ w ws', ws = w :: ws' ∧ Same v w ∧ SameList vs ws'

def SameMembers : Members S → Members S → Prop
  | [], ns => ns = []
  | (k, v) :: ms, ns => ∃ w ns', ns = (k, w) :: ns' ∧ Same v w ∧ SameMembers ms ns'

end

theorem sameList_iff {vs ws : List (Json S)} : SameList vs ws ↔ List.Forall₂ Same vs ws := by
  induction vs generalizing ws with
  | nil => rw [SameList, List.forall₂_nil_left_iff]
  | cons v vs ih =>
      rw [SameList, List.forall₂_cons_left_iff]
      constructor
      · rintro ⟨w, ws, rfl, h, hs⟩
        exact ⟨w, ws, h, ih.mp hs, rfl⟩
      · rintro ⟨w, ws, h, hs, rfl⟩
        exact ⟨w, ws, rfl, h, ih.mpr hs⟩

theorem sameMembers_iff {ms ns : Members S} :
    SameMembers ms ns ↔ List.Forall₂ (fun m n => m.1 = n.1 ∧ Same m.2 n.2) ms ns := by
  induction ms generalizing ns with
  | nil => rw [SameMembers, List.forall₂_nil_left_iff]
  | cons m ms ih =>
      obtain ⟨k, v⟩ := m
      rw [SameMembers, List.forall₂_cons_left_iff]
      constructor
      · rintro ⟨w, ns, rfl, h, hs⟩
        exact ⟨(k, w), ns, ⟨rfl, h⟩, ih.mp hs, rfl⟩
      · rintro ⟨⟨k', w⟩, ns, ⟨hk, h⟩, hs, rfl⟩
        obtain rfl : k = k' := hk
        exact ⟨w, ns, rfl, h, ih.mpr hs⟩

/-! ## Looking a member up -/

theorem lookup_eq_some {V : Type} [BEq S] [LawfulBEq S] {ms : List (S × V)}
    (h : (ms.map Prod.fst).Nodup) {k : S} {v : V} : ms.lookup k = some v ↔ (k, v) ∈ ms := by
  induction ms with
  | nil => simp
  | cons m ms ih =>
      rw [List.map_cons, List.nodup_cons] at h
      rw [List.lookup_cons, List.mem_cons]
      by_cases hk : k = m.1
      · subst hk
        have hnot : ∀ v, (m.1, v) ∉ ms := fun v hv =>
          h.1 (List.mem_map.mpr ⟨(m.1, v), hv, rfl⟩)
        simp [hnot, Prod.ext_iff, eq_comm]
      · have hbeq : (k == m.1) = false := beq_eq_false_iff_ne.mpr hk
        have hne : (k, v) ≠ m := fun heq => hk (congrArg Prod.fst heq)
        rw [hbeq]
        simp [hne, ih h.2]

theorem lookup_eq_none {V : Type} [BEq S] [LawfulBEq S] {ms : List (S × V)} {k : S} :
    ms.lookup k = none ↔ k ∉ ms.map Prod.fst := by
  induction ms with
  | nil => simp
  | cons m ms ih =>
      rw [List.lookup_cons, List.map_cons, List.mem_cons, not_or]
      by_cases hk : k = m.1
      · simp [hk]
      · have hbeq : (k == m.1) = false := beq_eq_false_iff_ne.mpr hk
        rw [hbeq]
        simp [hk, ih]

/-- With distinct names the order of members does not matter. -/
theorem lookup_perm {V : Type} [BEq S] [LawfulBEq S] {ms ns : List (S × V)} (hperm : ms.Perm ns)
    (h : (ms.map Prod.fst).Nodup) (k : S) : ms.lookup k = ns.lookup k := by
  have h' : (ns.map Prod.fst).Nodup := (hperm.map Prod.fst).nodup_iff.mp h
  cases hk : ns.lookup k with
  | none =>
      rw [lookup_eq_none] at hk ⊢
      exact fun hm => hk ((hperm.map Prod.fst).mem_iff.mp hm)
  | some v =>
      rw [lookup_eq_some h'] at hk
      exact (lookup_eq_some h).mpr (hperm.mem_iff.mpr hk)

/-! ## Induction -/

/-- Induction over a value with the hypothesis for every element and member. -/
theorem induct {motive : Json S → Prop} (hnull : motive null) (hbool : ∀ b, motive (bool b))
    (hnum : ∀ x, motive (num x)) (hstr : ∀ s, motive (str s))
    (harr : ∀ vs, (∀ v ∈ vs, motive v) → motive (arr vs))
    (hobj : ∀ ms : Members S, (∀ m ∈ ms, motive m.2) → motive (obj ms)) (v : Json S) :
    motive v := by
  refine @Json.rec S motive (fun vs => ∀ v ∈ vs, motive v) (fun ms => ∀ m ∈ ms, motive m.2)
    (fun m => motive m.2) hnull hbool hnum hstr harr hobj ?_ ?_ ?_ ?_ ?_ v
  · intro v hv
    cases hv
  · intro v vs ih ihs w hw
    rcases List.mem_cons.mp hw with rfl | hw
    · exact ih
    · exact ihs w hw
  · intro m hm
    cases hm
  · intro m ms ih ihs w hw
    rcases List.mem_cons.mp hw with rfl | hw
    · exact ih
    · exact ihs w hw
  · intro _ _ ih
    exact ih

end Json

end SwarmPointer
