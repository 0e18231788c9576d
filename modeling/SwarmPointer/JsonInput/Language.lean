import SwarmPointer.Json
import SwarmPointer.Lib.JsonGrammar

/-!
# JSON input — the §6 language

What a derivation denotes and which derivations §6 admits. `value` is the
recursive semantics; `Admissible` lists the restrictions beyond RFC 8259.
`read` is their combination as one function, the form the proofs about the
parser use (`read_eq_some`).

The host literals of a phrase (`NaN` and the infinities that the host's codec
writes) have no value and are never admissible. Names are compared after their
escapes are decoded, so `"a"` and `"\u0061"` are one name. `numberValue` is made
irreducible: no proof about the parser looks into the rounding.
-/

namespace SwarmPointer.JsonInput

open JsonGrammar

/-- U+FDD0 to U+FDEF and the last two code points of every plane. -/
def Noncharacter (c : Char) : Prop :=
  0xFDD0 ≤ c.toNat ∧ c.toNat ≤ 0xFDEF ∨ c.toNat % 0x10000 = 0xFFFE ∨ c.toNat % 0x10000 = 0xFFFF

instance (c : Char) : Decidable (Noncharacter c) := by
  unfold Noncharacter
  infer_instance

variable {L : Type}

/-! ## Semantics -/

/-- The double a number token names, correctly rounded. -/
def numberValue (x : Number) : Option Binary64 := x.decimal.toBinary64 x.neg

theorem numberValue_eq (x : Number) : numberValue x = x.decimal.toBinary64 x.neg := rfl

attribute [irreducible] numberValue

mutual

/-- The value of a derivation; none when a surrogate escape is unpaired, a
number overflows or a host literal occurs. -/
def value : Phrase L → Option (Json Str)
  | .null => some .null
  | .bool b => some (.bool b)
  | .num x => (numberValue x).map .num
  | .str s => (decode s).map .str
  | .ext _ => none
  | .arrEmpty _ => some (.arr [])
  | .arr es => (elements es).map .arr
  | .objEmpty _ => some (.obj [])
  | .obj ms => (members ms).map .obj

def elements : Elements L → Option (List (Json Str))
  | .one _ t _ => (value t).map fun v => [v]
  | .cons _ t _ es => (value t).bind fun v => (elements es).map (v :: ·)

def members : Members L → Option (Json.Members Str)
  | .one _ k _ _ t _ => (decode k).bind fun k => (value t).map fun v => [(k, v)]
  | .cons _ k _ _ t _ ms =>
      (decode k).bind fun k => (value t).bind fun v => (members ms).map ((k, v) :: ·)

end

/-! ## Restrictions -/

/-- Every surrogate escape is paired and no character is a noncharacter. -/
def StringOk (s : List Piece) : Prop := ∃ cs, decode s = some cs ∧ ∀ c ∈ cs, ¬ Noncharacter c

/-- Finite as a double, and not negative zero. -/
def NumberOk (x : Number) : Prop := ∃ y, numberValue x = some y ∧ (x.neg = true → y.mag ≠ 0)

/-- The decoded names of an object. -/
def names : Members L → List (Option Str)
  | .one _ k _ _ _ _ => [decode k]
  | .cons _ k _ _ _ _ ms => decode k :: names ms

mutual

/-- The restrictions of §6 at every depth. -/
def Admissible : Phrase L → Prop
  | .null => True
  | .bool _ => True
  | .num x => NumberOk x
  | .str s => StringOk s
  | .ext _ => False
  | .arrEmpty _ => True
  | .arr es => AdmissibleElements es
  | .objEmpty _ => True
  | .obj ms => (names ms).Nodup ∧ AdmissibleMembers ms

def AdmissibleElements : Elements L → Prop
  | .one _ t _ => Admissible t
  | .cons _ t _ es => Admissible t ∧ AdmissibleElements es

def AdmissibleMembers : Members L → Prop
  | .one _ k _ _ t _ => StringOk k ∧ Admissible t
  | .cons _ k _ _ t _ ms => StringOk k ∧ Admissible t ∧ AdmissibleMembers ms

end

/-! ## Both at once -/

def readString (s : List Piece) : Option Str :=
  (decode s).filter fun cs => cs.all fun c => ¬ Noncharacter c

def readNumber (x : Number) : Option Binary64 :=
  (numberValue x).filter fun y => x.neg = true → y.mag ≠ 0

mutual

/-- The value of an admissible derivation, none on any other. -/
def read : Phrase L → Option (Json Str)
  | .null => some .null
  | .bool b => some (.bool b)
  | .num x => (readNumber x).map .num
  | .str s => (readString s).map .str
  | .ext _ => none
  | .arrEmpty _ => some (.arr [])
  | .arr es => (readElements es).map .arr
  | .objEmpty _ => some (.obj [])
  | .obj ms => ((readMembers ms).filter fun ms => (ms.map Prod.fst).Nodup).map .obj

def readElements : Elements L → Option (List (Json Str))
  | .one _ t _ => (read t).map fun v => [v]
  | .cons _ t _ es => (read t).bind fun v => (readElements es).map (v :: ·)

def readMembers : Members L → Option (Json.Members Str)
  | .one _ k _ _ t _ => (readString k).bind fun k => (read t).map fun v => [(k, v)]
  | .cons _ k _ _ t _ ms =>
      (readString k).bind fun k => (read t).bind fun v => (readMembers ms).map ((k, v) :: ·)

end

theorem readString_eq_some {s : List Piece} {cs : Str} :
    readString s = some cs ↔ StringOk s ∧ decode s = some cs := by
  rw [readString, Option.filter_eq_some_iff, StringOk]
  constructor
  · rintro ⟨h, hcs⟩
    exact ⟨⟨cs, h, by simpa using hcs⟩, h⟩
  · rintro ⟨⟨cs', h', hcs⟩, h⟩
    obtain rfl := Option.some.inj (h'.symm.trans h)
    exact ⟨h, by simpa using hcs⟩

theorem readNumber_eq_some {x : Number} {y : Binary64} :
    readNumber x = some y ↔ NumberOk x ∧ numberValue x = some y := by
  rw [readNumber, Option.filter_eq_some_iff, NumberOk]
  constructor
  · rintro ⟨h, hy⟩
    exact ⟨⟨y, h, of_decide_eq_true hy⟩, h⟩
  · rintro ⟨⟨y', h', hy⟩, h⟩
    obtain rfl := Option.some.inj (h'.symm.trans h)
    exact ⟨h, decide_eq_true hy⟩

theorem numberValue_neg {x : Number} {y : Binary64} (h : numberValue x = some y) :
    y.neg = x.neg := by
  rw [numberValue_eq, Decimal.toBinary64, Binary64.ofQuotient_eq_some] at h
  exact h.1

/-- The decoded names of the members read. -/
theorem names_eq {ms : Members L} {vs : Json.Members Str} (h : members ms = some vs) :
    names ms = (vs.map Prod.fst).map some := by
  match ms with
  | .one _ k _ _ t _ =>
      simp only [members, Option.bind_eq_some_iff, Option.map_eq_some_iff] at h
      obtain ⟨k', hk, v, -, rfl⟩ := h
      rw [names, hk]
      rfl
  | .cons _ k _ _ t _ ms =>
      simp only [members, Option.bind_eq_some_iff, Option.map_eq_some_iff] at h
      obtain ⟨k', hk, v, -, vs', hvs, rfl⟩ := h
      rw [names, hk, names_eq hvs]
      rfl

mutual

/-- **`read` is `value` on the admissible derivations.** -/
theorem read_eq_some {t : Phrase L} {v : Json Str} :
    read t = some v ↔ Admissible t ∧ value t = some v := by
  match t with
  | .null => simp [read, Admissible, value]
  | .bool b => simp [read, Admissible, value]
  | .num x =>
      simp only [read, Admissible, value, Option.map_eq_some_iff, readNumber_eq_some]
      constructor
      · rintro ⟨y, ⟨hx, hy⟩, rfl⟩
        exact ⟨hx, y, hy, rfl⟩
      · rintro ⟨hx, y, hy, rfl⟩
        exact ⟨y, ⟨hx, hy⟩, rfl⟩
  | .str s =>
      simp only [read, Admissible, value, Option.map_eq_some_iff, readString_eq_some]
      constructor
      · rintro ⟨y, ⟨hx, hy⟩, rfl⟩
        exact ⟨hx, y, hy, rfl⟩
      · rintro ⟨hx, y, hy, rfl⟩
        exact ⟨y, ⟨hx, hy⟩, rfl⟩
  | .ext _ => simp [read, Admissible]
  | .arrEmpty _ => simp [read, Admissible, value]
  | .arr es =>
      simp only [read, Admissible, value, Option.map_eq_some_iff, @readElements_eq_some es]
      constructor
      · rintro ⟨vs, ⟨he, hvs⟩, rfl⟩
        exact ⟨he, vs, hvs, rfl⟩
      · rintro ⟨he, vs, hvs, rfl⟩
        exact ⟨vs, ⟨he, hvs⟩, rfl⟩
  | .objEmpty _ => simp [read, Admissible, value]
  | .obj ms =>
      simp only [read, Admissible, value, Option.map_eq_some_iff, Option.filter_eq_some_iff,
        @readMembers_eq_some ms, decide_eq_true_eq]
      constructor
      · rintro ⟨vs, ⟨⟨hm, hvs⟩, hnd⟩, rfl⟩
        rw [names_eq hvs]
        exact ⟨⟨hnd.map (Option.some_injective _), hm⟩, vs, hvs, rfl⟩
      · rintro ⟨⟨hnd, hm⟩, vs, hvs, rfl⟩
        rw [names_eq hvs] at hnd
        exact ⟨vs, ⟨⟨hm, hvs⟩, hnd.of_map some⟩, rfl⟩

theorem readElements_eq_some {es : Elements L} {vs : List (Json Str)} :
    readElements es = some vs ↔ AdmissibleElements es ∧ elements es = some vs := by
  match es with
  | .one _ t _ =>
      simp only [readElements, AdmissibleElements, elements, Option.map_eq_some_iff,
        read_eq_some (t := t)]
      constructor
      · rintro ⟨v, ⟨ht, hv⟩, rfl⟩
        exact ⟨ht, v, hv, rfl⟩
      · rintro ⟨ht, v, hv, rfl⟩
        exact ⟨v, ⟨ht, hv⟩, rfl⟩
  | .cons _ t _ es =>
      simp only [readElements, AdmissibleElements, elements, Option.map_eq_some_iff,
        Option.bind_eq_some_iff, read_eq_some (t := t), @readElements_eq_some es]
      constructor
      · rintro ⟨v, ⟨ht, hv⟩, vs, ⟨he, hvs⟩, rfl⟩
        exact ⟨⟨ht, he⟩, v, hv, vs, hvs, rfl⟩
      · rintro ⟨⟨ht, he⟩, v, hv, vs, hvs, rfl⟩
        exact ⟨v, ⟨ht, hv⟩, vs, ⟨he, hvs⟩, rfl⟩

theorem readMembers_eq_some {ms : Members L} {vs : Json.Members Str} :
    readMembers ms = some vs ↔ AdmissibleMembers ms ∧ members ms = some vs := by
  match ms with
  | .one _ k _ _ t _ =>
      simp only [readMembers, AdmissibleMembers, members, Option.map_eq_some_iff,
        Option.bind_eq_some_iff, read_eq_some (t := t), readString_eq_some]
      constructor
      · rintro ⟨k, ⟨hk, hk'⟩, v, ⟨ht, hv⟩, rfl⟩
        exact ⟨⟨hk, ht⟩, k, hk', v, hv, rfl⟩
      · rintro ⟨⟨hk, ht⟩, k, hk', v, hv, rfl⟩
        exact ⟨k, ⟨hk, hk'⟩, v, ⟨ht, hv⟩, rfl⟩
  | .cons _ k _ _ t _ ms =>
      simp only [readMembers, AdmissibleMembers, members, Option.map_eq_some_iff,
        Option.bind_eq_some_iff, read_eq_some (t := t), readString_eq_some,
        @readMembers_eq_some ms]
      constructor
      · rintro ⟨k, ⟨hk, hk'⟩, v, ⟨ht, hv⟩, vs, ⟨hm, hvs⟩, rfl⟩
        exact ⟨⟨hk, ht, hm⟩, k, hk', v, hv, vs, hvs, rfl⟩
      · rintro ⟨⟨hk, ht, hm⟩, k, hk', v, hv, vs, hvs, rfl⟩
        exact ⟨k, ⟨hk, hk'⟩, v, ⟨ht, hv⟩, vs, ⟨hm, hvs⟩, rfl⟩

end

/-! ## Other literals -/

section
variable {L' : Type} (f : L → L')

mutual

/-- Which literals a host has makes no difference to §6. -/
theorem read_map (t : Phrase L) : read (t.map f) = read t := by
  match t with
  | .null => rfl
  | .bool b => rfl
  | .num x => rfl
  | .str s => rfl
  | .ext l => rfl
  | .arrEmpty w => rfl
  | .arr es => rw [Phrase.map, read, read, readElements_map es]
  | .objEmpty w => rfl
  | .obj ms => rw [Phrase.map, read, read, readMembers_map ms]

theorem readElements_map (es : Elements L) : readElements (es.map f) = readElements es := by
  match es with
  | .one w t w' => rw [Elements.map, readElements, readElements, read_map t]
  | .cons w t w' es =>
      rw [Elements.map, readElements, readElements, read_map t, readElements_map es]

theorem readMembers_map (ms : Members L) : readMembers (ms.map f) = readMembers ms := by
  match ms with
  | .one w k w₁ w₂ t w' => rw [Members.map, readMembers, readMembers, read_map t]
  | .cons w k w₁ w₂ t w' ms =>
      rw [Members.map, readMembers, readMembers, read_map t, readMembers_map ms]

end

end

end SwarmPointer.JsonInput
