import SwarmPointer.Go.Verify
import SwarmPointer.JsonInput.GoParser
import SwarmPointer.Protocol.Validate

/-!
# Protocol — `ident.go` decides the schema

Go separates the shape of a body, its identifiers and its maxima; together
the passes accept exactly the bodies of the schema, and none of them reads
through a nil pointer.

The passes of the source overlap: a member is looked up again in a later pass
that relies on what an earlier one has established, with a pointer that would
be nil otherwise. So the lemma about a later pass has the result of the earlier
one as its hypothesis, and the composition is where "no panic" is proved.
-/

namespace SwarmPointer.Protocol

open Except Go Go.Ident JsonInput Unicode
open Json (Members)

/-! ## Reading members -/

/-- The text of an ASCII name. -/
theorem lookup_goMembers {ms : Members Str} {k : Str} (hk : ∀ c ∈ k, c.toNat < 0x80) :
    (goMembers ms).lookup (lit k) = (ms.lookup k).map tree := by
  rw [Jcs.lit_eq_utf8 hk]
  induction ms with
  | nil => rfl
  | cons m ms ih =>
      have hcons : goMembers (m :: ms) = (utf8 m.1, tree m.2) :: goMembers ms := rfl
      rw [hcons, List.lookup_cons, List.lookup_cons]
      by_cases hkm : k = m.1
      · rw [hkm, beq_self_eq_true, beq_self_eq_true]
        rfl
      · have hne : utf8 k ≠ utf8 m.1 := fun h => hkm (utf8_inj h)
        rw [beq_eq_false_iff_ne.mpr hkm, beq_eq_false_iff_ne.mpr hne]
        exact ih

theorem get_members {ms : Members Str} {k : Str} (hk : ∀ c ∈ k, c.toNat < 0x80) :
    get (some (.obj (goMembers ms))) k = (ms.lookup k).map tree := lookup_goMembers hk

theorem has_members {ms : Members Str} {k : Str} (hk : ∀ c ∈ k, c.toNat < 0x80) :
    has (some (.obj (goMembers ms))) k = true ↔ ∃ v, ms.lookup k = some v := by
  rw [has, get_members hk, Option.isSome_map, Option.isSome_iff_exists]

theorem not_has_members {ms : Members Str} {k : Str} (hk : ∀ c ∈ k, c.toNat < 0x80) :
    has (some (.obj (goMembers ms))) k = false ↔ Absent ms k := by
  rw [has, get_members hk, Option.isSome_map, Option.isSome_eq_false_iff,
    Option.isNone_iff_eq_none, Absent]

theorem isString_tree {v : Json Str} : isString (tree v) = true ↔ ∃ s, v = .str s := by
  cases v <;> simp [tree, Json.map, isString]

theorem isNumber_tree {v : Json Str} : isNumber (tree v) = true ↔ ∃ x, v = .num x := by
  cases v <;> simp [tree, Json.map, isNumber]

theorem isObject_tree {v : Json Str} : isObject (tree v) = true ↔ ∃ ms, v = .obj ms := by
  cases v <;> simp [tree, Json.map, isObject]

theorem arr_tree (vs : List (Json Str)) : arr (tree (.arr vs)) = vs.map tree := by
  rw [tree_arr, arr]

/-! ## The grammar -/

theorem isLowerHex_class : AsciiClass
    (fun c : UInt8 => (0x30 ≤ c && c ≤ 0x39) || (0x61 ≤ c && c ≤ 0x66))
    Python.Protocol.isLowerHex where
  ascii := by decide
  byte b hb := by
    have hlt : ∀ n : UInt8, n.toNat < 0x80 → ¬ b ≤ n := by
      intro n hn hle
      rw [UInt8.le_iff_toNat_le] at hle
      omega
    simp only [decide_eq_false (hlt 0x39 (by decide)), decide_eq_false (hlt 0x66 (by decide)),
      Bool.and_false, Bool.or_false]
  char c hc := by
    cases h : Python.Protocol.isLowerHex c with
    | false => rfl
    | true =>
        have := lowerHex_le h
        omega

theorem isLowerHex_utf8 (s : Str) : isLowerHex (utf8 s) = s.all Python.Protocol.isLowerHex :=
  isLowerHex_class.all s

theorem isTagged_utf8 {tag : Str} (htag : ∀ c ∈ tag, c.toNat < 0x80) (s : Str) :
    isTagged (lit tag) (utf8 s) = true ↔ Python.Protocol.taggedHex tag s = true := by
  have hlit : lit tag = utf8 tag := Jcs.lit_eq_utf8 htag
  have hlen : (lit tag).length = tag.length := List.length_map ..
  simp only [isTagged, Python.Protocol.taggedHex, Bool.and_eq_true, decide_eq_true_eq, hlen]
  constructor
  · rintro ⟨⟨hlength, htake⟩, hhex⟩
    have hsplit : utf8 s = utf8 tag ++ (utf8 s).drop tag.length := by
      conv_lhs => rw [← List.take_append_drop tag.length (utf8 s), htake, hlit]
    obtain ⟨d, rfl, hd⟩ := ascii_prefix htag hsplit
    rw [← hd, isLowerHex_utf8] at hhex
    have hdlen := isLowerHex_class.length hhex
    rw [utf8_append, List.length_append, ← hlit, hlen, hdlen] at hlength
    rw [List.take_left, List.drop_left]
    exact ⟨⟨rfl, by omega⟩, hhex⟩
  · rintro ⟨⟨htake, hlength⟩, hhex⟩
    have hsplit : s = tag ++ s.drop tag.length := by
      conv_lhs => rw [← List.take_append_drop tag.length s, htake]
    generalize s.drop tag.length = d at hsplit hlength hhex
    subst hsplit
    have hdlen := isLowerHex_class.length hhex
    rw [utf8_append, ← hlit, ← hlen, List.take_left, List.drop_left, List.length_append,
      isLowerHex_utf8]
    exact ⟨⟨by omega, rfl⟩, hhex⟩

theorem isTagged_nil (tag : Bytes) : isTagged tag [] = false := by
  simp [isTagged]

theorem isTagged_iff {tag : Str} (htag : ∀ c ∈ tag, c.toNat < 0x80) (v : Json Str) :
    isTagged (lit tag) (str (tree v)) = true ↔ ∃ bs, Tagged tag v bs := by
  cases v with
  | str s =>
      have hstr : str (tree (.str s)) = utf8 s := rfl
      rw [hstr, isTagged_utf8 htag, taggedHex_iff]
      simp only [Tagged, Json.str.injEq]
  | null | bool | num | arr | obj =>
      have hstr : ∀ {v}, (∀ s, v ≠ Json.str s) → str v = [] := by
        intro v hv
        cases v with
        | str s => exact absurd rfl (hv s)
        | _ => rfl
      rw [hstr fun s => by simp [tree, Json.map], isTagged_nil]
      simp [Tagged]

/-- **`isSHA256ID` and the identifier grammar.** -/
theorem isSHA256ID_iff (v : Json Str) : isSHA256ID (str (tree v)) = true ↔ IsSha256Id v :=
  isTagged_iff (by decide) v

theorem isActorID_iff (v : Json Str) :
    isActorID (str (tree v)) = true ↔ ∃ key, Tagged "ed25519:".toList v key :=
  isTagged_iff (by decide) v

theorem isSigHex_iff (s : Str) :
    isSigHex (utf8 s) = true ↔ ∃ bs : Bytes, bs.length = 64 ∧ s = hex bs := by
  rw [← SIG_iff, Python.Protocol.SIG, isSigHex, isLowerHex_utf8, Bool.and_eq_true,
    Bool.and_eq_true, decide_eq_true_eq, decide_eq_true_eq]
  refine and_congr_left fun hhex => ?_
  rw [isLowerHex_class.length hhex]

/-! ## The nonce -/

theorem isDigits_utf8 (s : Str) : isDigits (utf8 s) = s.all Python.isDigit :=
  isDigit_class.all s

/-- A numeral is below the power of ten with one digit more. -/
theorem ofDigitChars_lt {s : Str} (hs : ∀ c ∈ s, Python.isDigit c = true) :
    Nat.ofDigitChars 10 s 0 < 10 ^ s.length := by
  induction s with
  | nil => exact Nat.one_pos
  | cons c s ih =>
      have hc : Python.isDigit c = true := hs c (List.mem_cons_self ..)
      simp only [Python.isDigit, Char.isDigit, ge_iff_le, Bool.and_eq_true,
        decide_eq_true_eq] at hc
      have hhi : c.toNat ≤ 57 := hc.2
      have hzero : '0'.toNat = 48 := rfl
      have hlt := ih fun d hd => hs d (List.mem_cons_of_mem _ hd)
      have hdigit : 10 ^ s.length * (c.toNat - 48) ≤ 10 ^ s.length * 9 :=
        Nat.mul_le_mul_left _ (by omega)
      rw [Nat.ofDigitChars_cons, Nat.ofDigitChars_eq_ofDigitChars_zero, List.length_cons,
        Nat.pow_succ, hzero, Nat.mul_zero, Nat.zero_add]
      omega

/-- The first digit decides unless it is the same. -/
theorem digit_lt_iff {a b x y p : Nat} (hx : x < p) (hy : y < p) :
    48 + a < 48 + b ∨ 48 + a = 48 + b ∧ x < y ↔ p * a + x < p * b + y := by
  rcases Nat.lt_trichotomy a b with h | rfl | h
  · have hle := Nat.mul_le_mul_left p (Nat.succ_le_of_lt h)
    rw [Nat.mul_succ] at hle
    exact ⟨fun _ => by omega, fun _ => .inl (by omega)⟩
  · constructor
    · rintro (h | h)
      · omega
      · omega
    · exact fun h => .inr ⟨rfl, by omega⟩
  · have hle := Nat.mul_le_mul_left p (Nat.succ_le_of_lt h)
    rw [Nat.mul_succ] at hle
    constructor
    · rintro (h | h) <;> omega
    · intro h
      omega

/-- **Numerals of one length are ordered as texts the way they are as numbers.** -/
theorem lit_lt_iff {s t : Str} (hs : ∀ c ∈ s, Python.isDigit c = true)
    (ht : ∀ c ∈ t, Python.isDigit c = true) (hlen : s.length = t.length) :
    lit s < lit t ↔ Nat.ofDigitChars 10 s 0 < Nat.ofDigitChars 10 t 0 := by
  induction s generalizing t with
  | nil =>
      obtain rfl := List.eq_nil_of_length_eq_zero hlen.symm
      simp
  | cons c s ih =>
      cases t with
      | nil => cases hlen
      | cons d t =>
          have hc := hs c (List.mem_cons_self ..)
          have hd := ht d (List.mem_cons_self ..)
          have hs' : ∀ c ∈ s, Python.isDigit c = true := fun c hc => hs c (List.mem_cons_of_mem _ hc)
          have ht' : ∀ c ∈ t, Python.isDigit c = true := fun c hc => ht c (List.mem_cons_of_mem _ hc)
          have hlen' : s.length = t.length := Nat.succ.inj hlen
          have hslt := ofDigitChars_lt hs'
          have htlt := ofDigitChars_lt ht'
          simp only [Python.isDigit, Char.isDigit, ge_iff_le, Bool.and_eq_true,
            decide_eq_true_eq] at hc hd
          have hclo : 48 ≤ c.toNat := hc.1
          have hchi : c.toNat ≤ 57 := hc.2
          have hdlo : 48 ≤ d.toNat := hd.1
          have hdhi : d.toNat ≤ 57 := hd.2
          have hcsize : c.toNat < UInt8.size := Nat.lt_of_le_of_lt hchi (by decide)
          have hdsize : d.toNat < UInt8.size := Nat.lt_of_le_of_lt hdhi (by decide)
          have hzero : '0'.toNat = 48 := rfl
          have hlit : ∀ (x : Char) (xs : Str), lit (x :: xs) = UInt8.ofNat x.toNat :: lit xs :=
            fun _ _ => rfl
          obtain ⟨a, ha⟩ : ∃ a, c.toNat = 48 + a := ⟨c.toNat - 48, by omega⟩
          obtain ⟨b, hb⟩ : ∃ b, d.toNat = 48 + b := ⟨d.toNat - 48, by omega⟩
          rw [hlen'] at hslt
          have hval : ∀ (x : Str) (n : Nat), Nat.ofDigitChars 10 x (10 * 0 + n) =
              10 ^ x.length * n + Nat.ofDigitChars 10 x 0 := by
            intro x n
            rw [Nat.mul_zero, Nat.zero_add]
            exact Nat.ofDigitChars_eq_ofDigitChars_zero
          rw [hlit, hlit, List.cons_lt_cons_iff, ih hs' ht' hlen', Nat.ofDigitChars_cons,
            Nat.ofDigitChars_cons, hzero, UInt8.lt_iff_toNat_lt, ← UInt8.toNat_inj,
            UInt8.toNat_ofNat_of_lt' hcsize, UInt8.toNat_ofNat_of_lt' hdsize, ha, hb,
            Nat.add_sub_cancel_left, Nat.add_sub_cancel_left, hval, hval, hlen']
          exact digit_lt_iff hslt htlt

theorem digits_ascii_text {s : Str} (hs : ∀ c ∈ s, Python.isDigit c = true) :
    ∀ c ∈ s, c.toNat < 0x80 := fun c hc => isDigit_ascii (hs c hc)

/-- A numeral up to `2^64 - 1`, compared as text. -/
theorem maxNonce_iff {n : Nat} (hlen : (Nat.toDigits 10 n).length = 20) :
    lit (Nat.toDigits 10 n) ≤ lit "18446744073709551615".toList ↔ n ≤ 2 ^ 64 - 1 := by
  have hdigits : ∀ n, ∀ c ∈ Nat.toDigits 10 n, Python.isDigit c = true := fun n c hc =>
    Nat.isDigit_of_mem_toDigits (by decide) (by decide) hc
  have hmax : "18446744073709551615".toList = Nat.toDigits 10 (2 ^ 64 - 1) := by decide
  have hmaxlen : (Nat.toDigits 10 (2 ^ 64 - 1)).length = 20 := by decide
  rw [hmax, ← List.not_lt, lit_lt_iff (hdigits _) (hdigits n) (hmaxlen.trans hlen.symm),
    Nat.ofDigitChars_ten_toDigits, Nat.ofDigitChars_ten_toDigits, Nat.not_lt]

theorem isNonce_cons {b : UInt8} {bs : Bytes} (h : b :: bs ≠ lit ['0']) :
    isNonce (b :: bs) = true ↔ (b :: bs).length ≤ 20 ∧ (0x31 ≤ b ∧ b ≤ 0x39) ∧
      isDigits (b :: bs) = true ∧
      ((b :: bs).length < 20 ∨ b :: bs ≤ lit "18446744073709551615".toList) := by
  rw [isNonce, if_neg h]
  simp only [gt_iff_lt, Bool.or_eq_true, decide_eq_true_eq]
  by_cases h1 : 20 < (b :: bs).length
  · rw [if_pos h1]
    simp only [Bool.false_eq_true, false_iff]
    exact fun hn => absurd hn.1 (Nat.not_le.mpr h1)
  rw [if_neg h1]
  by_cases h2 : b < 0x31 ∨ 0x39 < b
  · rw [if_pos h2]
    simp only [Bool.false_eq_true, false_iff]
    rintro ⟨-, ⟨hlo, hhi⟩, -⟩
    rcases h2 with h2 | h2
    · exact absurd hlo (UInt8.not_le.mpr h2)
    · exact absurd hhi (UInt8.not_le.mpr h2)
  rw [if_neg h2]
  simp only [not_or, UInt8.not_lt] at h2
  by_cases h3 : isDigits (b :: bs) = true
  · rw [h3]
    simp only [Nat.not_lt.mp h1, h2, true_and, Bool.not_true, Bool.false_eq_true, if_false]
    by_cases h4 : (b :: bs).length < 20
    · rw [if_pos h4]
      exact ⟨fun _ => .inl h4, fun _ => rfl⟩
    · rw [if_neg h4, decide_eq_true_eq]
      exact ⟨.inr, fun h => h.resolve_left h4⟩
  · rw [Bool.not_eq_true] at h3
    simp [h3]

/-- The first digit of a numeral that is not zero. -/
theorem lead_digit {c : Char} (h : Python.isDigit c = true) (h0 : c ≠ '0') :
    0x31 ≤ lead c ∧ lead c ≤ 0x39 := by
  have hascii := isDigit_ascii h
  simp only [Python.isDigit, Char.isDigit, ge_iff_le, Bool.and_eq_true, decide_eq_true_eq] at h
  have hlo : 48 ≤ c.toNat := h.1
  have hhi : c.toNat ≤ 57 := h.2
  have hne : c.toNat ≠ 48 := fun heq => h0 (Char.toNat_inj.mp heq)
  have hsize : c.toNat < UInt8.size := Nat.lt_of_le_of_lt hhi (by decide)
  have hlo' : (0x31 : UInt8).toNat = 49 := rfl
  have hhi' : (0x39 : UInt8).toNat = 57 := rfl
  rw [lead_ascii hascii, UInt8.le_iff_toNat_le, UInt8.le_iff_toNat_le,
    UInt8.toNat_ofNat_of_lt' hsize, hlo', hhi']
  omega

/-- **`isNonce` and the nonce grammar.** -/
theorem isNonce_utf8 (s : Str) :
    isNonce (utf8 s) = true ↔ ∃ n ≤ 2 ^ 64 - 1, s = Nat.toDigits 10 n := by
  have hzero : lit ['0'] = utf8 ['0'] := rfl
  by_cases h0 : s = ['0']
  · subst h0
    exact ⟨fun _ => ⟨0, Nat.zero_le _, rfl⟩, fun _ => rfl⟩
  cases s with
  | nil =>
      refine ⟨fun h => absurd h (by decide), ?_⟩
      rintro ⟨n, -, hn⟩
      exact absurd hn.symm Nat.toDigits_ne_nil
  | cons c s =>
      obtain ⟨bs, hbs⟩ := utf8_cons_lead c s
      have hne : utf8 (c :: s) ≠ lit ['0'] := fun h => h0 (utf8_inj (h.trans hzero))
      have hlit : (∀ d ∈ c :: s, Python.isDigit d = true) → lit (c :: s) = utf8 (c :: s) :=
        fun h => Jcs.lit_eq_utf8 (digits_ascii_text h)
      have hlength : (∀ d ∈ c :: s, Python.isDigit d = true) →
          (utf8 (c :: s)).length = (c :: s).length :=
        fun h => isDigit_class.length (List.all_eq_true.mpr h)
      have hcons := isNonce_cons (hbs ▸ hne)
      rw [← hbs] at hcons
      rw [hcons, isDigits_utf8]
      constructor
      · rintro ⟨hlen, ⟨hlo, -⟩, hall, hmax⟩
        have hdigits := List.all_eq_true.mp hall
        have hhead : (c :: s).head? ≠ some '0' := by
          intro h
          rw [Option.some.inj h] at hlo
          revert hlo
          decide
        obtain ⟨hs, -⟩ := toDigits_ofDigitChars hdigits (List.cons_ne_nil c s) hhead
        rw [hlength hdigits, ← hlit hdigits, ← hs] at hmax
        refine ⟨_, ?_, hs.symm⟩
        rw [hlength hdigits, ← hs] at hlen
        -- fewer than twenty digits are below the maximum; twenty are compared as text
        rcases hmax with hmax | hmax
        · have hlt := (Nat.length_toDigits_le_iff (b := 10) (k := 19) (by decide) (by decide)).mp
            (Nat.le_of_lt_succ hmax)
          omega
        · by_cases hlen' : (Nat.toDigits 10 (Nat.ofDigitChars 10 (c :: s) 0)).length = 20
          · exact (maxNonce_iff hlen').mp hmax
          · have hlt := (Nat.length_toDigits_le_iff (b := 10) (k := 19) (by decide) (by decide)).mp
              (by omega : (Nat.toDigits 10 (Nat.ofDigitChars 10 (c :: s) 0)).length ≤ 19)
            omega
      · rintro ⟨n, hn, hs⟩
        have hdigits : ∀ d ∈ c :: s, Python.isDigit d = true := by
          intro d hd
          rw [hs] at hd
          exact Nat.isDigit_of_mem_toDigits (by decide) (by decide) hd
        have hlen : (Nat.toDigits 10 n).length ≤ 20 :=
          (Nat.length_toDigits_le_iff (by decide) (by decide)).mpr (by omega)
        have hpos : 0 < n := by
          rcases Nat.eq_zero_or_pos n with rfl | hpos
          · exact absurd hs h0
          · exact hpos
        have hhead := toDigits_head hpos
        rw [← hs] at hhead
        refine ⟨?_, lead_digit (hdigits c (List.mem_cons_self ..)) fun h => hhead (by rw [h]; rfl),
          List.all_eq_true.mpr hdigits, ?_⟩
        · rw [hlength hdigits, hs]
          exact hlen
        · rw [hlength hdigits, ← hlit hdigits, hs]
          by_cases hlen' : (Nat.toDigits 10 n).length = 20
          · exact .inr ((maxNonce_iff hlen').mpr hn)
          · exact .inl (by omega)

theorem isNonce_iff (v : Json Str) : isNonce (str (tree v)) = true ↔ IsNonce v := by
  cases v with
  | str s =>
      have hstr : str (tree (.str s)) = utf8 s := rfl
      rw [hstr, isNonce_utf8]
      simp only [IsNonce, Json.str.injEq]
  | null | bool | num | arr | obj =>
      simp [str, tree, Json.map, isNonce, IsNonce, lit]

/-! ## The passes -/

/-- An error value and not a panic. -/
def Returned {E : Type} (e : Stop E) : Prop := ∃ x, e = .err x

theorem raises_err {E : Type} {p : Prop} [Decidable p] {r : E} :
    Raises Returned (raiseIf p (Stop.err r)) :=
  .raiseIf fun _ => ⟨r, rfl⟩

theorem deref_eq_ok {E α : Type} {p : Option α} {a : α} :
    (deref p : Except (Stop E) α) = .ok a ↔ p = some a := by
  cases p <;> simp [deref]

theorem raises_deref {E α : Type} {p : Option α} {a : α} {P : Stop E → Prop} (h : p = some a) :
    Raises P (deref p) := by
  rw [h]
  exact .pure a

/-- `v.Get(k)` before the strings are encoded. -/
def member (v : Option (Json Str)) (k : Str) : Option (Json Str) :=
  match v with
  | some (.obj ms) => ms.lookup k
  | _ => none

theorem get_tree (v : Option (Json Str)) {k : Str} (hk : ∀ c ∈ k, c.toNat < 0x80) :
    get (v.map tree) k = (member v k).map tree := by
  cases v with
  | none => rfl
  | some v =>
      cases v with
      | obj ms =>
          rw [Option.map_some, tree_obj]
          exact get_members hk
      | _ => rfl

/-- An array of strings. -/
def AreStrings (v : Json Str) : Prop := ∃ vs, v = .arr vs ∧ ∀ w ∈ vs, ∃ s, w = .str s

/-- An array of identifiers, of any length. -/
def AreIds (v : Json Str) : Prop := ∃ vs, v = .arr vs ∧ ∀ w ∈ vs, IsSha256Id w

/-- The shape of a reference object. -/
def RefShape (v : Json Str) : Prop :=
  ∃ ms, v = .obj ms ∧ (∀ m ∈ ms, m.1 = "hash".toList ∨ m.1 = "locators".toList) ∧
    Has ms "hash".toList (fun h => ∃ s, h = .str s) ∧ Has ms "locators".toList AreStrings

theorem areStrings_tree {v : Json Str} :
    isArray (tree v) = true ∧ (arr (tree v)).all isString = true ↔ AreStrings v := by
  cases v with
  | arr vs =>
      rw [arr_tree, List.all_map, List.all_eq_true]
      have hkind : isArray (tree (.arr vs)) = true := rfl
      simp only [hkind, true_and, Function.comp_apply, isString_tree, AreStrings,
        Json.arr.injEq]
      constructor
      · exact fun h => ⟨vs, rfl, h⟩
      · rintro ⟨_, rfl, h⟩
        exact h
  | _ => simp [tree, Json.map, isArray, AreStrings]

theorem isReferenceMember_iff {k : Str} {v : Json Str} :
    isReferenceMember (utf8 k, tree v) = true ↔
      (k = "hash".toList ∧ ∃ s, v = .str s) ∨ (k = "locators".toList ∧ AreStrings v) := by
  have hhash : utf8 k = lit "hash".toList ↔ k = "hash".toList := by
    rw [Jcs.lit_eq_utf8 (by decide)]
    exact ⟨fun h => utf8_inj h, fun h => by rw [h]⟩
  have hlocs : utf8 k = lit "locators".toList ↔ k = "locators".toList := by
    rw [Jcs.lit_eq_utf8 (by decide)]
    exact ⟨fun h => utf8_inj h, fun h => by rw [h]⟩
  have hne : "hash".toList ≠ "locators".toList := by decide
  simp only [isReferenceMember, hhash, hlocs]
  by_cases h1 : k = "hash".toList
  · rw [if_pos h1, isString_tree]
    simp only [h1, true_and, hne, false_and, or_false]
  rw [if_neg h1]
  by_cases h2 : k = "locators".toList
  · rw [if_pos h2, Bool.and_eq_true, areStrings_tree]
    simp only [h2, true_and, hne.symm, false_and, false_or]
  · rw [if_neg h2]
    simp only [h1, h2, false_and, or_self, Bool.false_eq_true]

/-- **`validateReferenceObject` and the shape of a reference.** -/
theorem validateReferenceObject_iff {v : Json Str} (hd : Jcs.Distinct v) :
    validateReferenceObject (some (tree v)) = true ↔ RefShape v := by
  cases v with
  | obj ms =>
      have hnodup : (ms.map Prod.fst).Nodup := hd.1
      have hall : (goMembers ms).all isReferenceMember = true ↔ ∀ m ∈ ms,
          (m.1 = "hash".toList ∧ ∃ s, m.2 = .str s) ∨
            (m.1 = "locators".toList ∧ AreStrings m.2) := by
        rw [goMembers, List.all_map, List.all_eq_true]
        exact forall₂_congr fun m _ => isReferenceMember_iff
      have hlength : (goMembers ms).length = ms.length := List.length_map ..
      have hne : "hash".toList ≠ "locators".toList := by decide
      rw [tree_obj]
      simp only [validateReferenceObject, Bool.and_eq_true, decide_eq_true_eq, hall, hlength]
      rw [has_members (by decide), has_members (by decide)]
      constructor
      · rintro ⟨⟨⟨-, hmem⟩, h, hh⟩, l, hl⟩
        refine ⟨ms, rfl, fun m hm => ?_, ⟨h, hh, ?_⟩, l, hl, ?_⟩
        · exact (hmem m hm).imp And.left And.left
        · rcases hmem _ ((Json.lookup_eq_some hnodup).mp hh) with hs | hs
          · exact hs.2
          · exact absurd hs.1 hne
        · rcases hmem _ ((Json.lookup_eq_some hnodup).mp hl) with hs | hs
          · exact absurd hs.1 hne.symm
          · exact hs.2
      · rintro ⟨_, heq, hclosed, ⟨h, hh, hstr⟩, l, hl, harr⟩
        obtain rfl := Json.obj.inj heq
        have hperm : (ms.map Prod.fst).Perm ["hash".toList, "locators".toList] := by
          rw [List.perm_ext_iff_of_nodup hnodup (by decide)]
          intro k
          rw [List.mem_pair]
          constructor
          · intro hk
            obtain ⟨m, hm, rfl⟩ := List.mem_map.mp hk
            exact hclosed m hm
          · rintro (rfl | rfl)
            · exact List.mem_map_of_mem ((Json.lookup_eq_some hnodup).mp hh)
            · exact List.mem_map_of_mem ((Json.lookup_eq_some hnodup).mp hl)
        refine ⟨⟨⟨?_, fun m hm => ?_⟩, h, hh⟩, l, hl⟩
        · have hlen := hperm.length_eq
          rwa [List.length_map] at hlen
        · have hlook : ms.lookup m.1 = some m.2 := (Json.lookup_eq_some hnodup).mpr hm
          rcases hclosed m hm with hk | hk
          · rw [hk, hh] at hlook
            exact .inl ⟨hk, Option.some.inj hlook ▸ hstr⟩
          · rw [hk, hl] at hlook
            exact .inr ⟨hk, Option.some.inj hlook ▸ harr⟩
  | _ => simp [tree, Json.map, validateReferenceObject, RefShape]

/-! ## `validateSchema` -/

theorem distinct_of_lookup {ms : Members Str} (hd : Jcs.Distinct (.obj ms)) {k : Str} {v : Json Str}
    (h : ms.lookup k = some v) : Jcs.Distinct v :=
  (Json.allMembers_iff.mp hd.2 _ ((Json.lookup_eq_some hd.1).mp h)).2

theorem requireKind_ok {ms : Members Str} {k : Str} (hk : ∀ c ∈ k, c.toNat < 0x80)
    {kind : Json Bytes → Bool} {x : Unit} :
    requireKind (some (.obj (goMembers ms))) k kind = .ok x ↔
      Has ms k fun v => kind (tree v) = true := by
  simp only [requireKind, bind_eq_ok_iff, deref_eq_ok, get_members hk, Option.map_eq_some_iff,
    raiseIf_eq_ok, Bool.not_eq_false, Has]
  constructor
  · rintro ⟨_, ⟨v, hv, rfl⟩, h⟩
    exact ⟨v, hv, h⟩
  · rintro ⟨v, hv, h⟩
    exact ⟨_, ⟨v, hv, rfl⟩, h⟩

theorem raises_requireKind {u : Option (Json Bytes)} {k : Str} {kind : Json Bytes → Bool}
    (h : has u k = true) : Raises Returned (requireKind u k kind) := by
  obtain ⟨v, hv⟩ := Option.isSome_iff_exists.mp h
  exact (raises_deref hv).bind fun _ _ => raises_err

theorem pointerSchema_ok {ms : Members Str} (hd : Jcs.Distinct (.obj ms)) {x : Unit} :
    pointerSchema (some (.obj (goMembers ms))) = .ok x ↔ Absent ms "descriptor".toList ∧
      Has ms "channel".toList (fun c => ∃ s, c = .str s) ∧ Has ms "ref".toList RefShape ∧
        Optional ms "parents".toList AreStrings := by
  rw [pointerSchema]
  simp only [bind_eq_ok_iff, raiseIf_eq_ok, exists_const]
  rw [Bool.not_eq_true, not_has_members (by decide), get_members (by decide),
    get_members (by decide), get_members (by decide), Bool.not_eq_false]
  refine and_congr Iff.rfl (and_congr ?_ (and_congr ?_ ?_))
  · rw [Has]
    cases ms.lookup "channel".toList with
    | none => simp
    | some c => simp [isString_tree]
  · rw [Has]
    cases hr : ms.lookup "ref".toList with
    | none => simp [validateReferenceObject]
    | some r => simp [validateReferenceObject_iff (distinct_of_lookup hd hr)]
  · rw [Optional]
    cases ms.lookup "parents".toList with
    | none => simp
    | some p =>
        simp only [Option.map_some, bind_eq_ok_iff, raiseIf_eq_ok, Bool.not_eq_false,
          exists_const, areStrings_tree, Option.some.injEq, forall_eq']

theorem raises_pointerSchema (u : Option (Json Bytes)) : Raises Returned (pointerSchema u) := by
  refine raises_err.bind fun _ _ => raises_err.bind fun _ _ => raises_err.bind fun _ _ => ?_
  split
  · exact .pure ()
  · exact raises_err.bind fun _ _ => raises_err

theorem channelSchema_ok {ms : Members Str} (hd : Jcs.Distinct (.obj ms)) {x : Unit} :
    channelSchema (some (.obj (goMembers ms))) = .ok x ↔ Absent ms "channel".toList ∧
      Absent ms "parents".toList ∧ Absent ms "ref".toList ∧
        Optional ms "descriptor".toList RefShape := by
  rw [channelSchema]
  simp only [bind_eq_ok_iff, raiseIf_eq_ok, exists_const, not_or, Bool.not_eq_true]
  rw [not_has_members (by decide), not_has_members (by decide), not_has_members (by decide),
    get_members (by decide), and_assoc, and_assoc]
  refine and_congr Iff.rfl (and_congr Iff.rfl (and_congr Iff.rfl ?_))
  rw [Optional]
  cases hr : ms.lookup "descriptor".toList with
  | none => simp
  | some r => simp [validateReferenceObject_iff (distinct_of_lookup hd hr)]

theorem raises_channelSchema (u : Option (Json Bytes)) : Raises Returned (channelSchema u) := by
  refine raises_err.bind fun _ _ => ?_
  split
  · exact .pure ()
  · exact raises_err

/-- The kinds `validateSchema` asks of the members of every body. -/
structure Kinds (ms : Members Str) : Prop where
  closed : ∀ m ∈ ms, m.1 ∈ schemaNames
  version : Has ms "v".toList fun v => ∃ x, v = .num x
  type : Has ms "type".toList fun v => ∃ s, v = .str s
  actor : Has ms "actor".toList fun v => ∃ s, v = .str s
  created : Has ms "created".toList fun v => ∃ x, v = .num x
  nonce : Has ms "nonce".toList fun v => ∃ s, v = .str s
  ext : Optional ms "ext".toList fun v => ∃ ms, v = .obj ms

theorem mem_names_lit {k : Str} : utf8 k ∈ Ident.names.map lit ↔ k ∈ schemaNames := by
  have hascii : ∀ n ∈ Ident.names, ∀ c ∈ n, c.toNat < 0x80 := by decide
  have hnames : Ident.names = schemaNames := rfl
  rw [List.mem_map, ← hnames]
  constructor
  · rintro ⟨n, hn, heq⟩
    rw [Jcs.lit_eq_utf8 (hascii n hn)] at heq
    exact utf8_inj heq ▸ hn
  · exact fun hk => ⟨k, hk, Jcs.lit_eq_utf8 (hascii k hk)⟩

theorem closed_goMembers {ms : Members Str} :
    (¬ ((goMembers ms).any fun m => Ident.names.all fun k => m.1 ≠ lit k) = true) ↔
      ∀ m ∈ ms, m.1 ∈ schemaNames := by
  have hopen : ∀ m : Str × Json Str, (Ident.names.all fun k => utf8 m.1 ≠ lit k) = true ↔
      m.1 ∉ schemaNames := by
    intro m
    rw [← mem_names_lit, List.all_eq_true, List.mem_map, not_exists]
    simp only [decide_eq_true_eq, ne_eq, not_and]
    exact ⟨fun h k hk he => h k hk he.symm, fun h k hk he => h k hk he.symm⟩
  rw [List.any_eq_true, goMembers]
  constructor
  · intro h m hm
    by_contra hno
    exact h ⟨_, List.mem_map_of_mem hm, (hopen m).mpr hno⟩
  · rintro h ⟨_, hm, hno⟩
    obtain ⟨m, hm', rfl⟩ := List.mem_map.mp hm
    exact (hopen m).mp hno (h m hm')

/-- The half of the schema for the type `t`. -/
def KindShape (ms : Members Str) (t : Str) : Prop :=
  (t = "pointer".toList ∧ Absent ms "descriptor".toList ∧
      Has ms "channel".toList (fun c => ∃ s, c = .str s) ∧ Has ms "ref".toList RefShape ∧
      Optional ms "parents".toList AreStrings) ∨
    (t = "channel".toList ∧ Absent ms "channel".toList ∧ Absent ms "parents".toList ∧
      Absent ms "ref".toList ∧ Optional ms "descriptor".toList RefShape)

theorem utf8_eq_lit {s t : Str} (ht : ∀ c ∈ t, c.toNat < 0x80) : utf8 s = lit t ↔ s = t := by
  rw [Jcs.lit_eq_utf8 ht]
  exact ⟨fun h => utf8_inj h, fun h => by rw [h]⟩

/-- **`validateSchema` and the shape of a body.** -/
theorem validateSchema_ok {ms : Members Str} (hd : Jcs.Distinct (.obj ms)) {t : Str} {x : Unit} :
    validateSchema (goMembers ms) (utf8 t) = .ok x ↔ Kinds ms ∧ KindShape ms t := by
  have hne : "pointer".toList ≠ "channel".toList := by decide
  have hext : (¬ ((get (some (.obj (goMembers ms))) "ext".toList).any fun m => isObject m = false) =
      true) ↔ Optional ms "ext".toList fun v => ∃ ms, v = .obj ms := by
    rw [get_members (by decide), Optional]
    cases ms.lookup "ext".toList with
    | none => simp
    | some v => simp [isObject_tree]
  have hkind : ((if utf8 t = lit "pointer".toList then pointerSchema (some (.obj (goMembers ms)))
      else if utf8 t = lit "channel".toList then channelSchema (some (.obj (goMembers ms)))
      else .error (.err .unknownType)) = .ok x) ↔ KindShape ms t := by
    have hpointer := utf8_eq_lit (s := t) (t := "pointer".toList) (by decide)
    have hchannel := utf8_eq_lit (s := t) (t := "channel".toList) (by decide)
    rw [KindShape]
    by_cases h1 : t = "pointer".toList
    · rw [if_pos (hpointer.mpr h1), pointerSchema_ok hd]
      simp only [h1, true_and, hne, false_and, or_false]
    rw [if_neg (mt hpointer.mp h1)]
    by_cases h2 : t = "channel".toList
    · rw [if_pos (hchannel.mpr h2), channelSchema_ok hd]
      simp only [h2, true_and, hne.symm, false_and, false_or]
    · rw [if_neg (mt hchannel.mp h2)]
      simp only [h1, h2, false_and, or_self, reduceCtorEq]
  have hhas : ∀ {k : Str} {p : Json Str → Prop}, (∀ c ∈ k, c.toNat < 0x80) → Has ms k p →
      ¬ has (some (.obj (goMembers ms))) k = false := by
    rintro k p hk ⟨v, hv, -⟩
    rw [Bool.not_eq_false, has_members hk]
    exact ⟨v, hv⟩
  rw [validateSchema]
  simp only [bind_eq_ok_iff, hkind, raiseIf_eq_ok, exists_const, hext, closed_goMembers,
    requireKind_ok (k := "v".toList) (by decide), requireKind_ok (k := "type".toList) (by decide),
    requireKind_ok (k := "actor".toList) (by decide),
    requireKind_ok (k := "created".toList) (by decide),
    requireKind_ok (k := "nonce".toList) (by decide), isNumber_tree, isString_tree]
  constructor
  · rintro ⟨hclosed, -, hv, ht, ha, hc, hn, hext, hkind⟩
    exact ⟨⟨hclosed, hv, ht, ha, hc, hn, hext⟩, hkind⟩
  · rintro ⟨hk, hkind⟩
    refine ⟨hk.closed, ?_, hk.version, hk.type, hk.actor, hk.created, hk.nonce, hk.ext, hkind⟩
    simp only [List.exists_mem_cons_iff, List.not_mem_nil, false_and, exists_false, or_false,
      not_or]
    exact ⟨hhas (by decide) hk.version, hhas (by decide) hk.type, hhas (by decide) hk.actor,
      hhas (by decide) hk.created, hhas (by decide) hk.nonce⟩

/-- No member is read before its presence is tested. -/
theorem raises_validateSchema (ms : Members Bytes) (typ : Bytes) :
    Raises Returned (validateSchema ms typ) := by
  refine raises_err.bind fun _ _ => raises_err.bind fun _ hreq => ?_
  rw [raiseIf_eq_ok] at hreq
  simp only [List.exists_mem_cons_iff, List.not_mem_nil, false_and, exists_false, or_false, not_or,
    Bool.not_eq_false] at hreq
  obtain ⟨hv, ht, ha, hc, hn⟩ := hreq
  refine (raises_requireKind hv).bind fun _ _ => (raises_requireKind ht).bind fun _ _ =>
    (raises_requireKind ha).bind fun _ _ => (raises_requireKind hc).bind fun _ _ =>
    (raises_requireKind hn).bind fun _ _ => raises_err.bind fun _ _ => ?_
  split
  · exact raises_pointerSchema _
  split
  · exact raises_channelSchema _
  · exact .error ⟨_, rfl⟩

/-! ## `validateIdentifiers` -/

theorem requireID_ok {v : Option (Json Str)} {x : Unit} :
    requireID (v.map tree) = .ok x ↔ ∃ w, v = some w ∧ IsSha256Id w := by
  rw [requireID, raiseIf_eq_ok]
  cases v with
  | none => simp
  | some w => simp [isSHA256ID_iff]

theorem raises_validateIdentifiers (ms : Members Bytes) (typ : Bytes) :
    Raises Returned (validateIdentifiers ms typ) := by
  rw [validateIdentifiers]
  split
  · refine raises_err.bind fun _ _ => raises_err.bind fun _ _ => ?_
    split
    · exact .pure ()
    · exact raises_err
  split
  · split
    · exact .pure ()
    · exact raises_err
  · exact .pure ()

/-- The elements of an array. -/
def elements : Json Str → List (Json Str)
  | .arr vs => vs
  | _ => []

theorem arr_eq (v : Json Str) : arr (tree v) = (elements v).map tree := by
  cases v with
  | arr vs => exact arr_tree vs
  | _ => rfl

theorem identifiers_pointer {ms : Members Str} {x : Unit} :
    validateIdentifiers (goMembers ms) (utf8 "pointer".toList) = .ok x ↔
      Has ms "channel".toList IsSha256Id ∧
      (∃ h, member (ms.lookup "ref".toList) "hash".toList = some h ∧ IsSha256Id h) ∧
      Optional ms "parents".toList fun p => ∀ w ∈ elements p, IsSha256Id w := by
  rw [validateIdentifiers, if_pos (Jcs.lit_eq_utf8 (by decide)).symm]
  rw [get_members (by decide), get_members (by decide), get_members (by decide),
    get_tree _ (by decide)]
  simp only [bind_eq_ok_iff, requireID_ok, exists_const]
  refine and_congr Iff.rfl (and_congr Iff.rfl ?_)
  rw [Optional]
  cases ms.lookup "parents".toList with
  | none => simp
  | some p =>
      simp only [Option.map_some, raiseIf_eq_ok, Bool.not_eq_false, arr_eq, List.all_map,
        List.all_eq_true, Function.comp_apply, isSHA256ID_iff, Option.some.injEq, forall_eq']

theorem identifiers_channel {ms : Members Str} {x : Unit} :
    validateIdentifiers (goMembers ms) (utf8 "channel".toList) = .ok x ↔
      Optional ms "descriptor".toList fun d =>
        ∃ h, member (some d) "hash".toList = some h ∧ IsSha256Id h := by
  have hne : ¬ utf8 "channel".toList = lit "pointer".toList := by
    rw [utf8_eq_lit (by decide)]
    decide
  rw [validateIdentifiers, if_neg hne, if_pos (Jcs.lit_eq_utf8 (by decide)).symm,
    get_members (by decide), Optional]
  cases ms.lookup "descriptor".toList with
  | none => simp
  | some d =>
      have hget := get_tree (some d) (k := "hash".toList) (by decide)
      rw [Option.map_some] at hget
      simp only [Option.map_some, hget, requireID_ok, Option.some.injEq, forall_eq']

/-! ## The passes together -/

/-- A reference object of the schema, its maxima aside. -/
def PlainRef (v : Json Str) : Prop :=
  ∃ ms, v = .obj ms ∧ (∀ m ∈ ms, m.1 = "hash".toList ∨ m.1 = "locators".toList) ∧
    Has ms "hash".toList IsSha256Id ∧ Has ms "locators".toList AreStrings

/-- The half of the schema for the type `t`, the maxima aside. -/
def PlainKind (ms : Members Str) (t : Str) : Prop :=
  (t = "pointer".toList ∧ Absent ms "descriptor".toList ∧ Has ms "channel".toList IsSha256Id ∧
      Has ms "ref".toList PlainRef ∧ Optional ms "parents".toList AreIds) ∨
    (t = "channel".toList ∧ Absent ms "channel".toList ∧ Absent ms "parents".toList ∧
      Absent ms "ref".toList ∧ Optional ms "descriptor".toList PlainRef)

theorem sha256Id_string {v : Json Str} (h : IsSha256Id v) : ∃ s, v = .str s := by
  obtain ⟨bs, -, rfl⟩ := h
  exact ⟨_, rfl⟩

theorem plainRef_iff {v : Json Str} : PlainRef v ↔
    RefShape v ∧ ∃ h, member (some v) "hash".toList = some h ∧ IsSha256Id h := by
  constructor
  · rintro ⟨ms, rfl, hclosed, ⟨h, hh, hid⟩, hlocs⟩
    exact ⟨⟨ms, rfl, hclosed, ⟨h, hh, sha256Id_string hid⟩, hlocs⟩, h, hh, hid⟩
  · rintro ⟨⟨ms, rfl, hclosed, -, hlocs⟩, h, hh, hid⟩
    exact ⟨ms, rfl, hclosed, ⟨h, hh, hid⟩, hlocs⟩

theorem areIds_iff {v : Json Str} : AreIds v ↔ AreStrings v ∧ ∀ w ∈ elements v, IsSha256Id w := by
  constructor
  · rintro ⟨vs, rfl, h⟩
    exact ⟨⟨vs, rfl, fun w hw => sha256Id_string (h w hw)⟩, h⟩
  · rintro ⟨⟨vs, rfl, -⟩, h⟩
    exact ⟨vs, rfl, h⟩

/-- **`validateSchema` and `validateIdentifiers` accept the bodies of the schema**,
what the later passes look at aside. -/
theorem passes_ok {ms : Members Str} (hd : Jcs.Distinct (.obj ms)) {t : Str} {x y : Unit} :
    validateSchema (goMembers ms) (utf8 t) = .ok x ∧
        validateIdentifiers (goMembers ms) (utf8 t) = .ok y ↔
      Kinds ms ∧ PlainKind ms t := by
  rw [validateSchema_ok hd, and_assoc]
  refine and_congr Iff.rfl ?_
  constructor
  · rintro ⟨⟨rfl, hdesc, -, ⟨r, hr, href⟩, hparents⟩ | ⟨rfl, hch, hpar, habs, hdesc⟩, hids⟩
    · obtain ⟨hchannel, ⟨h, hh, hid⟩, hparents'⟩ := identifiers_pointer.mp hids
      rw [hr] at hh
      refine .inl ⟨rfl, hdesc, hchannel, ⟨r, hr, plainRef_iff.mpr ⟨href, h, hh, hid⟩⟩, ?_⟩
      exact fun p hp => areIds_iff.mpr ⟨hparents p hp, hparents' p hp⟩
    · have hids' := identifiers_channel.mp hids
      exact .inr ⟨rfl, hch, hpar, habs, fun d hd => plainRef_iff.mpr ⟨hdesc d hd, hids' d hd⟩⟩
  · rintro (⟨rfl, hdesc, ⟨c, hc, hcid⟩, ⟨r, hr, href⟩, hparents⟩ | ⟨rfl, hch, hpar, habs, hdesc⟩)
    · obtain ⟨hshape, h, hh, hid⟩ := plainRef_iff.mp href
      refine ⟨.inl ⟨rfl, hdesc, ⟨c, hc, sha256Id_string hcid⟩, ⟨r, hr, hshape⟩,
        fun p hp => (areIds_iff.mp (hparents p hp)).1⟩, ?_⟩
      rw [identifiers_pointer, hr]
      exact ⟨⟨c, hc, hcid⟩, ⟨h, hh, hid⟩, fun p hp => (areIds_iff.mp (hparents p hp)).2⟩
    · refine ⟨.inr ⟨rfl, hch, hpar, habs, fun d hd => (plainRef_iff.mp (hdesc d hd)).1⟩, ?_⟩
      exact identifiers_channel.mpr fun d hd => (plainRef_iff.mp (hdesc d hd)).2

end SwarmPointer.Protocol
