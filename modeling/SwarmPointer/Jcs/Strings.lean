import SwarmPointer.Go.Jcs
import SwarmPointer.Python.Jcs
import SwarmPointer.TypeScript.Canon

/-!
# Canonical JSON — one string text, one order of names

The three escapers write the same text in their own encodings, and the
three comparators — UTF-16-BE byte strings, decoded code-unit pairs,
`charCodeAt` differences — are one order.

Each section takes one program: its escaper first, its comparator second. Go
works on UTF-8 and decodes as it compares, so its loop is followed over what is
left of two names after an equal prefix (`utf16LessLoop_utf8`); the branch its
comment calls unreachable is shown to be that by the pairs of suffixes the loop
can come to (`Visits`).
-/

namespace SwarmPointer.Jcs

/-! ## Python -/

theorem fmt04x_control {o : Nat} (h : o < 0x20) :
    Python.Jcs.fmt04x o = ['0', '0', hexDigit (o / 16), hexDigit (o % 16)] := by
  have key : ∀ o < 0x20, Python.Jcs.fmt04x o =
      ['0', '0', hexDigit (o / 16), hexDigit (o % 16)] := by decide
  exact key o h

theorem escapeChar_eq (c : Char) : Python.Jcs.escapeChar c = Rfc8785.escape c := by
  rw [Python.Jcs.escapeChar, Rfc8785.escape]
  by_cases h : c.toNat < 0x20
  · simp only [fmt04x_control h, List.cons_append, List.nil_append]
  · simp only [h, if_false]

theorem escapeString_eq (s : Str) : Python.Jcs.escapeString s = Rfc8785.quote s := by
  have hfun : Python.Jcs.escapeChar = Rfc8785.escape := funext escapeChar_eq
  rw [Python.Jcs.escapeString, hfun, Rfc8785.quote]
  rfl

/-- Two base-256 digits compare as the number they spell. -/
theorem digits_lt {a b : Nat} (ha : a < 65536) (hb : b < 65536) (p : Prop) :
    (a / 256 % 256 < b / 256 % 256 ∨ a / 256 % 256 = b / 256 % 256 ∧
      (a % 256 < b % 256 ∨ a % 256 = b % 256 ∧ p)) ↔ (a < b ∨ a = b ∧ p) := by
  by_cases hp : p
  · simp only [hp, and_true]
    omega
  · simp only [hp, and_false, or_false]
    omega

/-- Big-endian byte pairs compare as the numbers they spell. -/
theorem utf16be_lt (us vs : List UInt16) :
    ((us.flatMap fun u => [UInt8.ofNat (u.toNat / 256), UInt8.ofNat u.toNat]).map UInt8.toNat <
      (vs.flatMap fun u => [UInt8.ofNat (u.toNat / 256), UInt8.ofNat u.toNat]).map UInt8.toNat) ↔
      us.map UInt16.toNat < vs.map UInt16.toNat := by
  induction us generalizing vs with
  | nil =>
      cases vs with
      | nil => simp
      | cons v vs => simp
  | cons u us ih =>
      cases vs with
      | nil => simp
      | cons v vs =>
          have hu := u.toNat_lt
          have hv := v.toNat_lt
          simp only [List.flatMap_cons, List.cons_append, List.nil_append, List.map_cons,
            List.cons_lt_cons_iff, ih, UInt8.toNat_ofNat']
          exact digits_lt hu hv _

theorem utf16be_le (a b : Str) :
    Python.Jcs.bytesLe (Python.Jcs.utf16be a) (Python.Jcs.utf16be b) = true ↔
      Rfc8785.units a ≤ Rfc8785.units b := by
  rw [Python.Jcs.bytesLe, decide_eq_true_eq, ← not_lt, ← not_lt, Rfc8785.units, Rfc8785.units]
  exact not_congr (utf16be_lt _ _)

/-! ## TypeScript -/

theorem lit_eq_utf16 {s : Str} (h : ∀ c ∈ s, c.toNat < 0x80) :
    TypeScript.lit s = Unicode.utf16 s := by
  induction s with
  | nil => rfl
  | cons c s ih =>
      rw [Unicode.utf16_cons, ← ih fun d hd => h d (List.mem_cons_of_mem _ hd),
        Unicode.utf16Char_ascii (h c (List.mem_cons_self ..))]
      rfl

theorem utf16Char_eq_lit {c d : Char} (h : d.toNat < 0x80) :
    Unicode.utf16Char c = TypeScript.lit [d] ↔ c = d := by
  have hd : TypeScript.lit [d] = Unicode.utf16Char d := (Unicode.utf16Char_ascii h).symm
  rw [hd]
  exact ⟨fun h => Unicode.utf16Char_inj h, fun h => by rw [h]⟩

theorem escape_control_ascii {o : Nat} (h : o < 0x20) :
    ∀ c ∈ ['\\', 'u', '0', '0', hexDigit (o / 16), hexDigit (o % 16)], c.toNat < 0x80 := by
  have key : ∀ o < 0x20,
      ∀ c ∈ ['\\', 'u', '0', '0', hexDigit (o / 16), hexDigit (o % 16)], c.toNat < 0x80 := by
    decide
  exact key o h

theorem escapeUnit_eq (c : Char) :
    TypeScript.Canon.escapeUnit (Unicode.utf16Char c) = Unicode.utf16 (Rfc8785.escape c) := by
  have hself : Unicode.utf16 [c] = Unicode.utf16Char c := List.append_nil _
  have hpad : TypeScript.Canon.hexPad = Python.Jcs.fmt04x := rfl
  simp only [TypeScript.Canon.escapeUnit, Unicode.codePointAt_utf16Char, Rfc8785.escape,
    apply_ite Unicode.utf16, utf16Char_eq_lit (d := '"') (by decide),
    utf16Char_eq_lit (d := '\\') (by decide), utf16Char_eq_lit (d := '\x08') (by decide),
    utf16Char_eq_lit (d := '\x0c') (by decide), utf16Char_eq_lit (d := '\n') (by decide),
    utf16Char_eq_lit (d := '\x0d') (by decide), utf16Char_eq_lit (d := '\t') (by decide), hself]
  by_cases h : c.toNat < 0x20
  · have hctl := lit_eq_utf16 (escape_control_ascii h)
    rw [if_pos h, if_pos h, hpad, fmt04x_control h, List.cons_append, List.cons_append,
      List.nil_append, hctl]
    rfl
  · rw [if_neg h, if_neg h]
    rfl

theorem jcsString_eq (s : Str) :
    TypeScript.Canon.jcsString (Unicode.utf16 s) = Unicode.utf16 (Rfc8785.quote s) := by
  have hbody : (s.map Unicode.utf16Char).flatMap TypeScript.Canon.escapeUnit =
      Unicode.utf16 (s.flatMap Rfc8785.escape) := by
    rw [List.flatMap_map, Unicode.utf16, List.flatMap_assoc]
    exact List.flatMap_congr fun c _ => escapeUnit_eq c
  rw [TypeScript.Canon.jcsString, Unicode.codePoints_utf16, hbody, Rfc8785.quote,
    Unicode.utf16_append, Unicode.utf16_cons]
  rfl

theorem utf16Less_pos (us vs : List UInt16) :
    0 < TypeScript.Canon.utf16Less us vs ↔ vs.map UInt16.toNat < us.map UInt16.toNat := by
  induction us generalizing vs with
  | nil =>
      cases vs with
      | nil => simp [TypeScript.Canon.utf16Less]
      | cons v vs => simp [TypeScript.Canon.utf16Less]
  | cons u us ih =>
      cases vs with
      | nil => simp [TypeScript.Canon.utf16Less]
      | cons v vs =>
          rw [TypeScript.Canon.utf16Less, List.map_cons, List.map_cons, List.cons_lt_cons_iff,
            ← ih vs]
          split
          · rename_i hne
            constructor
            · intro h
              left
              omega
            · rintro (h | ⟨h, -⟩) <;> omega
          · rename_i heq
            constructor
            · intro h
              exact .inr ⟨by omega, h⟩
            · rintro (h | ⟨-, h⟩)
              · omega
              · exact h

theorem utf16Less_le (a b : Str) :
    decide (TypeScript.Canon.utf16Less (Unicode.utf16 a) (Unicode.utf16 b) ≤ 0) = true ↔
      Rfc8785.units a ≤ Rfc8785.units b := by
  rw [decide_eq_true_eq, ← not_lt, ← not_lt (a := Rfc8785.units b), Rfc8785.units, Rfc8785.units]
  exact not_congr (utf16Less_pos _ _)

theorem encode_utf16 (s : Str) : TypeScript.Canon.encode (Unicode.utf16 s) = Unicode.utf8 s := by
  rw [TypeScript.Canon.encode, Unicode.codePoints_utf16, List.flatMap_map, Unicode.utf8]
  refine List.flatMap_congr fun c _ => ?_
  have hv := Unicode.toNat_valid c
  simp only [Unicode.codePointAt_utf16Char]
  rw [if_neg (by omega), Char.ofNat_toNat]

/-! ## Go -/

theorem lit_eq_utf8 {s : Str} (h : ∀ c ∈ s, c.toNat < 0x80) : Go.lit s = Unicode.utf8 s := by
  induction s with
  | nil => rfl
  | cons c s ih =>
      rw [Unicode.utf8_cons, ← ih fun d hd => h d (List.mem_cons_of_mem _ hd),
        Unicode.utf8EncodeChar_ascii (h c (List.mem_cons_self ..))]
      rfl

theorem decodeRune_utf8 (c : Char) (cs : Str) :
    Go.decodeRune (Unicode.utf8 (c :: cs)) = (c, c.utf8Size) := by
  rw [Go.decodeRune, (Unicode.decodeChar_utf8 c cs).1]

theorem runes_utf8 (s : Str) : Go.runes (Unicode.utf8 s) = s := by
  have key : ∀ n (s : Str), s.length ≤ n → Go.runesAux n (Unicode.utf8 s) = s := by
    intro n
    induction n with
    | zero =>
        intro s hs
        rw [List.length_eq_zero_iff.mp (Nat.le_zero.mp hs)]
        rfl
    | succ n ih =>
        intro s hs
        cases s with
        | nil => rfl
        | cons c s =>
            have hne : Unicode.utf8 (c :: s) ≠ [] := by
              rw [Unicode.utf8_cons]
              exact List.append_ne_nil_of_left_ne_nil String.utf8EncodeChar_ne_nil _
            rw [Go.runesAux, decodeRune_utf8, (Unicode.decodeChar_utf8 c s).2,
              ih s (Nat.le_of_succ_le_succ hs)]
            exact hne
  exact key _ s (Unicode.length_le_utf8 s)

theorem writeRune_eq (c : Char) : Go.Jcs.writeRune c = Unicode.utf8 (Rfc8785.escape c) := by
  have hself : Unicode.utf8 [c] = String.utf8EncodeChar c := List.append_nil _
  simp only [Go.Jcs.writeRune, Rfc8785.escape, apply_ite Unicode.utf8, hself]
  by_cases h : c.toNat < 0x20
  · rw [if_pos h, if_pos h, lit_eq_utf8 (escape_control_ascii h)]
    simp only [lit_eq_utf8 (s := ['\\', '"']) (by decide),
      lit_eq_utf8 (s := ['\\', '\\']) (by decide), lit_eq_utf8 (s := ['\\', 'b']) (by decide),
      lit_eq_utf8 (s := ['\\', 'f']) (by decide), lit_eq_utf8 (s := ['\\', 'n']) (by decide),
      lit_eq_utf8 (s := ['\\', 'r']) (by decide), lit_eq_utf8 (s := ['\\', 't']) (by decide)]
  · rw [if_neg h, if_neg h]
    simp only [lit_eq_utf8 (s := ['\\', '"']) (by decide),
      lit_eq_utf8 (s := ['\\', '\\']) (by decide), lit_eq_utf8 (s := ['\\', 'b']) (by decide),
      lit_eq_utf8 (s := ['\\', 'f']) (by decide), lit_eq_utf8 (s := ['\\', 'n']) (by decide),
      lit_eq_utf8 (s := ['\\', 'r']) (by decide), lit_eq_utf8 (s := ['\\', 't']) (by decide)]

theorem writeJSONString_eq (s : Str) :
    Go.Jcs.writeJSONString (Unicode.utf8 s) = Unicode.utf8 (Rfc8785.quote s) := by
  have hbody : s.flatMap Go.Jcs.writeRune = Unicode.utf8 (s.flatMap Rfc8785.escape) := by
    rw [Unicode.utf8, List.flatMap_assoc]
    exact List.flatMap_congr fun c _ => writeRune_eq c
  have hquote : Go.lit ['"'] = Unicode.utf8 ['"'] := lit_eq_utf8 (by decide)
  rw [Go.Jcs.writeJSONString, runes_utf8, hbody, hquote, ← Unicode.utf8_append,
    ← Unicode.utf8_append, Rfc8785.quote]
  rfl

theorem decodeUTF16Char_utf8 (c : Char) (cs : Str) :
    Go.Jcs.decodeUTF16Char (Unicode.utf8 (c :: cs)) =
      ⟨Unicode.utf16Char c, Unicode.utf8 cs⟩ := by
  rw [Go.Jcs.decodeUTF16Char, decodeRune_utf8]
  dsimp only
  rw [(Unicode.decodeChar_utf8 c cs).2, Unicode.utf16Char]
  by_cases h : c.toNat < 0x10000
  · rw [if_neg (not_le.mpr h), if_pos h]
  · have hmask : (c.toNat - 0x10000) &&& 0x3FF = (c.toNat - 0x10000) % 0x400 :=
      Nat.and_two_pow_sub_one_eq_mod _ 10
    rw [if_pos (not_lt.mp h), if_neg h, Nat.shiftRight_eq_div_pow, hmask]

/-- A difference between code units decides the order of what they begin. -/
theorem unitsLess_some {us vs : List UInt16} {less : Bool} (h : Go.Jcs.unitsLess us vs = some less)
    (xs ys : List Nat) :
    us.map UInt16.toNat ++ xs < vs.map UInt16.toNat ++ ys ↔ less = true := by
  induction us generalizing vs with
  | nil =>
      rw [Go.Jcs.unitsLess] at h
      · cases h
      · rintro _ _ _ _ ⟨⟩
  | cons u us ih =>
      cases vs with
      | nil => cases h
      | cons v vs =>
          rw [Go.Jcs.unitsLess] at h
          rw [List.map_cons, List.map_cons, List.cons_append, List.cons_append,
            List.cons_lt_cons_iff]
          split at h
          · rename_i hne
            have hnat : u.toNat ≠ v.toNat := fun heq => hne (UInt16.toNat_inj.mp heq)
            rw [← Option.some.inj h, decide_eq_true_eq, UInt16.lt_iff_toNat_lt]
            constructor
            · rintro (h | ⟨h, -⟩)
              · exact h
              · exact absurd h hnat
            · exact .inl
          · rename_i heq
            rw [not_not] at heq
            rw [heq, ih h]
            simp

/-- The encodings of two characters differ in a code unit if at all. -/
theorem unitsLess_none {c d : Char}
    (h : Go.Jcs.unitsLess (Unicode.utf16Char c) (Unicode.utf16Char d) = none) : c = d := by
  apply Unicode.utf16Char_inj
  rcases Unicode.utf16Char_cases c with ⟨u, hu, -, hh, -⟩ | ⟨u, v, hu, hh, -, -⟩ <;>
    rcases Unicode.utf16Char_cases d with ⟨u', hu', -, hh', -⟩ | ⟨u', v', hu', hh', -, -⟩ <;>
      rw [hu, hu'] at h ⊢ <;> simp only [Go.Jcs.unitsLess] at h
  · split at h
    · cases h
    · rename_i heq
      rw [not_not.mp heq]
  · split at h
    · cases h
    · rename_i heq
      rw [not_not.mp heq, hh'] at hh
      cases hh
  · split at h
    · cases h
    · rename_i heq
      rw [not_not.mp heq, hh'] at hh
      cases hh
  · split at h
    · cases h
    · rename_i heq
      split at h
      · cases h
      · rename_i heq'
        rw [not_not.mp heq, not_not.mp heq']

theorem units_cons (c : Char) (s : Str) :
    Rfc8785.units (c :: s) = (Unicode.utf16Char c).map UInt16.toNat ++ Rfc8785.units s := by
  rw [Rfc8785.units, Unicode.utf16_cons, List.map_append, Rfc8785.units]

theorem utf8_cons_ne_nil (c : Char) (s : Str) : Unicode.utf8 (c :: s) ≠ [] := by
  rw [Unicode.utf8_cons]
  exact List.append_ne_nil_of_left_ne_nil String.utf8EncodeChar_ne_nil _

theorem units_cons_ne_nil (c : Char) (s : Str) : Rfc8785.units (c :: s) ≠ [] := by
  rw [units_cons]
  exact List.append_ne_nil_of_left_ne_nil (by simpa using Unicode.utf16Char_ne_nil c) _

/-- Once one of the names is exhausted, the lengths decide: what has been read
is the same in both and cancels. -/
theorem length_decides (p : Str) {a b : Str} (h : a = [] ∨ b = []) :
    (Unicode.utf8 (p ++ a)).length < (Unicode.utf8 (p ++ b)).length ↔
      Rfc8785.units a < Rfc8785.units b := by
  have hnil : Rfc8785.units [] = [] := rfl
  rw [Unicode.utf8_append, Unicode.utf8_append, List.length_append, List.length_append,
    Nat.add_lt_add_iff_left]
  cases a with
  | nil =>
      cases b with
      | nil => simp
      | cons d b =>
          have h1 := List.length_pos_iff.mpr (utf8_cons_ne_nil d b)
          have h2 : Rfc8785.units [] < Rfc8785.units (d :: b) := by
            rw [hnil]
            obtain ⟨u, us, hu⟩ := List.exists_cons_of_ne_nil (units_cons_ne_nil d b)
            rw [hu]
            exact List.nil_lt_cons u us
          simpa [h2] using h1
  | cons c a =>
      obtain rfl : b = [] := h.resolve_left (List.cons_ne_nil c a)
      simp [hnil]

theorem prefix_lt (ps xs ys : List Nat) : ps ++ xs < ps ++ ys ↔ xs < ys := by
  induction ps with
  | nil => rfl
  | cons p ps ih =>
      rw [List.cons_append, List.cons_append, List.cons_lt_cons_iff, ih]
      simp

/-- After any number of turns: `p` is what has been read of both names. -/
theorem utf16LessLoop_utf8 (n : Nat) (p a b : Str) (hn : a.length ≤ n) :
    Go.Jcs.utf16LessLoop (Unicode.utf8 (p ++ a)) (Unicode.utf8 (p ++ b)) n (Unicode.utf8 a)
        (Unicode.utf8 b) = true ↔ Rfc8785.units a < Rfc8785.units b := by
  induction n generalizing p a b with
  | zero =>
      have ha : a = [] := List.length_eq_zero_iff.mp (Nat.le_zero.mp hn)
      rw [Go.Jcs.utf16LessLoop, decide_eq_true_eq]
      exact length_decides p (.inl ha)
  | succ n ih =>
      rw [Go.Jcs.utf16LessLoop]
      cases a with
      | nil =>
          rw [if_neg (by simp), decide_eq_true_eq]
          exact length_decides p (.inl rfl)
      | cons c a =>
          cases b with
          | nil =>
              rw [if_neg (by simp), decide_eq_true_eq]
              exact length_decides p (.inr rfl)
          | cons d b =>
              rw [if_pos ⟨utf8_cons_ne_nil c a, utf8_cons_ne_nil d b⟩, decodeUTF16Char_utf8,
                decodeUTF16Char_utf8, units_cons, units_cons]
              dsimp only
              cases h : Go.Jcs.unitsLess (Unicode.utf16Char c) (Unicode.utf16Char d) with
              | some less => exact (unitsLess_some h _ _).symm
              | none =>
                  -- the same character, so the prefix read grows by it in both
                  obtain rfl := unitsLess_none h
                  dsimp only
                  rw [if_neg (not_not.mpr rfl), List.append_cons p c a, List.append_cons p c b,
                    ih (p ++ [c]) a b (Nat.le_of_succ_le_succ hn)]
                  exact (prefix_lt _ _ _).symm

/-- **Go compares names by their UTF-16 code units.** -/
theorem goLess_iff (a b : Str) :
    Go.Jcs.utf16Less (Unicode.utf8 a) (Unicode.utf8 b) = true ↔
      Rfc8785.units a < Rfc8785.units b :=
  utf16LessLoop_utf8 _ [] a b (Unicode.length_le_utf8 a)

/-! ## One order -/

/-- The pairs of suffixes that the loop of `utf16Less` comes to. -/
inductive Visits (a b : Bytes) : Bytes → Bytes → Prop
  | start : Visits a b a b
  | next {s t : Bytes} (h : Visits a b s t) (hs : s ≠ []) (ht : t ≠ [])
      (hunits : Go.Jcs.unitsLess (Go.Jcs.decodeUTF16Char s).units
        (Go.Jcs.decodeUTF16Char t).units = none)
      (hlen : (Go.Jcs.decodeUTF16Char s).units.length = (Go.Jcs.decodeUTF16Char t).units.length) :
      Visits a b (Go.Jcs.decodeUTF16Char s).next (Go.Jcs.decodeUTF16Char t).next

/-- On UTF-8 it never leaves the boundaries of characters. -/
theorem visits_utf8 {a b : Str} {s t : Bytes} (h : Visits (Unicode.utf8 a) (Unicode.utf8 b) s t) :
    ∃ a' b', s = Unicode.utf8 a' ∧ t = Unicode.utf8 b' := by
  induction h with
  | start => exact ⟨a, b, rfl, rfl⟩
  | next _ hs ht _ _ ih =>
      obtain ⟨a', b', rfl, rfl⟩ := ih
      cases a' with
      | nil => exact absurd rfl hs
      | cons c a' =>
          cases b' with
          | nil => exact absurd rfl ht
          | cons d b' => exact ⟨a', b', by rw [decodeUTF16Char_utf8], by rw [decodeUTF16Char_utf8]⟩

/-- **Characters whose code units do not differ have equally many.** -/
theorem visits_length {a b : Str} {s t : Bytes} (h : Visits (Unicode.utf8 a) (Unicode.utf8 b) s t)
    (hs : s ≠ []) (ht : t ≠ [])
    (hunits : Go.Jcs.unitsLess (Go.Jcs.decodeUTF16Char s).units
      (Go.Jcs.decodeUTF16Char t).units = none) :
    (Go.Jcs.decodeUTF16Char s).units.length = (Go.Jcs.decodeUTF16Char t).units.length := by
  obtain ⟨a', b', rfl, rfl⟩ := visits_utf8 h
  cases a' with
  | nil => exact absurd rfl hs
  | cons c a' =>
      cases b' with
      | nil => exact absurd rfl ht
      | cons d b' =>
          rw [decodeUTF16Char_utf8, decodeUTF16Char_utf8] at hunits ⊢
          rw [unitsLess_none hunits]

theorem utf16Less_neg (us vs : List UInt16) :
    TypeScript.Canon.utf16Less us vs < 0 ↔ us.map UInt16.toNat < vs.map UInt16.toNat := by
  have hswap : ∀ us vs, TypeScript.Canon.utf16Less us vs = -TypeScript.Canon.utf16Less vs us := by
    intro us
    induction us with
    | nil => intro vs; cases vs <;> simp [TypeScript.Canon.utf16Less]
    | cons u us ih =>
        intro vs
        cases vs with
        | nil => simp [TypeScript.Canon.utf16Less]
        | cons v vs =>
            rw [TypeScript.Canon.utf16Less, TypeScript.Canon.utf16Less, ih vs]
            split <;> split <;> omega
  rw [hswap, ← utf16Less_pos vs us]
  omega

/-- Names are ordered by their UTF-16 code units. -/
def Before (a b : Str) : Prop := Rfc8785.units a < Rfc8785.units b

/-- **The three comparisons of names are one strict total order.** -/
theorem name_orders_agree :
    IsStrictTotalOrder Str Before ∧ ∀ a b : Str,
      (Go.Jcs.utf16Less (Unicode.utf8 a) (Unicode.utf8 b) = true ↔ Before a b) ∧
      (Python.Jcs.bytesLe (Python.Jcs.utf16be b) (Python.Jcs.utf16be a) = false ↔ Before a b) ∧
      (TypeScript.Canon.utf16Less (Unicode.utf16 a) (Unicode.utf16 b) < 0 ↔ Before a b) ∧
      (0 < TypeScript.Canon.utf16Less (Unicode.utf16 a) (Unicode.utf16 b) ↔ Before b a) ∧
      (TypeScript.Canon.utf16Less (Unicode.utf16 a) (Unicode.utf16 b) = 0 ↔ a = b) ∧
      (Python.Jcs.utf16be a = Python.Jcs.utf16be b ↔ a = b) ∧
      ∀ s t, Visits (Unicode.utf8 a) (Unicode.utf8 b) s t → s ≠ [] → t ≠ [] →
        Go.Jcs.unitsLess (Go.Jcs.decodeUTF16Char s).units (Go.Jcs.decodeUTF16Char t).units = none →
        (Go.Jcs.decodeUTF16Char s).units.length = (Go.Jcs.decodeUTF16Char t).units.length := by
  have htri : ∀ a b : Str, ¬ Before a b → ¬ Before b a → a = b := fun a b hab hba =>
    Rfc8785.units_inj (le_antisymm (not_lt.mp hba) (not_lt.mp hab))
  have hirrefl : ∀ a : Str, ¬ Before a a := fun a => lt_irrefl _
  refine ⟨{ trichotomous := htri, irrefl := hirrefl, trans := fun a b c => lt_trans }, ?_⟩
  intro a b
  have hneg := utf16Less_neg (Unicode.utf16 a) (Unicode.utf16 b)
  have hpos := utf16Less_pos (Unicode.utf16 a) (Unicode.utf16 b)
  refine ⟨goLess_iff a b, ?_, hneg, hpos, ?_, ?_, fun s t => visits_length⟩
  · rw [← Bool.not_eq_true, utf16be_le]
    exact not_le
  · constructor
    · intro h
      refine htri a b (fun hab => ?_) (fun hba => ?_)
      · exact absurd (hneg.mpr hab) (by omega)
      · exact absurd (hpos.mpr hba) (by omega)
    · rintro rfl
      have hn : ¬ _ := fun h => hirrefl a (hneg.mp h)
      have hp : ¬ _ := fun h => hirrefl a (hpos.mp h)
      omega
  · constructor
    · intro h
      have hle : ∀ a b, Python.Jcs.utf16be a = Python.Jcs.utf16be b →
          Rfc8785.units a ≤ Rfc8785.units b := fun a b h => by
        rw [← utf16be_le, h, utf16be_le]
      exact Rfc8785.units_inj (le_antisymm (hle a b h) (hle b a h.symm))
    · rintro rfl
      rfl

end SwarmPointer.Jcs
