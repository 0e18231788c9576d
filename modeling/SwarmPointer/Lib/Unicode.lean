import Mathlib.Data.List.Basic
import Mathlib.Data.List.Lex
import Mathlib.Data.UInt
import Mathlib.Tactic.Ring

/-!
# UTF-8 and UTF-16

The two transformation formats over lists of scalar values. UTF-8 is the
core library's, read as lists of bytes; UTF-16 is written out, with the
splitting of code units into code points that ECMAScript's string iterator
does. Both encodings are injective, and a text comes back from either.

Scanners of bytes are compared with scanners of characters through
`AsciiClass`: a class of bytes that are all ASCII is matched by the same
characters and by nothing else, because no byte of a longer sequence is below
`0x80`.
-/

namespace Unicode

/-- A property of the elements of a text is decided by running through the
text, never by enumerating a whole alphabet. -/
instance (priority := high) decidableBAll {α : Type} (p : α → Prop) [DecidablePred p]
    (xs : List α) : Decidable (∀ x ∈ xs, p x) := List.decidableBAll p xs

/-! ## UTF-8 -/

/-- The UTF-8 encoding of a text. -/
def utf8 (cs : List Char) : List UInt8 := cs.flatMap String.utf8EncodeChar

/-- Strict decoding: `none` on any ill-formed sequence. -/
def decodeUtf8 (bs : List UInt8) : Option (List Char) :=
  (ByteArray.mk bs.toArray).utf8Decode?.map Array.toList

@[simp] theorem utf8_nil : utf8 [] = [] := rfl

theorem utf8_cons (c : Char) (cs : List Char) :
    utf8 (c :: cs) = String.utf8EncodeChar c ++ utf8 cs := rfl

theorem utf8_append (cs ds : List Char) : utf8 (cs ++ ds) = utf8 cs ++ utf8 ds :=
  List.flatMap_append

theorem toByteArray_eq (bs : List UInt8) : bs.toByteArray = ByteArray.mk bs.toArray := by
  apply ByteArray.ext
  simp

theorem utf8Encode_eq (cs : List Char) : cs.utf8Encode = ByteArray.mk (utf8 cs).toArray := by
  rw [← toByteArray_eq]
  rfl

/-- **Decoding inverts encoding and accepts nothing else.** -/
theorem decodeUtf8_eq_some {bs : List UInt8} {cs : List Char} :
    decodeUtf8 bs = some cs ↔ utf8 cs = bs := by
  constructor
  · intro h
    obtain ⟨arr, harr, rfl⟩ := Option.map_eq_some_iff.mp h
    have hsome : (ByteArray.mk bs.toArray).utf8Decode?.isSome = true := by rw [harr]; rfl
    have henc := ByteArray.utf8Encode_get_utf8Decode? (b := ByteArray.mk bs.toArray) (h := hsome)
    have hget : (ByteArray.mk bs.toArray).utf8Decode?.get hsome = arr := by simp [harr]
    rw [hget, utf8Encode_eq] at henc
    simpa using henc
  · rintro rfl
    rw [decodeUtf8, ← utf8Encode_eq, List.utf8Decode?_utf8Encode]
    simp

theorem decodeUtf8_utf8 (cs : List Char) : decodeUtf8 (utf8 cs) = some cs :=
  decodeUtf8_eq_some.mpr rfl

theorem utf8_inj {cs ds : List Char} (h : utf8 cs = utf8 ds) : cs = ds := by
  have hd := decodeUtf8_utf8 cs
  rw [h, decodeUtf8_utf8] at hd
  exact (Option.some.inj hd).symm

theorem utf8EncodeChar_ascii {c : Char} (h : c.toNat < 0x80) :
    String.utf8EncodeChar c = [UInt8.ofNat c.toNat] := by
  have hle : c.val ≤ 127 := by
    rw [UInt32.le_iff_toNat_le]
    exact Nat.le_of_lt_succ h
  rw [String.utf8EncodeChar_eq_singleton (Char.utf8Size_eq_one_iff.mpr hle)]
  rfl

theorem utf8_ascii {s : List Char} (h : ∀ c ∈ s, c.toNat < 0x80) :
    utf8 s = s.map fun c => UInt8.ofNat c.toNat := by
  induction s with
  | nil => rfl
  | cons c s ih =>
      rw [utf8_cons, utf8EncodeChar_ascii (h c (List.mem_cons_self ..)),
        ih fun c hc => h c (List.mem_cons_of_mem _ hc)]
      rfl

/-- A byte below `0x80` encodes a character by itself. -/
theorem ascii_of_byte {c : Char} {b : UInt8} (h : b ∈ String.utf8EncodeChar c)
    (hb : b.toNat < 0x80) : c.toNat < 0x80 := by
  have high : ∀ n k : Nat, 0x80 ≤ k → n + k < 0x100 → ¬ (UInt8.ofNat (n + k)).toNat < 0x80 := by
    intro n k hk hlt
    rw [UInt8.toNat_ofNat_of_lt' hlt]
    omega
  by_contra hc
  have hval : ¬ c.val.toNat ≤ 0x7F := fun hle => hc (Nat.lt_succ_of_le hle)
  rw [String.utf8EncodeChar] at h
  simp only [if_neg hval] at h
  split at h
  · simp only [List.mem_cons, List.not_mem_nil, or_false] at h
    rcases h with rfl | rfl <;> exact high _ _ (by omega) (by omega) hb
  · split at h
    · simp only [List.mem_cons, List.not_mem_nil, or_false] at h
      rcases h with rfl | rfl | rfl <;> exact high _ _ (by omega) (by omega) hb
    · simp only [List.mem_cons, List.not_mem_nil, or_false] at h
      rcases h with rfl | rfl | rfl | rfl <;> exact high _ _ (by omega) (by omega) hb

/-- An ASCII text at the start of the bytes is at the start of the text. -/
theorem ascii_prefix {p t : List Char} {b : List UInt8} (hp : ∀ c ∈ p, c.toNat < 0x80)
    (h : utf8 t = utf8 p ++ b) : ∃ d, t = p ++ d ∧ utf8 d = b := by
  induction p generalizing t with
  | nil => exact ⟨t, rfl, h⟩
  | cons x p ih =>
      have hx := hp x (List.mem_cons_self ..)
      rw [utf8_cons, utf8EncodeChar_ascii hx] at h
      cases t with
      | nil => cases h
      | cons c t =>
          obtain ⟨y, ys, hc⟩ := List.exists_cons_of_ne_nil (String.utf8EncodeChar_ne_nil (c := c))
          have hy : y = UInt8.ofNat x.toNat := by
            rw [utf8_cons, hc] at h
            exact (List.cons.inj h).1
          have hxnat : (UInt8.ofNat x.toNat).toNat = x.toNat :=
            UInt8.toNat_ofNat_of_lt' (Nat.lt_trans hx (by decide))
          -- the first byte is below `0x80`, so it is the whole first character
          have hascii : c.toNat < 0x80 := by
            refine ascii_of_byte (b := y) (by rw [hc]; exact List.mem_cons_self ..) ?_
            rw [hy, hxnat]
            exact hx
          rw [utf8_cons, utf8EncodeChar_ascii hascii] at h
          obtain ⟨hhead, htail⟩ := List.cons.inj h
          have hnat := congrArg UInt8.toNat hhead
          rw [hxnat, UInt8.toNat_ofNat_of_lt' (Nat.lt_trans hascii (by decide))] at hnat
          obtain rfl : c = x := Char.toNat_inj.mp hnat
          obtain ⟨d, rfl, hd⟩ := ih (fun c hc => hp c (List.mem_cons_of_mem _ hc)) htail
          exact ⟨d, rfl, hd⟩

/-- **An occurrence of ASCII bytes is an occurrence of the text.** -/
theorem ascii_occurrence {p t : List Char} {a b : List UInt8} (hne : p ≠ [])
    (hp : ∀ c ∈ p, c.toNat < 0x80) (h : utf8 t = a ++ utf8 p ++ b) :
    ∃ c d, t = c ++ p ++ d ∧ utf8 c = a := by
  induction t generalizing a with
  | nil =>
      obtain ⟨x, p, rfl⟩ := List.exists_cons_of_ne_nil hne
      rw [utf8_cons, utf8EncodeChar_ascii (hp x (List.mem_cons_self ..))] at h
      exact absurd h.symm (by simp)
  | cons c t ih =>
      have hstart : a = [] → ∃ c' d, c :: t = c' ++ p ++ d ∧ utf8 c' = a := by
        rintro rfl
        obtain ⟨d, hd, -⟩ := ascii_prefix hp h
        exact ⟨[], d, hd, rfl⟩
      rw [utf8_cons, List.append_assoc] at h
      have hlater : ∀ a', a = String.utf8EncodeChar c ++ a' → utf8 t = a' ++ (utf8 p ++ b) →
          ∃ c' d, c :: t = c' ++ p ++ d ∧ utf8 c' = a := by
        rintro a' rfl ht
        obtain ⟨c', d, rfl, rfl⟩ := ih (by rw [ht, List.append_assoc])
        exact ⟨c :: c', d, rfl, rfl⟩
      rcases List.append_eq_append_iff.mp h with ⟨a', ha, ht⟩ | ⟨q, hq, ht⟩
      · exact hlater a' ha ht
      · cases q with
        | nil => exact hlater [] (by rw [hq, List.append_nil, List.append_nil]) ht.symm
        | cons y q =>
            -- the pattern begins inside the first character
            obtain ⟨x, p, rfl⟩ := List.exists_cons_of_ne_nil hne
            have hx := hp x (List.mem_cons_self ..)
            rw [utf8_cons, utf8EncodeChar_ascii hx] at ht
            have hy : UInt8.ofNat x.toNat = y := (List.cons.inj ht).1
            have hascii : c.toNat < 0x80 := by
              refine ascii_of_byte (b := y) (by rw [hq]; simp) ?_
              rw [← hy, UInt8.toNat_ofNat_of_lt' (Nat.lt_trans hx (by decide))]
              exact hx
            rw [utf8EncodeChar_ascii hascii] at hq
            exact hstart (List.append_eq_singleton_iff.mp hq.symm |>.elim (fun h => h.1)
              fun h => nomatch h.2)

/-- The first character of an encoded text, and the bytes after it. -/
theorem decodeChar_utf8 (c : Char) (cs : List Char) :
    (ByteArray.mk (utf8 (c :: cs)).toArray).utf8DecodeChar? 0 = some c ∧
      (utf8 (c :: cs)).drop c.utf8Size = utf8 cs := by
  constructor
  · rw [← utf8Encode_eq, List.utf8DecodeChar?_utf8Encode_cons]
  · rw [utf8_cons, ← String.length_utf8EncodeChar, List.drop_left]

theorem length_le_utf8 (cs : List Char) : cs.length ≤ (utf8 cs).length := by
  induction cs with
  | nil => simp
  | cons c cs ih =>
      have hpos := c.utf8Size_pos
      rw [utf8_cons, List.length_append, String.length_utf8EncodeChar, List.length_cons]
      omega

/-! ## Scanning encoded text -/

/-- The first byte of a character. -/
def lead (c : Char) : UInt8 := (String.utf8EncodeChar c).headD 0

theorem lead_ascii {c : Char} (h : c.toNat < 0x80) : lead c = UInt8.ofNat c.toNat := by
  rw [lead, utf8EncodeChar_ascii h]
  rfl

theorem utf8_cons_ascii {c : Char} (h : c.toNat < 0x80) (cs : List Char) :
    utf8 (c :: cs) = UInt8.ofNat c.toNat :: utf8 cs := by
  rw [utf8_cons, utf8EncodeChar_ascii h]
  rfl

theorem utf8_cons_lead (c : Char) (cs : List Char) : ∃ bs, utf8 (c :: cs) = lead c :: bs := by
  obtain ⟨b, bs, hc⟩ := List.exists_cons_of_ne_nil (String.utf8EncodeChar_ne_nil (c := c))
  refine ⟨bs ++ utf8 cs, ?_⟩
  rw [utf8_cons, lead, hc]
  rfl

/-- The first byte of a character beyond ASCII is no ASCII byte. -/
theorem lead_high {c : Char} (h : 0x80 ≤ c.toNat) : 0x80 ≤ (lead c).toNat := by
  by_contra hlt
  obtain ⟨b, bs, hc⟩ := List.exists_cons_of_ne_nil (String.utf8EncodeChar_ne_nil (c := c))
  have hmem : lead c ∈ String.utf8EncodeChar c := by
    rw [lead, hc]
    exact List.mem_cons_self ..
  have := ascii_of_byte hmem (Nat.not_le.mp hlt)
  omega

theorem lead_eq_iff {c d : Char} (hd : d.toNat < 0x80) :
    lead c = UInt8.ofNat d.toNat ↔ c = d := by
  constructor
  · intro h
    have hnat : (lead c).toNat = d.toNat := by
      rw [h, UInt8.toNat_ofNat_of_lt' (Nat.lt_trans hd (by decide))]
    rcases Nat.lt_or_ge c.toNat 0x80 with hc | hc
    · rw [lead_ascii hc, UInt8.toNat_ofNat_of_lt' (Nat.lt_trans hc (by decide))] at hnat
      exact Char.toNat_inj.mp hnat
    · have := lead_high hc
      omega
  · rintro rfl
    exact lead_ascii hd

theorem head?_utf8 (cs : List Char) : (utf8 cs).head? = cs.head?.map lead := by
  cases cs with
  | nil => rfl
  | cons c cs =>
      obtain ⟨bs, h⟩ := utf8_cons_lead c cs
      rw [h]
      rfl

theorem head?_utf8_eq {cs : List Char} {d : Char} (hd : d.toNat < 0x80) :
    (utf8 cs).head? = some (UInt8.ofNat d.toNat) ↔ cs.head? = some d := by
  rw [head?_utf8, Option.map_eq_some_iff]
  constructor
  · rintro ⟨c, hc, heq⟩
    rw [hc, (lead_eq_iff hd).mp heq]
  · intro h
    exact ⟨d, h, lead_ascii hd⟩

theorem drop_one_utf8 {cs : List Char} {d : Char} (hd : d.toNat < 0x80)
    (h : cs.head? = some d) : (utf8 cs).drop 1 = utf8 (cs.drop 1) := by
  obtain ⟨cs, rfl⟩ := List.head?_eq_some_iff.mp h
  rw [utf8_cons_ascii hd]
  rfl

/-- A class of bytes and a class of characters that agree on ASCII and have no
other members. -/
structure AsciiClass (p : UInt8 → Bool) (q : Char → Bool) : Prop where
  ascii : ∀ n < 0x80, p (UInt8.ofNat n) = q (Char.ofNat n)
  byte : ∀ b : UInt8, 0x80 ≤ b.toNat → p b = false
  char : ∀ c : Char, 0x80 ≤ c.toNat → q c = false

theorem AsciiClass.lead {p : UInt8 → Bool} {q : Char → Bool} (h : AsciiClass p q) (c : Char) :
    p (lead c) = q c := by
  rcases Nat.lt_or_ge c.toNat 0x80 with hc | hc
  · rw [lead_ascii hc, h.ascii _ hc, Char.ofNat_toNat]
  · rw [h.byte _ (lead_high hc), h.char _ hc]

/-- **A byte scanner of an ASCII class stops where the character scanner does.** -/
theorem AsciiClass.dropWhile {p : UInt8 → Bool} {q : Char → Bool} (h : AsciiClass p q)
    (cs : List Char) : (utf8 cs).dropWhile p = utf8 (cs.dropWhile q) := by
  induction cs with
  | nil => rfl
  | cons c cs ih =>
      cases hq : q c with
      | true =>
          have hc : c.toNat < 0x80 := by
            by_contra hc
            rw [h.char c (Nat.not_lt.mp hc)] at hq
            cases hq
          have hp := h.lead c
          rw [lead_ascii hc, hq] at hp
          rw [utf8_cons_ascii hc, List.dropWhile_cons_of_pos hp, List.dropWhile_cons_of_pos hq, ih]
      | false =>
          obtain ⟨bs, hbs⟩ := utf8_cons_lead c cs
          have hp : ¬ p (Unicode.lead c) = true := by
            rw [h.lead c, hq]
            exact Bool.false_ne_true
          rw [List.dropWhile_cons_of_neg (by rw [hq]; exact Bool.false_ne_true), hbs,
            List.dropWhile_cons_of_neg hp]

/-- The bytes of a text are in the class when its characters are. -/
theorem AsciiClass.all {p : UInt8 → Bool} {q : Char → Bool} (h : AsciiClass p q)
    (cs : List Char) : (utf8 cs).all p = cs.all q := by
  induction cs with
  | nil => rfl
  | cons c cs ih =>
      have hp := h.lead c
      rcases Nat.lt_or_ge c.toNat 0x80 with hc | hc
      · rw [lead_ascii hc] at hp
        rw [utf8_cons_ascii hc, List.all_cons, List.all_cons, ih, hp]
      · obtain ⟨bs, hbs⟩ := utf8_cons_lead c cs
        rw [h.char c hc] at hp
        rw [hbs, List.all_cons, List.all_cons, hp, h.char c hc, Bool.false_and, Bool.false_and]

/-- A text of the class has one byte for each character. -/
theorem AsciiClass.length {p : UInt8 → Bool} {q : Char → Bool} (h : AsciiClass p q)
    {cs : List Char} (hcs : cs.all q = true) : (utf8 cs).length = cs.length := by
  induction cs with
  | nil => rfl
  | cons c cs ih =>
      rw [List.all_cons, Bool.and_eq_true] at hcs
      have hc : c.toNat < 0x80 := by
        by_contra hc
        rw [h.char c (Nat.not_lt.mp hc)] at hcs
        exact Bool.false_ne_true hcs.1
      rw [utf8_cons_ascii hc, List.length_cons, List.length_cons, ih hcs.2]

/-! ## UTF-16 -/

def isHigh (u : UInt16) : Bool := 0xD800 ≤ u.toNat && u.toNat ≤ 0xDBFF

def isLow (u : UInt16) : Bool := 0xDC00 ≤ u.toNat && u.toNat ≤ 0xDFFF

/-- The code units of one scalar value. -/
def utf16Char (c : Char) : List UInt16 :=
  if c.toNat < 0x10000 then [UInt16.ofNat c.toNat]
  else [UInt16.ofNat (0xD800 + (c.toNat - 0x10000) / 0x400),
    UInt16.ofNat (0xDC00 + (c.toNat - 0x10000) % 0x400)]

/-- The UTF-16 encoding of a text. -/
def utf16 (cs : List Char) : List UInt16 := cs.flatMap utf16Char

theorem utf16_cons (c : Char) (cs : List Char) : utf16 (c :: cs) = utf16Char c ++ utf16 cs := rfl

theorem utf16_append (cs ds : List Char) : utf16 (cs ++ ds) = utf16 cs ++ utf16 ds :=
  List.flatMap_append

/-- The pieces the string iterator yields: a surrogate pair, or one unit. -/
def codePoints : List UInt16 → List (List UInt16)
  | [] => []
  | [u] => [[u]]
  | u :: v :: us =>
      if isHigh u && isLow v then [u, v] :: codePoints us else [u] :: codePoints (v :: us)

/-- `codePointAt(0)`. -/
def codePointAt : List UInt16 → Nat
  | [] => 0
  | [u] => u.toNat
  | u :: v :: _ =>
      if isHigh u && isLow v then 0x10000 + (u.toNat - 0xD800) * 0x400 + (v.toNat - 0xDC00)
      else u.toNat

theorem toNat_valid (c : Char) : c.toNat < 0xD800 ∨ (0xDFFF < c.toNat ∧ c.toNat < 0x110000) :=
  c.valid

/-- The three shapes of an encoded scalar value. -/
theorem utf16Char_cases (c : Char) :
    (∃ u, utf16Char c = [u] ∧ u.toNat = c.toNat ∧ isHigh u = false ∧ isLow u = false) ∨
    (∃ u v, utf16Char c = [u, v] ∧ isHigh u = true ∧ isLow v = true ∧
      0x10000 + (u.toNat - 0xD800) * 0x400 + (v.toNat - 0xDC00) = c.toNat) := by
  have hv := toNat_valid c
  rw [utf16Char]
  split
  · left
    refine ⟨_, rfl, ?_, ?_, ?_⟩ <;> simp only [isHigh, isLow, UInt16.toNat_ofNat'] <;>
      simp <;> omega
  · right
    refine ⟨_, _, rfl, ?_, ?_, ?_⟩ <;> simp only [isHigh, isLow, UInt16.toNat_ofNat'] <;>
      simp <;> omega

theorem codePointAt_utf16Char (c : Char) : codePointAt (utf16Char c) = c.toNat := by
  rcases utf16Char_cases c with ⟨u, hu, hn, -, -⟩ | ⟨u, v, hu, hh, hl, hn⟩
  · rw [hu, codePointAt, hn]
  · rw [hu, codePointAt, if_pos (by rw [hh, hl]; rfl), hn]

theorem utf16Char_ne_nil (c : Char) : utf16Char c ≠ [] := by
  rw [utf16Char]
  split <;> simp

theorem utf16Char_ascii {c : Char} (h : c.toNat < 0x80) :
    utf16Char c = [UInt16.ofNat c.toNat] := by
  rw [utf16Char, if_pos (by omega)]

theorem utf16Char_inj {c d : Char} (h : utf16Char c = utf16Char d) : c = d := by
  have hn := congrArg codePointAt h
  rw [codePointAt_utf16Char, codePointAt_utf16Char] at hn
  exact Char.toNat_inj.mp hn

/-- **The iterator splits a text at its characters.** -/
theorem codePoints_utf16 (cs : List Char) : codePoints (utf16 cs) = cs.map utf16Char := by
  induction cs with
  | nil => rfl
  | cons c cs ih =>
      rw [utf16_cons, List.map_cons, ← ih]
      rcases utf16Char_cases c with ⟨u, hu, -, hh, -⟩ | ⟨u, v, hu, hh, hl, -⟩
      · rw [hu, List.singleton_append]
        cases utf16 cs with
        | nil => rfl
        | cons v us => rw [codePoints, hh, Bool.false_and]; rfl
      · rw [hu, List.cons_append, List.singleton_append, codePoints, hh, hl]
        rfl

theorem utf16_inj {cs ds : List Char} (h : utf16 cs = utf16 ds) : cs = ds := by
  have hp := congrArg codePoints h
  rw [codePoints_utf16, codePoints_utf16] at hp
  exact List.map_injective_iff.mpr (fun _ _ => utf16Char_inj) hp

end Unicode
