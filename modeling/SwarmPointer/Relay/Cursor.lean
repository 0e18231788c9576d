import SwarmPointer.Python.Store

/-!
# Relay — cursors

A cursor names the `seq` it was made from: the decimal text, in base64 with the
URL-safe alphabet and without the padding. `decode_cursor` puts the padding
back, and then reads whatever `int` reads; what the tokens denote, with every
token the relay never issued, is said in `Denotes`, over the bits of the token
and the numerals of `int`.
-/

namespace SwarmPointer.Relay

open Python Python.Store

theorem digit_ascii {c : Char} (h : isDigit c = true) : c.toNat < 0x80 := by
  simp only [isDigit, Char.isDigit, Bool.and_eq_true, decide_eq_true_eq] at h
  have hle : c.toNat ≤ 57 := h.2
  omega

/-- `decode("ascii")` reads exactly the ASCII text. -/
theorem decodeAscii_eq_ok {raw : Bytes} {t : Str} :
    decodeAscii raw = .ok t ↔ (∀ c ∈ t, c.toNat < 0x80) ∧ raw = Unicode.utf8 t := by
  have hchar : ∀ b : UInt8, b < 128 → (Char.ofNat b.toNat).toNat = b.toNat := fun b hb => by
    rw [UInt8.lt_iff_toNat_lt] at hb
    have hb' : b.toNat < 128 := hb
    have hvalid : b.toNat.isValidChar := .inl (by omega)
    rw [Char.ofNat, dif_pos hvalid]
    rfl
  constructor
  · intro h
    rw [decodeAscii] at h
    split at h
    next hascii =>
      obtain rfl := Except.ok.inj h
      have ht : ∀ c ∈ raw.map fun b => Char.ofNat b.toNat, c.toNat < 0x80 := by
        intro c hc
        obtain ⟨b, hb, rfl⟩ := List.mem_map.mp hc
        rw [hchar b (hascii b hb)]
        exact UInt8.lt_iff_toNat_lt.mp (hascii b hb)
      refine ⟨ht, ?_⟩
      rw [Unicode.utf8_ascii ht, List.map_map]
      conv_lhs => rw [← List.map_id raw]
      refine List.map_congr_left fun b hb => ?_
      rw [Function.comp_apply, hchar b (hascii b hb), UInt8.ofNat_toNat, id]
    next => cases h
  · rintro ⟨ht, rfl⟩
    have hval : ∀ c ∈ t, (UInt8.ofNat c.toNat).toNat = c.toNat := fun c hc => by
      have hlt := ht c hc
      rw [UInt8.toNat_ofNat']
      omega
    rw [decodeAscii, Unicode.utf8_ascii ht, if_pos, List.map_map]
    · refine congrArg Except.ok ?_
      conv_rhs => rw [← List.map_id t]
      refine List.map_congr_left fun c hc => ?_
      rw [Function.comp_apply, hval c hc, Char.ofNat_toNat, id]
    · intro b hb
      obtain ⟨c, hc, rfl⟩ := List.mem_map.mp hb
      rw [UInt8.lt_iff_toNat_lt, hval c hc]
      exact ht c hc

/-- **A cursor decodes to the `seq` it encodes.** -/
theorem decodeCursor_encodeCursor {n : Nat} (h : n < 2 ^ 63) :
    decodeCursor (encodeCursor n) = .ok n := by
  have hdigits : ∀ c ∈ Nat.toDigits 10 n, isDigit c = true := fun c hc =>
    Nat.isDigit_of_mem_toDigits (by decide) (by decide) hc
  have hne : Nat.toDigits 10 n ≠ [] := Nat.toDigits_ne_nil
  have hlen : (Nat.toDigits 10 n).length ≤ 19 :=
    (Nat.length_toDigits_le_iff (by decide) (by decide)).mpr (by omega)
  have hbytes : Unicode.utf8 (Nat.toDigits 10 n) ≠ [] := by
    intro hnil
    have := Unicode.length_le_utf8 (Nat.toDigits 10 n)
    rw [hnil, List.length_nil, Nat.le_zero, List.length_eq_zero_iff] at this
    exact hne this
  obtain ⟨hall, hpad, hstrip⟩ := Base64.strip_encode (Unicode.utf8 (Nat.toDigits 10 n))
  have hre : CURSOR_RE (encodeCursor n) = true := by
    rw [CURSOR_RE, encodeCursor, Bool.and_eq_true]
    exact ⟨decide_eq_true (hstrip hbytes), List.all_eq_true.mpr hall⟩
  have hint : cursorInt (Unicode.utf8 (Nat.toDigits 10 n)) = .ok (n : Int) := by
    have hval : intText (Nat.toDigits 10 n) = .ok (n : Int) := by
      rw [intText_digits hne hdigits (hlen.trans (by decide)),
        Nat.ofDigitChars_toDigits (by decide) (by decide)]
    rw [cursorInt, decodeAscii_eq_ok.mpr ⟨fun c hc => digit_ascii (hdigits c hc), rfl⟩,
      Except.ok_bind, hval]
  have hraw : urlsafeB64decode (Base64.pad (encodeCursor n)) =
      .ok (Unicode.utf8 (Nat.toDigits 10 n)) := by
    rw [urlsafeB64decode, encodeCursor, hpad, Base64.decode_encode]
  rw [decodeCursor, if_pos hre, hraw, Except.ok_bind, hint, Except.ok_bind, if_neg (by omega)]
  rfl

/-! ## Tokens -/

/-- The characters `[A-Za-z0-9_-]`. -/
def UrlSafe (c : Char) : Prop := c.isAlphanum = true ∨ c = '_' ∨ c = '-'

theorem urlSafe_iff {c : Char} : UrlSafe c ↔ (Base64.digitVal c).isSome = true := by
  have hval : ∀ a b : Char, a ≤ b ↔ a.val ≤ b.val := fun _ _ => Iff.rfl
  have halnum : c.isAlphanum = (decide (c.val ≥ 'A'.val ∧ c.val ≤ 'Z'.val) ||
      decide (c.val ≥ 'a'.val) && decide (c.val ≤ 'z'.val) ||
      decide (c.val ≥ '0'.val) && decide (c.val ≤ '9'.val)) := rfl
  rw [UrlSafe, halnum, Base64.digitVal]
  simp only [Bool.or_eq_true, Bool.and_eq_true, decide_eq_true_eq, hval]
  split
  next hupper => exact iff_of_true (.inl (.inl (.inl hupper))) rfl
  next hupper =>
  split
  next hlower => exact iff_of_true (.inl (.inl (.inr hlower))) rfl
  next hlower =>
  split
  next hdigit => exact iff_of_true (.inl (.inr hdigit)) rfl
  next hdigit =>
  split
  next hdash => exact iff_of_true (.inr (.inr hdash)) rfl
  next hdash =>
  split
  next hunder => exact iff_of_true (.inr (.inl hunder)) rfl
  next hunder =>
    refine iff_of_false ?_ Bool.false_ne_true
    rintro (((h | h) | h) | h | h)
    · exact hupper h
    · exact hlower h
    · exact hdigit h
    · exact hunder h
    · exact hdash h

/-- What a cursor is written with. -/
theorem encodeCursor_chars (n : Nat) : encodeCursor n ≠ [] ∧ ∀ c ∈ encodeCursor n, UrlSafe c := by
  obtain ⟨hall, -, hstrip⟩ := Base64.strip_encode (Unicode.utf8 (Nat.toDigits 10 n))
  have hbytes : Unicode.utf8 (Nat.toDigits 10 n) ≠ [] := by
    intro hnil
    have hlen := Unicode.length_le_utf8 (Nat.toDigits 10 n)
    rw [hnil, List.length_nil, Nat.le_zero, List.length_eq_zero_iff] at hlen
    exact Nat.toDigits_ne_nil hlen
  exact ⟨hstrip hbytes, fun c hc => urlSafe_iff.mpr (hall c hc)⟩

/-- The token is URL-safe text, its bits are those of an ASCII numeral and
fewer than a character's more, and `n` is the value of the numeral. -/
def Denotes (token : Str) (n : Nat) : Prop :=
  token ≠ [] ∧ (∀ c ∈ token, UrlSafe c) ∧ ∃ (m : Numeral) (rest : List Bool),
    (∀ c ∈ m.text, c.toNat < 0x80) ∧ m.value = n ∧ rest.length < 6 ∧
      Base64.digitBits token = Base64.byteBits (Unicode.utf8 m.text) ++ rest

theorem cursorRe_iff {token : Str} : CURSOR_RE token = true ↔
    token ≠ [] ∧ ∀ c ∈ token, (Base64.digitVal c).isSome = true := by
  rw [CURSOR_RE, Bool.and_eq_true, decide_eq_true_eq, List.all_eq_true]

theorem cursorInt_eq_ok {raw : Bytes} {z : Int} : cursorInt raw = .ok z ↔
    ∃ m : Numeral, (∀ c ∈ m.text, c.toNat < 0x80) ∧ raw = Unicode.utf8 m.text ∧ m.value = z := by
  constructor
  · intro h
    rw [cursorInt] at h
    split at h
    next seq hbind =>
      obtain rfl := Except.ok.inj h
      obtain ⟨t, ht, hz⟩ := Except.bind_eq_ok_iff.mp hbind
      obtain ⟨m, rfl, hm⟩ := intText_iff.mp hz
      obtain ⟨hascii, hraw⟩ := decodeAscii_eq_ok.mp ht
      exact ⟨m, hascii, hraw, hm⟩
    next => cases h
  · rintro ⟨m, hascii, hraw, hm⟩
    rw [cursorInt, decodeAscii_eq_ok.mpr ⟨hascii, hraw⟩, Except.ok_bind,
      intText_iff.mpr ⟨m, rfl, hm⟩]

/-- **A token decodes to the number it denotes, and no other token decodes.** -/
theorem decodeCursor_eq_ok {token : Str} {n : Nat} :
    decodeCursor token = .ok n ↔ Denotes token n := by
  have hurl : (∀ c ∈ token, UrlSafe c) ↔ ∀ c ∈ token, (Base64.digitVal c).isSome = true :=
    forall₂_congr fun c _ => urlSafe_iff
  constructor
  · intro h
    rw [decodeCursor] at h
    split at h
    next hre =>
      obtain ⟨hne, hdigits⟩ := cursorRe_iff.mp hre
      obtain ⟨raw, hraw, htail⟩ := Except.bind_eq_ok_iff.mp h
      obtain ⟨z, hz, hn⟩ := Except.bind_eq_ok_iff.mp htail
      obtain ⟨m, hascii, rfl, hm⟩ := cursorInt_eq_ok.mp hz
      rw [urlsafeB64decode] at hraw
      split at hraw
      next hdec =>
        obtain rfl := Except.ok.inj hraw
        -- the bits behind the last byte are not looked at
        obtain ⟨rest, hbits, hshort⟩ := (Base64.decode_pad_iff hdigits).mp hdec
        split at hn
        next => cases hn
        next hneg =>
          have hn : z.toNat = n := Except.ok.inj hn
          exact ⟨hne, hurl.mpr hdigits, m, rest, hascii, by omega, hshort, hbits⟩
      next => cases hraw
    next => cases h
  · rintro ⟨hne, hsafe, m, rest, hascii, hm, hshort, hbits⟩
    have hdigits := hurl.mp hsafe
    have hraw : urlsafeB64decode (Base64.pad token) = .ok (Unicode.utf8 m.text) := by
      rw [urlsafeB64decode, (Base64.decode_pad_iff hdigits).mpr ⟨rest, hbits, hshort⟩]
    rw [decodeCursor, if_pos (cursorRe_iff.mpr ⟨hne, hdigits⟩), hraw, Except.ok_bind,
      cursorInt_eq_ok.mpr ⟨m, hascii, rfl, hm⟩, Except.ok_bind, if_neg (by omega)]
    rfl

/-- **Cursor tokens round-trip and are URL-safe**, and none has a padding
character. -/
theorem cursor_tokens {n : Nat} (h : n < 2 ^ 63) :
    encodeCursor n ≠ [] ∧ (∀ c ∈ encodeCursor n, UrlSafe c) ∧ '=' ∉ encodeCursor n ∧
      decodeCursor (encodeCursor n) = .ok n ∧
      ∀ m < 2 ^ 63, encodeCursor m = encodeCursor n → m = n := by
  obtain ⟨hne, hsafe⟩ := encodeCursor_chars n
  have hdecode := decodeCursor_encodeCursor h
  refine ⟨hne, hsafe, ?_, hdecode, ?_⟩
  · intro hpad
    rcases hsafe '=' hpad with h | h | h <;> exact absurd h (by decide)
  · intro m hm heq
    have hback := decodeCursor_encodeCursor hm
    rw [heq, hdecode] at hback
    exact (Except.ok.inj hback).symm

/-- The largest number a relay encodes. -/
theorem cursor_tokens_max :
    2 ^ 63 - 1 < 2 ^ 63 ∧ decodeCursor (encodeCursor (2 ^ 63 - 1)) = .ok (2 ^ 63 - 1) :=
  have h : 2 ^ 63 - 1 < 2 ^ 63 := by decide
  ⟨h, (cursor_tokens h).2.2.2.1⟩

end SwarmPointer.Relay
