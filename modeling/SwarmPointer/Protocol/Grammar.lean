import SwarmPointer.JsonInput.Layout
import SwarmPointer.JsonInput.Tokens
import SwarmPointer.Protocol.Rules
import SwarmPointer.Python.Protocol

/-!
# Protocol — hexadecimal and decimal text

The patterns of the implementations describe exactly the texts `hex` and
`toDigits` write, so that an identifier is a tag and a digest, and a nonce a
number.

The patterns are the ones the sources use (`_SHA256_ID`, `_NONCE` and so on),
modelled as tests of characters; the other side is a byte string or a number.
Each result is an equivalence with a witness: a text matches exactly when it is
the text of something, and that something is unique.
-/

namespace SwarmPointer.Protocol

open JsonGrammar Python Python.Protocol

/-! ## Hexadecimal -/

theorem isLowerHex_hexDigit {n : Nat} (h : n < 16) : isLowerHex (hexDigit n) = true := by
  have key : ∀ n < 16, isLowerHex (hexDigit n) = true := by decide
  exact key n h

/-- A lower-case digit is the digit of its value. -/
theorem exists_hexDigit {c : Char} (h : isLowerHex c = true) : ∃ n < 16, hexDigit n = c := by
  simp only [isLowerHex, isDigit, Char.isDigit, Bool.or_eq_true, Bool.and_eq_true,
    decide_eq_true_eq] at h
  rcases h with ⟨h1, h2⟩ | ⟨h1, h2⟩
  · have hlo : 48 ≤ c.toNat := h1
    have hhi : c.toNat ≤ 57 := h2
    refine ⟨c.toNat - 48, by omega, ?_⟩
    rw [hexDigit, if_pos (by omega), Nat.add_sub_cancel' hlo, Char.ofNat_toNat]
  · have hlo : 97 ≤ c.toNat := h1
    have hhi : c.toNat ≤ 102 := h2
    refine ⟨c.toNat - 87, by omega, ?_⟩
    rw [hexDigit, if_neg (by omega), Nat.add_sub_cancel' (by omega), Char.ofNat_toNat]

theorem lowerHex_le {c : Char} (h : isLowerHex c = true) : c.toNat ≤ 102 := by
  simp only [isLowerHex, isDigit, Char.isDigit, Bool.or_eq_true, Bool.and_eq_true,
    decide_eq_true_eq] at h
  rcases h with h | h
  · exact le_trans (show c.toNat ≤ 57 from h.2) (by decide)
  · exact h.2

theorem hex_cons (b : UInt8) (bs : Bytes) :
    hex (b :: bs) = hexDigit (b.toNat / 16) :: hexDigit (b.toNat % 16) :: hex bs := rfl

theorem hex_length (bs : Bytes) : (hex bs).length = 2 * bs.length := by
  induction bs with
  | nil => rfl
  | cons b bs ih =>
      rw [hex_cons, List.length_cons, List.length_cons, List.length_cons, ih]
      omega

theorem hex_lower (bs : Bytes) : (hex bs).all isLowerHex = true := by
  induction bs with
  | nil => rfl
  | cons b bs ih =>
      have hb := b.toNat_lt
      rw [hex_cons, List.all_cons, List.all_cons, ih, isLowerHex_hexDigit (by omega),
        isLowerHex_hexDigit (by omega)]
      rfl

/-- **`bytes.fromhex` undoes `hex`.** -/
theorem fromHex_hex (bs : Bytes) : fromHex (hex bs) = .ok bs := by
  induction bs with
  | nil => rfl
  | cons b bs ih =>
      have hb := b.toNat_lt
      have hsum : 16 * (b.toNat / 16) + b.toNat % 16 = b.toNat := Nat.div_add_mod _ _
      rw [hex_cons, fromHex, hexVal_hexDigit (by omega), hexVal_hexDigit (by omega), ih]
      simp only [hsum, UInt8.ofNat_toNat]
      rfl

theorem hex_inj {as bs : Bytes} (h : hex as = hex bs) : as = bs := by
  have h' := fromHex_hex as
  rw [h, fromHex_hex] at h'
  exact (Except.ok.inj h').symm

theorem idText_inj {d d' : Digest} (h : idText d = idText d') : d = d' :=
  Subtype.ext (hex_inj (List.append_cancel_left h))

/-- **An even number of lower-case digits is the text of a byte string.** -/
theorem lowerHex_iff {s : Str} {n : Nat} :
    s.length = 2 * n ∧ s.all isLowerHex = true ↔ ∃ bs : Bytes, bs.length = n ∧ s = hex bs := by
  constructor
  · rintro ⟨hlen, hall⟩
    induction n generalizing s with
    | zero => exact ⟨[], rfl, List.eq_nil_of_length_eq_zero hlen⟩
    | succ n ih =>
        match s, hlen with
        | a :: b :: s, hlen =>
            rw [List.all_cons, List.all_cons, Bool.and_eq_true, Bool.and_eq_true] at hall
            simp only [List.length_cons] at hlen
            obtain ⟨x, hx, rfl⟩ := exists_hexDigit hall.1
            obtain ⟨y, hy, rfl⟩ := exists_hexDigit hall.2.1
            obtain ⟨bs, hbs, rfl⟩ := ih (by omega) hall.2.2
            refine ⟨UInt8.ofNat (16 * x + y) :: bs, by rw [List.length_cons, hbs], ?_⟩
            have hval : (UInt8.ofNat (16 * x + y)).toNat = 16 * x + y := by
              rw [UInt8.toNat_ofNat']
              omega
            rw [hex_cons, hval]
            congr 2
            · omega
            · congr 2
              omega
  · rintro ⟨bs, rfl, rfl⟩
    exact ⟨hex_length bs, hex_lower bs⟩

theorem SIG_iff {s : Str} : SIG s = true ↔ ∃ bs : Bytes, bs.length = 64 ∧ s = hex bs := by
  rw [SIG, Bool.and_eq_true, decide_eq_true_eq]
  exact lowerHex_iff (n := 64)

theorem taggedHex_iff {tag s : Str} :
    taggedHex tag s = true ↔ ∃ bs : Bytes, bs.length = 32 ∧ s = tag ++ hex bs := by
  simp only [taggedHex, Bool.and_eq_true, decide_eq_true_eq]
  constructor
  · rintro ⟨⟨htag, hlen⟩, hall⟩
    obtain ⟨bs, hbs, hs⟩ := lowerHex_iff.mp (⟨hlen, hall⟩ : _ = 2 * 32 ∧ _)
    refine ⟨bs, hbs, ?_⟩
    rw [← hs]
    conv_lhs => rw [← List.take_append_drop tag.length s, htag]
  · rintro ⟨bs, hbs, rfl⟩
    rw [List.take_left, List.drop_left]
    exact ⟨⟨rfl, by rw [hex_length, hbs]⟩, hex_lower bs⟩

/-! ## Decimal -/

/-- A digit string without leading zeros is the numeral of its value. -/
theorem toDigits_ofDigitChars {s : Str} (hdigits : ∀ c ∈ s, isDigit c = true) (hne : s ≠ [])
    (hlead : s.head? ≠ some '0') : Nat.toDigits 10 (Nat.ofDigitChars 10 s 0) = s ∧
      0 < Nat.ofDigitChars 10 s 0 := by
  induction s using List.reverseRecOn with
  | nil => exact absurd rfl hne
  | append_singleton s d ih =>
      have hd : isDigit d = true := hdigits d (by simp)
      simp only [isDigit, Char.isDigit, ge_iff_le, Bool.and_eq_true, decide_eq_true_eq] at hd
      have hlo : 48 ≤ d.toNat := hd.1
      have hhi : d.toNat ≤ 57 := hd.2
      have hchar : ∀ n < 10, Nat.digitChar n = Char.ofNat (48 + n) := by decide
      have hdc : Nat.digitChar (d.toNat - 48) = d := by
        rw [hchar _ (by omega), Nat.add_sub_cancel' hlo, Char.ofNat_toNat]
      have hval : Nat.ofDigitChars 10 (s ++ [d]) 0 =
          10 * Nat.ofDigitChars 10 s 0 + (d.toNat - 48) := by
        rw [Nat.ofDigitChars_append, Nat.ofDigitChars_cons, Nat.ofDigitChars_nil]
        rfl
      by_cases hs : s = []
      · subst hs
        have hd0 : d ≠ '0' := fun h => hlead (by rw [h]; rfl)
        have hpos : d.toNat - 48 ≠ 0 := by
          intro h
          apply hd0
          rw [← hdc, h]
          rfl
        have hnil : Nat.ofDigitChars 10 [] 0 = 0 := rfl
        rw [hval, hnil, Nat.mul_zero, Nat.zero_add, Nat.toDigits_of_lt_base (by omega), hdc]
        exact ⟨rfl, by omega⟩
      · rw [List.head?_append_of_ne_nil _ hs] at hlead
        obtain ⟨ih1, ih2⟩ := ih (fun c hc => hdigits c (List.mem_append_left _ hc)) hs hlead
        rw [hval, ← Nat.toDigits_append_toDigits (by decide) ih2 (by omega), ih1,
          Nat.toDigits_of_lt_base (by omega), hdc]
        exact ⟨rfl, by omega⟩

theorem int_toDigits (n : Nat) : int (Nat.toDigits 10 n) = .ok (n : Int) := by
  have hval := JsonInput.intValue_text .none (JsonInput.natDigits n)
  have hskip := JsonInput.skipSign_text .none (JsonInput.natDigits n) []
  rw [Sign.text, List.nil_append] at hval hskip
  rw [List.append_nil] at hskip
  have hds : Nat.toDigits 10 n = (JsonInput.natDigits n).1 := rfl
  rw [hds, int_eq, hval]
  · simp only [Exponent.value, JsonInput.digitsValue_natDigits]
  · rw [hskip]
    exact (JsonInput.natDigits n).2.1
  · rw [hskip]
    exact List.all_eq_true.mpr (JsonInput.natDigits n).2.2

theorem NONCE_numeral {s : Str} (hs : NONCE s = true) : ∃ n, s = Nat.toDigits 10 n := by
  by_cases h0 : s = ['0']
  · exact ⟨0, by rw [h0]; rfl⟩
  · match s with
    | [] => cases hs
    | c :: s =>
        rw [NONCE] at hs
        · simp only [Bool.and_eq_true, decide_eq_true_eq] at hs
          obtain ⟨⟨⟨hc, hc0⟩, -⟩, hall⟩ := hs
          refine ⟨_, (toDigits_ofDigitChars ?_ (List.cons_ne_nil c s) ?_).1.symm⟩
          · intro d hd
            rcases List.mem_cons.mp hd with rfl | hd
            · exact hc
            · exact List.all_eq_true.mp hall d hd
          · exact fun h => hc0 (Option.some.inj h)
        · rintro rfl rfl
          exact h0 rfl

/-- **The nonce grammar and range describe the numerals up to `MAX_NONCE`.** -/
theorem NONCE_iff {s : Str} :
    (NONCE s = true ∧ ∃ m, int s = .ok m ∧ m ≤ MAX_NONCE) ↔
      ∃ n ≤ 2 ^ 64 - 1, s = Nat.toDigits 10 n := by
  have hmax : MAX_NONCE = 2 ^ 64 - 1 := by decide
  constructor
  · rintro ⟨hs, m, hm, hle⟩
    obtain ⟨n, rfl⟩ := NONCE_numeral hs
    rw [int_toDigits] at hm
    rw [← Except.ok.inj hm, hmax] at hle
    exact ⟨n, by omega, rfl⟩
  · rintro ⟨n, hn, rfl⟩
    rw [int_toDigits, hmax]
    refine ⟨?_, n, rfl, by omega⟩
    rcases Nat.eq_zero_or_pos n with rfl | hpos
    · rfl
    · have hlead := JsonInput.toDigits_head hpos
      have hlen : (Nat.toDigits 10 n).length ≤ 20 :=
        (Nat.length_toDigits_le_iff (by decide) (by decide)).mpr (by omega)
      have hall : ∀ c ∈ Nat.toDigits 10 n, isDigit c = true := fun c hc =>
        Nat.isDigit_of_mem_toDigits (by decide) (by decide) hc
      cases hds : Nat.toDigits 10 n with
      | nil => exact absurd hds Nat.toDigits_ne_nil
      | cons c s =>
          rw [hds] at hlead hlen hall
          have hc0 : c ≠ '0' := fun h => hlead (by rw [h]; rfl)
          rw [NONCE]
          · simp only [Bool.and_eq_true, decide_eq_true_eq]
            refine ⟨⟨⟨hall c (List.mem_cons_self ..), hc0⟩, ?_⟩, ?_⟩
            · rw [List.length_cons] at hlen
              omega
            · exact List.all_eq_true.mpr fun d hd => hall d (List.mem_cons_of_mem _ hd)
          · rintro rfl rfl
            exact hc0 rfl

end SwarmPointer.Protocol
