import SwarmPointer.Go.Value
import SwarmPointer.Jcs.Strings
import SwarmPointer.JsonInput.Parse

/-!
# JSON input — the Go scanners

Strings and numbers: on the UTF-8 of a text, `parseString` and `parseNumber`
return what `_string` and `_number` return on the text, and an error where
these raise.

`Mirrors` is one half of agreement with the panic ruled out: whatever the
Python call does, the Go call returns or fails with an error of its own. The
bytes and the characters are stepped through together; the reason it works is
that every byte the scanners look at is ASCII, and the bytes of
a longer sequence are decoded and written out again. Noncharacters are found at
different times, by Go as it reads them and by `_string` when it has read the
whole string; since both fail in the end the difference is not seen.
-/

namespace SwarmPointer.JsonInput

open JsonGrammar Python Python.JsonInput Unicode

/-! ## Agreement -/

/-- The Go call returns the encoding of what the Python call returns, or an
error where that one raises. It does not panic. -/
def Mirrors {α β : Type} (enc : α → β) (x : Py α) (y : Go.Scan β) : Prop :=
  (∃ a, x = .ok a ∧ y = .ok (enc a)) ∨ ∃ e e', x = .error e ∧ y = .error (.err e')

section
variable {α β γ δ : Type} {enc : α → β} {enc' : γ → δ}

theorem Mirrors.ok (a : α) : Mirrors enc (.ok a) (.ok (enc a)) := .inl ⟨a, rfl, rfl⟩

theorem Mirrors.error (e : Exn) (e' : Go.ParseError) :
    Mirrors enc (.error e) (.error (.err e')) := .inr ⟨e, e', rfl, rfl⟩

theorem Mirrors.bind {x : Py α} {y : Go.Scan β} {f : α → Py γ} {g : β → Go.Scan δ}
    (h : Mirrors enc x y) (hf : ∀ a, x = .ok a → Mirrors enc' (f a) (g (enc a))) :
    Mirrors enc' (x >>= f) (y >>= g) := by
  rcases h with ⟨a, rfl, rfl⟩ | ⟨e, e', rfl, rfl⟩
  · exact hf a rfl
  · exact .error e e'

end

/-! ## Character classes -/

theorem isDigit_class : AsciiClass Go.Value.isDigit isDigit where
  ascii := by decide
  byte b hb := by
    have hlt : ¬ b ≤ 0x39 := by
      rw [UInt8.le_iff_toNat_le]
      exact Nat.not_le.mpr (Nat.lt_of_lt_of_le (by decide) hb)
    rw [Go.Value.isDigit, decide_eq_false hlt, Bool.and_false]
  char c hc := by
    cases h : isDigit c with
    | false => rfl
    | true =>
        have := isDigit_ascii h
        omega

theorem isHex_class : AsciiClass Go.Value.isHex inHex where
  ascii := by decide
  byte b hb := by
    have hlt : ∀ n : UInt8, n.toNat < 0x80 → ¬ b ≤ n := by
      intro n hn hle
      rw [UInt8.le_iff_toNat_le] at hle
      omega
    simp only [Go.Value.isHex, isDigit_class.byte b hb, decide_eq_false (hlt 0x66 (by decide)),
      decide_eq_false (hlt 0x46 (by decide)), Bool.and_false, Bool.or_false]
  char c hc := by
    cases h : inHex c with
    | false => rfl
    | true =>
        rw [inHex_eq] at h
        have := hexVal_ascii h
        omega

theorem skipWS_class :
    AsciiClass (fun c => c == 0x20 || c == 0x09 || c == 0x0A || c == 0x0D) inWs where
  ascii := by decide
  byte b hb := by
    have hne : ∀ n : UInt8, n.toNat < 0x80 → (b == n) = false := by
      intro n hn
      rw [beq_eq_false_iff_ne]
      rintro rfl
      omega
    simp only [hne 0x20 (by decide), hne 0x09 (by decide), hne 0x0A (by decide),
      hne 0x0D (by decide), Bool.or_false]
  char c hc := by
    have hne : ∀ d : Char, d.toNat < 0x80 → decide (c = d) = false := by
      intro d hd
      rw [decide_eq_false_iff_not]
      rintro rfl
      omega
    simp only [inWs, hne ' ' (by decide), hne '\t' (by decide), hne '\n' (by decide),
      hne '\r' (by decide), Bool.or_false]

theorem skipWS_utf8 (s : Str) : Go.Value.skipWS (utf8 s) = utf8 (ws s) := skipWS_class.dropWhile s

/-! ## Numbers -/

theorem digits_mirrors (s : Str) : Mirrors utf8 (digitRun s) (Go.Value.digits (utf8 s)) := by
  cases s with
  | nil => exact .error _ _
  | cons c s =>
      obtain ⟨bs, hbs⟩ := utf8_cons_lead c s
      have hdrop := isDigit_class.dropWhile (c :: s)
      rw [hbs] at hdrop ⊢
      rw [digitRun, Go.Value.digits, isDigit_class.lead c]
      cases isDigit c with
      | true =>
          refine .inl ⟨_, rfl, ?_⟩
          rw [if_pos rfl, hdrop]
      | false => exact .error _ _

theorem integer_mirrors (s : Str) : Mirrors utf8 (integerPart s) (Go.Value.integer (utf8 s)) := by
  cases s with
  | nil => exact .error _ _
  | cons c s =>
      obtain ⟨bs, hbs⟩ := utf8_cons_lead c s
      have hdrop := isDigit_class.dropWhile (c :: s)
      have hzero : lead c = 0x30 ↔ c = '0' := lead_eq_iff (d := '0') (by decide)
      rw [hbs] at hdrop ⊢
      simp only [integerPart, Go.Value.integer, isDigit_class.lead c, hzero]
      cases isDigit c with
      | false => exact .error _ _
      | true =>
          have hdigit : ¬ (!true) = true := by decide
          by_cases h0 : c = '0'
          · simp only [if_neg hdigit, if_pos h0]
            obtain rfl : bs = utf8 s := by
              have h := hbs
              rw [h0, utf8_cons_ascii (by decide)] at h
              exact (List.cons.inj h).2.symm
            exact .ok s
          · simp only [if_neg hdigit, if_neg h0, hdrop]
            exact .ok _

theorem fraction_mirrors (s : Str) : Mirrors utf8 (fractionPart s) (Go.Value.fraction (utf8 s)) := by
  have hdot : (utf8 s).head? = some 0x2E ↔ s.head? = some '.' :=
    head?_utf8_eq (d := '.') (by decide)
  simp only [fractionPart, Go.Value.fraction, hdot]
  split
  · rename_i h
    rw [drop_one_utf8 (by decide) h]
    exact digits_mirrors _
  · exact .ok s

theorem exponent_mirrors (s : Str) : Mirrors utf8 (exponentPart s) (Go.Value.exponent (utf8 s)) := by
  have hlower : (utf8 s).head? = some 0x65 ↔ s.head? = some 'e' :=
    head?_utf8_eq (d := 'e') (by decide)
  have hupper : (utf8 s).head? = some 0x45 ↔ s.head? = some 'E' :=
    head?_utf8_eq (d := 'E') (by decide)
  have hsign : ∀ t : Str, (if (utf8 t).head? = some 0x2B ∨ (utf8 t).head? = some 0x2D then
      (utf8 t).drop 1 else utf8 t) = utf8 (skipSign t) := by
    intro t
    have hplus : (utf8 t).head? = some 0x2B ↔ t.head? = some '+' :=
      head?_utf8_eq (d := '+') (by decide)
    have hminus : (utf8 t).head? = some 0x2D ↔ t.head? = some '-' :=
      head?_utf8_eq (d := '-') (by decide)
    simp only [hplus, hminus]
    split
    · rename_i h
      rcases h with h | h
      · rw [drop_one_utf8 (by decide) h]
        obtain ⟨t, rfl⟩ := List.head?_eq_some_iff.mp h
        rfl
      · rw [drop_one_utf8 (by decide) h]
        obtain ⟨t, rfl⟩ := List.head?_eq_some_iff.mp h
        rfl
    · rename_i h
      rw [not_or] at h
      rw [skipSign.eq_def]
      split
      · exact absurd rfl h.1
      · exact absurd rfl h.2
      · rfl
  simp only [exponentPart, Go.Value.exponent, hlower, hupper]
  split
  · rename_i h
    have hdrop : (utf8 s).drop 1 = utf8 (s.drop 1) := by
      rcases h with h | h
      · exact drop_one_utf8 (by decide) h
      · exact drop_one_utf8 (by decide) h
    rw [hdrop, hsign]
    exact digits_mirrors _
  · exact .ok s

/-- The number scanner; `p.data[p.pos]` is in range. -/
theorem scanNumber_mirrors {s : Str} (hs : s ≠ []) :
    Mirrors utf8 (scanNumber s) (Go.Value.scanNumber (utf8 s)) := by
  obtain ⟨c, s, rfl⟩ := List.exists_cons_of_ne_nil hs
  obtain ⟨bs, hbs⟩ := utf8_cons_lead c s
  have hminus : lead c = 0x2D ↔ c = '-' := lead_eq_iff (d := '-') (by decide)
  have hstart : (if lead c = 0x2D then (utf8 (c :: s)).drop 1 else utf8 (c :: s)) =
      utf8 (if (c :: s).head? = some '-' then (c :: s).drop 1 else c :: s) := by
    simp only [hminus, List.head?_cons, Option.some_inj]
    split
    · rename_i h
      exact drop_one_utf8 (by decide) (congrArg some h)
    · rfl
  have hindex : Go.indexed (utf8 (c :: s)) = .ok (lead c) := by
    rw [hbs]
    rfl
  rw [scanNumber, Go.Value.scanNumber, hindex, Except.ok_bind, hstart]
  refine (integer_mirrors _).bind fun i _ => ?_
  exact (fraction_mirrors i).bind fun i _ => exponent_mirrors i

/-- `ParseFloat` on a token of the grammar. -/
theorem parseFloat_text (x : Number) : Go.parseFloat (utf8 x.text) = some (numberValue x) := by
  have hchars : (utf8 x.text).map (fun b => Char.ofNat b.toNat) = x.text := by
    have key : ∀ s : Str, Ascii s → (utf8 s).map (fun b => Char.ofNat b.toNat) = s := by
      intro s
      induction s with
      | nil => exact fun _ => rfl
      | cons c s ih =>
          intro h
          have hc := h c (List.mem_cons_self ..)
          rw [utf8_cons_ascii hc, List.map_cons, ih fun d hd => h d (List.mem_cons_of_mem _ hd),
            UInt8.toNat_ofNat_of_lt' (Nat.lt_trans hc (by decide)), Char.ofNat_toNat]
    exact key _ (number_ascii x)
  rw [Go.parseFloat, hchars, float_text]
  rfl

/-- **The numbers are read alike.** -/
theorem number_mirrors {s : Str} (hs : s ≠ []) :
    Mirrors (fun a : Binary64 × Str => (a.1, utf8 a.2)) (number s) (Go.Value.parseNumber (utf8 s)) := by
  rcases scanNumber_mirrors hs with ⟨rest, hpy, hgo⟩ | ⟨e, e', hpy, hgo⟩
  · rcases scanNumber_cases s with ⟨x, rest', rfl, hscan⟩ | herr
    · obtain rfl := Except.ok.inj (hscan.symm.trans hpy)
      have htok : (utf8 (x.text ++ rest')).take
          ((utf8 (x.text ++ rest')).length - (utf8 rest').length) = utf8 x.text := by
        rw [utf8_append, List.length_append, Nat.add_sub_cancel, List.take_left]
      rw [Go.Value.parseNumber, hgo, Except.ok_bind, htok, parseFloat_text]
      rcases number_read x hscan with ⟨y, hread, hnum⟩ | ⟨hread, r, hnum⟩
      · obtain ⟨⟨y', hy', hneg⟩, hval⟩ := readNumber_eq_some.mp hread
        obtain rfl := Option.some.inj (hy'.symm.trans hval)
        have hz : ¬ (y'.mag = 0 ∧ y'.neg = true) := by
          rintro ⟨hmag, hn⟩
          rw [numberValue_neg hval] at hn
          exact hneg hn hmag
        rw [hnum, hval]
        simp only [if_neg hz]
        exact .ok (y', rest')
      · rw [hnum]
        cases hval : numberValue x with
        | none => exact .error _ _
        | some y =>
            have hz : y.mag = 0 ∧ y.neg = true := by
              by_contra hz
              refine absurd (readNumber_eq_some.mpr ⟨⟨y, hval, ?_⟩, hval⟩) (by rw [hread]; nofun)
              intro hn hmag
              exact hz ⟨hmag, (numberValue_neg hval).trans hn⟩
            simp only [if_pos hz]
            exact .error _ _
    · rw [hpy] at herr
      cases herr
  · rw [number, Go.Value.parseNumber, hpy, hgo]
    exact .error _ _

/-! ## Strings -/

/-- `n & 0xFFFE` drops the lowest of sixteen bits. -/
theorem and_evenMask (n : Nat) : n &&& 0xFFFE = n % 0x10000 / 2 * 2 := by
  have hmask : (0xFFFE : Nat) = (2 ^ 15 - 1) <<< 1 := by decide
  rw [hmask, and_shiftLeft, Nat.and_two_pow_sub_one_eq_mod, Nat.shiftRight_eq_div_pow,
    Nat.shiftLeft_eq]
  omega

theorem isNoncharacter_eq (c : Char) :
    Go.Value.isNoncharacter c.toNat = decide (Noncharacter c) := by
  rw [Bool.eq_iff_iff, decide_eq_true_iff, Go.Value.isNoncharacter, Noncharacter, and_evenMask]
  simp only [Bool.or_eq_true, Bool.and_eq_true, decide_eq_true_eq, beq_iff_eq]
  omega

/-- The value of a hexadecimal digit. -/
theorem hexVal_digit (c : HexDigit) : Go.Value.hexVal (UInt8.ofNat c.1.toNat) = c.val := by
  have key : ∀ n < 0x80, ∀ v, hexVal (Char.ofNat n) = some v →
      Go.Value.hexVal (UInt8.ofNat n) = v := by decide
  refine key _ (hexVal_ascii c.2) _ ?_
  rw [Char.ofNat_toNat]
  exact (Option.some_get c.2).symm

theorem hexDigit_utf8 (c : HexDigit) (s : Str) :
    utf8 (c.1 :: s) = UInt8.ofNat c.1.toNat :: utf8 s := utf8_cons_ascii (hexVal_ascii c.2) s

theorem isHex_digit (c : HexDigit) : Go.Value.isHex (UInt8.ofNat c.1.toNat) = true := by
  rw [← lead_ascii (hexVal_ascii c.2), isHex_class.lead, inHex_eq]
  exact c.2

/-- A hexadecimal byte is a hexadecimal character. -/
theorem exists_hexDigit_utf8 {s : Str} {b : UInt8} {bs : Bytes} (h : utf8 s = b :: bs)
    (hb : Go.Value.isHex b = true) : ∃ (c : HexDigit) (s' : Str), s = c.1 :: s' ∧ bs = utf8 s' := by
  cases s with
  | nil => cases h
  | cons c s =>
      obtain ⟨bs', hbs⟩ := utf8_cons_lead c s
      have hlead : b = lead c := (List.cons.inj (h.symm.trans hbs)).1
      rw [hlead, isHex_class.lead, inHex_eq] at hb
      refine ⟨⟨c, hb⟩, s, rfl, ?_⟩
      rw [utf8_cons_ascii (hexVal_ascii hb)] at h
      exact (List.cons.inj h).2.symm

theorem foldl_hexVal (a b c d : HexDigit) :
    [a, b, c, d].foldl (fun r x => r <<< 4 ||| x.val) 0 = hexCode a b c d := by
  have hor : ∀ (r : Nat) (x : HexDigit), r <<< 4 ||| x.val = 16 * r + x.val := by
    intro r x
    rw [← Nat.shiftLeft_add_eq_or_of_lt (show x.val < 2 ^ 4 from x.val_lt), Nat.shiftLeft_eq,
      Nat.mul_comm]
  simp only [List.foldl_cons, List.foldl_nil, hor, hexCode]
  omega

/-- `readHex4` at four digits, and everywhere else. -/
theorem readHex4_utf8 (s : Str) :
    (∃ (a b c d : HexDigit) (rest : Str), s = a.1 :: b.1 :: c.1 :: d.1 :: rest ∧
      Go.Value.readHex4 (utf8 s) = .ok (hexCode a b c d, utf8 rest)) ∨
    NoHex s ∧ Go.Value.readHex4 (utf8 s) = Go.fail .invalidJSON := by
  by_cases h : ∃ (a b c d : HexDigit) (rest : Str), s = a.1 :: b.1 :: c.1 :: d.1 :: rest
  · obtain ⟨a, b, c, d, rest, rfl⟩ := h
    refine .inl ⟨a, b, c, d, rest, rfl, ?_⟩
    rw [hexDigit_utf8, hexDigit_utf8, hexDigit_utf8, hexDigit_utf8, Go.Value.readHex4]
    simp only [isHex_digit, Bool.and_self, if_true, List.foldl_cons, List.foldl_nil, hexVal_digit]
    rw [← foldl_hexVal]
    rfl
  · refine .inr ⟨fun a b c d s' hs => h ⟨a, b, c, d, s', hs⟩, ?_⟩
    unfold Go.Value.readHex4
    split
    · rename_i a b c d data hdata
      refine if_neg fun hall => h ?_
      simp only [Bool.and_eq_true] at hall
      obtain ⟨⟨⟨ha, hb⟩, hc⟩, hd⟩ := hall
      obtain ⟨a', s₁, rfl, h₁⟩ := exists_hexDigit_utf8 hdata ha
      obtain ⟨b', s₂, rfl, h₂⟩ := exists_hexDigit_utf8 h₁.symm hb
      obtain ⟨c', s₃, rfl, h₃⟩ := exists_hexDigit_utf8 h₂.symm hc
      obtain ⟨d', s₄, rfl, -⟩ := exists_hexDigit_utf8 h₃.symm hd
      exact ⟨a', b', c', d', s₄, rfl⟩
    · rfl

theorem writeRune_eq {n : Nat} (h : n.isValidChar) : Go.writeRune n = utf8 [Char.ofNat n] := by
  rw [Go.writeRune, if_pos h, utf8_cons, utf8_nil, List.append_nil]

theorem toNat_ofNat {n : Nat} (h : n.isValidChar) : (Char.ofNat n).toNat = n := by
  rw [Char.ofNat, dif_pos h]
  rfl

/-- What Go writes for a code, unless it is a noncharacter. -/
theorem raiseIf_noncharacter {n : Nat} (h : n.isValidChar) (out : Bytes) :
    (Except.raiseIf (Go.Value.isNoncharacter n = true) (.err .noncharacter) >>= fun _ =>
        .ok (Go.writeRune n, out) : Go.Scan (Bytes × Bytes)) =
      if Noncharacter (Char.ofNat n) then Go.fail .noncharacter
      else .ok (utf8 [Char.ofNat n], out) := by
  have hn := isNoncharacter_eq (Char.ofNat n)
  rw [toNat_ofNat h] at hn
  rw [hn, Except.raiseIf, writeRune_eq h]
  split
  · rename_i hc
    rw [if_pos (of_decide_eq_true hc)]
    rfl
  · rename_i hc
    rw [if_neg fun h => hc (decide_eq_true h)]
    rfl

theorem take_two_utf8 {s : Str} :
    (utf8 s).take 2 = Go.lit ['\\', 'u'] ↔ ∃ s', s = '\\' :: 'u' :: s' := by
  constructor
  · intro h
    have hsplit : utf8 s = utf8 ['\\', 'u'] ++ (utf8 s).drop 2 := by
      conv_lhs => rw [← List.take_append_drop 2 (utf8 s), h]
      rfl
    obtain ⟨d, rfl, -⟩ := ascii_prefix (by decide) hsplit
    exact ⟨d, rfl⟩
  · rintro ⟨s', rfl⟩
    rw [utf8_cons_ascii (by decide), utf8_cons_ascii (by decide)]
    rfl

/-- A text with a noncharacter in what was read raises in the end. -/
theorem string_unclean {chars : Str} (h : ¬ Clean chars) (s : Str) :
    ∃ e, string chars s = .error e := by
  rcases string_cases chars s with ⟨ps, rest, rfl⟩ | ⟨r, hr⟩
  · rcases string_pieces ps chars rest with ⟨cs, -, hcs⟩ | ⟨-, r, hr⟩
    · refine ⟨.jsonInputError .noncharacter, ?_⟩
      have hall : ¬ ((chars ++ cs).all fun c => ¬ Noncharacter c) = true := by
        intro hall
        refine h fun c hc => ?_
        simpa using List.all_eq_true.mp hall c (List.mem_append_left _ hc)
      rw [hcs, checkScalars_eq, if_neg hall]
      rfl
    · exact ⟨_, hr⟩
  · exact ⟨_, hr⟩

/-- How the results of the two string scanners compare. -/
abbrev MirrorsString (x : Py (Str × Str)) (y : Go.Scan (Bytes × Bytes)) : Prop :=
  Mirrors (fun a => (utf8 a.1, utf8 a.2)) x y

/-- The strings of every text up to the length `n`, whatever was read before. -/
def StringsAgree (n : Nat) : Prop :=
  ∀ (s chars : Str) (fuel : Nat), s.length ≤ n → (utf8 s).length < fuel → Clean chars →
    MirrorsString (string chars s) (Go.Value.parseStringLoop fuel (utf8 chars) (utf8 s))

/-- One character read on both sides. -/
theorem StringsAgree.push {n : Nat} (ih : StringsAgree n) {chars s s' : Str} {c : Char} {fuel : Nat}
    {x : Go.Scan (Bytes × Bytes)} (hlen : s.length ≤ n) (hfuel : (utf8 s).length < fuel)
    (hclean : Clean chars) (hpy : string chars s' = string (chars ++ [c]) s)
    (hgo : x = if Noncharacter c then Go.fail .noncharacter else .ok (utf8 [c], utf8 s)) :
    MirrorsString (string chars s') (x >>= fun out =>
      Go.Value.parseStringLoop fuel (utf8 chars ++ out.1) out.2) := by
  rw [hpy, hgo]
  by_cases hc : Noncharacter c
  · have hunclean : ¬ Clean (chars ++ [c]) := fun h => h c (List.mem_append_right _ (by simp)) hc
    obtain ⟨e, he⟩ := string_unclean hunclean s
    rw [he, if_pos hc]
    exact .error _ _
  · rw [if_neg hc, Except.ok_bind, ← utf8_append]
    refine ih s _ fuel hlen hfuel ?_
    rw [clean_append]
    refine ⟨hclean, fun d hd => ?_⟩
    rw [List.mem_singleton.mp hd]
    exact hc

/-- The escape `\u`, given every shorter text. -/
theorem unicodeEscape_mirrors {n : Nat} (ih : StringsAgree n) {chars s : Str} {fuel : Nat}
    (hlen : s.length ≤ n) (hfuel : (utf8 s).length < fuel) (hclean : Clean chars) :
    MirrorsString (string chars ('\\' :: 'u' :: s)) (Go.Value.unicodeEscape (utf8 s) >>= fun out =>
      Go.Value.parseStringLoop fuel (utf8 chars ++ out.1) out.2) := by
  rcases readHex4_utf8 s with ⟨a, b, c, d, rest, rfl, hread⟩ | ⟨hno, hread⟩
  · have hshort : rest.length ≤ n := by
      simp only [List.length_cons] at hlen
      omega
    have hbytes : (utf8 rest).length < fuel := by
      simp only [hexDigit_utf8, List.length_cons] at hfuel
      omega
    have hhigh : isHighCode (hexCode a b c d) = true ↔
        0xD800 ≤ hexCode a b c d ∧ hexCode a b c d ≤ 0xDBFF := by simp [isHighCode]
    have hlow : isLowCode (hexCode a b c d) = true ↔
        0xDC00 ≤ hexCode a b c d ∧ hexCode a b c d ≤ 0xDFFF := by simp [isLowCode]
    rw [Go.Value.unicodeEscape, hread, Except.ok_bind]
    dsimp only
    by_cases hhi : isHighCode (hexCode a b c d) = true
    · rw [if_pos (hhigh.mp hhi)]
      by_cases hu : ∃ s', rest = '\\' :: 'u' :: s'
      · obtain ⟨s', rfl⟩ := hu
        have hdrop : (utf8 ('\\' :: 'u' :: s')).drop 2 = utf8 s' := by
          rw [utf8_cons_ascii (by decide), utf8_cons_ascii (by decide)]
          rfl
        rw [if_pos (take_two_utf8.mpr ⟨s', rfl⟩), hdrop]
        rcases readHex4_utf8 s' with ⟨a', b', c', d', rest', rfl, hread'⟩ | ⟨hno, hread'⟩
        · rw [hread', Except.ok_bind]
          dsimp only
          by_cases hlo : isLowCode (hexCode a' b' c' d') = true
          · -- a pair
            have hrange : ¬ (hexCode a' b' c' d' < 0xDC00 ∨ hexCode a' b' c' d' > 0xDFFF) := by
              simp only [isLowCode, Bool.and_eq_true, decide_eq_true_eq] at hlo
              omega
            have hvalid : Nat.isValidChar (0x10000 + (hexCode a b c d - 0xD800) * 1024 +
                (hexCode a' b' c' d' - 0xDC00)) := by
              simp only [isHighCode, isLowCode, Bool.and_eq_true, decide_eq_true_eq] at hhi hlo
              rw [Nat.isValidChar]
              omega
            have hstep := string_pair hhi a' b' c' d' chars rest'
            rw [if_pos hlo] at hstep
            rw [Except.raiseIf, if_neg hrange, Except.ok_bind, Nat.shiftLeft_eq,
              raiseIf_noncharacter hvalid]
            refine ih.push ?_ ?_ hclean hstep rfl
            · simp only [List.length_cons] at hshort
              omega
            · simp only [hexDigit_utf8, List.length_cons, utf8_cons_ascii (c := '\\') (by decide),
                utf8_cons_ascii (c := 'u') (by decide)] at hbytes
              omega
          · have hrange : hexCode a' b' c' d' < 0xDC00 ∨ hexCode a' b' c' d' > 0xDFFF := by
              simp only [isLowCode, Bool.and_eq_true, decide_eq_true_eq] at hlo
              omega
            rw [string_pair hhi, if_neg hlo, Except.raiseIf, if_pos hrange]
            exact .error _ _
        · rw [string_noTrail hhi chars hno, hread']
          exact .error _ _
      · -- a high half with no escape behind it
        rw [string_lone hhi chars fun s' hs => hu ⟨s', hs⟩,
          if_neg fun h => hu (take_two_utf8.mp h)]
        exact .error _ _
    · -- no high half: a low one stands alone, any other is a character
      rw [if_neg fun h => hhi (hhigh.mpr h)]
      by_cases hlo : isLowCode (hexCode a b c d) = true
      · rw [string_low (Bool.not_eq_true _ ▸ hhi) hlo, if_pos (hlow.mp hlo)]
        exact .error _ _
      · have hvalid : Nat.isValidChar (hexCode a b c d) := by
          have hlt := hexCode_lt a b c d
          rw [hhigh] at hhi
          rw [hlow] at hlo
          rw [Nat.isValidChar]
          omega
        rw [if_neg fun h => hlo (hlow.mpr h), raiseIf_noncharacter hvalid]
        exact ih.push hshort hbytes hclean
          (string_bmp (Bool.not_eq_true _ ▸ hhi) (Bool.not_eq_true _ ▸ hlo) chars rest) rfl
  · rw [string_noHex chars hno, Go.Value.unicodeEscape, hread]
    exact .error _ _

theorem shortEscape_lead (e : Char) :
    Go.Value.shortEscape (lead e) = (shortEscape e).map fun c => UInt8.ofNat c.toNat := by
  have hquote : lead e = 0x22 ↔ e = '"' := lead_eq_iff (d := '"') (by decide)
  have hback : lead e = 0x5C ↔ e = '\\' := lead_eq_iff (d := '\\') (by decide)
  have hslash : lead e = 0x2F ↔ e = '/' := lead_eq_iff (d := '/') (by decide)
  have hb : lead e = 0x62 ↔ e = 'b' := lead_eq_iff (d := 'b') (by decide)
  have hf : lead e = 0x66 ↔ e = 'f' := lead_eq_iff (d := 'f') (by decide)
  have hn : lead e = 0x6E ↔ e = 'n' := lead_eq_iff (d := 'n') (by decide)
  have hr : lead e = 0x72 ↔ e = 'r' := lead_eq_iff (d := 'r') (by decide)
  have ht : lead e = 0x74 ↔ e = 't' := lead_eq_iff (d := 't') (by decide)
  simp only [Go.Value.shortEscape, shortEscape, hquote, hback, hslash, hb, hf, hn, hr, ht]
  split_ifs <;> rfl

/-- What follows a backslash, given every shorter text. -/
theorem escape_mirrors {n : Nat} (ih : StringsAgree n) {chars s : Str} {fuel : Nat}
    (hlen : s.length ≤ n) (hfuel : (utf8 s).length < fuel) (hclean : Clean chars) :
    MirrorsString (string chars ('\\' :: s)) (Go.Value.escape (utf8 s) >>= fun out =>
      Go.Value.parseStringLoop fuel (utf8 chars ++ out.1) out.2) := by
  cases s with
  | nil =>
      rw [string.eq_def]
      exact .error _ _
  | cons e s =>
      have hshort : s.length ≤ n := Nat.le_of_succ_le hlen
      have hu : lead e = 0x75 ↔ e = 'u' := lead_eq_iff (d := 'u') (by decide)
      by_cases he : e = 'u'
      · subst he
        rw [utf8_cons_ascii (by decide)] at hfuel ⊢
        exact unicodeEscape_mirrors ih hshort (Nat.lt_of_succ_lt hfuel) hclean
      · obtain ⟨bs, hbs⟩ := utf8_cons_lead e s
        rw [hbs, Go.Value.escape, if_neg fun h => he (hu.mp h), shortEscape_lead]
        rcases shortEscape_cases e with ⟨e', rfl⟩ | hnone
        · -- one of the eight letters
          have hletter : e'.letter.toNat < 0x80 := by cases e' <;> decide
          have hchar : e'.char.toNat < 0x80 := by cases e' <;> decide
          have hbs' : bs = utf8 s := by
            rw [utf8_cons_ascii hletter] at hbs
            exact (List.cons.inj hbs).2.symm
          rw [(shortEscape_letter e').1, hbs']
          refine ih.push hshort ?_ hclean (string_short e' chars s) ?_
          · rw [utf8_cons_ascii hletter] at hfuel
            exact Nat.lt_of_succ_lt hfuel
          · rw [if_neg (not_noncharacter_of_lt hchar), utf8_cons_ascii hchar]
            rfl
        · rw [string.eq_def]
          simp only [if_neg he, hnone]
          exact .error _ _

theorem lead_lt_iff (c : Char) : lead c < 0x20 ↔ c.toNat ≤ 0x1F := by
  rw [UInt8.lt_iff_toNat_lt]
  rcases Nat.lt_or_ge c.toNat 0x80 with hc | hc
  · rw [lead_ascii hc, UInt8.toNat_ofNat_of_lt' (Nat.lt_trans hc (by decide))]
    exact Nat.lt_succ_iff
  · have h := lead_high hc
    have h20 : (0x20 : UInt8).toNat = 0x20 := rfl
    omega

/-- A raw character on the Go side. -/
theorem rawRune_utf8 (c : Char) (s : Str) : Go.Value.rawRune (utf8 (c :: s)) =
    if Noncharacter c then Go.fail .noncharacter else .ok (utf8 [c], utf8 s) := by
  have hsize : ¬ (c = '\uFFFD' ∧ c.utf8Size = 1) := by
    rintro ⟨rfl, h⟩
    exact absurd h (by decide)
  have htake : (utf8 (c :: s)).take c.utf8Size = utf8 [c] := by
    rw [utf8_cons, ← String.length_utf8EncodeChar, List.take_left, utf8_cons, utf8_nil,
      List.append_nil]
  rw [Go.Value.rawRune, Jcs.decodeRune_utf8]
  dsimp only
  rw [(decodeChar_utf8 c s).2, htake, Except.raiseIf, if_neg hsize, Except.ok_bind,
    isNoncharacter_eq, Except.raiseIf]
  by_cases hc : Noncharacter c
  · rw [if_pos hc, if_pos (decide_eq_true hc)]
    rfl
  · rw [if_neg hc, if_neg fun h => hc (of_decide_eq_true h)]
    rfl

theorem strings_agree (n : Nat) : StringsAgree n := by
  induction n with
  | zero =>
      intro s chars fuel hlen hfuel _
      obtain rfl := List.length_eq_zero_iff.mp (Nat.le_zero.mp hlen)
      obtain ⟨m, rfl⟩ : ∃ m, fuel = m + 1 := ⟨fuel - 1, by omega⟩
      rw [string.eq_def]
      exact .error _ _
  | succ n ih =>
      intro s chars fuel hlen hfuel hclean
      obtain ⟨m, rfl⟩ : ∃ m, fuel = m + 1 := ⟨fuel - 1, by omega⟩
      cases s with
      | nil =>
          rw [string.eq_def]
          exact .error _ _
      | cons c s =>
          have hshort : s.length ≤ n := Nat.le_of_succ_le_succ hlen
          have hbytes : (utf8 s).length < m := by
            have hpos := c.utf8Size_pos
            rw [utf8_cons, List.length_append, String.length_utf8EncodeChar] at hfuel
            omega
          have hquote : lead c = 0x22 ↔ c = '"' := lead_eq_iff (d := '"') (by decide)
          have hback : lead c = 0x5C ↔ c = '\\' := lead_eq_iff (d := '\\') (by decide)
          obtain ⟨bs, hbs⟩ := utf8_cons_lead c s
          have hturn : Go.Value.parseStringLoop (m + 1) (utf8 chars) (utf8 (c :: s)) =
              if c = '"' then .ok (utf8 chars, bs)
              else if c = '\\' then Go.Value.escape bs >>= fun out =>
                Go.Value.parseStringLoop m (utf8 chars ++ out.1) out.2
              else if c.toNat ≤ 0x1F then Go.fail .invalidJSON
              else Go.Value.rawRune (utf8 (c :: s)) >>= fun out =>
                Go.Value.parseStringLoop m (utf8 chars ++ out.1) out.2 := by
            rw [hbs, Go.Value.parseStringLoop]
            simp only [hquote, hback, lead_lt_iff]
          rw [hturn]
          by_cases hq : c = '"'
          · have hok : checkScalars chars = .ok () := by
              rw [checkScalars, if_neg (by rw [any_noncharacter hclean]; exact Bool.false_ne_true)]
            subst hq
            rw [utf8_cons_ascii (by decide)] at hbs
            rw [if_pos rfl, string_quote, hok, ← (List.cons.inj hbs).2]
            exact .ok (chars, s)
          by_cases hb : c = '\\'
          · subst hb
            rw [utf8_cons_ascii (by decide)] at hbs
            rw [if_neg hq, if_pos rfl, ← (List.cons.inj hbs).2]
            exact escape_mirrors ih hshort hbytes hclean
          rw [if_neg hq, if_neg hb]
          by_cases hc : c.toNat ≤ 0x1F
          · rw [string.eq_def]
            simp only [if_neg hq, if_neg hb, if_pos hc]
            exact .error _ _
          · rw [if_neg hc]
            exact ih.push hshort hbytes hclean
              (string_raw ⟨Nat.lt_of_not_le hc, hq, hb⟩ chars s) (rawRune_utf8 c s)

/-- **The strings are read alike.** -/
theorem string_mirrors (s : Str) : MirrorsString (string [] s) (Go.Value.parseString (utf8 s)) :=
  strings_agree s.length s [] _ le_rfl (Nat.lt_succ_self _) clean_nil

/-! ## Tokens -/

open Go.Value (Token scanToken)

/-- The kind of token that starts with a character. -/
inductive Heads : Char → Token → Prop
  | objOpen : Heads '\x7b' .objOpen
  | objClose : Heads '\x7d' .objClose
  | arrOpen : Heads '[' .arrOpen
  | arrClose : Heads ']' .arrClose
  | comma : Heads ',' .comma
  | colon : Heads ':' .colon
  | str (s : Bytes) : Heads '"' (.scalar (.str s))
  | other (c : Char) (v : Json Bytes) : c ∉ ['\x7b', '\x7d', '[', ']', ',', ':', '"'] →
      (∀ s, v ≠ .str s) → Heads c (.scalar v)

/-- The switch of `tokenize`, on characters. -/
theorem scanToken_lead (c : Char) (data : Bytes) : scanToken (lead c) data =
    if c = '\x7b' then .ok (.objOpen, data.drop 1)
    else if c = '\x7d' then .ok (.objClose, data.drop 1)
    else if c = '[' then .ok (.arrOpen, data.drop 1)
    else if c = ']' then .ok (.arrClose, data.drop 1)
    else if c = ',' then .ok (.comma, data.drop 1)
    else if c = ':' then .ok (.colon, data.drop 1)
    else if c = '"' then
      Go.Value.parseString (data.drop 1) >>= fun out => .ok (.scalar (.str out.1), out.2)
    else if c = 't' then Go.Value.scanLiteral (Go.lit "true".toList) (.bool true) data
    else if c = 'f' then Go.Value.scanLiteral (Go.lit "false".toList) (.bool false) data
    else if c = 'n' then Go.Value.scanLiteral (Go.lit "null".toList) .null data
    else if c = '-' ∨ isDigit c = true then
      Go.Value.parseNumber data >>= fun out => .ok (.scalar (.num out.1), out.2)
    else Go.fail .invalidJSON := by
  have h1 : lead c = 0x7B ↔ c = '\x7b' := lead_eq_iff (d := '\x7b') (by decide)
  have h2 : lead c = 0x7D ↔ c = '\x7d' := lead_eq_iff (d := '\x7d') (by decide)
  have h3 : lead c = 0x5B ↔ c = '[' := lead_eq_iff (d := '[') (by decide)
  have h4 : lead c = 0x5D ↔ c = ']' := lead_eq_iff (d := ']') (by decide)
  have h5 : lead c = 0x2C ↔ c = ',' := lead_eq_iff (d := ',') (by decide)
  have h6 : lead c = 0x3A ↔ c = ':' := lead_eq_iff (d := ':') (by decide)
  have h7 : lead c = 0x22 ↔ c = '"' := lead_eq_iff (d := '"') (by decide)
  have h8 : lead c = 0x74 ↔ c = 't' := lead_eq_iff (d := 't') (by decide)
  have h9 : lead c = 0x66 ↔ c = 'f' := lead_eq_iff (d := 'f') (by decide)
  have h10 : lead c = 0x6E ↔ c = 'n' := lead_eq_iff (d := 'n') (by decide)
  have h11 : lead c = 0x2D ↔ c = '-' := lead_eq_iff (d := '-') (by decide)
  simp only [scanToken, h1, h2, h3, h4, h5, h6, h7, h8, h9, h10, h11, isDigit_class.lead c]

/-- A literal of ASCII letters at the front of the text. -/
theorem scanLiteral_utf8 {p : Str} (hp : ∀ c ∈ p, c.toNat < 0x80) (v : Json Bytes) (s : Str) :
    Go.Value.scanLiteral (Go.lit p) v (utf8 s) =
      if s.take p.length = p then .ok (.scalar v, utf8 (s.drop p.length))
      else Go.fail .invalidJSON := by
  have hlit : Go.lit p = utf8 p := Jcs.lit_eq_utf8 hp
  have hlen : (utf8 p).length = p.length := by
    rw [← hlit, Go.lit, List.length_map]
  have hiff : (utf8 s).take p.length = utf8 p ↔ s.take p.length = p := by
    constructor
    · intro h
      have hsplit : utf8 s = utf8 p ++ (utf8 s).drop p.length := by
        conv_lhs => rw [← List.take_append_drop p.length (utf8 s), h]
      obtain ⟨d, rfl, -⟩ := ascii_prefix hp hsplit
      exact List.take_left
    · intro h
      have hs : s = p ++ s.drop p.length := by
        conv_lhs => rw [← List.take_append_drop p.length s, h]
      rw [hs, utf8_append, ← hlen, List.take_left]
  rw [Go.Value.scanLiteral, Go.Value.literal, hlit, hlen]
  simp only [hiff]
  by_cases h : s.take p.length = p
  · have hs : s = p ++ s.drop p.length := by
      conv_lhs => rw [← List.take_append_drop p.length s, h]
    have hdrop : (utf8 s).drop p.length = utf8 (s.drop p.length) := by
      have hdrop : (utf8 p ++ utf8 (s.drop p.length)).drop (utf8 p).length =
          utf8 (s.drop p.length) := List.drop_left
      rwa [← utf8_append, ← hs, hlen] at hdrop
    rw [if_pos h, if_pos h, hdrop]
  · rw [if_neg h, if_neg h]

/-- `r` is what remains of `s` after at least one character. -/
def Remains (s r : Str) : Prop := ∃ p, p ≠ [] ∧ s = p ++ r

theorem Remains.length {s r : Str} (h : Remains s r) : (utf8 r).length < (utf8 s).length := by
  obtain ⟨p, hp, rfl⟩ := h
  have hlen := length_le_utf8 p
  have hpos := List.length_pos_of_ne_nil hp
  rw [utf8_append, List.length_append]
  omega

theorem Remains.cons {s r : Str} (h : Remains s r) (c : Char) : Remains (c :: s) r := by
  obtain ⟨p, -, rfl⟩ := h
  exact ⟨c :: p, List.cons_ne_nil _ _, rfl⟩

theorem remains_drop (c : Char) (s : Str) (n : Nat) : Remains (c :: s) (s.drop n) :=
  ⟨c :: s.take n, List.cons_ne_nil _ _, by rw [List.cons_append, List.take_append_drop]⟩

theorem string_remains {s cs rest : Str} (h : string [] s = .ok (cs, rest)) : Remains s rest := by
  rcases string_cases [] s with ⟨ps, rest', rfl⟩ | ⟨r, hr⟩
  · rcases string_read ps rest' with ⟨cs', -, heq⟩ | ⟨-, r, hr⟩
    · obtain rfl := (Prod.mk.inj (Except.ok.inj (heq.symm.trans h))).2
      exact ⟨piecesText ps ++ ['"'], by simp, by rw [List.append_assoc, List.singleton_append]⟩
    · rw [hr] at h
      cases h
  · rw [hr] at h
    cases h

theorem number_remains {s rest : Str} {y : Binary64} (h : number s = .ok (y, rest)) :
    Remains s rest := by
  rcases scanNumber_cases s with ⟨x, rest', rfl, hscan⟩ | herr
  · rcases number_read x hscan with ⟨y', -, hnum⟩ | ⟨-, r, hnum⟩
    · obtain rfl := (Prod.mk.inj (Except.ok.inj (hnum.symm.trans h))).2
      exact ⟨x.text, by simp [Number.text, x.int.2.1], rfl⟩
    · rw [hnum] at h
      cases h
  · rw [number, herr] at h
    cases h

/-- The rest after a token of one ASCII character. -/
theorem drop_one_cons {c : Char} (hc : c.toNat < 0x80) (i : Str) :
    (utf8 (c :: i)).drop 1 = utf8 i := by
  rw [utf8_cons_ascii hc]
  rfl

/-- **What `tokenize` does at a character**: an error, or a token of the right
kind and shorter text. -/
theorem scanToken_cases (c : Char) (i : Str) :
    (∃ e, scanToken (lead c) (utf8 (c :: i)) = .error (.err e)) ∨
    ∃ tok r, scanToken (lead c) (utf8 (c :: i)) = .ok (tok, utf8 r) ∧ Remains (c :: i) r ∧
      Heads c tok := by
  have single : ∀ {d : Char} {tok : Token}, d.toNat < 0x80 → Heads d tok → c = d →
      ∃ t r, (.ok (tok, (utf8 (c :: i)).drop 1) : Go.Scan (Token × Bytes)) = .ok (t, utf8 r) ∧
        Remains (c :: i) r ∧ Heads c t := by
    rintro d tok hd hheads rfl
    exact ⟨tok, i, by rw [drop_one_cons hd], ⟨[c], List.cons_ne_nil _ _, rfl⟩, hheads⟩
  rw [scanToken_lead]
  -- the brackets, the comma and the colon are one byte
  by_cases h1 : c = '\x7b'
  · rw [if_pos h1]
    exact .inr (single (by decide) .objOpen h1)
  rw [if_neg h1]
  by_cases h2 : c = '\x7d'
  · rw [if_pos h2]
    exact .inr (single (by decide) .objClose h2)
  rw [if_neg h2]
  by_cases h3 : c = '['
  · rw [if_pos h3]
    exact .inr (single (by decide) .arrOpen h3)
  rw [if_neg h3]
  by_cases h4 : c = ']'
  · rw [if_pos h4]
    exact .inr (single (by decide) .arrClose h4)
  rw [if_neg h4]
  by_cases h5 : c = ','
  · rw [if_pos h5]
    exact .inr (single (by decide) .comma h5)
  rw [if_neg h5]
  by_cases h6 : c = ':'
  · rw [if_pos h6]
    exact .inr (single (by decide) .colon h6)
  rw [if_neg h6]
  by_cases h7 : c = '"'
  · subst h7
    rw [if_pos rfl, drop_one_cons (by decide)]
    rcases string_mirrors i with ⟨a, hpy, hgo⟩ | ⟨e, e', -, hgo⟩
    · rw [hgo]
      exact .inr ⟨_, a.2, rfl, (string_remains hpy).cons _, .str _⟩
    · rw [hgo]
      exact .inl ⟨e', rfl⟩
  rw [if_neg h7]
  -- nothing that follows starts like a bracket or a string
  have hother : ∀ v : Json Bytes, (∀ s, v ≠ .str s) → Heads c (.scalar v) :=
    fun v hv => .other c v (by simp [h1, h2, h3, h4, h5, h6, h7]) hv
  have literal : ∀ {p : Str} {v : Json Bytes}, (∀ c ∈ p, c.toNat < 0x80) → p ≠ [] → (∀ s, v ≠ .str s) →
      (∃ e, Go.Value.scanLiteral (Go.lit p) v (utf8 (c :: i)) = .error (.err e)) ∨
      ∃ tok r, Go.Value.scanLiteral (Go.lit p) v (utf8 (c :: i)) = .ok (tok, utf8 r) ∧
        Remains (c :: i) r ∧ Heads c tok := by
    intro p v hp hne hv
    rw [scanLiteral_utf8 hp]
    split
    · refine .inr ⟨_, _, rfl, ?_, hother v hv⟩
      obtain ⟨d, p, rfl⟩ := List.exists_cons_of_ne_nil hne
      exact remains_drop c i p.length
    · exact .inl ⟨_, rfl⟩
  by_cases h8 : c = 't'
  · rw [if_pos h8]
    exact literal (by decide) (by decide) fun s => by simp
  rw [if_neg h8]
  by_cases h9 : c = 'f'
  · rw [if_pos h9]
    exact literal (by decide) (by decide) fun s => by simp
  rw [if_neg h9]
  by_cases h10 : c = 'n'
  · rw [if_pos h10]
    exact literal (by decide) (by decide) fun s => by simp
  rw [if_neg h10]
  by_cases h11 : c = '-' ∨ isDigit c = true
  · rw [if_pos h11]
    rcases number_mirrors (List.cons_ne_nil c i) with ⟨a, hpy, hgo⟩ | ⟨e, e', -, hgo⟩
    · rw [hgo]
      exact .inr ⟨_, a.2, rfl, number_remains hpy, hother _ fun s => by simp⟩
    · rw [hgo]
      exact .inl ⟨e', rfl⟩
  · rw [if_neg h11]
    exact .inl ⟨_, rfl⟩

end SwarmPointer.JsonInput
