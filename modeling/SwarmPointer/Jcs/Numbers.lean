import SwarmPointer.Go.Jcs
import SwarmPointer.Python.Jcs
import SwarmPointer.TypeScript.Canon

/-!
# Canonical JSON — one number text

Python re-reads `repr`, Go re-reads `strconv.FormatFloat`, and both lay the
digits out again; the result is `Number::toString` in every case. The two
readers are inverted on the layouts their hosts print, so only the digits
and the position of the point remain.

`repr` and `FormatFloat` are themselves defined as layouts of the shortest
digits, each with its own thresholds, and the programs parse those layouts
character by character. So every proof here parses a text that was just laid
out, and of the digits it uses only what `Digits` says: that there are some,
and that the last is not a zero.
-/

namespace SwarmPointer.Jcs

open Decimal Python

/-! ## Digit strings -/

/-- What is known of the digits of a shortest decimal. -/
structure Digits (ds : Str) : Prop where
  digit : ∀ c ∈ ds, isDigit c = true
  last : ∃ init d, ds = init ++ [d] ∧ d ≠ '0'

theorem Digits.ne_nil {ds : Str} (h : Digits ds) : ds ≠ [] := by
  obtain ⟨init, d, rfl, -⟩ := h.last
  simp

theorem digitChar_ne_zero {n : Nat} (hn : n < 10) (h : n ≠ 0) : Nat.digitChar n ≠ '0' := by
  have key : ∀ n < 10, n ≠ 0 → Nat.digitChar n ≠ '0' := by decide
  exact key n hn h

theorem digits_of_coeff {d : Decimal} (h : d.coeff % 10 ≠ 0) : Digits d.digits := by
  refine ⟨fun c hc => isDigit_of_mem_digits hc, ?_⟩
  rw [Decimal.digits, Nat.toDigits_eq_if (by decide)]
  split
  · rename_i hlt
    exact ⟨[], _, rfl, digitChar_ne_zero hlt (by omega)⟩
  · exact ⟨_, _, rfl, digitChar_ne_zero (Nat.mod_lt _ (by decide)) h⟩

theorem shortest_digits (x : Binary64) (h : x.mag ≠ 0) : Digits (shortest x.mag).digits :=
  digits_of_coeff (shortest_mod x.rep (Nat.pos_of_ne_zero h))

theorem digits_toDigits (n : Nat) : ∀ c ∈ Nat.toDigits 10 n, isDigit c = true :=
  fun _ hc => Nat.isDigit_of_mem_toDigits (by decide) (by decide) hc

theorem dropWhile_replicate_zero (j : Nat) (s : Str) :
    (List.replicate j '0' ++ s).dropWhile (· == '0') = s.dropWhile (· == '0') := by
  induction j with
  | zero => rfl
  | succ j ih =>
      rw [List.replicate_succ, List.cons_append, List.dropWhile_cons]
      exact ih

/-- Stripping zeros from padded digits leaves the digits. -/
theorem strip_padded {ds : Str} (h : Digits ds) (j : Nat) :
    ((ds ++ List.replicate j '0').reverse.dropWhile (· == '0')).reverse = ds := by
  obtain ⟨init, d, rfl, hd⟩ := h.last
  rw [List.reverse_append, List.reverse_replicate, dropWhile_replicate_zero, List.reverse_append,
    List.reverse_singleton, List.singleton_append, List.dropWhile_cons]
  simp [hd]

theorem rstripZeros_padded {ds : Str} (h : Digits ds) (j : Nat) :
    rstripZeros (ds ++ List.replicate j '0') = ds := by
  rw [rstripZeros, strip_padded h]
  cases ds with
  | nil => exact absurd rfl h.ne_nil
  | cons d ds => rfl

theorem rstripZeros_digits {ds : Str} (h : Digits ds) : rstripZeros ds = ds := by
  have hp := rstripZeros_padded h 0
  rwa [List.replicate_zero, List.append_nil] at hp

/-! ## Reading `repr` back -/

/-- A signed exponent is digits after a sign, and reads back as itself. -/
theorem reprExponent_spec (e : Int) :
    ∃ sign ds, reprExponent e = sign :: ds ∧ (sign = '+' ∨ sign = '-') ∧ ds ≠ [] ∧
      (∀ c ∈ ds, isDigit c = true) ∧ Python.intValue (reprExponent e) = e := by
  have hlead : Nat.ofDigitChars 10 ('0' :: Nat.toDigits 10 e.natAbs) 0 = e.natAbs := by
    rw [Nat.ofDigitChars_cons]
    exact Nat.ofDigitChars_ten_toDigits
  have hval : Nat.ofDigitChars 10 (if e.natAbs < 10 then '0' :: Nat.toDigits 10 e.natAbs
      else Nat.toDigits 10 e.natAbs) 0 = e.natAbs := by
    split
    · exact hlead
    · exact Nat.ofDigitChars_ten_toDigits
  refine ⟨_, _, rfl, ?_, ?_, ?_, ?_⟩
  · split <;> simp
  · split <;> simp
  · intro c hc
    split at hc
    · rcases List.mem_cons.mp hc with rfl | hc
      · rfl
      · exact digits_toDigits _ c hc
    · exact digits_toDigits _ c hc
  · rw [reprExponent]
    by_cases he : e < 0
    · rw [if_pos he, Python.intValue, hval]
      omega
    · rw [if_neg he, Python.intValue, hval]
      omega

theorem skipSign_reprExponent (e : Int) :
    skipSign (reprExponent e) ≠ [] ∧ (skipSign (reprExponent e)).all isDigit = true := by
  obtain ⟨sign, ds, heq, hsign, hne, hds, -⟩ := reprExponent_spec e
  have hskip : skipSign (reprExponent e) = ds := by
    rw [heq]
    rcases hsign with rfl | rfl <;> rfl
  rw [hskip]
  exact ⟨hne, List.all_eq_true.mpr hds⟩

theorem int_reprExponent (e : Int) : Python.int (reprExponent e) = .ok e := by
  obtain ⟨hne, hall⟩ := skipSign_reprExponent e
  rw [int_eq hne hall, (reprExponent_spec e).choose_spec.choose_spec.2.2.2.2]

theorem matchExp_reprExponent (e : Int) :
    Python.Jcs.matchExp ('e' :: reprExponent e) = some (reprExponent e) := by
  obtain ⟨hne, hall⟩ := skipSign_reprExponent e
  rw [Python.Jcs.matchExp, if_pos]
  simp [hne, hall]

theorem readRepr_sci {d : Char} {ds : Str} (hd : isDigit d = true)
    (hds : ∀ c ∈ ds, isDigit c = true) (e : Int) :
    Python.Jcs.readRepr (d :: (fraction ds ++ 'e' :: reprExponent e)) =
      .ok (rstripZeros (d :: ds), e) := by
  have hint := int_reprExponent e
  have hsci : Python.Jcs.reprSci (d :: (fraction ds ++ 'e' :: reprExponent e)) =
      some (d, ds, reprExponent e) := by
    rw [Python.Jcs.reprSci, skipSign_digit hd]
    cases ds with
    | nil => simp [fraction, hd, matchExp_reprExponent]
    | cons c cs =>
        obtain ⟨htake, hdrop⟩ := takeWhile_digits ('e' :: reprExponent e) hds (by
          rintro c cs h
          rw [(List.cons.inj h).1.symm]
          decide)
        simp only [fraction, List.cons_append] at htake hdrop ⊢
        simp [hd, htake, hdrop, matchExp_reprExponent]
  rw [Python.Jcs.readRepr, hsci]
  simp only [hint]
  rfl

theorem reprSci_fixed {ip frac : Str} (hip : ip ≠ []) (hipd : ∀ c ∈ ip, isDigit c = true)
    (hfd : ∀ c ∈ frac, isDigit c = true) :
    Python.Jcs.reprSci (ip ++ '.' :: frac) = none := by
  obtain ⟨d, ip, rfl⟩ := List.exists_cons_of_ne_nil hip
  have hd := hipd d (List.mem_cons_self ..)
  rw [Python.Jcs.reprSci, List.cons_append, skipSign_digit hd]
  cases ip with
  | nil =>
      obtain ⟨htake, hdrop⟩ := takeWhile_digits [] hfd (by rintro _ _ h; cases h)
      rw [List.append_nil] at htake hdrop
      simp [hd, hdrop, Python.Jcs.matchExp]
  | cons c cs =>
      have hc : isDigit c = true := hipd c (by simp)
      have hdot : c ≠ '.' := digit_ne hc (by decide)
      have he : (c == 'e') = false := beq_eq_false_iff_ne.mpr (digit_ne hc (by decide))
      have hE : (c == 'E') = false := beq_eq_false_iff_ne.mpr (digit_ne hc (by decide))
      simp [hd, hdot, Python.Jcs.matchExp, he, hE]

theorem readRepr_fixed {ip frac : Str} (hip : ip ≠ []) (hipd : ∀ c ∈ ip, isDigit c = true)
    (hfrac : frac ≠ []) (hfd : ∀ c ∈ frac, isDigit c = true) :
    Python.Jcs.readRepr (ip ++ '.' :: frac) =
      .ok (rstripZeros (ip ++ frac), (ip.length : Int) - 1) := by
  have hskip : skipSign (ip ++ '.' :: frac) = ip ++ '.' :: frac := by
    obtain ⟨d, ip, rfl⟩ := List.exists_cons_of_ne_nil hip
    exact skipSign_digit (hipd d (List.mem_cons_self ..))
  obtain ⟨htake, hdrop⟩ := takeWhile_digits ('.' :: frac) hipd (by
    rintro c cs h
    rw [(List.cons.inj h).1.symm]
    decide)
  have hall : frac.all isDigit = true := List.all_eq_true.mpr hfd
  have hfixed : Python.Jcs.reprFixed (ip ++ '.' :: frac) = some (ip, frac) := by
    rw [Python.Jcs.reprFixed, hskip]
    simp [htake, hdrop, hip, hfrac, hall]
  rw [Python.Jcs.readRepr, reprSci_fixed hip hipd hfd, hfixed]

/-! ## The layouts agree -/

/-- `_es_number`'s layout is `Number::toString`'s. -/
theorem layout_eq {ds : Str} (h : ds ≠ []) (n : Int) :
    Python.Jcs.layout ds (n - 1) = ecmaLayout ds n := by
  obtain ⟨d, ds, rfl⟩ := List.exists_cons_of_ne_nil h
  simp only [Python.Jcs.layout, ecmaLayout, sub_add_cancel]
  by_cases h1 : 1 ≤ n ∧ n ≤ 21
  · rw [if_pos h1]
    by_cases h2 : ((d :: ds).length : Int) ≤ n
    · rw [if_pos h2, if_pos ⟨h2, h1.2⟩]
    · rw [if_neg h2, if_neg (fun hc => h2 hc.1), if_pos (by omega)]
  · rw [if_neg h1]
    have hlen : 1 ≤ ((d :: ds).length : Int) := by simp
    rw [if_neg (by omega : ¬ (((d :: ds).length : Int) ≤ n ∧ n ≤ 21)),
      if_neg (by omega : ¬ (0 < n ∧ n ≤ 21))]
    by_cases h2 : -5 ≤ n ∧ n ≤ 0
    · rw [if_pos h2, if_pos (by omega : -6 < n ∧ n ≤ 0)]
    · rw [if_neg h2, if_neg (by omega : ¬ (-6 < n ∧ n ≤ 0))]
      have hsign : (if n - 1 ≥ 0 then ['+'] else ['-']) = [if 0 < n then '+' else '-'] := by
        by_cases hn : 0 < n
        · rw [if_pos (by omega), if_pos hn]
        · rw [if_neg (by omega), if_neg hn]
      rw [hsign]
      cases ds with
      | nil => simp [fraction]
      | cons c cs =>
          have hk : ¬ (((d :: c :: cs).length : Int) = 1) := by
            simp only [List.length_cons]
            omega
          rw [if_neg hk]
          simp [fraction]

/-- A leading `0.` is laid out again as it was. -/
theorem layout_leading {ds : Str} (j : Nat) (h : ds ≠ []) :
    Python.Jcs.layout ('0' :: (List.replicate j '0' ++ ds)) 0 =
      '0' :: '.' :: (List.replicate j '0' ++ ds) := by
  have hlen : 0 < ds.length := List.length_pos_iff.mpr h
  have hk : ¬ ((('0' :: (List.replicate j '0' ++ ds)).length : Int) ≤ 0 + 1) := by
    simp only [List.length_cons, List.length_append]
    push_cast
    omega
  simp only [Python.Jcs.layout]
  rw [if_pos (by decide), if_neg hk]
  rfl

/-- What `_es_number` reads off `repr`, laid out again. -/
theorem layout_repr {ds : Str} (hds : Digits ds) (n : Int) :
    ∃ digits exp, Python.Jcs.readRepr (reprLayout ds n) = .ok (digits, exp) ∧
      Python.Jcs.layout digits exp = ecmaLayout ds n := by
  rw [reprLayout]
  by_cases hsci : n ≤ -4 ∨ 16 < n
  · rw [if_pos hsci]
    obtain ⟨d, ds', rfl⟩ := List.exists_cons_of_ne_nil hds.ne_nil
    have hread := readRepr_sci (hds.digit d (List.mem_cons_self ..))
      (fun c hc => hds.digit c (List.mem_cons_of_mem _ hc)) (n - 1)
    have hlist : (d :: ds').take 1 ++ fraction ((d :: ds').drop 1) ++ 'e' :: reprExponent (n - 1) =
        d :: (fraction ds' ++ 'e' :: reprExponent (n - 1)) := by simp
    rw [hlist, hread, rstripZeros_digits hds]
    exact ⟨_, _, rfl, layout_eq hds.ne_nil n⟩
  rw [if_neg hsci]
  have hk : 0 < ds.length := List.length_pos_iff.mpr hds.ne_nil
  -- `0.00ddd`: the leading zeros are read as digits and dropped by the layout
  by_cases hneg : n ≤ 0
  · rw [if_pos hneg]
    have hpad : Digits ('0' :: (List.replicate (-n).toNat '0' ++ ds)) := by
      obtain ⟨init, d, hsplit, hd⟩ := hds.last
      refine ⟨?_, '0' :: (List.replicate (-n).toNat '0' ++ init), d, by simp [hsplit], hd⟩
      intro c hc
      rcases List.mem_cons.mp hc with rfl | hc
      · rfl
      · rcases List.mem_append.mp hc with hc | hc
        · rw [List.eq_of_mem_replicate hc]
          rfl
        · exact hds.digit c hc
    have hread := readRepr_fixed (List.cons_ne_nil '0' []) (by decide)
      (List.append_ne_nil_of_right_ne_nil (List.replicate (-n).toNat '0') hds.ne_nil)
      fun c hc => hpad.digit c (List.mem_cons_of_mem _ hc)
    rw [List.singleton_append, List.singleton_append, rstripZeros_digits hpad] at hread
    rw [ecmaLayout, if_neg (by omega), if_neg (by omega), if_pos (by omega)]
    exact ⟨_, _, hread, layout_leading (-n).toNat hds.ne_nil⟩
  rw [if_neg hneg]
  by_cases hlt : n < ds.length
  · rw [if_pos hlt]
    have hne : ds.take n.toNat ≠ [] := by
      rw [Ne, List.take_eq_nil_iff, not_or]
      exact ⟨by omega, hds.ne_nil⟩
    have hne' : ds.drop n.toNat ≠ [] := by
      rw [Ne, List.drop_eq_nil_iff]
      omega
    have hread := readRepr_fixed hne (fun c hc => hds.digit c (List.mem_of_mem_take hc)) hne'
      fun c hc => hds.digit c (List.mem_of_mem_drop hc)
    have hlen : (((ds.take n.toNat).length : Nat) : Int) = n := by
      rw [List.length_take]
      omega
    rw [List.take_append_drop, rstripZeros_digits hds, hlen] at hread
    exact ⟨_, _, hread, layout_eq hds.ne_nil n⟩
  · -- `ddd00.0`: the trailing zeros are stripped again
    rw [if_neg hlt]
    have hzero : ∀ c ∈ ds ++ List.replicate (n - ds.length).toNat '0', isDigit c = true := by
      intro c hc
      rcases List.mem_append.mp hc with hc | hc
      · exact hds.digit c hc
      · rw [List.eq_of_mem_replicate hc]
        rfl
    have hread := readRepr_fixed (List.append_ne_nil_of_left_ne_nil hds.ne_nil _) hzero
      (List.cons_ne_nil '0' []) (by decide)
    have hlen : (((ds ++ List.replicate (n - ds.length).toNat '0').length : Nat) : Int) = n := by
      rw [List.length_append, List.length_replicate]
      omega
    have hpad : ds ++ List.replicate (n - ds.length).toNat '0' ++ ['0'] =
        ds ++ List.replicate ((n - ds.length).toNat + 1) '0' := by
      rw [List.replicate_succ', List.append_assoc]
    rw [hpad, rstripZeros_padded hds, hlen] at hread
    exact ⟨_, _, hread, layout_eq hds.ne_nil n⟩

/-- Below `2^53` the digits of the integer are already the layout. -/
theorem ecmaLayout_int {n : Nat} (h0 : 0 < n) (hn : n < 2 ^ 53) :
    ecmaLayout (shortest (n * Binary64.one)).digits (shortest (n * Binary64.one)).point =
      Nat.toDigits 10 n := by
  obtain ⟨c, j, hc, hpad⟩ := exists_padding h0
  have hnorm := normalize_mul_pow hc 0 j
  have hdig : Nat.toDigits 10 n = Nat.toDigits 10 c ++ List.replicate j '0' := by
    rw [hpad, toDigits_mul_pow (by omega)]
  have hlen : (Nat.toDigits 10 n).length ≤ 16 := by
    rw [Nat.length_toDigits_le_iff (by decide) (by decide)]
    exact hn.trans (by norm_num)
  have hlen' := congrArg List.length hdig
  rw [List.length_append, List.length_replicate] at hlen'
  rw [shortest_int h0 hn, hpad, hnorm, Decimal.digits, Decimal.point, Decimal.digits]
  dsimp only
  rw [← hpad, hdig, ecmaLayout, if_pos (by omega)]
  congr 2
  omega

/-- An integer prints as its digits. -/
theorem ecmaString_ofNat53 {n : Nat} (h : n < 2 ^ 53) :
    ecmaString (Binary64.ofNat53 n h.le) = Nat.toDigits 10 n := by
  have hmag : (Binary64.ofNat53 n h.le).mag = n * Binary64.one := rfl
  have hneg : (Binary64.ofNat53 n h.le).neg = false := rfl
  rw [ecmaString, hmag, hneg]
  by_cases h0 : n = 0
  · subst h0
    rw [if_pos (Nat.zero_mul _)]
    rfl
  · rw [if_neg (Nat.mul_ne_zero h0 Binary64.one_pos.ne'), ecmaLayout_int (Nat.pos_of_ne_zero h0) h]
    rfl

/-- **Python prints `Number::toString`.** -/
theorem esNumber_eq (x : Binary64) : Python.Jcs.esNumber x = .ok (ecmaString x) := by
  rw [Python.Jcs.esNumber, ecmaString]
  by_cases h0 : x.mag = 0
  · rw [if_pos h0, if_pos h0]
    rfl
  rw [if_neg h0, if_neg h0]
  by_cases hint : (x.isInteger && x.mag < 2 ^ 53 * Binary64.one) = true
  · rw [if_pos hint]
    rw [Bool.and_eq_true, Binary64.isInteger, beq_iff_eq, decide_eq_true_eq] at hint
    have hmul : x.mag = x.mag / Binary64.one * Binary64.one :=
      (Nat.div_mul_cancel (Nat.dvd_of_mod_eq_zero hint.1)).symm
    have hlt : x.mag / Binary64.one < 2 ^ 53 :=
      (Nat.div_lt_iff_lt_mul Binary64.one_pos).mpr hint.2
    have hpos : 0 < x.mag / Binary64.one := by
      apply Nat.pos_of_ne_zero
      intro hz
      rw [hz, Nat.zero_mul] at hmul
      exact h0 hmul
    have hlayout := ecmaLayout_int hpos hlt
    rw [← hmul] at hlayout
    rw [hlayout]
    rfl
  · rw [if_neg hint, reprFloat]
    obtain ⟨digits, exp, hread, hlayout⟩ :=
      layout_repr (shortest_digits x h0) (shortest x.mag).point
    rw [hread, ← hlayout]
    rfl

/-! ## Go -/

theorem formatExponent_eq (e : Int) : Go.formatExponent e = reprExponent e := rfl

theorem atoi_eq (s : Str) : Go.atoi s = Python.intValue s := rfl

theorem trimRightZeros_digits {ds : Str} (h : Digits ds) : Go.trimRightZeros ds = ds := by
  have hp := strip_padded h 0
  rwa [List.replicate_zero, List.append_nil] at hp

theorem takeWhile_mantissa {mant : Str} (rest : Str) (h : ∀ c ∈ mant, c ≠ 'e') :
    (mant ++ 'e' :: rest).takeWhile (· != 'e') = mant ∧
      (mant ++ 'e' :: rest).dropWhile (· != 'e') = 'e' :: rest := by
  induction mant with
  | nil => simp
  | cons c mant ih =>
      have hc := h c (List.mem_cons_self ..)
      obtain ⟨h1, h2⟩ := ih fun d hd => h d (List.mem_cons_of_mem _ hd)
      simp [hc, h1, h2]

theorem readFloat_eq {ds : Str} (hds : Digits ds) (n : Int) :
    Go.Jcs.readFloat (Go.formatLayout ds n) = (ds, n - 1) := by
  obtain ⟨d, ds', rfl⟩ := List.exists_cons_of_ne_nil hds.ne_nil
  have hmant : ∀ c ∈ d :: fraction ds', c ≠ 'e' := by
    intro c hc
    rcases List.mem_cons.mp hc with rfl | hc
    · exact digit_ne (hds.digit c (List.mem_cons_self ..)) (by decide)
    · cases ds' with
      | nil => cases hc
      | cons c' cs =>
          rcases List.mem_cons.mp hc with rfl | hc
          · decide
          · exact digit_ne (hds.digit c (List.mem_cons_of_mem _ hc)) (by decide)
  obtain ⟨htake, hdrop⟩ := takeWhile_mantissa (Go.formatExponent (n - 1)) hmant
  have hlist : Go.formatLayout (d :: ds') n =
      (d :: fraction ds') ++ 'e' :: Go.formatExponent (n - 1) := by simp [Go.formatLayout]
  have hdot : d ≠ '.' := digit_ne (hds.digit d (List.mem_cons_self ..)) (by decide)
  have herase : (d :: fraction ds').erase '.' = d :: ds' := by
    rw [List.erase_cons_tail (by simpa using hdot)]
    cases ds' <;> simp [fraction]
  have hexp := (reprExponent_spec (n - 1)).choose_spec.choose_spec.2.2.2.2
  rw [Go.Jcs.readFloat, hlist, htake, hdrop, herase, trimRightZeros_digits hds]
  simp only [List.drop_succ_cons, List.drop_zero, reduceCtorEq, if_false]
  rw [atoi_eq, formatExponent_eq, hexp]

/-- `FormatNumber`'s layout is `Number::toString`'s. -/
theorem goLayout_eq {ds : Str} (h : ds ≠ []) (n : Int) :
    Go.Jcs.layout ds (n - 1) = ecmaLayout ds n := by
  obtain ⟨d, ds, rfl⟩ := List.exists_cons_of_ne_nil h
  simp only [Go.Jcs.layout, ecmaLayout, sub_add_cancel]
  by_cases h1 : ((d :: ds).length : Int) ≤ n ∧ n ≤ 21
  · rw [if_pos h1, if_pos h1]
  rw [if_neg h1, if_neg h1]
  by_cases h2 : 0 < n ∧ n ≤ 21
  · rw [if_pos h2, if_pos h2]
  rw [if_neg h2, if_neg h2]
  by_cases h3 : -6 < n ∧ n ≤ 0
  · rw [if_pos h3, if_pos h3]
  rw [if_neg h3, if_neg h3]
  have hmant : (if ((d :: ds).length : Int) = 1 then d :: ds
      else (d :: ds).take 1 ++ '.' :: (d :: ds).drop 1) = d :: fraction ds := by
    cases ds with
    | nil => rfl
    | cons c cs =>
        have hk : ¬ (((d :: c :: cs).length : Int) = 1) := by
          simp only [List.length_cons]
          omega
        rw [if_neg hk]
        rfl
  rw [hmant]
  by_cases hn : 0 < n
  · rw [if_pos (by omega), if_pos hn]
    simp
  · rw [if_neg (by omega), if_neg hn]
    simp

theorem layout_format {ds : Str} (hds : Digits ds) (n : Int) :
    Go.Jcs.layout (Go.Jcs.readFloat (Go.formatLayout ds n)).1
      (Go.Jcs.readFloat (Go.formatLayout ds n)).2 = ecmaLayout ds n := by
  rw [readFloat_eq hds]
  exact goLayout_eq hds.ne_nil n

theorem formatFloat_layout (x : Binary64) (h : x.mag ≠ 0) :
    Go.Jcs.layout (Go.Jcs.readFloat (Go.formatFloat x)).1 (Go.Jcs.readFloat (Go.formatFloat x)).2 =
      ecmaLayout (shortest x.mag).digits (shortest x.mag).point := by
  rw [Go.formatFloat]
  exact layout_format (shortest_digits x h) (shortest x.mag).point

theorem lit_signed (b : Bool) (s : Str) :
    Go.lit (if b then '-' :: s else s) = Go.lit ((if b then ['-'] else []) ++ s) := by
  cases b <;> rfl

/-- **Go prints `Number::toString`.** -/
theorem formatNumber_eq (x : Binary64) : Go.Jcs.formatNumber x = Go.lit (ecmaString x) := by
  rw [Go.Jcs.formatNumber, ecmaString]
  by_cases h0 : x.mag = 0
  · rw [if_pos h0, if_pos h0]
  · rw [if_neg h0, if_neg h0, formatFloat_layout x h0, lit_signed]

/-! ## TypeScript -/

/-- TypeScript prints it too, and throws on negative zero. -/
theorem jcsNumber_eq {x : Binary64} (h : ¬ (x.neg = true ∧ x.mag = 0)) :
    TypeScript.Canon.jcsNumber x = .ok (TypeScript.lit (ecmaString x)) := by
  rw [TypeScript.Canon.jcsNumber, if_neg h]
  by_cases h0 : x.mag = 0
  · rw [if_pos h0, ecmaString, if_pos h0]
  · rw [if_neg h0]

/-! ## The characters of a number text -/

theorem isDigit_ascii {c : Char} (h : isDigit c = true) : c.toNat < 0x80 := by
  have hc : c.isDigit = true := h
  rw [Char.isDigit, Bool.and_eq_true, decide_eq_true_eq, decide_eq_true_eq] at hc
  have hle : c.val.toNat ≤ 57 := hc.2
  exact lt_of_le_of_lt hle (by decide)

/-- The characters a number is written with. -/
def NumberChar (c : Char) : Prop := isDigit c = true ∨ c ∈ ['-', '+', '.', 'e']

theorem ecmaLayout_chars {ds : Str} (h : ∀ c ∈ ds, NumberChar c) (n : Int) :
    ∀ c ∈ ecmaLayout ds n, NumberChar c := by
  have hzero : NumberChar '0' := .inl rfl
  have hpoint : NumberChar '.' := .inr (by decide)
  have hrep : ∀ k, ∀ c ∈ List.replicate k '0', NumberChar c := by
    intro k c hc
    rw [List.eq_of_mem_replicate hc]
    exact hzero
  have hexp : ∀ c ∈ Nat.toDigits 10 (n - 1).natAbs, NumberChar c :=
    fun c hc => .inl (digits_toDigits _ c hc)
  have htake : ∀ k, ∀ c ∈ ds.take k, NumberChar c := fun k c hc => h c (List.mem_of_mem_take hc)
  have hdrop : ∀ k, ∀ c ∈ ds.drop k, NumberChar c := fun k c hc => h c (List.mem_of_mem_drop hc)
  have hcons : ∀ {d : Char} {s : Str}, NumberChar d → (∀ c ∈ s, NumberChar c) →
      ∀ c ∈ d :: s, NumberChar c := by
    intro d s hd hs c hc
    rcases List.mem_cons.mp hc with rfl | hc
    · exact hd
    · exact hs c hc
  have happ : ∀ {s t : Str}, (∀ c ∈ s, NumberChar c) → (∀ c ∈ t, NumberChar c) →
      ∀ c ∈ s ++ t, NumberChar c := by
    intro s t hs ht c hc
    rcases List.mem_append.mp hc with hc | hc
    · exact hs c hc
    · exact ht c hc
  have hfrac : ∀ s : Str, (∀ c ∈ s, NumberChar c) → ∀ c ∈ fraction s, NumberChar c := by
    intro s hs
    cases s with
    | nil => exact nofun
    | cons d s => exact hcons hpoint hs
  have hsign : ∀ b : Prop, [Decidable b] → NumberChar (if b then '+' else '-') := by
    intro b _
    split <;> exact .inr (by decide)
  rw [ecmaLayout]
  split
  · exact happ h (hrep _)
  · split
    · exact happ (htake _) (hcons hpoint (hdrop _))
    · split
      · exact hcons hzero (hcons hpoint (happ (hrep _) h))
      · exact happ (happ (htake 1) (hfrac _ (hdrop 1)))
          (hcons (.inr (by decide)) (hcons (hsign _) hexp))

/-- **The characters of a number text.** -/
theorem ecmaString_chars (x : Binary64) : ∀ c ∈ ecmaString x, NumberChar c := by
  have hlayout := ecmaLayout_chars (fun c hc => .inl (digits_toDigits (shortest x.mag).coeff c hc))
    (shortest x.mag).point
  intro c hc
  rw [ecmaString] at hc
  split at hc
  · rw [List.mem_singleton.mp hc]
    exact .inl rfl
  · rcases List.mem_append.mp hc with hc | hc
    · split at hc
      · rw [List.mem_singleton.mp hc]
        exact .inr (by decide)
      · cases hc
    · exact hlayout c hc

/-- A number text is ASCII. -/
theorem ecmaString_ascii (x : Binary64) : ∀ c ∈ ecmaString x, c.toNat < 0x80 := by
  have hother : ∀ c ∈ ['-', '+', '.', 'e'], c.toNat < 0x80 := by decide
  intro c hc
  exact (ecmaString_chars x c hc).elim isDigit_ascii (hother c)

end SwarmPointer.Jcs
