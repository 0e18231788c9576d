import SwarmPointer.JsonInput.Language

/-!
# JSON input — laid-out numbers are tokens

ECMAScript's layout of a digit string is a number token of the grammar, and
the token denotes the digits at their place. With shortest digits it reads
back as the double it was printed from.

Only the layout is analysed here: where the point falls decides between four
shapes, and each is matched with the production of the grammar that derives it
(`Spells`). That the digits name the double again is the property of the
shortest digits and is quoted.
-/

namespace SwarmPointer.JsonInput

open JsonGrammar Decimal

theorem digitsValue_append (as bs : Str) :
    digitsValue (as ++ bs) = Nat.ofDigitChars 10 bs (digitsValue as) :=
  Nat.ofDigitChars_append 0

theorem digitsValue_zeros (ds : Str) (j : Nat) :
    digitsValue (ds ++ List.replicate j '0') = digitsValue ds * 10 ^ j := by
  rw [digitsValue_append, Nat.ofDigitChars_replicate_zero, Nat.mul_comm]

theorem digitsValue_leading (j : Nat) (ds : Str) :
    digitsValue (List.replicate j '0' ++ ds) = digitsValue ds := by
  rw [digitsValue_append, digitsValue, Nat.ofDigitChars_replicate_zero, Nat.mul_zero]
  rfl

/-- A positive number does not start with zero. -/
theorem toDigits_head {n : Nat} (h : 0 < n) : (Nat.toDigits 10 n).head? ≠ some '0' := by
  induction n using Nat.strong_induction_on with
  | _ n ih =>
      rw [Nat.toDigits_eq_if (by decide)]
      split
      · rename_i hlt
        have key : ∀ k < 10, 0 < k → Nat.digitChar k ≠ '0' := by decide
        exact fun heq => key n hlt h (Option.some.inj heq)
      · rw [List.head?_append_of_ne_nil _ Nat.toDigits_ne_nil]
        exact ih (n / 10) (by omega) (by omega)

/-- The digits of a natural number. -/
def natDigits (n : Nat) : Digits :=
  ⟨Nat.toDigits 10 n, Nat.toDigits_ne_nil, fun _ hc =>
    Nat.isDigit_of_mem_toDigits (by decide) (by decide) hc⟩

theorem digitsValue_natDigits (n : Nat) : digitsValue (natDigits n).1 = n :=
  Nat.ofDigitChars_ten_toDigits

theorem natDigits_head {n : Nat} (h : 0 < n) : (natDigits n).1.head? ≠ some '0' := toDigits_head h

/-- A part of a digit string that is not empty. -/
def subDigits (ds : Digits) {s : Str} (hs : s ≠ []) (hsub : s ⊆ ds.1) : Digits :=
  ⟨s, hs, fun c hc => ds.2.2 c (hsub hc)⟩

def zeroPad (ds : Digits) (j : Nat) : Digits :=
  ⟨ds.1 ++ List.replicate j '0', by simp [ds.2.1], by
    intro c hc
    rcases List.mem_append.mp hc with hc | hc
    · exact ds.2.2 c hc
    · rw [List.eq_of_mem_replicate hc]
      decide⟩

def zeroLead (j : Nat) (ds : Digits) : Digits :=
  ⟨List.replicate j '0' ++ ds.1, by simp [ds.2.1], by
    intro c hc
    rcases List.mem_append.mp hc with hc | hc
    · rw [List.eq_of_mem_replicate hc]
      decide
    · exact ds.2.2 c hc⟩

def signText (neg : Bool) : Str := if neg then ['-'] else []

/-- A token that spells the digits `ds` with the point after the `n`-th. -/
def Spells (x : Number) (neg : Bool) (ds : Str) (n : Int) (s : Str) : Prop :=
  x.neg = neg ∧ x.text = signText neg ++ s ∧ x.decimal.Same ⟨digitsValue ds, n - ds.length⟩

theorem take_one_digits (ds : Digits) : ∃ d, ds.1.take 1 = [d] ∧ ds.1.head? = some d := by
  obtain ⟨ds, hne, hds⟩ := ds
  cases ds with
  | nil => exact absurd rfl hne
  | cons d ds => exact ⟨d, rfl, rfl⟩

/-- Digits padded to an integer. -/
theorem spells_integer (neg : Bool) {ds : Digits} (hlead : ds.1.head? ≠ some '0') (j : Nat) :
    ∃ x, Spells x neg ds.1 (ds.1.length + j) (ds.1 ++ List.replicate j '0') := by
  have hpad : (zeroPad ds j).1.head? ≠ some '0' := by
    rw [zeroPad, List.head?_append_of_ne_nil _ ds.2.1]
    exact hlead
  refine ⟨⟨neg, zeroPad ds j, .inr hpad, none, none⟩, rfl, ?_, ?_⟩
  · simp [Number.text, signText, fracText, expText, zeroPad]
  · have hs := same_mul_pow (digitsValue ds.1) 0 j
    have hdec : (⟨neg, zeroPad ds j, .inr hpad, none, none⟩ : Number).decimal =
        ⟨digitsValue ds.1 * 10 ^ j, 0⟩ := by
      simp [Number.decimal, zeroPad, digitsValue_zeros]
    have hexp : (ds.1.length : Int) + j - ds.1.length = 0 + j := by ring
    rw [hdec, hexp]
    exact hs

/-- Digits with a point inside. -/
theorem spells_point (neg : Bool) {ds : Digits} (hlead : ds.1.head? ≠ some '0') {k : Nat}
    (hk : 0 < k) (hlt : k < ds.1.length) :
    ∃ x, Spells x neg ds.1 k (ds.1.take k ++ '.' :: ds.1.drop k) := by
  have htake : ds.1.take k ≠ [] := by
    rw [ne_eq, List.take_eq_nil_iff, not_or]
    exact ⟨by omega, ds.2.1⟩
  have hdrop : ds.1.drop k ≠ [] := by
    rw [ne_eq, List.drop_eq_nil_iff]
    omega
  have hhead : (subDigits ds htake (List.take_subset _ _)).1.head? ≠ some '0' := by
    obtain ⟨k, rfl⟩ : ∃ j, k = j + 1 := ⟨k - 1, by omega⟩
    rw [subDigits, List.head?_take, if_neg (by omega)]
    exact hlead
  refine ⟨⟨neg, subDigits ds htake (List.take_subset _ _), .inr hhead,
    some (subDigits ds hdrop (List.drop_subset _ _)), none⟩, rfl, ?_, ?_⟩
  · simp [Number.text, signText, fracText, expText, subDigits]
  · have hlen : ((ds.1.drop k).length : Int) = ds.1.length - k := by
      rw [List.length_drop]
      omega
    simp only [Number.decimal, subDigits, Option.elim_some, Option.elim_none,
      List.take_append_drop, hlen]
    rw [zero_sub, neg_sub]
    exact Same.refl _

/-- Digits behind leading zeros. -/
theorem spells_leading (neg : Bool) (ds : Digits) (j : Nat) :
    ∃ x, Spells x neg ds.1 (-j) ('0' :: '.' :: (List.replicate j '0' ++ ds.1)) := by
  refine ⟨⟨neg, .zero, .inl rfl, some (zeroLead j ds), none⟩, rfl, ?_, ?_⟩
  · simp [Number.text, signText, fracText, expText, zeroLead]
  · have hval : digitsValue ('0' :: (List.replicate j '0' ++ ds.1)) = digitsValue ds.1 := by
      rw [← List.cons_append, ← List.replicate_succ, digitsValue_leading]
    have hexp : (0 : Int) - (j + ds.1.length) = -j - ds.1.length := by ring
    simp only [Number.decimal, zeroLead, Option.elim_some, Option.elim_none, Digits.zero_val,
      List.singleton_append, hval, List.length_append, List.length_replicate, Nat.cast_add, hexp]
    exact Same.refl _

/-- Digits in scientific form, with any sign and any digits for the exponent. -/
theorem spells_scientific (neg : Bool) {ds : Digits} (hlead : ds.1.head? ≠ some '0') (n : Int)
    {e : Exponent} (he : e.value = n - 1) :
    ∃ x, Spells x neg ds.1 n (ds.1.take 1 ++ fraction (ds.1.drop 1) ++ e.text) := by
  obtain ⟨d, htake, hd⟩ := take_one_digits ds
  have hne : ds.1.take 1 ≠ [] := by
    rw [htake]
    exact List.cons_ne_nil _ _
  have hhead : (subDigits ds hne (List.take_subset _ _)).1.head? ≠ some '0' := by
    rw [subDigits, List.head?_take, if_neg (by decide)]
    exact hlead
  have hcons : ds.1 = d :: ds.1.drop 1 := by
    conv_lhs => rw [← List.take_append_drop 1 ds.1, htake]
    rfl
  by_cases hrest : ds.1.drop 1 = []
  · refine ⟨⟨neg, subDigits ds hne (List.take_subset _ _), .inr hhead, none, some e⟩, rfl, ?_, ?_⟩
    · simp [Number.text, signText, fracText, expText, subDigits, hrest, fraction]
    · have hlen : (ds.1.length : Int) = 1 := by
        rw [hcons, hrest]
        rfl
      have hval : ds.1.take 1 = ds.1 := by
        rw [htake, hcons, hrest]
      simp only [Number.decimal, subDigits, Option.elim_some, Option.elim_none, List.append_nil,
        List.length_nil, he, hlen, hval]
      rw [Nat.cast_zero, sub_zero]
      exact Same.refl _
  · have hfrac : fraction (ds.1.drop 1) = '.' :: ds.1.drop 1 := by
      cases h : ds.1.drop 1 with
      | nil => exact absurd h hrest
      | cons d ds => rfl
    refine ⟨⟨neg, subDigits ds hne (List.take_subset _ _), .inr hhead,
      some (subDigits ds hrest (List.drop_subset _ _)), some e⟩, rfl, ?_, ?_⟩
    · rw [hfrac]
      simp [Number.text, signText, fracText, expText, subDigits]
    · have hlen : ((ds.1.drop 1).length : Int) = ds.1.length - 1 := by
        have hpos := List.length_pos_of_ne_nil ds.2.1
        rw [List.length_drop]
        omega
      have hsum : n - 1 - (ds.1.length - 1 : Int) = n - ds.1.length := by ring
      simp only [Number.decimal, subDigits, Option.elim_some, List.take_append_drop, he, hlen,
        hsum]
      exact Same.refl _

/-- **ECMAScript's layout is a number token with the value of its digits.** -/
theorem exists_ecmaLayout (neg : Bool) {ds : Digits} (hlead : ds.1.head? ≠ some '0') (n : Int) :
    ∃ x, Spells x neg ds.1 n (ecmaLayout ds.1 n) := by
  rw [ecmaLayout]
  split
  · rename_i h
    obtain ⟨j, hj⟩ : ∃ j : Nat, n = ds.1.length + j := ⟨(n - ds.1.length).toNat, by omega⟩
    have hpad : (n - ds.1.length).toNat = j := by omega
    rw [hpad, hj]
    exact spells_integer neg hlead j
  split
  · rename_i h h'
    obtain ⟨k, rfl⟩ : ∃ k : Nat, n = k := ⟨n.toNat, by omega⟩
    exact spells_point neg hlead (by omega) (by omega)
  split
  · obtain ⟨j, rfl⟩ : ∃ j : Nat, n = -j := ⟨(-n).toNat, by omega⟩
    rw [neg_neg, Int.toNat_natCast]
    exact spells_leading neg ds j
  · by_cases hpos : 0 < n
    · rw [if_pos hpos]
      refine spells_scientific neg hlead n (e := ⟨false, .plus, natDigits (n - 1).natAbs⟩) ?_
      simp only [Exponent.value, digitsValue_natDigits]
      omega
    · rw [if_neg hpos]
      refine spells_scientific neg hlead n (e := ⟨false, .minus, natDigits (n - 1).natAbs⟩) ?_
      simp only [Exponent.value, digitsValue_natDigits]
      omega

/-! ## Doubles -/

/-- The digits a double is printed with. -/
def shortestDigits (x : Binary64) : Digits := natDigits (shortest x.mag).coeff

theorem shortestDigits_lead {x : Binary64} (h : x.mag ≠ 0) :
    (shortestDigits x).1.head? ≠ some '0' := by
  rw [shortestDigits]
  exact natDigits_head (shortest_pos x.rep (Nat.pos_of_ne_zero h))

theorem natDigits_point (d : Decimal) : d.point - (natDigits d.coeff).1.length = d.exp :=
  add_sub_cancel_left _ _

/-- A token that spells the digits of a decimal denotes it. -/
theorem Spells.same {x : Number} {neg : Bool} {d : Decimal} {s : Str}
    (h : Spells x neg (natDigits d.coeff).1 d.point s) : x.decimal.Same d := by
  have hsame := h.2.2
  rwa [natDigits_point, digitsValue_natDigits] at hsame

/-- A token that spells the shortest digits at their place names the double. -/
theorem numberValue_spells {x : Binary64} {n : Number} {s : Str}
    (h : Spells n x.neg (shortestDigits x).1 (shortest x.mag).point s) :
    numberValue n = some x := by
  rw [shortestDigits] at h
  rw [numberValue_eq, h.1, h.same.toBinary64]
  exact shortest_toBinary64 x

/-- The value of a token for zero. -/
theorem numberValue_zero {n : Number} {x : Binary64} (hcoeff : n.decimal.coeff = 0) :
    numberValue n = some x ↔ x.neg = n.neg ∧ x.mag = 0 := by
  rw [numberValue_eq, toBinary64, Binary64.ofQuotient_eq_some, num, hcoeff, Nat.zero_mul,
    Nat.zero_mul, roundMag_zero (den_pos _)]

/-- **The canonical text of a number is a token that reads back.** -/
theorem exists_number {x : Binary64} (h : ¬ (x.neg = true ∧ x.mag = 0)) :
    ∃ n : Number, n.text = ecmaString x ∧ readNumber n = some x := by
  rw [ecmaString]
  by_cases hz : x.mag = 0
  · have hneg : x.neg = false := by
      cases hn : x.neg with
      | false => rfl
      | true => exact absurd ⟨hn, hz⟩ h
    rw [if_pos hz]
    refine ⟨⟨false, .zero, .inl rfl, none, none⟩, rfl, ?_⟩
    have hval := (numberValue_zero (n := ⟨false, .zero, .inl rfl, none, none⟩)
      rfl).mpr ⟨hneg, hz⟩
    exact readNumber_eq_some.mpr ⟨⟨x, hval, fun hn => by cases hn⟩, hval⟩
  · rw [if_neg hz]
    obtain ⟨n, hn⟩ := exists_ecmaLayout x.neg (shortestDigits_lead hz) (shortest x.mag).point
    have hval := numberValue_spells hn
    exact ⟨n, hn.2.1, readNumber_eq_some.mpr ⟨⟨x, hval, fun _ => hz⟩, hval⟩⟩

end SwarmPointer.JsonInput
