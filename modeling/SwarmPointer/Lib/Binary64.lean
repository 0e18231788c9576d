import Mathlib.Data.Nat.Log
import Mathlib.Tactic.Linarith
import Mathlib.Tactic.Ring

/-!
# Binary64

Finite IEEE 754 double-precision numbers as a sign and a natural magnitude
counted in units of `2^-1074`, and round-to-nearest-even from an exact
quotient. In these units the order is the order of `Nat`, an integer is a
multiple of `2^1074`, and the numbers that exist are those with at most 53
significant bits below `2^2098`.

The rounding rules are the ones a proof about decimal conversion needs:
rounding is exact on representable magnitudes, never crosses one, and
depends on the quotient only.
-/

/-! ## Representable magnitudes -/

namespace Binary64

/-- The spacing of the doubles in the binade of `q`. -/
def ulp (q : Nat) : Nat := 2 ^ (q.log2 - 52)

/-- The magnitude of some finite double. -/
def Representable (m : Nat) : Prop := m < 2 ^ 2098 ∧ m % ulp m = 0

instance : DecidablePred Representable := fun _ => inferInstanceAs (Decidable (_ ∧ _))

/-- `1.0` in units of `2^-1074`. Irreducible: no elaborator should meet
its digits. -/
@[irreducible] def one : Nat := 2 ^ 1074

theorem one_eq : one = 2 ^ 1074 := by unfold one; rfl

theorem one_pos : 0 < one := by
  rw [one_eq]
  exact Nat.pow_pos two_pos

theorem ulp_pos (q : Nat) : 0 < ulp q := Nat.two_pow_pos _

theorem ulp_of_lt {q : Nat} (h : q < 2 ^ 53) : ulp q = 1 := by
  have hlog : q.log2 < 53 := by
    by_cases h0 : q = 0
    · subst h0
      decide
    · exact (Nat.log2_lt h0).mpr h
  rw [ulp, Nat.sub_eq_zero_of_le (by omega), Nat.pow_zero]

/-- From `2^53` on the mantissa has exactly 53 bits. -/
theorem ulp_of_le {q : Nat} (h : 2 ^ 53 ≤ q) :
    ulp q * 2 ^ 52 ≤ q ∧ q < ulp q * 2 ^ 53 := by
  have h0 : q ≠ 0 := by omega
  have hlog : 53 ≤ q.log2 := (Nat.le_log2 h0).mpr h
  have hlo := Nat.log2_self_le h0
  have hhi := Nat.lt_log2_self (n := q)
  obtain ⟨k, hk⟩ : ∃ k, q.log2 = k + 52 := ⟨q.log2 - 52, by omega⟩
  rw [ulp, hk, Nat.add_sub_cancel, ← Nat.pow_add, ← Nat.pow_add]
  rw [hk] at hlo hhi
  exact ⟨hlo, hhi⟩

/-- Two numbers within one binade share their spacing. -/
theorem ulp_congr {m q : Nat} (hlo : q ≤ m) (hhi : m < ulp q * 2 ^ 53) : ulp m = ulp q := by
  by_cases h : q < 2 ^ 53
  · rw [ulp_of_lt h] at hhi ⊢
    exact ulp_of_lt (by omega)
  · have hq := ulp_of_le (not_lt.mp h)
    have h0 : m ≠ 0 := by omega
    have hlog : m.log2 = q.log2 := by
      apply le_antisymm
      · have hq53 : 53 ≤ q.log2 := (Nat.le_log2 (by omega)).mpr (not_lt.mp h)
        rw [ulp, ← Nat.pow_add] at hhi
        have := (Nat.log2_lt h0).mpr hhi
        omega
      · exact (Nat.le_log2 h0).mpr ((Nat.log2_self_le (by omega)).trans hlo)
    rw [ulp, hlog, ulp]

theorem lt_ulp_mul (q : Nat) : q < ulp q * 2 ^ 53 := by
  by_cases h : q < 2 ^ 53
  · rw [ulp_of_lt h]
    omega
  · exact (ulp_of_le (not_lt.mp h)).2

theorem representable_of_lt {m : Nat} (h : m < 2 ^ 53) : Representable m := by
  have hrange : (2 : Nat) ^ 53 < 2 ^ 2098 := Nat.pow_lt_pow_right one_lt_two (by omega)
  refine ⟨h.trans hrange, ?_⟩
  rw [ulp_of_lt h, Nat.mod_one]

/-- A 53-bit integer times a power of two has at most 53 significant bits. -/
theorem mul_mod_ulp {a : Nat} (ha : a ≤ 2 ^ 53) (k : Nat) : a * 2 ^ k % ulp (a * 2 ^ k) = 0 := by
  by_cases h : a * 2 ^ k < 2 ^ 53
  · rw [ulp_of_lt h, Nat.mod_one]
  · have hq := ulp_of_le (not_lt.mp h)
    rcases Nat.lt_or_eq_of_le ha with hlt | rfl
    · -- the spacing is at most `2^k`
      have hlog : (a * 2 ^ k).log2 - 52 ≤ k := by
        have h1 : a * 2 ^ k < 2 ^ (53 + k) := by
          rw [Nat.pow_add]
          exact Nat.mul_lt_mul_of_pos_right hlt (Nat.two_pow_pos k)
        have := (Nat.log2_lt (by omega)).mpr h1
        omega
      exact Nat.mod_eq_zero_of_dvd ((Nat.pow_dvd_pow 2 hlog).mul_left a)
    · rw [ulp, ← Nat.pow_add, Nat.log2_two_pow]
      exact Nat.mod_eq_zero_of_dvd (Nat.pow_dvd_pow 2 (by omega))

theorem representable_mul {a : Nat} (ha : a ≤ 2 ^ 53) {k : Nat} (hk : k ≤ 2044) :
    Representable (a * 2 ^ k) := by
  have hpow : (2 : Nat) ^ 53 * 2 ^ k < 2 ^ 2098 := by
    rw [← Nat.pow_add]
    exact Nat.pow_lt_pow_right one_lt_two (by omega)
  exact ⟨lt_of_le_of_lt (Nat.mul_le_mul_right _ ha) hpow, mul_mod_ulp ha k⟩

/-! ## Rounding -/

/-- `num / den` rounded to an integer, ties to even. -/
def roundEven (num den : Nat) : Nat :=
  let q := num / den
  let r := num % den
  if 2 * r < den then q
  else if den < 2 * r then q + 1
  else q + q % 2

/-- `num / den` rounded to 53 significant bits. -/
def roundMag (num den : Nat) : Nat :=
  let u := ulp (num / den)
  roundEven num (den * u) * u

theorem roundEven_bounds (num den : Nat) :
    num / den ≤ roundEven num den ∧ roundEven num den ≤ num / den + 1 := by
  rw [roundEven]
  split
  · omega
  · split <;> omega

theorem roundEven_exact (q : Nat) {den : Nat} (h : 0 < den) : roundEven (q * den) den = q := by
  rw [roundEven]
  rw [Nat.mul_mod_left, Nat.mul_div_cancel q h, if_pos (by omega)]

theorem roundEven_scale (num : Nat) {den c : Nat} (hc : 0 < c) :
    roundEven (num * c) (den * c) = roundEven num den := by
  have hlt : 2 * (num % den * c) < den * c ↔ 2 * (num % den) < den := by
    rw [← Nat.mul_assoc]
    exact Nat.mul_lt_mul_right hc
  have hgt : den * c < 2 * (num % den * c) ↔ den < 2 * (num % den) := by
    rw [← Nat.mul_assoc]
    exact Nat.mul_lt_mul_right hc
  simp only [roundEven, Nat.mul_div_mul_right _ _ hc, Nat.mul_mod_mul_right, hlt, hgt]

theorem roundMag_scale (num : Nat) {den c : Nat} (hc : 0 < c) :
    roundMag (num * c) (den * c) = roundMag num den := by
  rw [roundMag, roundMag, Nat.mul_div_mul_right _ _ hc, Nat.mul_right_comm den c,
    roundEven_scale num hc]

/-- Equal quotients round alike. -/
theorem roundMag_congr {a b a' b' : Nat} (hb : 0 < b) (hb' : 0 < b') (h : a * b' = a' * b) :
    roundMag a b = roundMag a' b' := by
  rw [← roundMag_scale a hb', ← roundMag_scale a' hb, h, Nat.mul_comm b b']

/-- **Rounding is exact on representable magnitudes.** -/
theorem roundMag_exact {m den : Nat} (hm : Representable m) (h : 0 < den) :
    roundMag (m * den) den = m := by
  have hdvd : m / ulp m * ulp m = m := Nat.div_mul_cancel (Nat.dvd_of_mod_eq_zero hm.2)
  have hnum : m * den = m / ulp m * (den * ulp m) := by
    calc m * den = m / ulp m * ulp m * den := by rw [hdvd]
      _ = m / ulp m * (den * ulp m) := by ring
  rw [roundMag, Nat.mul_div_cancel m h, hnum,
    roundEven_exact _ (Nat.mul_pos h (ulp_pos m)), hdvd]

/-- Rounding down never crosses a representable magnitude. -/
theorem le_roundMag {m num den : Nat} (hm : Representable m) (h : 0 < den) (hle : m * den ≤ num) :
    m ≤ roundMag num den := by
  have hq : m ≤ num / den := (Nat.le_div_iff_mul_le h).mpr hle
  have hb := (roundEven_bounds num (den * ulp (num / den))).1
  rw [← Nat.div_div_eq_div_mul] at hb
  rw [roundMag]
  generalize num / den = q at hq hb ⊢
  -- the multiple of the spacing just below `q` is at least `m`
  have hfloor : m ≤ q / ulp q * ulp q := by
    by_contra hlt
    have hdiv := Nat.div_add_mod q (ulp q)
    have hlo : q / ulp q * ulp q < m := not_le.mp hlt
    by_cases hsmall : q < 2 ^ 53
    · rw [ulp_of_lt hsmall, Nat.div_one, Nat.mul_one] at hlo
      omega
    · have hbin := ulp_of_le (not_lt.mp hsmall)
      have h52 : 2 ^ 52 ≤ q / ulp q := (Nat.le_div_iff_mul_le (ulp_pos q)).mpr (by
        rw [Nat.mul_comm]
        exact hbin.1)
      have hmul : 2 ^ 52 * ulp q ≤ q / ulp q * ulp q := Nat.mul_le_mul_right _ h52
      have hcongr : ulp m = ulp q := by
        have hbig : 2 ^ 53 ≤ m ∨ m < 2 ^ 53 := by omega
        rcases hbig with hbig | hbig
        · exact (ulp_congr hq (lt_of_lt_of_le (lt_ulp_mul q) (by
            have hm' := ulp_of_le hbig
            have : ulp q * 2 ^ 52 < m := by
              rw [Nat.mul_comm]
              omega
            have hlog : q.log2 - 52 ≤ m.log2 - 52 := by
              have h0 : m ≠ 0 := by omega
              have : q.log2 ≤ m.log2 := by
                apply (Nat.le_log2 h0).mpr
                have hq52 : ulp q * 2 ^ 52 = 2 ^ q.log2 := by
                  have h53 : 53 ≤ q.log2 := (Nat.le_log2 (by omega)).mpr (not_lt.mp hsmall)
                  rw [ulp, ← Nat.pow_add]
                  congr 1
                  omega
                omega
              omega
            exact Nat.mul_le_mul_right _ (Nat.pow_le_pow_right two_pos hlog)))).symm
        · have hq2 : ulp q * 2 ^ 52 < 2 ^ 53 := by
            rw [Nat.mul_comm]
            omega
          have h53 : 53 ≤ q.log2 := (Nat.le_log2 (by omega)).mpr (not_lt.mp hsmall)
          have hpow : 2 ≤ ulp q := by
            rw [ulp]
            exact Nat.pow_le_pow_right two_pos (by omega : 1 ≤ q.log2 - 52)
          omega
      have hdvd := Nat.div_mul_cancel (Nat.dvd_of_mod_eq_zero hm.2)
      rw [hcongr] at hdvd
      have h1 : q / ulp q < m / ulp q := by
        by_contra hge
        have := Nat.mul_le_mul_right (ulp q) (not_lt.mp hge)
        omega
      have h2 : (q / ulp q + 1) * ulp q ≤ m / ulp q * ulp q := Nat.mul_le_mul_right _ h1
      have h3 := Nat.mod_lt q (ulp_pos q)
      rw [Nat.add_mul, Nat.one_mul] at h2
      rw [Nat.mul_comm] at hdiv
      omega
  exact hfloor.trans (Nat.mul_le_mul_right _ hb)

/-- Rounding up never crosses a representable magnitude. -/
theorem roundMag_le {m num den : Nat} (hm : Representable m) (h : 0 < den) (hle : num ≤ m * den) :
    roundMag num den ≤ m := by
  rcases Nat.lt_or_eq_of_le hle with hlt | rfl
  · have hq : num / den < m := (Nat.div_lt_iff_lt_mul h).mpr hlt
    have hb := (roundEven_bounds num (den * ulp (num / den))).2
    rw [← Nat.div_div_eq_div_mul] at hb
    rw [roundMag]
    generalize num / den = q at hq hb ⊢
    -- the multiple of the spacing just above `q` is at most `m`
    refine (Nat.mul_le_mul_right _ hb).trans ?_
    by_contra hgt
    have hfloor := Nat.div_mul_le_self q (ulp q)
    have htop : m < ulp q * 2 ^ 53 := by
      have hlt53 : q / ulp q < 2 ^ 53 :=
        (Nat.div_lt_iff_lt_mul (ulp_pos q)).mpr (by
          rw [Nat.mul_comm]
          exact lt_ulp_mul q)
      have := Nat.mul_le_mul_right (ulp q) hlt53
      rw [Nat.mul_comm (2 ^ 53)] at this
      exact lt_of_lt_of_le (not_le.mp hgt) this
    have hdvd := Nat.div_mul_cancel (Nat.dvd_of_mod_eq_zero hm.2)
    rw [ulp_congr hq.le htop] at hdvd
    have h1 : q / ulp q < m / ulp q := by
      have hq' := Nat.lt_div_mul_add (a := q) (ulp_pos q)
      by_contra hge
      have := Nat.mul_le_mul_right (ulp q) (not_lt.mp hge)
      omega
    have h2 : (q / ulp q + 1) * ulp q ≤ m / ulp q * ulp q := Nat.mul_le_mul_right _ h1
    omega
  · rw [roundMag_exact hm h]

theorem quotient_mono {a b a' b' : Nat} (hb : 0 < b) (hb' : 0 < b') (h : a * b' ≤ a' * b) :
    a / b ≤ a' / b' := by
  rw [Nat.le_div_iff_mul_le hb']
  have hmul : a / b * b' * b ≤ a' * b := by
    calc a / b * b' * b = a / b * b * b' := by ring
      _ ≤ a * b' := Nat.mul_le_mul_right _ (Nat.div_mul_le_self a b)
      _ ≤ a' * b := h
  exact Nat.le_of_mul_le_mul_right hmul hb

theorem roundEven_mono {a b a' b' : Nat} (hb : 0 < b) (hb' : 0 < b') (h : a * b' ≤ a' * b) :
    roundEven a b ≤ roundEven a' b' := by
  have ha := Nat.div_add_mod a b
  have ha' := Nat.div_add_mod a' b'
  have hr' := Nat.mod_lt a' hb'
  have hq := quotient_mono hb hb' h
  rcases Nat.lt_or_eq_of_le hq with hlt | heq
  · exact ((roundEven_bounds a b).2.trans hlt).trans (roundEven_bounds a' b').1
  -- the same integer part: the remainders decide
  have hr : a % b * b' ≤ a' % b' * b := by
    rw [← ha, ← ha', ← heq] at h
    have hleft : (b * (a / b) + a % b) * b' = b * b' * (a / b) + a % b * b' := by ring
    have hright : (b' * (a / b) + a' % b') * b = b * b' * (a / b) + a' % b' * b := by ring
    rw [hleft, hright] at h
    omega
  rw [roundEven, roundEven]
  simp only [heq]
  have hhalf : ¬ 2 * (a % b) < b → ¬ 2 * (a' % b') < b' := by
    intro hn hlt
    have h1 : b * b' ≤ 2 * (a % b) * b' := Nat.mul_le_mul_right _ (not_lt.mp hn)
    have h2 : 2 * (a' % b') * b < b' * b := Nat.mul_lt_mul_of_pos_right hlt hb
    have h3 : 2 * (a % b) * b' ≤ 2 * (a' % b') * b := by
      rw [Nat.mul_assoc, Nat.mul_assoc]
      exact Nat.mul_le_mul_left _ hr
    rw [Nat.mul_comm b' b] at h2
    omega
  have habove : b < 2 * (a % b) → b' < 2 * (a' % b') := by
    intro hlt
    by_contra hn
    have h1 : b * b' < 2 * (a % b) * b' := Nat.mul_lt_mul_of_pos_right hlt hb'
    have h2 : 2 * (a' % b') * b ≤ b' * b := Nat.mul_le_mul_right _ (not_lt.mp hn)
    have h3 : 2 * (a % b) * b' ≤ 2 * (a' % b') * b := by
      rw [Nat.mul_assoc, Nat.mul_assoc]
      exact Nat.mul_le_mul_left _ hr
    rw [Nat.mul_comm b' b] at h2
    omega
  split_ifs <;> omega

/-- **Rounding is monotone.** -/
theorem roundMag_mono {a b a' b' : Nat} (hb : 0 < b) (hb' : 0 < b') (h : a * b' ≤ a' * b) :
    roundMag a b ≤ roundMag a' b' := by
  have hq := quotient_mono hb hb' h
  have hlog : (a / b).log2 ≤ (a' / b').log2 := by
    rw [Nat.log2_eq_log_two, Nat.log2_eq_log_two]
    exact Nat.log_mono_right hq
  have hu := ulp_pos (a / b)
  have hu' := ulp_pos (a' / b')
  rw [roundMag, roundMag]
  rcases Nat.lt_or_ge ((a / b).log2 - 52) ((a' / b').log2 - 52) with hlt | hge
  · -- a power of two lies between the two spacings
    have hdouble : ulp (a / b) * 2 ≤ ulp (a' / b') := by
      rw [ulp, ulp, ← Nat.pow_succ]
      exact Nat.pow_le_pow_right two_pos hlt
    have hbig : 2 ^ 53 ≤ a' / b' := by
      rw [← Nat.le_log2 (by intro h0; rw [h0] at hlt; simp at hlt)]
      omega
    have htop : roundEven a (b * ulp (a / b)) ≤ 2 ^ 53 := by
      have hbound := (roundEven_bounds a (b * ulp (a / b))).2
      rw [← Nat.div_div_eq_div_mul] at hbound
      have hdiv : a / b / ulp (a / b) < 2 ^ 53 := (Nat.div_lt_iff_lt_mul hu).mpr (by
        rw [Nat.mul_comm]
        exact lt_ulp_mul _)
      omega
    have hbottom : 2 ^ 52 ≤ roundEven a' (b' * ulp (a' / b')) := by
      have hbound := (roundEven_bounds a' (b' * ulp (a' / b'))).1
      rw [← Nat.div_div_eq_div_mul] at hbound
      have hdiv : 2 ^ 52 ≤ a' / b' / ulp (a' / b') := (Nat.le_div_iff_mul_le hu').mpr (by
        rw [Nat.mul_comm]
        exact (ulp_of_le hbig).1)
      omega
    calc roundEven a (b * ulp (a / b)) * ulp (a / b)
        ≤ 2 ^ 53 * ulp (a / b) := Nat.mul_le_mul_right _ htop
      _ = 2 ^ 52 * (ulp (a / b) * 2) := by ring
      _ ≤ 2 ^ 52 * ulp (a' / b') := Nat.mul_le_mul_left _ hdouble
      _ ≤ roundEven a' (b' * ulp (a' / b')) * ulp (a' / b') := Nat.mul_le_mul_right _ hbottom
  · have hsame : ulp (a' / b') = ulp (a / b) := by
      rw [ulp, ulp]
      congr 1
      omega
    rw [hsame]
    refine Nat.mul_le_mul_right _ (roundEven_mono (Nat.mul_pos hb hu) (Nat.mul_pos hb' hu) ?_)
    calc a * (b' * ulp (a / b)) = a * b' * ulp (a / b) := by ring
      _ ≤ a' * b * ulp (a / b) := Nat.mul_le_mul_right _ h
      _ = a' * (b * ulp (a / b)) := by ring

/-- What rounding returns is representable unless it overflows. -/
theorem roundMag_mod_ulp (num den : Nat) : roundMag num den % ulp (roundMag num den) = 0 := by
  have hb := (roundEven_bounds num (den * ulp (num / den))).2
  rw [← Nat.div_div_eq_div_mul] at hb
  have hlt : num / den / ulp (num / den) < 2 ^ 53 :=
    (Nat.div_lt_iff_lt_mul (ulp_pos _)).mpr (by
      rw [Nat.mul_comm]
      exact lt_ulp_mul _)
  rw [roundMag]
  exact mul_mod_ulp (by omega) _

end Binary64

/-! ## The numbers -/

/-- A finite double: `± mag · 2^-1074`. Both zeros are present. -/
structure Binary64 where
  neg : Bool
  mag : Nat
  rep : Binary64.Representable mag
  deriving DecidableEq

namespace Binary64

/-- The double nearest to `± num / den` (in units of `2^-1074`), ties to
even; `none` when it overflows to an infinity. -/
def ofQuotient (neg : Bool) (num den : Nat) : Option Binary64 :=
  if h : roundMag num den < 2 ^ 2098 then
    some ⟨neg, roundMag num den, h, roundMag_mod_ulp num den⟩
  else none

theorem ofQuotient_exact (x : Binary64) {den : Nat} (h : 0 < den) :
    ofQuotient x.neg (x.mag * den) den = some x := by
  have hmag := roundMag_exact x.rep h
  rw [ofQuotient, dif_pos (by rw [hmag]; exact x.rep.1)]
  simp only [hmag]

theorem ofQuotient_congr (neg : Bool) {a b a' b' : Nat} (hb : 0 < b) (hb' : 0 < b')
    (h : a * b' = a' * b) : ofQuotient neg a b = ofQuotient neg a' b' := by
  simp only [ofQuotient, roundMag_congr hb hb' h]

theorem ofQuotient_eq_some {neg : Bool} {num den : Nat} {x : Binary64} :
    ofQuotient neg num den = some x ↔ x.neg = neg ∧ x.mag = roundMag num den := by
  rw [ofQuotient]
  constructor
  · intro h
    split at h
    · obtain rfl := Option.some.inj h
      exact ⟨rfl, rfl⟩
    · cases h
  · rintro ⟨rfl, hmag⟩
    rw [dif_pos (by rw [← hmag]; exact x.rep.1)]
    simp only [← hmag]

/-- The integers up to `2^53`. -/
def ofNat53 (n : Nat) (h : n ≤ 2 ^ 53) : Binary64 :=
  ⟨false, n * one, by rw [one_eq]; exact representable_mul h (by decide)⟩

theorem zero_fits : 0 ≤ 2 ^ 53 := Nat.zero_le _

theorem one_fits : 1 ≤ 2 ^ 53 := Nat.one_le_two_pow

def zero : Binary64 := ofNat53 0 zero_fits

/-- Integral values. -/
def isInteger (x : Binary64) : Bool := x.mag % one == 0

/-- Truncation towards zero. -/
def toInt (x : Binary64) : Int := if x.neg then -(x.mag / one : Nat) else (x.mag / one : Nat)

theorem isInteger_ofNat53 {n : Nat} (h : n ≤ 2 ^ 53) : (ofNat53 n h).isInteger = true := by
  have hmag : (ofNat53 n h).mag = n * one := rfl
  rw [isInteger, hmag, Nat.mul_mod_left]
  rfl

theorem toInt_ofNat53 {n : Nat} (h : n ≤ 2 ^ 53) : (ofNat53 n h).toInt = n := by
  have hmag : (ofNat53 n h).mag = n * one := rfl
  have hneg : (ofNat53 n h).neg = false := rfl
  rw [toInt, hmag, hneg, Nat.mul_div_cancel _ one_pos]
  rfl

attribute [irreducible] roundMag

end Binary64
