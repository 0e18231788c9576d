import SwarmPointer.Lib.Binary64

/-!
# Decimals and the shortest one that names a double

`s · 10^p` as an exact value, its rounding to binary64, and the search for
the shortest decimal that rounds back to a given double: the coarsest grid
`10^p` with a point that does, the point nearest to the double when both
neighbours do, the even one on a tie. `float.__repr__`, Go's
`strconv.FormatFloat` with precision `-1` and ECMAScript's
`Number::toString` all print these digits and differ only in layout.

Layouts come last. `ecmaLayout` places the point in a digit string the way
ECMAScript does; the layouts of the other hosts are not defined here, since the
programs that re-lay them out are what is verified against this one.
-/

/-! ## Digit strings -/

/-- Appending zeros to a decimal numeral. -/
theorem toDigits_mul_pow {n : Nat} (hn : 0 < n) (j : Nat) :
    Nat.toDigits 10 (n * 10 ^ j) = Nat.toDigits 10 n ++ List.replicate j '0' := by
  induction j with
  | zero => simp
  | succ j ih =>
      have happ := Nat.toDigits_append_toDigits (b := 10) (n := n * 10 ^ j) (d := 0)
        (by decide) (Nat.mul_pos hn (Nat.pow_pos (by decide))) (by decide)
      have hmul : n * 10 ^ (j + 1) = 10 * (n * 10 ^ j) + 0 := by ring
      rw [hmul, ← happ, ih, List.append_assoc, List.replicate_succ', Nat.toDigits_zero]

/-- `s · 10^p`. -/
structure Decimal where
  coeff : Nat
  exp : Int
  deriving DecidableEq

namespace Decimal

open Binary64

/-- Numerator over `den`, in units of `2^-1074`. -/
def num (d : Decimal) : Nat := d.coeff * 10 ^ d.exp.toNat * one

def den (d : Decimal) : Nat := 10 ^ (-d.exp).toNat

theorem den_pos (d : Decimal) : 0 < d.den := Nat.pow_pos (by decide)

/-- The correctly rounded double, `none` on overflow. -/
def toBinary64 (neg : Bool) (d : Decimal) : Option Binary64 := ofQuotient neg d.num d.den

/-- Equal as rational numbers. -/
def Same (d e : Decimal) : Prop := d.num * e.den = e.num * d.den

theorem Same.refl (d : Decimal) : Same d d := rfl

theorem Same.symm {d e : Decimal} (h : Same d e) : Same e d := Eq.symm h

theorem Same.trans {d e f : Decimal} (h : Same d e) (h' : Same e f) : Same d f := by
  apply Nat.eq_of_mul_eq_mul_right (den_pos e)
  calc d.num * f.den * e.den = d.num * e.den * f.den := by ring
    _ = e.num * f.den * d.den := by rw [h]; ring
    _ = f.num * d.den * e.den := by rw [h']; ring

theorem Same.roundMag {d e : Decimal} (h : Same d e) :
    roundMag d.num d.den = roundMag e.num e.den :=
  roundMag_congr (den_pos d) (den_pos e) h

theorem Same.toBinary64 {d e : Decimal} (h : Same d e) (neg : Bool) :
    d.toBinary64 neg = e.toBinary64 neg :=
  ofQuotient_congr neg (den_pos d) (den_pos e) h

/-- Trailing zeros move into the exponent. -/
theorem same_mul_pow (s : Nat) (p : Int) (j : Nat) : Same ⟨s * 10 ^ j, p⟩ ⟨s, p + j⟩ := by
  simp only [Same, num, den]
  rcases le_or_gt 0 p with hp | hp
  · rw [show (-p).toNat = 0 by omega, show (-(p + j)).toNat = 0 by omega,
      show (p + j).toNat = p.toNat + j by omega]
    ring
  · rcases le_or_gt 0 (p + j) with hq | hq
    · rw [show p.toNat = 0 by omega, show (-(p + j)).toNat = 0 by omega]
      have hj : 10 ^ j = 10 ^ (p + j).toNat * 10 ^ (-p).toNat := by
        rw [← Nat.pow_add]
        congr 1
        omega
      rw [hj]
      ring
    · rw [show p.toNat = 0 by omega, show (p + j).toNat = 0 by omega]
      have hj : 10 ^ (-p).toNat = 10 ^ j * 10 ^ (-(p + j)).toNat := by
        rw [← Nat.pow_add]
        congr 1
        omega
      rw [hj]
      ring

/-! ## Normal form -/

/-- Move up to `fuel` trailing zeros into the exponent. -/
def strip : Nat → Decimal → Decimal
  | 0, d => d
  | fuel + 1, d => if d.coeff % 10 = 0 then strip fuel ⟨d.coeff / 10, d.exp + 1⟩ else d

/-- The same value with no trailing zero. -/
def normalize (d : Decimal) : Decimal := strip d.coeff d

theorem strip_same (fuel : Nat) (d : Decimal) : Same (strip fuel d) d := by
  induction fuel generalizing d with
  | zero => exact Same.refl d
  | succ fuel ih =>
      rw [strip]
      split
      · rename_i h
        have hd : (⟨d.coeff / 10 * 10 ^ 1, d.exp⟩ : Decimal) = d := by
          rw [Nat.pow_one, Nat.div_mul_cancel (Nat.dvd_of_mod_eq_zero h)]
        have hmul := same_mul_pow (d.coeff / 10) d.exp 1
        rw [hd] at hmul
        exact (ih _).trans hmul.symm
      · exact Same.refl d

theorem strip_mod {fuel : Nat} {d : Decimal} (hpos : 0 < d.coeff) (hfuel : d.coeff ≤ fuel) :
    (strip fuel d).coeff % 10 ≠ 0 := by
  induction fuel generalizing d with
  | zero => omega
  | succ fuel ih =>
      rw [strip]
      split
      · exact ih (by dsimp only; omega) (by dsimp only; omega)
      · assumption

theorem normalize_same (d : Decimal) : Same d.normalize d := strip_same _ d

theorem normalize_mod {d : Decimal} (h : 0 < d.coeff) : d.normalize.coeff % 10 ≠ 0 :=
  strip_mod h le_rfl

/-- A value with no trailing zero is recovered from any padding of it. -/
theorem normalize_mul_pow {c : Nat} (hc : c % 10 ≠ 0) (p : Int) (j : Nat) :
    normalize ⟨c * 10 ^ j, p⟩ = ⟨c, p + j⟩ := by
  have key : ∀ fuel j p, j ≤ fuel → strip fuel ⟨c * 10 ^ j, p⟩ = ⟨c, p + j⟩ := by
    intro fuel
    induction fuel with
    | zero =>
        intro j p hj
        rw [Nat.le_zero.mp hj, strip]
        simp
    | succ fuel ih =>
        intro j p hj
        rw [strip]
        cases j with
        | zero => simp [hc]
        | succ j =>
            have hmul : c * 10 ^ (j + 1) = c * 10 ^ j * 10 := by ring
            dsimp only
            rw [hmul, Nat.mul_mod_left, if_pos rfl, Nat.mul_div_cancel _ (by decide),
              ih j (p + 1) (by omega)]
            congr 1
            push_cast
            ring
  refine key _ j p ?_
  dsimp only
  have hlt : j < 10 ^ j := Nat.lt_pow_self (by decide)
  have hle : 1 * 10 ^ j ≤ c * 10 ^ j := Nat.mul_le_mul_right _ (by omega)
  omega

/-! ## The search -/

/-- Does the decimal round to the magnitude `m`? -/
def roundsTo (d : Decimal) (m : Nat) : Bool := roundMag d.num d.den == m

/-- The exponent of the leading digit of `m · 2^-1074`. -/
def leading (m : Nat) : Int := (Nat.toDigits 10 (m * 10 ^ 324 / one)).length - 325

/-- The point of the grid `10^p` just below `m · 2^-1074`. -/
def below (m : Nat) (p : Int) : Nat := m * 10 ^ (-p).toNat / (one * 10 ^ p.toNat)

/-- The point of the grid nearest to it, even on a tie. -/
def nearest (m : Nat) (p : Int) : Nat := roundEven (m * 10 ^ (-p).toNat) (one * 10 ^ p.toNat)

/-- The point of the grid `10^p` that names `m`, if one does. -/
def onGrid (m : Nat) (p : Int) : Option Nat :=
  if roundsTo ⟨below m p, p⟩ m then
    if roundsTo ⟨below m p + 1, p⟩ m then some (nearest m p) else some (below m p)
  else if roundsTo ⟨below m p + 1, p⟩ m then some (below m p + 1)
  else none

/-- The first grid at or below `10^p` with a point that names `m`. -/
def search (m : Nat) : Nat → Int → Decimal
  | 0, p => ⟨0, p⟩
  | fuel + 1, p => (onGrid m p).elim (search m fuel (p - 1)) fun s => ⟨s, p⟩

/-- The shortest decimal that rounds to `m`, without trailing zeros. The grid
`10^-1074` holds `m` exactly, so the search ends there at the latest. -/
def shortest (m : Nat) : Decimal :=
  normalize (search m ((leading m + 1074).toNat + 1) (leading m))

theorem nearest_cases (m : Nat) (p : Int) :
    nearest m p = below m p ∨ nearest m p = below m p + 1 := by
  have hb := roundEven_bounds (m * 10 ^ (-p).toNat) (one * 10 ^ p.toNat)
  rw [nearest, below]
  omega

theorem onGrid_sound {m s : Nat} {p : Int} (h : onGrid m p = some s) :
    roundsTo ⟨s, p⟩ m = true := by
  rw [onGrid] at h
  split at h
  · rename_i hlo
    split at h
    · rename_i hhi
      rw [← Option.some.inj h]
      rcases nearest_cases m p with hn | hn <;> rwa [hn]
    · rwa [← Option.some.inj h]
  · split at h
    · rwa [← Option.some.inj h]
    · cases h

/-- Every double is a point of the grid `10^p` for `p ≤ -1074`. -/
theorem onGrid_fine {m : Nat} (hm : Representable m) {p : Int} (hp : p ≤ -1074) :
    (onGrid m p).isSome = true := by
  have hpow : p.toNat = 0 := by omega
  have hsplit : 10 ^ (-p).toNat = one * (5 ^ 1074 * 10 ^ ((-p).toNat - 1074)) := by
    have h10 : (10 : Nat) ^ 1074 = one * 5 ^ 1074 := by
      rw [one_eq, ← Nat.mul_pow]
    have hexp : 1074 + ((-p).toNat - 1074) = (-p).toNat := by omega
    rw [← Nat.mul_assoc, ← h10, ← Nat.pow_add, hexp]
  have hs : below m p * one = m * 10 ^ (-p).toNat := by
    rw [below, hpow, Nat.pow_zero, Nat.mul_one]
    apply Nat.div_mul_cancel
    rw [hsplit]
    exact (Nat.dvd_mul_right _ _).mul_left m
  have hround : roundsTo ⟨below m p, p⟩ m = true := by
    simp only [roundsTo, num, den, beq_iff_eq]
    rw [hpow, Nat.pow_zero, Nat.mul_one, hs]
    exact roundMag_exact hm (Nat.pow_pos (by decide))
  rw [onGrid, if_pos hround]
  split <;> rfl

theorem search_sound {m : Nat} (hm : Representable m) {fuel : Nat} {p : Int}
    (hfuel : (p + 1074).toNat < fuel) : roundsTo (search m fuel p) m = true := by
  induction fuel generalizing p with
  | zero => omega
  | succ fuel ih =>
      rw [search]
      cases h : onGrid m p with
      | some s => exact onGrid_sound h
      | none =>
          by_cases hp : p ≤ -1074
          · have := onGrid_fine hm hp
            rw [h] at this
            cases this
          · exact ih (by omega)

/-- **The shortest decimal rounds back.** -/
theorem shortest_rounds {m : Nat} (hm : Representable m) :
    roundMag (shortest m).num (shortest m).den = m := by
  have h := search_sound hm (Nat.lt_succ_self (leading m + 1074).toNat)
  rw [roundsTo, beq_iff_eq] at h
  rw [shortest, (normalize_same _).roundMag, h]

theorem roundMag_zero {den : Nat} (h : 0 < den) : roundMag 0 den = 0 := by
  have hz := roundMag_exact (m := 0) (representable_of_lt (by decide)) h
  rwa [Nat.zero_mul] at hz

theorem coeff_pos {d : Decimal} {m : Nat} (h : roundMag d.num d.den = m) (hm : 0 < m) :
    0 < d.coeff := by
  apply Nat.pos_of_ne_zero
  intro hc
  rw [num, hc, Nat.zero_mul, Nat.zero_mul, roundMag_zero (den_pos d)] at h
  omega

theorem shortest_pos {m : Nat} (hm : Representable m) (h : 0 < m) : 0 < (shortest m).coeff :=
  coeff_pos (shortest_rounds hm) h

theorem shortest_mod {m : Nat} (hm : Representable m) (h : 0 < m) :
    (shortest m).coeff % 10 ≠ 0 := by
  have hs := search_sound hm (Nat.lt_succ_self (leading m + 1074).toNat)
  rw [roundsTo, beq_iff_eq] at hs
  exact normalize_mod (coeff_pos hs h)

/-- **Reading the shortest decimal gives the double back.** -/
theorem shortest_toBinary64 (x : Binary64) : (shortest x.mag).toBinary64 x.neg = some x :=
  ofQuotient_eq_some.mpr ⟨rfl, (shortest_rounds x.rep).symm⟩

/-! ## Small integers -/

/-- Below `2^53` no two integers round to one double. -/
theorem roundMag_int {y n : Nat} (hn : n < 2 ^ 53) : roundMag (y * one) 1 = n * one ↔ y = n := by
  have hrep : ∀ k ≤ 2 ^ 53, Representable (k * one) := by
    intro k hk
    rw [one_eq]
    exact representable_mul hk (by decide)
  constructor
  · intro h
    by_cases hy : y ≤ 2 ^ 53
    · have hexact := roundMag_exact (hrep y hy) Nat.one_pos
      rw [Nat.mul_one] at hexact
      exact Nat.eq_of_mul_eq_mul_right Binary64.one_pos (hexact.symm.trans h)
    · have hge : 2 ^ 53 * one * 1 ≤ y * one := by
        rw [Nat.mul_one]
        exact Nat.mul_le_mul_right _ (by omega)
      have hle := le_roundMag (hrep _ le_rfl) Nat.one_pos hge
      rw [h] at hle
      have := Nat.le_of_mul_le_mul_right hle Binary64.one_pos
      omega
  · rintro rfl
    have hexact := roundMag_exact (hrep y hn.le) Nat.one_pos
    rwa [Nat.mul_one] at hexact

theorem roundsTo_int {s n j : Nat} (hn : n < 2 ^ 53) :
    roundsTo ⟨s, j⟩ (n * one) = true ↔ s * 10 ^ j = n := by
  have hden : (-(j : Int)).toNat = 0 := by omega
  rw [roundsTo, beq_iff_eq, num, den]
  simp only [Int.toNat_natCast, hden, Nat.pow_zero]
  exact roundMag_int hn

theorem below_int (n j : Nat) : below (n * one) j = n / 10 ^ j := by
  have hden : (-(j : Int)).toNat = 0 := by omega
  rw [below, Int.toNat_natCast, hden, Nat.pow_zero, Nat.mul_one, Nat.mul_comm n,
    Nat.mul_div_mul_left _ _ Binary64.one_pos]

/-- Every positive number is a padding of one with no trailing zero. -/
theorem exists_padding {n : Nat} (h : 0 < n) : ∃ c j, c % 10 ≠ 0 ∧ n = c * 10 ^ j := by
  induction n using Nat.strong_induction_on with
  | _ n ih =>
      by_cases hz : n % 10 = 0
      · obtain ⟨c, j, hc, hn⟩ := ih (n / 10) (by omega) (by omega)
        refine ⟨c, j + 1, hc, ?_⟩
        rw [Nat.pow_succ, ← Nat.mul_assoc, ← hn]
        omega
      · exact ⟨n, 0, hz, by simp⟩

theorem leading_int {n : Nat} (h : 0 < n) :
    leading (n * one) = (Nat.toDigits 10 n).length - 1 := by
  rw [leading, Nat.mul_right_comm, Nat.mul_div_cancel _ Binary64.one_pos, toDigits_mul_pow h,
    List.length_append, List.length_replicate]
  push_cast
  ring

/-- **The shortest decimal of a safe integer is the integer.** -/
theorem shortest_int {n : Nat} (h0 : 0 < n) (hn : n < 2 ^ 53) :
    shortest (n * one) = normalize ⟨n, 0⟩ := by
  obtain ⟨c, j, hc, hpad⟩ := exists_padding h0
  have hsearch : ∀ fuel k : Nat, j ≤ k → k - j < fuel →
      search (n * one) fuel k = ⟨c, j⟩ := by
    intro fuel
    induction fuel with
    | zero => omega
    | succ fuel ih =>
        intro k hk hfuel
        rw [search, onGrid, below_int]
        rcases Nat.eq_or_lt_of_le hk with rfl | hlt
        · have hdiv : n / 10 ^ j = c := by
            rw [hpad, Nat.mul_div_cancel _ (Nat.pow_pos (by decide))]
          have hup : ¬ roundsTo ⟨c + 1, j⟩ (n * one) = true := by
            rw [roundsTo_int hn, hpad]
            intro h
            have := Nat.eq_of_mul_eq_mul_right (Nat.pow_pos (by decide)) h
            omega
          rw [hdiv, if_pos ((roundsTo_int hn).mpr hpad.symm), if_neg hup]
          rfl
        · -- a multiple of `10^k` would leave a trailing zero in `c`
          have hno : ∀ s, ¬ roundsTo ⟨s, k⟩ (n * one) = true := by
            intro s
            rw [roundsTo_int hn, hpad]
            intro h
            obtain ⟨i, rfl⟩ : ∃ i, k = j + (i + 1) := ⟨k - j - 1, by omega⟩
            have heq : s * 10 ^ i * 10 * 10 ^ j = c * 10 ^ j := by
              rw [← h]
              ring
            have := Nat.eq_of_mul_eq_mul_right (Nat.pow_pos (by decide)) heq
            omega
          obtain ⟨i, rfl⟩ : ∃ i, k = i + 1 := ⟨k - 1, by omega⟩
          rw [if_neg (hno _), if_neg (hno _)]
          have hpred : ((i + 1 : Nat) : Int) - 1 = (i : Int) := by push_cast; ring
          rw [hpred]
          exact ih i (by omega) (by omega)
  have hlen : (Nat.toDigits 10 n).length = (Nat.toDigits 10 c).length + j := by
    rw [hpad, toDigits_mul_pow (by omega), List.length_append, List.length_replicate]
  have hpos := Nat.length_toDigits_pos (b := 10) (n := c)
  have hlead : leading (n * one) = ((Nat.toDigits 10 n).length - 1 : Nat) := by
    rw [leading_int h0]
    omega
  have hnorm := normalize_mul_pow hc 0 j
  have hself := normalize_mul_pow hc j 0
  rw [← hpad] at hnorm
  rw [Nat.pow_zero, Nat.mul_one] at hself
  rw [shortest, hlead, hsearch _ _ (by omega) (by omega), hself, hnorm]
  simp

/-! ## Number::toString -/

/-- The digits of a decimal. -/
def digits (d : Decimal) : List Char := Nat.toDigits 10 d.coeff

/-- Where the decimal point stands: the value is `0.digits · 10^point`. -/
def point (d : Decimal) : Int := d.digits.length + d.exp

/-- The digits after the first, with the point that precedes them. -/
def fraction : List Char → List Char
  | [] => []
  | d :: ds => '.' :: d :: ds

/-- The layout of ECMAScript's `Number::toString`. -/
def ecmaLayout (ds : List Char) (n : Int) : List Char :=
  if ds.length ≤ n ∧ n ≤ 21 then ds ++ List.replicate (n - ds.length).toNat '0'
  else if 0 < n ∧ n ≤ 21 then ds.take n.toNat ++ '.' :: ds.drop n.toNat
  else if -6 < n ∧ n ≤ 0 then '0' :: '.' :: (List.replicate (-n).toNat '0' ++ ds)
  else
    ds.take 1 ++ fraction (ds.drop 1) ++ 'e' :: (if 0 < n then '+' else '-') ::
      Nat.toDigits 10 (n - 1).natAbs

/-- ECMAScript `Number::toString` on finite numbers. -/
def ecmaString (x : Binary64) : List Char :=
  if x.mag = 0 then ['0']
  else
    (if x.neg then ['-'] else []) ++ ecmaLayout (shortest x.mag).digits (shortest x.mag).point

theorem isDigit_of_mem_digits {d : Decimal} {c : Char} (h : c ∈ d.digits) : c.isDigit = true :=
  Nat.isDigit_of_mem_toDigits (by decide) (by decide) h

end Decimal
