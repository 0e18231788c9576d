import Mathlib.Algebra.Order.Field.Power
import SwarmPointer.Lib.Decimal

/-!
# The shortest decimal is the shortest

`Decimal.shortest` looks for the coarsest grid `10^p` with a point that rounds
to a magnitude. What it finds has the fewest digits of all decimals that do,
and none with as many is closer.

The decimals that round to one double form an interval around it, so a grid
has a point in the interval exactly when one of the two neighbours of the
double does. From that, coarser grids lose their points first: the search may
stop at the coarsest grid that still has one, and no decimal with fewer digits
can be found on a finer one. Ties of the distance go to the even point.
-/

namespace Decimal

open Binary64

/-- The exact value, in units of `2^-1074`. -/
def value (d : Decimal) : ℚ := d.coeff * 10 ^ d.exp * one

/-- The decimal rounds to the magnitude `m`. -/
def Names (d : Decimal) (m : Nat) : Prop := roundMag d.num d.den = m

/-- No decimal that names `m` has fewer digits, none with as many is closer to
`m`, and there is no trailing zero. -/
structure IsShortest (m : Nat) (d : Decimal) : Prop where
  trimmed : d.coeff % 10 ≠ 0
  names : Names d m
  fewest : ∀ e, Names e m → d.digits.length ≤ e.digits.length
  closest : ∀ e, Names e m → e.digits.length = d.digits.length → |d.value - m| ≤ |e.value - m|

/-! ## Values -/

theorem one_pos_rat : (0 : ℚ) < one := Nat.cast_pos.mpr one_pos

theorem ten_pow_pos (p : Int) : (0 : ℚ) < 10 ^ p := zpow_pos (by norm_num) p

theorem ten_pow_le {p q : Int} (h : p ≤ q) : (10 : ℚ) ^ p ≤ 10 ^ q :=
  zpow_le_zpow_right₀ (by norm_num) h

theorem value_eq (d : Decimal) : d.value = (d.num : ℚ) / d.den := by
  rw [value, num, den]
  rcases le_or_gt 0 d.exp with h | h
  · obtain ⟨n, hn⟩ := Int.eq_ofNat_of_zero_le h
    have hneg : (-(n : Int)).toNat = 0 := by omega
    rw [hn, hneg, Int.toNat_natCast, zpow_natCast]
    push_cast
    rw [div_one]
  · obtain ⟨n, hn⟩ := Int.eq_ofNat_of_zero_le (by omega : 0 ≤ -d.exp)
    have hexp : d.exp = -(n : Int) := by omega
    have hpos : (-(n : Int)).toNat = 0 := by omega
    rw [hexp, hpos, neg_neg, Int.toNat_natCast, zpow_neg, zpow_natCast]
    push_cast
    rw [mul_one, div_eq_mul_inv, mul_right_comm]

theorem den_pos_rat (d : Decimal) : (0 : ℚ) < d.den := Nat.cast_pos.mpr d.den_pos

theorem value_le_iff {d e : Decimal} : d.value ≤ e.value ↔ d.num * e.den ≤ e.num * d.den := by
  rw [value_eq, value_eq, div_le_div_iff₀ d.den_pos_rat e.den_pos_rat]
  exact_mod_cast Iff.rfl

theorem value_le_nat {d : Decimal} {m : Nat} : d.value ≤ m ↔ d.num ≤ m * d.den := by
  rw [value_eq, div_le_iff₀ d.den_pos_rat]
  exact_mod_cast Iff.rfl

theorem Same.value {d e : Decimal} (h : Same d e) : d.value = e.value :=
  le_antisymm (value_le_iff.mpr h.le) (value_le_iff.mpr h.ge)

theorem Same.names {d e : Decimal} (h : Same d e) {m : Nat} : Names d m ↔ Names e m := by
  rw [Names, Names, h.roundMag]

/-- On a finer grid the same value has another coefficient. -/
theorem same_finer (s : Nat) {p q : Int} (h : p ≤ q) :
    Same ⟨s * 10 ^ (q - p).toNat, p⟩ ⟨s, q⟩ := by
  have hsum : p + ((q - p).toNat : Int) = q := by omega
  have hmul := same_mul_pow s p (q - p).toNat
  rwa [hsum] at hmul

theorem value_lt_pow {d : Decimal} {k : Nat} (h : d.coeff < 10 ^ k) :
    d.value < 10 ^ (k + d.exp) * one := by
  have hcoeff : (d.coeff : ℚ) < 10 ^ (k : Int) := by
    rw [zpow_natCast]
    exact_mod_cast h
  rw [value, zpow_add₀ (by norm_num)]
  exact mul_lt_mul_of_pos_right (mul_lt_mul_of_pos_right hcoeff (ten_pow_pos _)) one_pos_rat

/-! ## What names a magnitude is an interval -/

section
variable {m : Nat}

/-- **Between a decimal that names `m` and `m` every decimal names `m`.** -/
theorem Names.above (hm : Representable m) {d e : Decimal} (hd : Names d m)
    (hde : d.value ≤ e.value) (he : e.value ≤ m) : Names e m := by
  refine le_antisymm (roundMag_le hm e.den_pos (value_le_nat.mp he)) ?_
  have hmono := roundMag_mono d.den_pos e.den_pos (value_le_iff.mp hde)
  rwa [hd] at hmono

theorem Names.below (hm : Representable m) {d e : Decimal} (hd : Names d m)
    (hde : e.value ≤ d.value) (he : (m : ℚ) ≤ e.value) : Names e m := by
  have hle : m * e.den ≤ e.num := by
    rw [value_eq, le_div_iff₀ e.den_pos_rat] at he
    exact_mod_cast he
  refine le_antisymm ?_ (le_roundMag hm e.den_pos hle)
  have hmono := roundMag_mono e.den_pos d.den_pos (value_le_iff.mp hde)
  rwa [hd] at hmono

/-! ## One grid -/

theorem roundsTo_iff {d : Decimal} : roundsTo d m = true ↔ Names d m := beq_iff_eq

/-- The magnitude lies between two neighbours of the grid. -/
theorem below_le (m : Nat) (p : Int) :
    (⟨below m p, p⟩ : Decimal).value ≤ m ∧ (m : ℚ) < (⟨below m p + 1, p⟩ : Decimal).value := by
  have hpos : 0 < one * 10 ^ p.toNat := Nat.mul_pos one_pos (Nat.pow_pos (by decide))
  constructor
  · rw [value_le_nat]
    have hle := Nat.div_mul_le_self (m * 10 ^ (-p).toNat) (one * 10 ^ p.toNat)
    change below m p * 10 ^ p.toNat * one ≤ m * 10 ^ (-p).toNat
    calc below m p * 10 ^ p.toNat * one = below m p * (one * 10 ^ p.toNat) := by ring
      _ ≤ m * 10 ^ (-p).toNat := hle
  · rw [← not_le, value_le_nat, not_le]
    have hlt := Nat.lt_div_mul_add (a := m * 10 ^ (-p).toNat) hpos
    change m * 10 ^ (-p).toNat < (below m p + 1) * 10 ^ p.toNat * one
    calc m * 10 ^ (-p).toNat
        < below m p * (one * 10 ^ p.toNat) + one * 10 ^ p.toNat := hlt
      _ = (below m p + 1) * 10 ^ p.toNat * one := by ring

theorem value_mono {s t : Nat} (h : s ≤ t) (p : Int) :
    (⟨s, p⟩ : Decimal).value ≤ (⟨t, p⟩ : Decimal).value := by
  have hcast : (s : ℚ) ≤ t := Nat.cast_le.mpr h
  exact mul_le_mul_of_nonneg_right (mul_le_mul_of_nonneg_right hcast (ten_pow_pos p).le)
    one_pos_rat.le

/-- A point of the grid is below the lower neighbour or above the upper one. -/
theorem grid_sides (m : Nat) (p : Int) (t : Nat) :
    (⟨t, p⟩ : Decimal).value ≤ (⟨below m p, p⟩ : Decimal).value ∨
      (⟨below m p + 1, p⟩ : Decimal).value ≤ (⟨t, p⟩ : Decimal).value := by
  rcases Nat.lt_or_ge (below m p) t with h | h
  · exact .inr (value_mono h p)
  · exact .inl (value_mono h p)

theorem onGrid_none (hm : Representable m) {p : Int} (h : onGrid m p = none) (t : Nat) :
    ¬ Names ⟨t, p⟩ m := by
  intro ht
  obtain ⟨hlo, hhi⟩ := below_le m p
  have hno : ¬ Names ⟨below m p, p⟩ m ∧ ¬ Names ⟨below m p + 1, p⟩ m := by
    rw [← roundsTo_iff, ← roundsTo_iff]
    rw [onGrid] at h
    split_ifs at h with h1 h2 h3
    exact ⟨h1, h3⟩
  rcases grid_sides m p t with hside | hside
  · exact hno.1 (ht.above hm hside hlo)
  · exact hno.2 (ht.below hm hside hhi.le)

/-- How far `m` is from its lower neighbour, in parts of the spacing. -/
theorem below_offset (m : Nat) (p : Int) :
    ((m : ℚ) - (⟨below m p, p⟩ : Decimal).value) * (one * 10 ^ p.toNat : Nat) =
      (m * 10 ^ (-p).toNat % (one * 10 ^ p.toNat) : Nat) * (10 ^ p * one) := by
  have hscale : (m : ℚ) * (one * 10 ^ p.toNat : Nat) =
      (m * 10 ^ (-p).toNat : Nat) * (10 ^ p * one) := by
    rcases le_or_gt 0 p with hp | hp
    · obtain ⟨n, rfl⟩ := Int.eq_ofNat_of_zero_le hp
      have hneg : (-(n : Int)).toNat = 0 := by omega
      rw [hneg, Int.toNat_natCast, zpow_natCast]
      push_cast
      ring
    · obtain ⟨n, hn⟩ := Int.eq_ofNat_of_zero_le (by omega : 0 ≤ -p)
      obtain rfl : p = -(n : Int) := by omega
      have hpos : (-(n : Int)).toNat = 0 := by omega
      have hunit : (10 : ℚ) ^ n * (10 ^ n)⁻¹ = 1 := mul_inv_cancel₀ (by positivity)
      rw [hpos, neg_neg, Int.toNat_natCast, zpow_neg, zpow_natCast]
      push_cast
      calc (m : ℚ) * (one * 1) = m * (10 ^ n * (10 ^ n)⁻¹) * one := by rw [hunit]; ring
        _ = m * 10 ^ n * ((10 ^ n)⁻¹ * one) := by ring
  have hdiv : ((m * 10 ^ (-p).toNat : Nat) : ℚ) =
      (one * 10 ^ p.toNat : Nat) * (below m p : Nat) +
        (m * 10 ^ (-p).toNat % (one * 10 ^ p.toNat) : Nat) := by
    exact_mod_cast (Nat.div_add_mod _ _).symm
  rw [sub_mul, hscale, hdiv, value]
  ring

/-- The nearest point is the neighbour on the side of the half `m` is in. -/
theorem nearest_side (m : Nat) (p : Int) :
    (nearest m p = below m p ∧
      2 * (m * 10 ^ (-p).toNat % (one * 10 ^ p.toNat)) ≤ one * 10 ^ p.toNat) ∨
    (nearest m p = below m p + 1 ∧
      one * 10 ^ p.toNat ≤ 2 * (m * 10 ^ (-p).toNat % (one * 10 ^ p.toNat))) := by
  rw [nearest, roundEven, below]
  split_ifs with h1 h2
  · exact .inl ⟨rfl, h1.le⟩
  · exact .inr ⟨rfl, h2.le⟩
  · rcases Nat.mod_two_eq_zero_or_one (m * 10 ^ (-p).toNat / (one * 10 ^ p.toNat)) with h | h
    · rw [h]
      exact .inl ⟨rfl, not_lt.mp h2⟩
    · rw [h]
      exact .inr ⟨rfl, not_lt.mp h1⟩

/-- The nearest point of the grid is at least as close as both neighbours. -/
theorem nearest_close (m : Nat) (p : Int) :
    |(⟨nearest m p, p⟩ : Decimal).value - m| ≤ |(⟨below m p, p⟩ : Decimal).value - m| ∧
      |(⟨nearest m p, p⟩ : Decimal).value - m| ≤ |(⟨below m p + 1, p⟩ : Decimal).value - m| := by
  obtain ⟨hlo, hhi⟩ := below_le m p
  have hoff := below_offset m p
  have hdpos : (0 : ℚ) < (one * 10 ^ p.toNat : Nat) :=
    Nat.cast_pos.mpr (Nat.mul_pos one_pos (Nat.pow_pos (by decide)))
  have hg : (0 : ℚ) < 10 ^ p * one := mul_pos (ten_pow_pos p) one_pos_rat
  have hnext : (⟨below m p + 1, p⟩ : Decimal).value =
      (⟨below m p, p⟩ : Decimal).value + 10 ^ p * one := by
    rw [value, value]
    push_cast
    ring
  have hlower : |(⟨below m p, p⟩ : Decimal).value - m| = m - (⟨below m p, p⟩ : Decimal).value := by
    rw [abs_of_nonpos (sub_nonpos.mpr hlo), neg_sub]
  have hupper := abs_of_nonneg (sub_nonneg.mpr hhi.le)
  have hside := nearest_side m p
  generalize m * 10 ^ (-p).toNat % (one * 10 ^ p.toNat) = r at hoff hside
  generalize one * 10 ^ p.toNat = den at hoff hdpos hside
  have hclose : 2 * r ≤ den → |(⟨below m p, p⟩ : Decimal).value - m| ≤
      |(⟨below m p + 1, p⟩ : Decimal).value - m| := by
    intro hle
    have hcast : (2 * r : ℚ) ≤ den := by exact_mod_cast hle
    have hscaled := mul_le_mul_of_nonneg_right hcast hg.le
    have htwice : 2 * ((m : ℚ) - (⟨below m p, p⟩ : Decimal).value) ≤ 10 ^ p * one := by
      refine le_of_mul_le_mul_right ?_ hdpos
      linarith
    rw [hlower, hupper, hnext]
    linarith
  have hcloser : den ≤ 2 * r → |(⟨below m p + 1, p⟩ : Decimal).value - m| ≤
      |(⟨below m p, p⟩ : Decimal).value - m| := by
    intro hle
    have hcast : (den : ℚ) ≤ 2 * r := by exact_mod_cast hle
    have hscaled := mul_le_mul_of_nonneg_right hcast hg.le
    have htwice : 10 ^ p * one ≤ 2 * ((m : ℚ) - (⟨below m p, p⟩ : Decimal).value) := by
      refine le_of_mul_le_mul_right ?_ hdpos
      linarith
    rw [hlower, hupper, hnext]
    linarith
  rcases hside with ⟨hside, hle⟩ | ⟨hside, hle⟩
  · rw [hside]
    exact ⟨le_rfl, hclose hle⟩
  · rw [hside]
    exact ⟨hcloser hle, le_rfl⟩

/-- **The point found on a grid is the closest one there that names `m`.** -/
theorem onGrid_closest (hm : Representable m) {p : Int} {s : Nat} (h : onGrid m p = some s)
    {t : Nat} (ht : Names ⟨t, p⟩ m) :
    |(⟨s, p⟩ : Decimal).value - m| ≤ |(⟨t, p⟩ : Decimal).value - m| := by
  obtain ⟨hlo, hhi⟩ := below_le m p
  obtain ⟨hnlo, hnhi⟩ := nearest_close m p
  rcases grid_sides m p t with hside | hside
  · -- the lower neighbour names `m` too
    have hfar : |(⟨below m p, p⟩ : Decimal).value - m| ≤ |(⟨t, p⟩ : Decimal).value - m| := by
      rw [abs_of_nonpos (by linarith), abs_of_nonpos (by linarith)]
      linarith
    have hbelow := roundsTo_iff.mpr (ht.above hm hside hlo)
    rw [onGrid, if_pos hbelow] at h
    split_ifs at h with h2
    · exact Option.some.inj h ▸ hnlo.trans hfar
    · exact Option.some.inj h ▸ hfar
  · have hfar : |(⟨below m p + 1, p⟩ : Decimal).value - m| ≤ |(⟨t, p⟩ : Decimal).value - m| := by
      rw [abs_of_nonneg (by linarith), abs_of_nonneg (by linarith)]
      linarith
    have hupper := roundsTo_iff.mpr (ht.below hm hside hhi.le)
    rw [onGrid] at h
    split_ifs at h with h1
    · exact Option.some.inj h ▸ hnhi.trans hfar
    · exact Option.some.inj h ▸ hfar

/-! ## The search -/

/-- What the search returns: a grid with a point, none of the coarser ones has one. -/
theorem search_spec (hm : Representable m) {fuel : Nat} {start : Int}
    (hfuel : (start + 1074).toNat < fuel) :
    (search m fuel start).exp ≤ start ∧
      onGrid m (search m fuel start).exp = some (search m fuel start).coeff ∧
      ∀ q, (search m fuel start).exp < q → q ≤ start → onGrid m q = none := by
  induction fuel generalizing start with
  | zero => omega
  | succ fuel ih =>
      rw [search]
      cases h : onGrid m start with
      | some s => exact ⟨le_rfl, h, fun q hlt hle => absurd hlt (not_lt.mpr hle)⟩
      | none =>
          by_cases hp : start ≤ -1074
          · have hsome := onGrid_fine hm hp
            rw [h] at hsome
            cases hsome
          · obtain ⟨hle, hgrid, hcoarse⟩ := @ih (start - 1) (by omega)
            refine ⟨hle.trans (by omega), hgrid, fun q hlt hq => ?_⟩
            rcases eq_or_lt_of_le hq with rfl | hq
            · exact h
            · exact hcoarse q hlt (by omega)

theorem one_le_pow : one ≤ 10 ^ 324 := by
  have h28 : (2 : Nat) ^ 65 ≤ 5 ^ 28 := by decide
  have h16 : (2 : Nat) ^ 37 ≤ 5 ^ 16 := by decide
  rw [one_eq]
  calc (2 : Nat) ^ 1074 ≤ 2 ^ 324 * ((2 ^ 65) ^ 11 * 2 ^ 37) := by
        rw [← Nat.pow_mul, ← Nat.pow_add, ← Nat.pow_add]
        exact Nat.pow_le_pow_right two_pos (by decide)
    _ ≤ 2 ^ 324 * ((5 ^ 28) ^ 11 * 5 ^ 16) :=
        Nat.mul_le_mul_left _ (Nat.mul_le_mul (Nat.pow_le_pow_left h28 11) h16)
    _ = 10 ^ 324 := by
        rw [← Nat.pow_mul, ← Nat.pow_add, ← Nat.mul_pow]

/-- The leading digit of `m` stands at `leading m`. -/
theorem leading_spec (h : 0 < m) :
    (10 : ℚ) ^ leading m * one ≤ m ∧ (m : ℚ) < 10 ^ (leading m + 1) * one := by
  have hk : 0 < m * 10 ^ 324 / one := by
    refine Nat.div_pos ?_ one_pos
    exact one_le_pow.trans (Nat.le_mul_of_pos_left _ h)
  have hlen := Nat.length_toDigits_pos (b := 10) (n := m * 10 ^ 324 / one)
  have hhi : m * 10 ^ 324 / one < 10 ^ (Nat.toDigits 10 (m * 10 ^ 324 / one)).length :=
    (Nat.length_toDigits_le_iff (by decide) hlen).mp le_rfl
  have hlo : 10 ^ ((Nat.toDigits 10 (m * 10 ^ 324 / one)).length - 1) ≤ m * 10 ^ 324 / one := by
    by_contra hlt
    rcases Nat.eq_zero_or_pos ((Nat.toDigits 10 (m * 10 ^ 324 / one)).length - 1) with h0 | hpos
    · rw [h0] at hlt
      omega
    · have := (Nat.length_toDigits_le_iff (b := 10) (by decide) hpos).mpr (not_le.mp hlt)
      omega
  rw [leading]
  generalize (Nat.toDigits 10 (m * 10 ^ 324 / one)).length = len at *
  have hlow : 10 ^ (len - 1) * one ≤ m * 10 ^ 324 := (Nat.le_div_iff_mul_le Binary64.one_pos).mp hlo
  have hhigh : m * 10 ^ 324 < 10 ^ len * one := (Nat.div_lt_iff_lt_mul Binary64.one_pos).mp hhi
  have hshift : ∀ p : Int, (10 : ℚ) ^ p * one * 10 ^ 324 = 10 ^ (p + 324) * one := by
    intro p
    rw [zpow_add₀ (by norm_num), mul_right_comm]
    norm_cast
  have hpos : (0 : ℚ) < 10 ^ 324 := by positivity
  constructor
  · refine le_of_mul_le_mul_right ?_ hpos
    have hexp : (len : Int) - 325 + 324 = (len - 1 : Nat) := by omega
    rw [hshift, hexp, zpow_natCast]
    exact_mod_cast hlow
  · refine lt_of_mul_lt_mul_right ?_ hpos.le
    have hexp : (len : Int) - 325 + 1 + 324 = (len : Nat) := by omega
    rw [hshift, hexp, zpow_natCast]
    exact_mod_cast hhigh

/-! ## The result -/

theorem digits_length_lt {d : Decimal} {k : Nat} (h : d.digits.length ≤ k) : d.coeff < 10 ^ k := by
  have hpos : 0 < d.digits.length := Nat.length_toDigits_pos
  exact (Nat.length_toDigits_le_iff (by decide) (hpos.trans_le h)).mp h

theorem digits_length_le {d : Decimal} {k : Nat} (hk : 0 < k) (h : d.coeff < 10 ^ k) :
    d.digits.length ≤ k :=
  (Nat.length_toDigits_le_iff (by decide) hk).mpr h

/-- Stripping zeros does not add digits. -/
theorem strip_coeff_le (fuel : Nat) (d : Decimal) : (strip fuel d).coeff ≤ d.coeff := by
  induction fuel generalizing d with
  | zero => exact le_rfl
  | succ fuel ih =>
      rw [strip]
      split
      · exact (ih _).trans (Nat.div_le_self _ _)
      · exact le_rfl

/-- `d` is the point of the first grid that has one. -/
structure Stopped (m : Nat) (d : Decimal) : Prop where
  le : d.exp ≤ leading m
  point : onGrid m d.exp = some d.coeff
  first : ∀ q, d.exp < q → q ≤ leading m → onGrid m q = none

theorem names_zero {p : Int} (h : 0 < m) : ¬ Names ⟨0, p⟩ m := fun hn =>
  (coeff_pos (d := ⟨0, p⟩) hn h).ne' rfl

/-- A decimal at or below the leading power that names `m` makes the power name `m`. -/
theorem names_leading (hm : Representable m) (h : 0 < m) {e : Decimal} (he : Names e m)
    (hlow : e.value ≤ 10 ^ leading m * one) : Names ⟨1, leading m⟩ m := by
  have hval : (⟨1, leading m⟩ : Decimal).value = 10 ^ leading m * one := by
    rw [value, Nat.cast_one, one_mul]
  refine he.above hm (hval ▸ hlow) ?_
  rw [hval]
  exact (leading_spec h).1

/-- So does one at or above the next power. -/
theorem names_next (hm : Representable m) (h : 0 < m) {e : Decimal} (he : Names e m)
    (hhigh : 10 ^ (leading m + 1) * one ≤ e.value) : Names ⟨10, leading m⟩ m := by
  have hval : (⟨10, leading m⟩ : Decimal).value = 10 ^ (leading m + 1) * one := by
    rw [value, zpow_add₀ (by norm_num), zpow_one]
    push_cast
    ring
  refine he.below hm (hval ▸ hhigh) ?_
  rw [hval]
  exact (leading_spec h).2.le

theorem Stopped.leading_of (hm : Representable m) {d : Decimal} (hd : Stopped m d) {t : Nat}
    (ht : Names ⟨t, leading m⟩ m) : d.exp = leading m := by
  by_contra hne
  exact onGrid_none hm (hd.first _ (lt_of_le_of_ne hd.le hne) le_rfl) t ht

/-- **Whatever names `m` has a digit for every place from the leading one to the grid.** -/
theorem Stopped.fewest (hm : Representable m) (h : 0 < m) {d : Decimal} (hd : Stopped m d)
    {e : Decimal} (he : Names e m) : (leading m - d.exp + 1).toNat ≤ e.digits.length := by
  have hpos : 0 < e.digits.length := Nat.length_toDigits_pos
  by_contra hfew
  have hlt := value_lt_pow (digits_length_lt (d := e) le_rfl)
  have hstop : ¬ d.exp = leading m := by omega
  rcases le_or_gt ((e.digits.length : Int) + e.exp) (leading m) with hlow | hhigh
  · -- the decimal ends below the leading place
    have hle := mul_le_mul_of_nonneg_right (ten_pow_le hlow) one_pos_rat.le
    exact hstop (hd.leading_of hm (names_leading hm h he (hlt.le.trans hle)))
  rcases le_or_gt e.exp (leading m) with hq | hq
  · -- it is a point of a coarser grid
    exact onGrid_none hm (hd.first e.exp (by omega) hq) e.coeff he
  · have hcoeff : 1 ≤ e.coeff := Nat.pos_of_ne_zero fun h0 => by
      refine names_zero (p := e.exp) h ?_
      rw [← h0]
      exact he
    have hcast : (1 : ℚ) ≤ e.coeff := by exact_mod_cast hcoeff
    refine hstop (hd.leading_of hm (names_next hm h he ?_))
    calc (10 : ℚ) ^ (leading m + 1) * one ≤ 10 ^ e.exp * one :=
          mul_le_mul_of_nonneg_right (ten_pow_le (by omega)) one_pos_rat.le
      _ ≤ e.coeff * 10 ^ e.exp * one := by
          refine mul_le_mul_of_nonneg_right ?_ one_pos_rat.le
          exact le_mul_of_one_le_left (ten_pow_pos _).le hcast

/-- **What the search found has no more digits than that.** -/
theorem Stopped.digits_le (h : 0 < m) {d : Decimal} (hd : Stopped m d) :
    d.normalize.digits.length ≤ (leading m - d.exp + 1).toNat := by
  have hsum : leading m + 1 = ((leading m - d.exp + 1).toNat : Int) + d.exp := by
    have := hd.le
    omega
  have hk : 0 < (leading m - d.exp + 1).toNat := by
    have := hd.le
    omega
  generalize (leading m - d.exp + 1).toNat = k at hsum hk ⊢
  have hbelow : below m d.exp < 10 ^ k := by
    have hlt := (below_le m d.exp).1.trans_lt (leading_spec h).2
    rw [hsum, zpow_add₀ (by norm_num), zpow_natCast, value] at hlt
    have hlt' := lt_of_mul_lt_mul_right (lt_of_mul_lt_mul_right hlt one_pos_rat.le)
      (ten_pow_pos _).le
    exact_mod_cast hlt'
  have hcoeff : d.coeff ≤ 10 ^ k := by
    have hpoint := hd.point
    have hnear := nearest_cases m d.exp
    rw [onGrid] at hpoint
    split_ifs at hpoint <;> have hpoint := Option.some.inj hpoint <;> omega
  rcases Nat.lt_or_eq_of_le hcoeff with hlt | heq
  · exact digits_length_le hk ((strip_coeff_le _ d).trans_lt hlt)
  · have hnorm := normalize_mul_pow (c := 1) (by decide) d.exp k
    rw [Nat.one_mul, ← heq] at hnorm
    rw [show d.normalize = ⟨1, d.exp + k⟩ from hnorm]
    exact digits_length_le hk (Nat.one_lt_pow hk.ne' (by decide))

/-- **With as many digits nothing is closer.** -/
theorem Stopped.closest (hm : Representable m) (h : 0 < m) {d : Decimal} (hd : Stopped m d)
    {e : Decimal} (he : Names e m) (hlen : e.digits.length ≤ (leading m - d.exp + 1).toNat) :
    |d.value - m| ≤ |e.value - m| := by
  rcases le_or_gt d.exp e.exp with hq | hq
  · have hsame := same_finer e.coeff hq
    rw [← Same.value hsame]
    exact onGrid_closest hm hd.point (hsame.names.mpr he)
  · -- a finer decimal with so few digits ends below the leading place
    have hle := hd.le
    have hlow : e.value ≤ 10 ^ leading m * one := by
      refine (value_lt_pow (digits_length_lt hlen)).le.trans ?_
      exact mul_le_mul_of_nonneg_right (ten_pow_le (by omega)) one_pos_rat.le
    have hone := names_leading hm h he hlow
    have hexp := hd.leading_of hm hone
    have hpoint : |d.value - m| ≤ |(⟨1, d.exp⟩ : Decimal).value - m| :=
      onGrid_closest hm hd.point (hexp.symm ▸ hone)
    have hval : (⟨1, d.exp⟩ : Decimal).value = 10 ^ leading m * one := by
      rw [value, Nat.cast_one, one_mul, hexp]
    have hm1 := (leading_spec h).1
    refine hpoint.trans ?_
    rw [hval, abs_of_nonpos (by linarith), abs_of_nonpos (by linarith)]
    linarith

/-- **The search finds the shortest decimal.** -/
theorem shortest_isShortest (hm : Representable m) (h : 0 < m) : IsShortest m (shortest m) := by
  obtain ⟨hle, hpoint, hfirst⟩ := search_spec hm (Nat.lt_succ_self (leading m + 1074).toNat)
  have hd : Stopped m (search m ((leading m + 1074).toNat + 1) (leading m)) :=
    ⟨hle, hpoint, hfirst⟩
  have hvalue := (normalize_same (search m ((leading m + 1074).toNat + 1) (leading m))).value
  refine ⟨shortest_mod hm h, shortest_rounds hm, fun e he => ?_, fun e he hlen => ?_⟩
  · exact (hd.digits_le h).trans (hd.fewest hm h he)
  · rw [shortest, hvalue]
    exact hd.closest hm h he (hlen.le.trans (hd.digits_le h))

end

end Decimal
