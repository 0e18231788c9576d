import SwarmPointer.Ed25519.Points

/-!
# Ed25519 — the base point has prime order

`L` is prime (a Lucas certificate), and `L` times the base point is the
identity. That multiple is computed in projective coordinates, which need no
inversions.

Projective coordinates appear in no program here. They are a device to let the
kernel evaluate one multiplication by a 253-bit scalar, and `ProjRep` with
`projAdd_rep` is what makes the result one about points.
-/

namespace SwarmPointer.Ed25519

open BinaryMethod Python Python.Ed25519Spp

/-! ## The prime -/

/-- The small primes the certificate of `L` starts from. -/
def orderPrimes : List Nat :=
  [2, 3, 5, 7, 11, 23, 41, 43, 73, 269, 307, 1361, 2851, 5879, 30703, 82163, 132667, 137849,
  531581, 1224481, 58964693]

theorem orderPrimes_prime : ∀ q ∈ orderPrimes, q.Prime := by
  simp only [orderPrimes, List.forall_mem_cons]
  norm_num

/-- The certificate of `L`: every large factor is certified before it is used. -/
def orderCertificates : List Certificate :=
  [⟨3044861653679985063343, 5,
      [(2, 1), (3, 1), (11, 1), (30703, 1), (82163, 1), (132667, 1), (137849, 1)]⟩,
   ⟨198211423230930754013084525763697, 5,
      [(2, 4), (3, 1), (23, 1), (58964693, 1), (3044861653679985063343, 1)]⟩,
   ⟨292386187, 2, [(2, 1), (3, 4), (307, 1), (5879, 1)]⟩,
   ⟨213441916511, 13, [(2, 1), (5, 1), (73, 1), (292386187, 1)]⟩,
   ⟨1257559732178653, 2, [(2, 2), (3, 1), (7, 1), (23, 1), (531581, 1), (1224481, 1)]⟩,
   ⟨4434155615661930479, 17, [(2, 1), (41, 1), (43, 1), (1257559732178653, 1)]⟩,
   ⟨172054593956031949258510691, 2,
      [(2, 1), (5, 1), (1361, 1), (2851, 1), (4434155615661930479, 1)]⟩,
   ⟨19757330305831588566944191468367130476339, 2,
      [(2, 1), (269, 1), (213441916511, 1), (172054593956031949258510691, 1)]⟩,
   ⟨276602624281642239937218680557139826668747, 2,
      [(2, 1), (7, 1), (19757330305831588566944191468367130476339, 1)]⟩,
   ⟨L, 2,
      [(2, 2), (3, 1), (11, 1), (198211423230930754013084525763697, 1),
      (276602624281642239937218680557139826668747, 1)]⟩]

/-! ## Projective coordinates -/

/-- A point as a pair of fractions with one denominator. -/
abbrev Projective := Int × Int × Int

/-- The triple stands for the curve point. -/
def ProjRep (a : Projective) (Q : Point) : Prop :=
  ((a.2.2 : Int) : F) ≠ 0 ∧ ((a.1 : Int) : F) = Q.x * a.2.2 ∧ ((a.2.1 : Int) : F) = Q.y * a.2.2

/-- The sum of two points without inversions, `d` being the curve's constant. -/
def projAdd (d : Int) (a b : Projective) : Projective :=
  let (x₁, y₁, z₁) := a
  let (x₂, y₂, z₂) := b
  let z := z₁ * z₂ % P
  let e := d * (x₁ * x₂ % P) * (y₁ * y₂ % P) % P
  let f := (z * z - e) % P
  let g := (z * z + e) % P
  (z * f % P * (x₁ * y₂ + x₂ * y₁) % P, z * g % P * (y₁ * y₂ + x₁ * x₂) % P, f * g % P)

theorem projAdd_rep {a b : Projective} {Q R : Point} (ha : ProjRep a Q) (hb : ProjRep b R) :
    ProjRep (projAdd D a b) (Q + R) := by
  obtain ⟨x₁, y₁, z₁⟩ := a
  obtain ⟨x₂, y₂, z₂⟩ := b
  obtain ⟨hz₁, hx₁, hy₁⟩ := ha
  obtain ⟨hz₂, hx₂, hy₂⟩ := hb
  have hdx := TwistedEdwards.den_x_ne Q.on_curve R.on_curve
  have hdy := TwistedEdwards.den_y_ne Q.on_curve R.on_curve
  rw [edwards25519_d] at hdx hdy
  dsimp only at hz₁ hx₁ hy₁ hz₂ hx₂ hy₂
  have hf : (((z₁ * z₂ % P * (z₁ * z₂ % P) - D * (x₁ * x₂ % P) * (y₁ * y₂ % P) % P) % P : Int) : F) =
      ((z₁ : F) * z₂) ^ 2 * (1 - (D : F) * Q.x * R.x * Q.y * R.y) := by
    simp only [emod_cast, Int.cast_sub, Int.cast_mul, hx₁, hy₁, hx₂, hy₂]
    ring
  have hg : (((z₁ * z₂ % P * (z₁ * z₂ % P) + D * (x₁ * x₂ % P) * (y₁ * y₂ % P) % P) % P : Int) : F) =
      ((z₁ : F) * z₂) ^ 2 * (1 + (D : F) * Q.x * R.x * Q.y * R.y) := by
    simp only [emod_cast, Int.cast_add, Int.cast_mul, hx₁, hy₁, hx₂, hy₂]
    ring
  have hz := mul_ne_zero hz₁ hz₂
  refine ⟨?_, ?_, ?_⟩
  · simp only [projAdd]
    rw [emod_cast, Int.cast_mul, hf, hg]
    exact mul_ne_zero (mul_ne_zero (pow_ne_zero 2 hz) hdy) (mul_ne_zero (pow_ne_zero 2 hz) hdx)
  · simp only [projAdd]
    rw [TwistedEdwards.add_x, edwards25519_d, div_mul_eq_mul_div, eq_div_iff hdx, emod_cast,
      emod_cast, Int.cast_mul, Int.cast_mul, emod_cast, Int.cast_mul, hf, hg, emod_cast]
    push_cast
    rw [hx₁, hy₁, hx₂, hy₂]
    ring
  · simp only [projAdd]
    rw [TwistedEdwards.add_y, edwards25519_d, div_mul_eq_mul_div, eq_div_iff hdy, emod_cast,
      emod_cast, Int.cast_mul, Int.cast_mul, emod_cast, Int.cast_mul, hf, hg, emod_cast]
    push_cast
    rw [hx₁, hy₁, hx₂, hy₂]
    ring

/-! ## The order -/

theorem base_projRep : ProjRep (BX, BY, 1) basePoint := by
  refine ⟨?_, ?_, ?_⟩
  · rw [Int.cast_one]
    exact one_ne_zero
  · rw [Int.cast_one, mul_one]
    exact base_rep.1
  · rw [Int.cast_one, mul_one]
    exact base_rep.2

theorem ident_projRep : ProjRep (0, 1, 1) 0 := by
  refine ⟨?_, ?_, ?_⟩ <;> simp

/-- The certificate checks, and the loop brings `L` times the base point to the
identity. -/
theorem order_computed : chain orderPrimes orderCertificates = true ∧
    run (projAdd 37095705934669439343138083508754565189542113879843219016388785533085940283555)
      (0, 1, 1)
      (15112221349535400772501151409588531511454012693041857206046113283949847762202,
        46316835694926478169428394003475163141307993866256225615783033603165251855960, 1) L =
      (0, 3233600088156918026318815990930732281525745574959576665983848188020301178520,
        3233600088156918026318815990930732281525745574959576665983848188020301178520) := by
  decide +kernel

theorem L_prime : L.Prime :=
  chain_prime orderPrimes_prime order_computed.1 _ (List.getLast_mem (List.cons_ne_nil _ _))

/-- `L` times the base point, as the loop computes it. -/
theorem projMul_base : ∃ y : Int, run (projAdd D) (0, 1, 1) (BX, BY, 1) L = (0, y, y) := by
  rw [BX_eq, BY_eq, D_eq]
  exact ⟨_, order_computed.2⟩

/-- **`L` times the base point is the identity.** -/
theorem L_nsmul_base : L • basePoint = 0 := by
  have hrun := run_rel (projAdd D) ProjRep (fun _ _ _ _ ha hb => projAdd_rep ha hb) ident_projRep
    base_projRep L
  obtain ⟨y, hy⟩ := projMul_base
  rw [zero_add, hy] at hrun
  obtain ⟨hz, hx, hyy⟩ := hrun
  dsimp only at hz hx hyy
  apply TwistedEdwards.Point.ext
  · rw [Int.cast_zero] at hx
    exact (mul_eq_zero.mp hx.symm).resolve_right hz
  · exact mul_right_cancel₀ hz (hyy.symm.trans (one_mul _).symm)

theorem base_ne_zero : basePoint ≠ 0 := by
  intro h
  have hx := congrArg TwistedEdwards.Point.x h
  rw [TwistedEdwards.zero_x] at hx
  have hrep := base_rep.1
  simp only [B] at hrep
  have hzero : ((BX : Int) : F) = ((0 : Int) : F) := by
    rw [Int.cast_zero, hrep, hx]
  have hBX : BX = 0 := by
    refine cast_inj ?_ ⟨le_rfl, P_pos⟩ hzero
    rw [BX_eq]
    norm_num [P]
  rw [BX_eq] at hBX
  norm_num at hBX

/-- **The base point has order `L`.** -/
theorem nsmul_base_eq_zero {n : Nat} : n • basePoint = 0 ↔ L ∣ n := by
  have : Fact L.Prime := ⟨L_prime⟩
  have horder : addOrderOf basePoint = L := addOrderOf_eq_prime L_nsmul_base base_ne_zero
  rw [← horder]
  exact addOrderOf_dvd_iff_nsmul_eq_zero.symm

/-- Multiples below `L` are different. -/
theorem nsmul_base_inj {m n : Nat} (hm : m < L) (hn : n < L)
    (h : m • basePoint = n • basePoint) : m = n := by
  have : Fact L.Prime := ⟨L_prime⟩
  have horder : addOrderOf basePoint = L := addOrderOf_eq_prime L_nsmul_base base_ne_zero
  rw [← horder] at hm hn
  exact nsmul_injOn_Iio_addOrderOf hm hn h

end SwarmPointer.Ed25519
