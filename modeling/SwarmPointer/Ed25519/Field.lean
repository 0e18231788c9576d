import Mathlib.NumberTheory.LegendreSymbol.Basic
import Mathlib.Tactic.NormNum.Prime
import SwarmPointer.Lib.TwistedEdwards
import SwarmPointer.Python.Ed25519Spp

/-!
# Ed25519 — the field and the curve

`P` is prime (a Lucas certificate the kernel evaluates), `-1` is a square
modulo `P` and `D` is not, so edwards25519 is a complete twisted Edwards
curve. The integer constants of the source are the field elements they are
meant to be.

Everything the later modules know of the numbers is proved here: they compute
with `F`, the integers modulo `P`, and return to integers through `Rep` and the
bounds of reduced coordinates. The certificate is checked by the kernel, once.
-/

namespace SwarmPointer.Ed25519

open BinaryMethod Python Python.Ed25519Spp

/-! ## The prime -/

/-- The small primes the certificate of `P` starts from. -/
def fieldPrimes : List Nat :=
  [2, 3, 5, 7, 13, 19, 31, 47, 107, 127, 223, 353, 2437, 4153, 57467, 65147, 75707, 132049,
  430751, 569003, 1923133, 8574133]

theorem fieldPrimes_prime : ∀ q ∈ fieldPrimes, q.Prime := by
  simp only [fieldPrimes, List.forall_mem_cons]
  norm_num

/-- The certificate of `P`: every large factor is certified before it is used. -/
def fieldCertificates : List Certificate :=
  [⟨31757755568855353, 10, [(2, 3), (3, 1), (31, 1), (107, 1), (223, 1), (4153, 1), (430751, 1)]⟩,
   ⟨2773320623, 5, [(2, 1), (2437, 1), (569003, 1)]⟩,
   ⟨72106336199, 7, [(2, 1), (13, 1), (2773320623, 1)]⟩,
   ⟨1919519569386763, 2, [(2, 1), (3, 1), (7, 1), (19, 1), (47, 2), (127, 1), (8574133, 1)]⟩,
   ⟨75445702479781427272750846543864801, 7,
      [(2, 5), (3, 2), (5, 2), (75707, 1), (72106336199, 1), (1919519569386763, 1)]⟩,
   ⟨74058212732561358302231226437062788676166966415465897661863160754340907, 2,
      [(2, 1), (3, 1), (353, 1), (57467, 1), (132049, 1), (1923133, 1), (31757755568855353, 1),
      (75445702479781427272750846543864801, 1)]⟩,
   ⟨P, 2,
      [(2, 2), (3, 1), (65147, 1),
      (74058212732561358302231226437062788676166966415465897661863160754340907, 1)]⟩]

theorem fieldCertificates_chain : chain fieldPrimes fieldCertificates = true := by
  decide +kernel

theorem P_prime : P.Prime :=
  chain_prime fieldPrimes_prime fieldCertificates_chain _ (List.getLast_mem (List.cons_ne_nil _ _))

instance : Fact P.Prime := ⟨P_prime⟩

instance : NeZero P := ⟨P_prime.ne_zero⟩

theorem P_odd : (P : Int) % 2 = 1 := by norm_num [P]

theorem P_mod_eight : P % 8 = 5 := by norm_num [P]

theorem P_lt : P < 2 ^ 255 := by norm_num [P]

/-- The field of edwards25519. -/
abbrev F := ZMod P

/-! ## The constants -/

theorem pow_cast {x : Int} (n : Nat) : ((pow x n P : Int) : F) = (x : F) ^ n := by
  have hx : (((x % P).toNat : Int) : F) = (x : F) := by
    rw [Int.toNat_of_nonneg (Int.emod_nonneg _ (by exact_mod_cast P_prime.ne_zero))]
    simp
  rw [pow, Int.cast_natCast, powMod_cast, ← Int.cast_natCast (R := F), hx]

theorem emod_cast (x : Int) : ((x % P : Int) : F) = (x : F) := by simp

/-- `_inv` is the field's inverse, `0` included. -/
theorem inv_cast (x : Int) : ((inv x : Int) : F) = (x : F)⁻¹ := by
  rw [inv, pow_cast]
  by_cases hx : (x : F) = 0
  · rw [hx, inv_zero, zero_pow (by norm_num [P])]
  · apply eq_inv_of_mul_eq_one_left
    rw [← pow_succ, show P - 2 + 1 = P - 1 by norm_num [P]]
    exact ZMod.pow_card_sub_one_eq_one hx

/-- The source's constants, evaluated: `I` squares to `-1`, `D` has this value,
and Euler's criterion at it. -/
theorem constants_eval : (I * I + 1) % P = 0 ∧
    D = 37095705934669439343138083508754565189542113879843219016388785533085940283555 ∧
    (pow D (P / 2) P + 1) % P = 0 := by
  decide +kernel

theorem I_sq : ((I : Int) : F) ^ 2 = -1 := by
  have h := constants_eval.1
  have hc : ((I * I + 1 : Int) : F) = 0 := by
    rw [← emod_cast, h, Int.cast_zero]
  push_cast at hc
  linear_combination hc

theorem two_ne : (2 : F) ≠ 0 := by
  have h : ((2 : Nat) : F) ≠ 0 := by
    rw [Ne, ZMod.natCast_eq_zero_iff]
    exact Nat.not_dvd_of_pos_of_lt (by norm_num) (by norm_num [P])
  exact_mod_cast h

theorem D_eq :
    D = 37095705934669439343138083508754565189542113879843219016388785533085940283555 :=
  constants_eval.2.1

/-- Euler's criterion, in the direction a computation can feed. -/
theorem not_isSquare_of_pow {p : Nat} [Fact p.Prime] (h2 : (2 : ZMod p) ≠ 0) {a : ZMod p}
    (h : a ^ (p / 2) = -1) : ¬ IsSquare a := by
  have hodd : p / 2 ≠ 0 := by
    intro h0
    rw [h0, pow_zero] at h
    exact h2 (by linear_combination h)
  have hne : a ≠ 0 := by
    rintro rfl
    rw [zero_pow hodd] at h
    exact zero_ne_one (by linear_combination -h)
  intro hsq
  rw [ZMod.euler_criterion p hne, h] at hsq
  exact h2 (by linear_combination -hsq)

theorem D_nonsquare : ¬ IsSquare ((D : Int) : F) := by
  refine not_isSquare_of_pow two_ne ?_
  have h := constants_eval.2.2
  have hc : ((pow D (P / 2) P + 1 : Int) : F) = 0 := by
    rw [← emod_cast, h, Int.cast_zero]
  rw [Int.cast_add, pow_cast, Int.cast_one] at hc
  exact eq_neg_of_add_eq_zero_left hc

/-- **edwards25519** as a complete twisted Edwards curve. -/
def edwards25519 : TwistedEdwards F where
  d := (D : Int)
  i := (I : Int)
  i_sq := I_sq
  two_ne := two_ne
  d_nonsquare := D_nonsquare

@[simp] theorem edwards25519_d : edwards25519.d = ((D : Int) : F) := rfl

/-- The points of edwards25519. -/
abbrev Point := TwistedEdwards.Point edwards25519

end SwarmPointer.Ed25519
