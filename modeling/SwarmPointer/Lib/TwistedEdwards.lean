import Mathlib.Algebra.Group.Basic
import Mathlib.Algebra.Group.Even
import Mathlib.Tactic.FieldSimp
import Mathlib.Tactic.LinearCombination
import Mathlib.Tactic.NormNum
import Mathlib.Tactic.Ring

/-!
# The group of a complete twisted Edwards curve

The curve `-x² + y² = 1 + d·x²·y²` over a field in which `-1` is a square
and `d` is not. The affine addition law has no exceptional pair there, and
the points form an abelian group; the group instance is the interface the
rest of the development uses.

Associativity is two polynomial identities modulo the three curve
equations. Their certificates are written with the products
`t₁₂ = d·x₁y₁x₂y₂` and so on, in which they are short.
-/

/-- A twisted Edwards curve with `a = -1` whose addition law is complete. -/
structure TwistedEdwards (F : Type*) [Field F] where
  d : F
  /-- A square root of `a = -1`. -/
  i : F
  i_sq : i ^ 2 = -1
  two_ne : (2 : F) ≠ 0
  d_nonsquare : ¬ IsSquare d

namespace TwistedEdwards

variable {F : Type*} [Field F]

/-- The curve equation. -/
def OnCurve (C : TwistedEdwards F) (x y : F) : Prop :=
  -x ^ 2 + y ^ 2 = 1 + C.d * x ^ 2 * y ^ 2

/-- An affine point together with its membership of the curve. -/
@[ext] structure Point (C : TwistedEdwards F) where
  x : F
  y : F
  on_curve : C.OnCurve x y

variable {C : TwistedEdwards F}

/-! ## Completeness -/

/-- The product of the four coordinates never meets `±1` after scaling by
`d`: otherwise `d` would be a square. -/
theorem product_ne {x₁ y₁ x₂ y₂ ε : F} (h₁ : C.OnCurve x₁ y₁) (h₂ : C.OnCurve x₂ y₂)
    (hε : ε ^ 2 = 1) : C.d * x₁ * x₂ * y₁ * y₂ ≠ ε := by
  intro h
  unfold OnCurve at h₁ h₂
  have hi := C.i_sq
  have hεne : ε ≠ 0 := by
    rintro rfl
    simp at hε
  have hx₁ : x₁ ≠ 0 := by
    rintro rfl
    simp at h
    exact hεne h.symm
  have hy₁ : y₁ ≠ 0 := by
    rintro rfl
    simp at h
    exact hεne h.symm
  have hy₂ : y₂ ≠ 0 := by
    rintro rfl
    simp at h
    exact hεne h.symm
  -- the two ways to write the same quantity as `d` times a square
  have hplus : C.d * (x₁ * y₁ * (C.i * x₂ + y₂)) ^ 2 = (C.i * x₁ + ε * y₁) ^ 2 := by
    linear_combination (C.d * x₁ ^ 2 * y₁ ^ 2 * x₂ ^ 2 - x₁ ^ 2) * hi - h₁
      + C.d * x₁ ^ 2 * y₁ ^ 2 * h₂ - (y₁ ^ 2 - 1) * hε
      + (C.d * x₁ * x₂ * y₁ * y₂ + ε + 2 * C.i * x₁ * y₁) * h
  have hminus : C.d * (x₁ * y₁ * (C.i * x₂ - y₂)) ^ 2 = (C.i * x₁ - ε * y₁) ^ 2 := by
    linear_combination (C.d * x₁ ^ 2 * y₁ ^ 2 * x₂ ^ 2 - x₁ ^ 2) * hi - h₁
      + C.d * x₁ ^ 2 * y₁ ^ 2 * h₂ - (y₁ ^ 2 - 1) * hε
      + (C.d * x₁ * x₂ * y₁ * y₂ + ε - 2 * C.i * x₁ * y₁) * h
  have square_of : ∀ z w : F, z ≠ 0 → C.d * z ^ 2 = w ^ 2 → IsSquare C.d := by
    intro z w hz hzw
    refine ⟨w / z, ?_⟩
    field_simp
    exact hzw
  by_cases hp : C.i * x₂ + y₂ = 0
  · have hm : C.i * x₂ - y₂ ≠ 0 := by
      intro hm
      have h2 : 2 * y₂ = 0 := by linear_combination hp - hm
      rcases mul_eq_zero.mp h2 with h2 | h2
      · exact C.two_ne h2
      · exact hy₂ h2
    exact C.d_nonsquare (square_of _ _ (mul_ne_zero (mul_ne_zero hx₁ hy₁) hm) hminus)
  · exact C.d_nonsquare (square_of _ _ (mul_ne_zero (mul_ne_zero hx₁ hy₁) hp) hplus)

theorem den_x_ne {x₁ y₁ x₂ y₂ : F} (h₁ : C.OnCurve x₁ y₁) (h₂ : C.OnCurve x₂ y₂) :
    1 + C.d * x₁ * x₂ * y₁ * y₂ ≠ 0 := by
  intro h
  exact product_ne h₁ h₂ (ε := -1) (by ring) (by linear_combination h)

theorem den_y_ne {x₁ y₁ x₂ y₂ : F} (h₁ : C.OnCurve x₁ y₁) (h₂ : C.OnCurve x₂ y₂) :
    1 - C.d * x₁ * x₂ * y₁ * y₂ ≠ 0 := by
  intro h
  exact product_ne h₁ h₂ (ε := 1) (by ring) (by linear_combination -h)

/-! ## The addition law -/

/-- The affine sum, first coordinate. -/
def addX (C : TwistedEdwards F) (x₁ y₁ x₂ y₂ : F) : F :=
  (x₁ * y₂ + x₂ * y₁) / (1 + C.d * x₁ * x₂ * y₁ * y₂)

/-- The affine sum, second coordinate. -/
def addY (C : TwistedEdwards F) (x₁ y₁ x₂ y₂ : F) : F :=
  (y₁ * y₂ + x₁ * x₂) / (1 - C.d * x₁ * x₂ * y₁ * y₂)

/-- The curve equation of a pair of fractions, with denominators cleared. -/
theorem onCurve_div {a b α β : F} (hα : α ≠ 0) (hβ : β ≠ 0)
    (h : -(a ^ 2 * β ^ 2) + b ^ 2 * α ^ 2 = α ^ 2 * β ^ 2 + C.d * a ^ 2 * b ^ 2) :
    C.OnCurve (a / α) (b / β) := by
  unfold OnCurve
  field_simp
  linear_combination h

theorem onCurve_add {x₁ y₁ x₂ y₂ : F} (h₁ : C.OnCurve x₁ y₁) (h₂ : C.OnCurve x₂ y₂) :
    C.OnCurve (C.addX x₁ y₁ x₂ y₂) (C.addY x₁ y₁ x₂ y₂) := by
  refine onCurve_div (den_x_ne h₁ h₂) (den_y_ne h₁ h₂) ?_
  unfold OnCurve at h₁ h₂
  generalize C.d = d at h₁ h₂ ⊢
  linear_combination
    (d ^ 3 * x₁ ^ 2 * y₁ ^ 2 * x₂ ^ 4 * y₂ ^ 4 + d * x₁ ^ 2 * x₂ ^ 2 * y₂ ^ 2
      - d * y₁ ^ 2 * x₂ ^ 2 * y₂ ^ 2 - 2 * d * x₂ ^ 4 * y₂ ^ 4 - d * x₂ ^ 2 * y₂ ^ 2
      - 2 * x₂ ^ 4 * y₂ ^ 2 + 2 * x₂ ^ 2 * y₂ ^ 4 - 2 * x₂ ^ 2 * y₂ ^ 2 - x₂ ^ 2 + y₂ ^ 2) * h₁
    + (-d ^ 2 * x₁ ^ 4 * y₁ ^ 2 * x₂ ^ 2 * y₂ ^ 2 + d ^ 2 * x₁ ^ 2 * y₁ ^ 4 * x₂ ^ 2 * y₂ ^ 2
      - d ^ 2 * x₁ ^ 2 * y₁ ^ 2 * x₂ ^ 2 * y₂ ^ 2 + 2 * d * x₁ ^ 2 * y₁ ^ 2 * x₂ ^ 2 * y₂ ^ 2
      + d * x₁ ^ 2 * y₁ ^ 2 * x₂ ^ 2 - d * x₁ ^ 2 * y₁ ^ 2 * y₂ ^ 2
      + 2 * x₁ ^ 2 * x₂ ^ 2 * y₂ ^ 2 - 2 * y₁ ^ 2 * x₂ ^ 2 * y₂ ^ 2
      + 2 * x₂ ^ 2 * y₂ ^ 2 + 1) * h₂

theorem onCurve_zero (C : TwistedEdwards F) : C.OnCurve 0 1 := by
  simp [OnCurve]

theorem onCurve_neg {x y : F} (h : C.OnCurve x y) : C.OnCurve (-x) y := by
  unfold OnCurve at h ⊢
  linear_combination h

instance : Add (Point C) :=
  ⟨fun P Q => ⟨C.addX P.x P.y Q.x Q.y, C.addY P.x P.y Q.x Q.y,
    onCurve_add P.on_curve Q.on_curve⟩⟩

instance : Zero (Point C) := ⟨⟨0, 1, onCurve_zero C⟩⟩

instance : Neg (Point C) := ⟨fun P => ⟨-P.x, P.y, onCurve_neg P.on_curve⟩⟩

@[simp] theorem zero_x : (0 : Point C).x = 0 := rfl

@[simp] theorem zero_y : (0 : Point C).y = 1 := rfl

@[simp] theorem neg_x (P : Point C) : (-P).x = -P.x := rfl

@[simp] theorem neg_y (P : Point C) : (-P).y = P.y := rfl

theorem add_x (P Q : Point C) :
    (P + Q).x = (P.x * Q.y + Q.x * P.y) / (1 + C.d * P.x * Q.x * P.y * Q.y) := rfl

theorem add_y (P Q : Point C) :
    (P + Q).y = (P.y * Q.y + P.x * Q.x) / (1 - C.d * P.x * Q.x * P.y * Q.y) := rfl

/-! ## Associativity -/

/-- Clearing the inner denominators of a sum whose left argument is a sum. -/
theorem frac_left {a b α β x y e : F} (hα : α ≠ 0) (hβ : β ≠ 0) :
    (a / α * y + x * (b / β)) / (1 + e * (a / α) * x * (b / β) * y)
      = (a * β * y + x * b * α) / (α * β + e * a * b * x * y) := by
  have hn : a / α * y + x * (b / β) = (a * β * y + x * b * α) / (α * β) := by
    field_simp
  have hd : 1 + e * (a / α) * x * (b / β) * y = (α * β + e * a * b * x * y) / (α * β) := by
    field_simp
  rw [hn, hd, div_div_div_cancel_right₀ (mul_ne_zero hα hβ)]

theorem frac_left_y {a b α β x y e : F} (hα : α ≠ 0) (hβ : β ≠ 0) :
    (b / β * y + a / α * x) / (1 - e * (a / α) * x * (b / β) * y)
      = (b * α * y + a * β * x) / (α * β - e * a * b * x * y) := by
  have hn : b / β * y + a / α * x = (b * α * y + a * β * x) / (α * β) := by
    field_simp
  have hd : 1 - e * (a / α) * x * (b / β) * y = (α * β - e * a * b * x * y) / (α * β) := by
    field_simp
  rw [hn, hd, div_div_div_cancel_right₀ (mul_ne_zero hα hβ)]

theorem frac_den_ne {a b α β x y e : F} (hα : α ≠ 0) (hβ : β ≠ 0)
    (h : 1 + e * (a / α) * x * (b / β) * y ≠ 0) : α * β + e * a * b * x * y ≠ 0 := by
  have hd : 1 + e * (a / α) * x * (b / β) * y = (α * β + e * a * b * x * y) / (α * β) := by
    field_simp
  rw [hd] at h
  exact (div_ne_zero_iff.mp h).1

theorem frac_den_y_ne {a b α β x y e : F} (hα : α ≠ 0) (hβ : β ≠ 0)
    (h : 1 - e * (a / α) * x * (b / β) * y ≠ 0) : α * β - e * a * b * x * y ≠ 0 := by
  have hd : 1 - e * (a / α) * x * (b / β) * y = (α * β - e * a * b * x * y) / (α * β) := by
    field_simp
  rw [hd] at h
  exact (div_ne_zero_iff.mp h).1

section Certificates
variable {d x₁ y₁ x₂ y₂ x₃ y₃ : F}
  (h₁ : -x₁ ^ 2 + y₁ ^ 2 = 1 + d * x₁ ^ 2 * y₁ ^ 2)
  (h₂ : -x₂ ^ 2 + y₂ ^ 2 = 1 + d * x₂ ^ 2 * y₂ ^ 2)
  (h₃ : -x₃ ^ 2 + y₃ ^ 2 = 1 + d * x₃ ^ 2 * y₃ ^ 2)

include h₁ h₂ h₃

theorem assoc_x_cert :
    ((x₁ * y₂ + x₂ * y₁) * (1 - d * x₁ * x₂ * y₁ * y₂) * y₃
          + x₃ * (y₁ * y₂ + x₁ * x₂) * (1 + d * x₁ * x₂ * y₁ * y₂))
        * ((1 + d * x₂ * x₃ * y₂ * y₃) * (1 - d * x₂ * x₃ * y₂ * y₃)
          + d * (x₂ * y₃ + x₃ * y₂) * (y₂ * y₃ + x₂ * x₃) * x₁ * y₁)
      = ((x₂ * y₃ + x₃ * y₂) * (1 - d * x₂ * x₃ * y₂ * y₃) * y₁
          + x₁ * (y₂ * y₃ + x₂ * x₃) * (1 + d * x₂ * x₃ * y₂ * y₃))
        * ((1 + d * x₁ * x₂ * y₁ * y₂) * (1 - d * x₁ * x₂ * y₁ * y₂)
          + d * (x₁ * y₂ + x₂ * y₁) * (y₁ * y₂ + x₁ * x₂) * x₃ * y₃) := by
  -- the cofactors are t₂₃·(t₂₃·S + V), t₁₃·(t₂₃·U - t₁₂·V) and -t₁₂·(t₁₂·S + U)
  linear_combination
    (d * x₂ * x₃ * y₂ * y₃) * ((d * x₂ * x₃ * y₂ * y₃)
        * (x₁ * x₂ * x₃ + x₁ * y₂ * y₃ + y₁ * x₂ * y₃ + y₁ * y₂ * x₃)
        + (x₁ * x₂ * x₃ + x₁ * y₂ * y₃ - y₁ * x₂ * y₃ - y₁ * y₂ * x₃)) * h₁
    + (d * x₁ * x₃ * y₁ * y₃) * ((d * x₂ * x₃ * y₂ * y₃)
        * (x₁ * x₂ * x₃ - x₁ * y₂ * y₃ - y₁ * x₂ * y₃ + y₁ * y₂ * x₃)
        - (d * x₁ * x₂ * y₁ * y₂)
        * (x₁ * x₂ * x₃ + x₁ * y₂ * y₃ - y₁ * x₂ * y₃ - y₁ * y₂ * x₃)) * h₂
    - (d * x₁ * x₂ * y₁ * y₂) * ((d * x₁ * x₂ * y₁ * y₂)
        * (x₁ * x₂ * x₃ + x₁ * y₂ * y₃ + y₁ * x₂ * y₃ + y₁ * y₂ * x₃)
        + (x₁ * x₂ * x₃ - x₁ * y₂ * y₃ - y₁ * x₂ * y₃ + y₁ * y₂ * x₃)) * h₃

theorem assoc_y_cert :
    ((y₁ * y₂ + x₁ * x₂) * (1 + d * x₁ * x₂ * y₁ * y₂) * y₃
          + (x₁ * y₂ + x₂ * y₁) * (1 - d * x₁ * x₂ * y₁ * y₂) * x₃)
        * ((1 + d * x₂ * x₃ * y₂ * y₃) * (1 - d * x₂ * x₃ * y₂ * y₃)
          - d * (x₂ * y₃ + x₃ * y₂) * (y₂ * y₃ + x₂ * x₃) * x₁ * y₁)
      = ((y₂ * y₃ + x₂ * x₃) * (1 + d * x₂ * x₃ * y₂ * y₃) * y₁
          + (x₂ * y₃ + x₃ * y₂) * (1 - d * x₂ * x₃ * y₂ * y₃) * x₁)
        * ((1 + d * x₁ * x₂ * y₁ * y₂) * (1 - d * x₁ * x₂ * y₁ * y₂)
          - d * (x₁ * y₂ + x₂ * y₁) * (y₁ * y₂ + x₁ * x₂) * x₃ * y₃) := by
  linear_combination
    (d * x₂ * x₃ * y₂ * y₃) * ((d * x₂ * x₃ * y₂ * y₃)
        * (x₁ * x₂ * y₃ + x₁ * y₂ * x₃ + y₁ * x₂ * x₃ + y₁ * y₂ * y₃)
        + (y₁ * x₂ * x₃ + y₁ * y₂ * y₃ - x₁ * x₂ * y₃ - x₁ * y₂ * x₃)) * h₁
    + (d * x₁ * x₃ * y₁ * y₃) * ((d * x₂ * x₃ * y₂ * y₃)
        * (x₁ * x₂ * y₃ - x₁ * y₂ * x₃ - y₁ * x₂ * x₃ + y₁ * y₂ * y₃)
        - (d * x₁ * x₂ * y₁ * y₂)
        * (y₁ * x₂ * x₃ + y₁ * y₂ * y₃ - x₁ * x₂ * y₃ - x₁ * y₂ * x₃)) * h₂
    - (d * x₁ * x₂ * y₁ * y₂) * ((d * x₁ * x₂ * y₁ * y₂)
        * (x₁ * x₂ * y₃ + x₁ * y₂ * x₃ + y₁ * x₂ * x₃ + y₁ * y₂ * y₃)
        + (x₁ * x₂ * y₃ - x₁ * y₂ * x₃ - y₁ * x₂ * x₃ + y₁ * y₂ * y₃)) * h₃

end Certificates

theorem add_comm' (P Q : Point C) : P + Q = Q + P := by
  ext
  · rw [add_x, add_x]
    congr 1 <;> ring
  · rw [add_y, add_y]
    congr 1 <;> ring

theorem zero_add' (P : Point C) : 0 + P = P := by
  ext
  · simp [add_x]
  · simp [add_y]

theorem neg_add' (P : Point C) : -P + P = 0 := by
  have hy := den_y_ne (onCurve_neg P.on_curve) P.on_curve
  have hc := P.on_curve
  unfold OnCurve at hc
  ext
  · rw [add_x, zero_x, neg_x, neg_y, div_eq_zero_iff]
    left
    ring
  · rw [add_y, zero_y, neg_x, neg_y, div_eq_one_iff_eq hy]
    linear_combination hc

theorem add_assoc' (P Q R : Point C) : P + Q + R = P + (Q + R) := by
  have hα := den_x_ne P.on_curve Q.on_curve
  have hβ := den_y_ne P.on_curve Q.on_curve
  have hα' := den_x_ne Q.on_curve R.on_curve
  have hβ' := den_y_ne Q.on_curve R.on_curve
  have hPQ := (P + Q).on_curve
  have hQR := (Q + R).on_curve
  ext
  · have hl := den_x_ne hPQ R.on_curve
    have hr := den_x_ne hQR P.on_curve
    rw [add_comm' P (Q + R), add_x (P + Q) R, add_x (Q + R) P]
    rw [add_x P Q, add_y P Q] at hl ⊢
    rw [add_x Q R, add_y Q R] at hr ⊢
    rw [frac_left hα hβ, frac_left hα' hβ',
      div_eq_div_iff (frac_den_ne hα hβ hl) (frac_den_ne hα' hβ' hr)]
    exact assoc_x_cert P.on_curve Q.on_curve R.on_curve
  · have hl := den_y_ne hPQ R.on_curve
    have hr := den_y_ne hQR P.on_curve
    rw [add_comm' P (Q + R), add_y (P + Q) R, add_y (Q + R) P]
    rw [add_x P Q, add_y P Q] at hl ⊢
    rw [add_x Q R, add_y Q R] at hr ⊢
    rw [frac_left_y hα hβ, frac_left_y hα' hβ',
      div_eq_div_iff (frac_den_y_ne hα hβ hl) (frac_den_y_ne hα' hβ' hr)]
    exact assoc_y_cert P.on_curve Q.on_curve R.on_curve

/-- **The points of a complete twisted Edwards curve form a group.** -/
instance : AddCommGroup (Point C) where
  add_assoc := add_assoc'
  zero_add := zero_add'
  add_zero P := by rw [add_comm', zero_add']
  add_comm := add_comm'
  neg_add_cancel := neg_add'
  nsmul := nsmulRec
  zsmul := zsmulRec

end TwistedEdwards
