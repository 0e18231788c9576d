import SwarmPointer.Ed25519.Field

/-!
# Ed25519 — the affine operations compute in the group

The source adds pairs of Python integers. `Rep` relates such a pair to the
curve point it stands for; the pair need not be reduced, which is what
`decodePoint` exploits in one case. Addition and double-and-add respect
`Rep`, and everything they return is reduced.

No claim is made about which representative an operation returns beyond its
being reduced, because that is all `encodePoint` needs. `_scalarmult` is the
loop of the binary method at this addition, so its correctness is the rule of
that loop with `Rep` as the relation.
-/

namespace SwarmPointer.Ed25519

open Python Python.Ed25519Spp

/-- The integer pair stands for the curve point. -/
def Rep (pt : Int × Int) (Q : Point) : Prop :=
  ((pt.1 : Int) : F) = Q.x ∧ ((pt.2 : Int) : F) = Q.y

/-- Both coordinates lie in `[0, P)`. -/
def Reduced (pt : Int × Int) : Prop :=
  (0 ≤ pt.1 ∧ pt.1 < P) ∧ (0 ≤ pt.2 ∧ pt.2 < P)

theorem P_pos : (0 : Int) < P := by exact_mod_cast P_prime.pos

theorem emod_reduced (x : Int) : 0 ≤ x % P ∧ x % P < P :=
  ⟨Int.emod_nonneg _ P_pos.ne', Int.emod_lt_of_pos _ P_pos⟩

theorem cast_inj {x y : Int} (hx : 0 ≤ x ∧ x < P) (hy : 0 ≤ y ∧ y < P)
    (h : (x : F) = (y : F)) : x = y := by
  have hm : x % (P : Int) = y % P := (ZMod.intCast_eq_intCast_iff' x y P).mp h
  rwa [Int.emod_eq_of_lt hx.1 hx.2, Int.emod_eq_of_lt hy.1 hy.2] at hm

theorem Rep.eq_of_reduced {a b : Int × Int} {Q : Point} (ha : Rep a Q) (hb : Rep b Q)
    (ra : Reduced a) (rb : Reduced b) : a = b :=
  Prod.ext (cast_inj ra.1 rb.1 (ha.1.trans hb.1.symm)) (cast_inj ra.2 rb.2 (ha.2.trans hb.2.symm))

theorem Rep.point_eq {a : Int × Int} {Q R : Point} (hQ : Rep a Q) (hR : Rep a R) : Q = R :=
  TwistedEdwards.Point.ext (hQ.1.symm.trans hR.1) (hQ.2.symm.trans hR.2)

theorem ident_rep : Rep IDENT 0 := by simp [Rep, IDENT]

theorem ident_reduced : Reduced IDENT := by
  have h : (1 : Int) < P := by exact_mod_cast P_prime.one_lt
  simp only [Reduced, IDENT]
  omega

/-! ## Addition and scalar multiplication -/

theorem pointAdd_rep {a b : Int × Int} {Q R : Point} (ha : Rep a Q) (hb : Rep b R) :
    Rep (pointAdd a b) (Q + R) := by
  obtain ⟨hax, hay⟩ := ha
  obtain ⟨hbx, hby⟩ := hb
  constructor
  · rw [TwistedEdwards.add_x, ← hax, ← hay, ← hbx, ← hby]
    simp only [pointAdd, emod_cast, Int.cast_mul, inv_cast, Int.cast_add, Int.cast_one,
      div_eq_mul_inv, edwards25519_d]
  · rw [TwistedEdwards.add_y, ← hax, ← hay, ← hbx, ← hby]
    simp only [pointAdd, emod_cast, Int.cast_mul, inv_cast, Int.cast_add, Int.cast_sub,
      Int.cast_one, div_eq_mul_inv, edwards25519_d]

theorem pointAdd_reduced (a b : Int × Int) : Reduced (pointAdd a b) :=
  ⟨emod_reduced _, emod_reduced _⟩

theorem pointMul_rep {pt : Int × Int} {Q : Point} (h : Rep pt Q) (s : Nat) :
    Rep (pointMul s pt) (s • Q) := by
  have hrun := BinaryMethod.run_rel pointAdd Rep
    (fun _ _ _ _ ha hb => pointAdd_rep ha hb) ident_rep h s
  rwa [zero_add] at hrun

theorem pointMul_reduced (s : Nat) (pt : Int × Int) : Reduced (pointMul s pt) := by
  have key : ∀ bits r q s, Reduced r → Reduced (BinaryMethod.loop pointAdd bits r q s) := by
    intro bits
    induction bits with
    | zero => intro r q s hr; exact hr
    | succ bits ih =>
        intro r q s hr
        rw [BinaryMethod.loop]
        split
        · exact hr
        · apply ih
          split
          · exact pointAdd_reduced r q
          · exact hr
  exact key _ _ _ _ ident_reduced

theorem isIdent_iff {pt : Int × Int} {Q : Point} (h : Rep pt Q) (hr : Reduced pt) :
    isIdent pt = true ↔ Q = 0 := by
  rw [isIdent, beq_iff_eq]
  constructor
  · rintro rfl
    exact h.point_eq ident_rep
  · rintro rfl
    exact h.eq_of_reduced ident_rep hr ident_reduced

/-! ## The base point -/

/-- The two coordinates, evaluated. -/
theorem base_eval :
    BX = 15112221349535400772501151409588531511454012693041857206046113283949847762202 ∧
    BY = 46316835694926478169428394003475163141307993866256225615783033603165251855960 := by
  decide +kernel

theorem BY_eq :
    BY = 46316835694926478169428394003475163141307993866256225615783033603165251855960 :=
  base_eval.2

theorem BX_eq :
    BX = 15112221349535400772501151409588531511454012693041857206046113283949847762202 :=
  base_eval.1

theorem onCurve_of_emod {x y : Int} (h : (-x ^ 2 + y ^ 2 - (1 + D * x ^ 2 * y ^ 2)) % P = 0) :
    edwards25519.OnCurve (x : F) (y : F) := by
  have hc : ((-x ^ 2 + y ^ 2 - (1 + D * x ^ 2 * y ^ 2) : Int) : F) = 0 := by
    rw [← emod_cast, h, Int.cast_zero]
  rw [TwistedEdwards.OnCurve, edwards25519_d]
  push_cast at hc
  exact sub_eq_zero.mp hc

theorem base_on_curve : edwards25519.OnCurve ((BX : Int) : F) ((BY : Int) : F) := by
  apply onCurve_of_emod
  rw [BX_eq, BY_eq, D_eq]
  norm_num [P]

/-- The point of `B`. -/
noncomputable def basePoint : Point where
  x := ((BX : Int) : F)
  y := ((BY : Int) : F)
  on_curve := base_on_curve

theorem base_rep : Rep B basePoint := by
  constructor <;> simp only [B, basePoint]

end SwarmPointer.Ed25519
