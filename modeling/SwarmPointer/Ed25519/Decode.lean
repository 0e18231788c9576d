import SwarmPointer.Ed25519.Points

/-!
# Ed25519 — point encoding and decoding

`xrecover` returns the even root of the curve equation exactly when there
is one, and `decodePoint` inverts the encoding. The one byte string it
should refuse and does not is the encoding of a point with `x = 0` carrying
the sign bit: the negated root is then `P` itself, an unreduced zero, so
the sign test never fires and the re-encoding agrees with the input.

`Spelled` lists the byte strings that decode: for each point its encoding, and
for the identity and the point of order two one more. Nothing of the signature
scheme enters; which of the additional spellings survive the later tests is
found out where the check is described.
-/

namespace SwarmPointer.Ed25519

open Python Python.Ed25519Spp

/-! ## Square roots modulo `P` -/

theorem emod_eq_zero_iff (x : Int) : x % P = 0 ↔ (x : F) = 0 := by
  rw [ZMod.intCast_zmod_eq_zero_iff_dvd, Int.dvd_iff_emod_eq_zero]

/-- `P ≡ 5 (mod 8)`: the power the source takes squares to `±a`. -/
theorem candidate_sq {a : F} (ha : IsSquare a) :
    (a ^ ((P + 3) / 8)) ^ 2 = a ∨ (a ^ ((P + 3) / 8)) ^ 2 = -a := by
  obtain ⟨w, rfl⟩ := ha
  have h8 := P_mod_eight
  obtain ⟨k, hk⟩ : ∃ k, P = 8 * k + 5 := ⟨P / 8, by omega⟩
  have he : (P + 3) / 8 = k + 1 := by omega
  rw [he]
  by_cases hw : w = 0
  · left
    rw [hw, mul_zero, zero_pow (Nat.succ_ne_zero k), zero_pow two_ne_zero]
  · have hf : w ^ (8 * k + 4) = 1 := by
      have h := ZMod.pow_card_sub_one_eq_one hw
      rwa [show P - 1 = 8 * k + 4 by omega] at h
    have hsq : (((w * w) ^ (k + 1)) ^ 2) ^ 2 = (w * w) ^ 2 := by
      calc (((w * w) ^ (k + 1)) ^ 2) ^ 2 = w ^ (8 * k + 4) * (w * w) ^ 2 := by ring
        _ = (w * w) ^ 2 := by rw [hf, one_mul]
    exact sq_eq_sq_iff_eq_or_eq_neg.mp hsq

/-- The root the source settles on, before parity normalisation. -/
def root (x2 : Int) : Int :=
  let x := pow x2 ((P + 3) / 8) P
  if (x * x - x2) % P ≠ 0 then x * I % P else x

/-- The right-hand side of `x² = (y² - 1) / (D·y² + 1)`. -/
def ratio (y : Int) : Int := (y * y % P - 1) % P * inv ((D * (y * y % P) + 1) % P) % P

theorem xrecover_eq (y : Int) :
    xrecover y = if (root (ratio y) * root (ratio y) - ratio y) % P ≠ 0 then .error .valueError
      else .ok (if root (ratio y) % 2 ≠ 0 then P - root (ratio y) else root (ratio y)) := by
  unfold xrecover root ratio
  rfl

theorem pow_reduced (x : Int) (n : Nat) : 0 ≤ pow x n P ∧ pow x n P < P := by
  have h := BinaryMethod.powMod_lt P_prime.pos (x % P).toNat n
  rw [pow]
  omega

theorem root_reduced (x2 : Int) : 0 ≤ root x2 ∧ root x2 < P := by
  rw [root]
  split
  · exact emod_reduced _
  · exact pow_reduced _ _

theorem root_sq {x2 : Int} (h : IsSquare (x2 : F)) : ((root x2 : Int) : F) ^ 2 = x2 := by
  have hpm := candidate_sq h
  rw [← pow_cast] at hpm
  rw [root]
  split
  · rename_i hne
    rw [Ne, emod_eq_zero_iff] at hne
    push_cast at hne
    rcases hpm with hp | hm
    · exact absurd (by linear_combination hp) hne
    · rw [emod_cast, Int.cast_mul, mul_pow, hm, I_sq]
      ring
  · rename_i heq
    rw [Ne, not_not, emod_eq_zero_iff] at heq
    push_cast at heq
    linear_combination heq

/-- The denominator `D·y² + 1` never vanishes, since `-1/D` is no square. -/
theorem ratio_den_ne (y : F) : ((D : Int) : F) * (y * y) + 1 ≠ 0 := by
  intro h
  have hy : y ≠ 0 := by
    rintro rfl
    simp at h
  have hi := I_sq
  refine D_nonsquare ⟨((I : Int) : F) / y, ?_⟩
  rw [div_mul_div_comm, eq_div_iff (mul_ne_zero hy hy)]
  linear_combination h - hi

theorem ratio_cast (y : Int) :
    ((ratio y : Int) : F) = ((y : F) * y - 1) / (((D : Int) : F) * ((y : F) * y) + 1) := by
  rw [ratio]
  simp only [emod_cast, Int.cast_mul, inv_cast, Int.cast_add, Int.cast_sub, Int.cast_one,
    div_eq_mul_inv]

theorem onCurve_iff_ratio (x : F) (y : Int) :
    edwards25519.OnCurve x y ↔ x ^ 2 = ((ratio y : Int) : F) := by
  have hden := ratio_den_ne (y : F)
  rw [ratio_cast, eq_div_iff hden, TwistedEdwards.OnCurve, edwards25519_d]
  constructor
  · intro h
    linear_combination -h
  · intro h
    linear_combination -h

/-- What `xrecover` returns is an even reduced root. -/
theorem xrecover_ok {y x : Int} (h : xrecover y = .ok x) :
    (0 ≤ x ∧ x < P) ∧ x % 2 = 0 ∧ edwards25519.OnCurve (x : F) (y : F) := by
  have hP := P_odd
  have hr := root_reduced (ratio y)
  rw [xrecover_eq] at h
  split at h
  · cases h
  · rename_i heq
    rw [Ne, not_not, emod_eq_zero_iff] at heq
    push_cast at heq
    have hx := Except.ok.inj h
    rw [onCurve_iff_ratio]
    split at hx
    · subst hx
      refine ⟨by omega, by omega, ?_⟩
      push_cast
      rw [ZMod.natCast_self]
      linear_combination heq
    · subst hx
      exact ⟨hr, by omega, by linear_combination heq⟩

/-- `xrecover` fails only where no point has the ordinate. -/
theorem xrecover_complete {x : F} {y : Int} (h : edwards25519.OnCurve x y) :
    ∃ x', xrecover y = .ok x' ∧ ((x' : F) = x ∨ (x' : F) = -x) := by
  rw [onCurve_iff_ratio] at h
  have hroot : ((root (ratio y) : Int) : F) ^ 2 = ratio y := root_sq ⟨x, by rw [← h, sq]⟩
  have hok : (root (ratio y) * root (ratio y) - ratio y) % P = 0 := by
    rw [emod_eq_zero_iff]
    push_cast
    linear_combination hroot
  rw [xrecover_eq, hok]
  have hpm : ((root (ratio y) : Int) : F) = x ∨ ((root (ratio y) : Int) : F) = -x :=
    sq_eq_sq_iff_eq_or_eq_neg.mp (hroot.trans h.symm)
  refine ⟨_, if_neg (by simp), ?_⟩
  split
  · push_cast
    rw [ZMod.natCast_self, zero_sub]
    rcases hpm with hp | hm
    · exact .inr (by rw [hp])
    · exact .inl (by rw [hm, neg_neg])
  · exact hpm

/-! ## Encoding -/

/-- The RFC 8032 §5.1.2 encoding: `y` in 255 bits, then the parity of `x`. -/
def encode (Q : Point) : Bytes := littleBytes 32 (Q.y.val + 2 ^ 255 * (Q.x.val % 2))

/-- Setting the top bit of the last byte adds half the range. -/
theorem littleBytes_setTop (n : Nat) {v : Nat} (hv : v < 128 * 256 ^ n) :
    (littleBytes (n + 1) v).modify n (· ||| 0x80) = littleBytes (n + 1) (v + 128 * 256 ^ n) := by
  induction n generalizing v with
  | zero =>
      have h128 : ∀ k < 128, UInt8.ofNat k ||| 0x80 = UInt8.ofNat (k + 128) := by decide
      have hor := h128 v (by simpa using hv)
      simpa [littleBytes] using hor
  | succ n ih =>
      have hpow : 128 * 256 ^ (n + 1) = 256 * (128 * 256 ^ n) := by ring
      have hlt : v / 256 < 128 * 256 ^ n := by omega
      have hdiv : (v + 128 * 256 ^ (n + 1)) / 256 = v / 256 + 128 * 256 ^ n := by omega
      have hlow : UInt8.ofNat (v + 128 * 256 ^ (n + 1)) = UInt8.ofNat v := by
        apply UInt8.toNat_inj.mp
        rw [UInt8.toNat_ofNat', UInt8.toNat_ofNat']
        omega
      rw [littleBytes_succ (n + 1) v, List.modify_succ_cons, ih hlt, littleBytes_succ (n + 1),
        hlow, hdiv]

theorem encodePoint_eq (x : Int) {y : Nat} (hy : y < P) :
    encodePoint (x, (y : Int)) = .ok (littleBytes 32 (y + 2 ^ 255 * (x % 2).toNat)) := by
  have hP := P_lt
  have hbytes : toBytesLittle 32 (y : Int) = .ok (littleBytes 32 y) := by
    rw [toBytesLittle, if_pos (by norm_num; omega), Int.toNat_natCast]
  have htop := littleBytes_setTop 31 (v := y) (by norm_num; omega)
  rw [encodePoint, hbytes]
  rcases Int.emod_two_eq_zero_or_one x with h | h
  · simp [h]
  · simp only [h, if_true, Int.toNat_one]
    rw [show 2 ^ 255 * 1 = 128 * 256 ^ 31 by norm_num, ← htop]
    rfl

/-! ## Decoding -/

/-- `decodePoint` with its unreachable tests removed: whatever `xrecover`
returns passes the sign test and re-encodes to the input. -/
theorem decodePoint_eq {raw : Bytes} (hlen : raw.length = 32) {y s : Nat}
    (hraw : fromBytesLittle raw = y + 2 ^ 255 * s) (hy : y < P) (hs : s < 2) {x : Int}
    (hx : xrecover y = .ok x) :
    decodePoint raw = .ok (if s = 1 then (P : Int) - x else x, (y : Int)) := by
  have hP := P_lt
  have hsign : (fromBytesLittle raw >>> 255) &&& 1 = s := by
    rw [Nat.shiftRight_eq_div_pow, Nat.and_one_is_mod]
    omega
  have hlow : fromBytesLittle raw &&& (1 <<< 255 - 1) = y := by
    rw [Nat.one_shiftLeft, Nat.and_two_pow_sub_one_eq_mod]
    omega
  have hodd := P_odd
  obtain ⟨hred, heven, -⟩ := xrecover_ok hx
  have hback : littleBytes 32 (y + 2 ^ 255 * s) = raw := by
    rw [← hraw, ← hlen, littleBytes_fromBytesLittle]
  rw [decodePoint, if_neg (not_not.mpr hlen)]
  dsimp only
  rw [hsign, hlow, if_neg (not_le.mpr hy), hx]
  dsimp only
  have hs01 : s = 0 ∨ s = 1 := by omega
  rcases hs01 with rfl | rfl
  · have hpar : (x % 2).toNat = 0 := by omega
    have henc := encodePoint_eq x hy
    rw [hpar, hback] at henc
    simp [henc]
  · have hpar : ((P - x) % 2).toNat = 1 := by omega
    have henc := encodePoint_eq (P - x) hy
    rw [hpar, hback] at henc
    have hne : ¬ (P : Int) - x = 0 := by omega
    simp [henc, hne]

/-- **Decoding a point undoes encoding it.** -/
theorem decodePoint_encodePoint {x y : Int} (hx : 0 ≤ x ∧ x < P) (hy : 0 ≤ y ∧ y < P)
    (hcurve : (y ^ 2 - x ^ 2) % P = (1 + D * x ^ 2 * y ^ 2) % P) :
    ∃ raw, encodePoint (x, y) = .ok raw ∧ raw.length = 32 ∧ decodePoint raw = .ok (x, y) := by
  obtain ⟨n, rfl⟩ := Int.eq_ofNat_of_zero_le hy.1
  have hn : n < P := by exact_mod_cast hy.2
  have hP := P_lt
  have honcurve : edwards25519.OnCurve (x : F) (((n : Int) : Int) : F) := by
    apply onCurve_of_emod
    have hsub : -x ^ 2 + (n : Int) ^ 2 - (1 + D * x ^ 2 * (n : Int) ^ 2) =
        (n : Int) ^ 2 - x ^ 2 - (1 + D * x ^ 2 * (n : Int) ^ 2) := by ring
    rw [hsub]
    exact Int.emod_eq_emod_iff_emod_sub_eq_zero.mp hcurve
  obtain ⟨x', hx', hpm⟩ := xrecover_complete honcurve
  obtain ⟨hred, heven, -⟩ := xrecover_ok hx'
  have hs : (x % 2).toNat < 2 := by omega
  have hval : fromBytesLittle (littleBytes 32 (n + 2 ^ 255 * (x % 2).toNat)) =
      n + 2 ^ 255 * (x % 2).toNat := by
    rw [fromBytesLittle_littleBytes, Nat.mod_eq_of_lt]
    have h256 : (256 : Nat) ^ 32 = 2 ^ 255 * 2 := by norm_num
    rw [h256]
    omega
  refine ⟨_, encodePoint_eq x hn, littleBytes_length 32 _, ?_⟩
  rw [decodePoint_eq (littleBytes_length 32 _) hval hn hs hx']
  -- the root that was found is `x` or its opposite, whichever is even
  have hodd := P_odd
  have hroot : (if (x % 2).toNat = 1 then (P : Int) - x' else x') = x := by
    rcases hpm with hp | hm
    · have heq : x' = x := cast_inj hred hx hp
      rw [if_neg (by omega), heq]
    · by_cases hzero : x' = 0
      · rw [hzero, Int.cast_zero] at hm
        have hx0 : x = 0 := cast_inj hx ⟨le_refl 0, P_pos⟩
          (by rw [Int.cast_zero]; exact neg_eq_zero.mp hm.symm)
        rw [hzero, hx0]
        rfl
      · have heq : (P : Int) - x' = x := by
          refine cast_inj (by omega) hx ?_
          push_cast
          rw [ZMod.natCast_self, zero_sub, hm, neg_neg]
        rw [if_pos (by omega), heq]
  rw [hroot]

/-- The base point. -/
theorem decodePoint_encodePoint_base :
    ∃ raw, encodePoint B = .ok raw ∧ raw.length = 32 ∧ decodePoint raw = .ok B :=
  decodePoint_encodePoint (x := BX) (y := BY) (by rw [BX_eq]; norm_num [P])
    (by rw [BY_eq]; norm_num [P]) (by rw [BX_eq, BY_eq, D_eq]; norm_num [P])

/-- The byte strings `decodePoint` reads as `Q`: its encoding, and, when
`x = 0`, also its encoding with the sign bit set. -/
def Spelled (raw : Bytes) (Q : Point) : Prop :=
  raw = encode Q ∨ (Q.x = 0 ∧ raw = littleBytes 32 (Q.y.val + 2 ^ 255))

theorem val_of_reduced {x : Int} (hx : 0 ≤ x ∧ x < P) : (((x : F).val : Nat) : Int) = x := by
  rw [ZMod.val_intCast, Int.emod_eq_of_lt hx.1 hx.2]

theorem val_neg_of_reduced {x : Int} (hx : 0 < x ∧ x < P) :
    (((-(x : F)).val : Nat) : Int) = P - x := by
  have hcast : -(x : F) = ((P - x : Int) : F) := by
    push_cast
    rw [ZMod.natCast_self, zero_sub]
  rw [hcast, val_of_reduced (by omega)]

theorem cast_eq_zero {x : Int} (hx : 0 ≤ x ∧ x < P) (h : (x : F) = 0) : x = 0 := by
  have hz := val_of_reduced hx
  rw [h, ZMod.val_zero] at hz
  exact hz.symm

/-- The number a spelling of `Q` stands for, split at the sign bit. -/
theorem Spelled.split {raw : Bytes} {Q : Point} (h : Spelled raw Q) :
    ∃ s < 2, raw = littleBytes 32 (Q.y.val + 2 ^ 255 * s) ∧ (s = Q.x.val % 2 ∨ Q.x = 0) := by
  rcases h with h | ⟨hx, h⟩
  · exact ⟨_, Nat.mod_lt _ two_pos, h, .inl rfl⟩
  · exact ⟨1, one_lt_two, by rw [mul_one]; exact h, .inr hx⟩

theorem signed_cast (s : Nat) (x : Int) :
    ((if s = 1 then (P : Int) - x else x : Int) : F) = if s = 1 then -(x : F) else x := by
  split
  · push_cast
    rw [ZMod.natCast_self, zero_sub]
  · rfl

/-- Every spelling of a point decodes to a pair that stands for it. -/
theorem decodePoint_spelled {raw : Bytes} {Q : Point} (h : Spelled raw Q) :
    ∃ pt, decodePoint raw = .ok pt ∧ Rep pt Q := by
  obtain ⟨s, hs, hraw, hsign⟩ := h.split
  have hP := P_lt
  have hy : Q.y.val < P := ZMod.val_lt _
  have hlen : raw.length = 32 := by rw [hraw, littleBytes_length]
  have hval : fromBytesLittle raw = Q.y.val + 2 ^ 255 * s := by
    rw [hraw, fromBytesLittle_littleBytes, Nat.mod_eq_of_lt]
    have h256 : (256 : Nat) ^ 32 = 2 ^ 255 * 2 := by norm_num
    rw [h256]
    omega
  have hycast : ((Q.y.val : Int) : F) = Q.y := by
    rw [Int.cast_natCast, ZMod.natCast_zmod_val]
  have hcurve : edwards25519.OnCurve Q.x (((Q.y.val : Int) : Int) : F) := by
    rw [hycast]
    exact Q.on_curve
  obtain ⟨x, hx, hpm⟩ := xrecover_complete hcurve
  obtain ⟨hred, heven, -⟩ := xrecover_ok hx
  refine ⟨_, decodePoint_eq hlen hval hy hs hx, ?_, hycast⟩
  -- the even root is `Q.x` or `-Q.x`; the sign bit tells which
  rw [signed_cast]
  rcases hsign with hsign | hzero
  · rcases hpm with hp | hm
    · have hv := val_of_reduced hred
      rw [hp] at hv
      rw [if_neg (by omega), hp]
    · by_cases hx0 : x = 0
      · rw [hx0, Int.cast_zero] at hm ⊢
        rw [neg_zero, ite_self, ← neg_eq_zero.mp hm.symm]
      · have hodd := P_odd
        have hv := val_neg_of_reduced (x := x) (by omega)
        rw [hm, neg_neg] at hv
        rw [if_pos (by omega), hm, neg_neg]
  · have hx0 : (x : F) = 0 := by
      rcases hpm with hp | hm
      · rw [hp, hzero]
      · rw [hm, hzero, neg_zero]
    rw [hx0, neg_zero, ite_self, hzero]

/-- Decoding returns or raises `ValueError`. -/
theorem decodePoint_cases (raw : Bytes) :
    decodePoint raw = .error .valueError ∨
      ∃ (y s : Nat) (x : Int), raw.length = 32 ∧ fromBytesLittle raw = y + 2 ^ 255 * s ∧ y < P ∧
        s < 2 ∧ xrecover y = .ok x ∧
        decodePoint raw = .ok (if s = 1 then (P : Int) - x else x, (y : Int)) := by
  by_cases hlen : raw.length = 32
  · have hlt := fromBytesLittle_lt raw
    have h256 : (256 : Nat) ^ 32 = 2 ^ 255 * 2 := by norm_num
    rw [hlen, h256] at hlt
    have hsplit : fromBytesLittle raw =
        fromBytesLittle raw % 2 ^ 255 + 2 ^ 255 * (fromBytesLittle raw / 2 ^ 255) := by omega
    have hs : fromBytesLittle raw / 2 ^ 255 < 2 := by omega
    have hlow : fromBytesLittle raw &&& (1 <<< 255 - 1) = fromBytesLittle raw % 2 ^ 255 := by
      rw [Nat.one_shiftLeft, Nat.and_two_pow_sub_one_eq_mod]
    by_cases hy : fromBytesLittle raw % 2 ^ 255 < P
    · cases hx : xrecover (fromBytesLittle raw % 2 ^ 255 : Nat) with
      | error e =>
          left
          rw [decodePoint, if_neg (not_not.mpr hlen)]
          dsimp only
          rw [hlow, if_neg (not_le.mpr hy), hx]
      | ok x => exact .inr ⟨_, _, x, hlen, hsplit, hy, hs, hx, decodePoint_eq hlen hsplit hy hs hx⟩
    · left
      rw [decodePoint, if_neg (not_not.mpr hlen)]
      dsimp only
      rw [hlow, if_pos (not_lt.mp hy)]
  · left
    rw [decodePoint, if_pos hlen]

/-- The identity's own encoding, `01 00 … 00`. -/
theorem encode_zero : encode 0 = littleBytes 32 1 := by
  rw [encode, TwistedEdwards.zero_x, TwistedEdwards.zero_y, ZMod.val_zero]
  have : Fact (1 < P) := ⟨P_prime.one_lt⟩
  rw [ZMod.val_one, Nat.zero_mod, mul_zero, add_zero]

/-- **What decodes is a spelling of a point**, and the pair is the literal
identity only for the identity's own encoding. -/
theorem decodePoint_ok {raw : Bytes} {pt : Int × Int} (h : decodePoint raw = .ok pt) :
    ∃ Q, Rep pt Q ∧ Spelled raw Q ∧ (isIdent pt = true ↔ raw = encode 0) := by
  have hP := P_lt
  have hodd := P_odd
  rcases decodePoint_cases raw with herr | ⟨y, s, x, hlen, hval, hy, hs, hx, hok⟩
  · rw [herr] at h
    cases h
  rw [hok] at h
  obtain rfl := Except.ok.inj h
  obtain ⟨hred, heven, hcurve⟩ := xrecover_ok hx
  have hraw : raw = littleBytes 32 (y + 2 ^ 255 * s) := by
    rw [← hval, ← hlen, littleBytes_fromBytesLittle]
  have hycast : ((y : Int) : F) = (y : F) := Int.cast_natCast y
  have hyval : ((y : F)).val = y := ZMod.val_natCast_of_lt hy
  rw [hycast] at hcurve
  have hs01 : s = 0 ∨ s = 1 := by omega
  -- the bytes spell the identity exactly for `y = 1` without the sign bit
  have hident : raw = encode 0 ↔ y = 1 ∧ s = 0 := by
    rw [encode_zero, hraw]
    constructor
    · intro heq
      have hnum := congrArg fromBytesLittle heq
      have h256 : (256 : Nat) ^ 32 = 2 ^ 255 * 2 := by norm_num
      rw [fromBytesLittle_littleBytes, fromBytesLittle_littleBytes, h256,
        Nat.mod_eq_of_lt (by omega), Nat.mod_eq_of_lt (by norm_num)] at hnum
      omega
    · rintro ⟨rfl, rfl⟩
      rfl
  -- over `y = 1` the curve has one point only
  have hone : y = 1 → x = 0 := by
    rintro rfl
    apply cast_eq_zero hred
    have hzero : edwards25519.OnCurve 0 (((1 : Nat) : Int) : F) := by
      have h0 := (0 : Point).on_curve
      rw [TwistedEdwards.zero_x, TwistedEdwards.zero_y] at h0
      simpa using h0
    obtain ⟨x', hx', hpm⟩ := xrecover_complete hzero
    rw [hx] at hx'
    rw [Except.ok.inj hx']
    simpa using hpm
  rcases hs01 with rfl | rfl
  · refine ⟨⟨(x : F), (y : F), hcurve⟩, ⟨rfl, hycast⟩, .inl ?_, ?_⟩
    · have hv := val_of_reduced hred
      rw [hraw, encode]
      dsimp only
      rw [hyval]
      congr 3
      omega
    · rw [hident, isIdent, IDENT, beq_iff_eq, Prod.mk.injEq, if_neg zero_ne_one]
      constructor
      · rintro ⟨-, hy1⟩
        exact ⟨by exact_mod_cast hy1, rfl⟩
      · rintro ⟨hy1, -⟩
        exact ⟨hone hy1, by exact_mod_cast hy1⟩
  · have hneg : edwards25519.OnCurve (-(x : F)) (y : F) := by
      rw [TwistedEdwards.OnCurve] at hcurve ⊢
      rwa [neg_sq]
    have hcast := signed_cast 1 x
    rw [if_pos rfl, if_pos rfl] at hcast
    refine ⟨⟨-(x : F), (y : F), hneg⟩, ⟨by rw [if_pos rfl]; exact hcast, hycast⟩, ?_, ?_⟩
    · -- `P - x` is not reduced for `x = 0`: the identity with its sign bit set
      by_cases hx0 : x = 0
      · right
        refine ⟨by simp [hx0], ?_⟩
        rw [hraw, mul_one]
        dsimp only
        rw [hyval]
      · left
        have hv := val_neg_of_reduced (x := x) (by omega)
        rw [hraw, encode]
        dsimp only
        rw [hyval]
        congr 3
        omega
    · rw [hident, isIdent, IDENT, beq_iff_eq, Prod.mk.injEq, if_pos rfl]
      constructor
      · rintro ⟨hx0, -⟩
        omega
      · rintro ⟨-, hs0⟩
        omega

theorem Spelled.unique {raw : Bytes} {Q R : Point} (hQ : Spelled raw Q) (hR : Spelled raw R) :
    Q = R := by
  obtain ⟨pt, hpt, hrep⟩ := decodePoint_spelled hQ
  obtain ⟨pt', hpt', hrep'⟩ := decodePoint_spelled hR
  rw [hpt] at hpt'
  obtain rfl := Except.ok.inj hpt'
  exact hrep.point_eq hrep'

end SwarmPointer.Ed25519
