import SwarmPointer.Ed25519.Decode

/-!
# Ed25519 — what the signature check accepts

The accepted set, read off the group: §8A with one spelling too many. The
identity test compares against the pair `(0, 1)`, and the signed spelling
of the identity decodes to `(P, 1)`.

`SppEd25519` is the signature rule of §8A as the specification words it, with
the identity refused in `A` and in `R`. `LooseEd25519` is the same with the
signed spelling of the identity let through in either place, and the Python
check decides that one. The equation is checked without a cofactor.
-/

namespace SwarmPointer.Ed25519

open Python Python.Ed25519Spp

/-- `01 00 … 00 80`: the encoding of the identity with the sign bit set. -/
def signedIdent : Bytes := 0x01 :: List.replicate 30 0x00 ++ [0x80]

theorem signedIdent_eq : signedIdent = littleBytes 32 (1 + 2 ^ 255) := by decide

/-- The challenge `k`. -/
def challenge (sha512 : Bytes → Bytes) (aBytes rBytes d : Bytes) : Nat :=
  fromBytesLittle (sha512 (rBytes ++ aBytes ++ assertionMessage d)) % L

/-- The §8A conditions over a reading of byte strings as curve points. -/
def Accepts (reads : Bytes → Point → Prop) (sha512 : Bytes → Bytes) (aBytes sig d : Bytes) :
    Prop :=
  aBytes.length = 32 ∧ sig.length = 64 ∧ d.length = 32 ∧ fromBytesLittle (sig.drop 32) < L ∧
    ∃ A R : Point, reads aBytes A ∧ reads (sig.take 32) R ∧ L • A = 0 ∧ L • R = 0 ∧
      fromBytesLittle (sig.drop 32) • basePoint = R + challenge sha512 aBytes (sig.take 32) d • A

/-- Spec §8A: both are canonical encodings of points other than the identity. -/
def SppEd25519 : (Bytes → Bytes) → Bytes → Bytes → Bytes → Prop :=
  Accepts fun b Q => b = encode Q ∧ Q ≠ 0

/-- §8A, with `signedIdent` read as the identity and let through. -/
def LooseEd25519 : (Bytes → Bytes) → Bytes → Bytes → Bytes → Prop :=
  Accepts fun b Q => (b = encode Q ∧ Q ≠ 0) ∨ (b = signedIdent ∧ Q = 0)

/-! ## Which spellings survive the identity and subgroup tests -/

theorem signedIdent_spelled : Spelled signedIdent 0 := by
  right
  have : Fact (1 < P) := ⟨P_prime.one_lt⟩
  rw [TwistedEdwards.zero_x, TwistedEdwards.zero_y, ZMod.val_one, signedIdent_eq]
  exact ⟨rfl, rfl⟩

theorem signedIdent_ne : signedIdent ≠ encode 0 := by
  rw [encode_zero]
  decide

/-- A point with `x = 0` is the identity or the point of order two. -/
theorem two_torsion {Q : Point} (hx : Q.x = 0) : (2 : Nat) • Q = 0 := by
  have hcurve := Q.on_curve
  rw [TwistedEdwards.OnCurve, hx] at hcurve
  rw [two_nsmul]
  apply TwistedEdwards.Point.ext
  · rw [TwistedEdwards.add_x, hx, TwistedEdwards.zero_x]
    ring
  · rw [TwistedEdwards.add_y, hx, TwistedEdwards.zero_y]
    linear_combination hcurve

/-- `L` is odd, so the subgroup test leaves only the identity there. -/
theorem eq_zero_of_killed {Q : Point} (hx : Q.x = 0) (hL : L • Q = 0) : Q = 0 := by
  have hodd : L % 2 = 1 := by norm_num [L]
  obtain ⟨k, hk⟩ : ∃ k, L = k * 2 + 1 := ⟨L / 2, by omega⟩
  rwa [hk, add_nsmul, mul_nsmul', two_torsion hx, nsmul_zero, zero_add, one_nsmul] at hL

/-- The reading behind `LooseEd25519` is what decoding, the identity test
and the subgroup test leave together. -/
theorem spelled_killed_iff {raw : Bytes} {Q : Point} (hL : L • Q = 0) :
    (Spelled raw Q ∧ raw ≠ encode 0) ↔
      (raw = encode Q ∧ Q ≠ 0) ∨ (raw = signedIdent ∧ Q = 0) := by
  constructor
  · rintro ⟨hs, hne⟩
    by_cases hQ : Q = 0
    · subst hQ
      rcases hs with h | ⟨-, h⟩
      · exact absurd h hne
      · right
        have : Fact (1 < P) := ⟨P_prime.one_lt⟩
        rw [TwistedEdwards.zero_y, ZMod.val_one] at h
        rw [h, signedIdent_eq]
        exact ⟨rfl, rfl⟩
    · rcases hs with h | ⟨hx, -⟩
      · exact .inl ⟨h, hQ⟩
      · exact absurd (eq_zero_of_killed hx hL) hQ
  · rintro (⟨h, hQ⟩ | ⟨rfl, rfl⟩)
    · refine ⟨.inl h, fun h0 => hQ ?_⟩
      have hs : Spelled raw Q := .inl h
      exact hs.unique (.inl h0)
    · exact ⟨signedIdent_spelled, signedIdent_ne⟩

/-! ## The check -/

section
variable {sha512 : Bytes → Bytes}

/-- The check on points already decoded. -/
def checkPoints (sha512 : Bytes → Bytes) (aBytes sig d : Bytes) (a r : Int × Int) : Bool :=
  !isIdent a && !isIdent r && isIdent (pointMul L a) && isIdent (pointMul L r) &&
    pointMul (fromBytesLittle (sig.drop 32)) B ==
      pointAdd r (pointMul (challenge sha512 aBytes (sig.take 32) d) a)

theorem verify_eq (aBytes sig d : Bytes) :
    verifySppEd25519_1 sha512 aBytes sig d =
      if aBytes.length ≠ 32 ∨ sig.length ≠ 64 ∨ d.length ≠ 32 then .ok false
      else if fromBytesLittle (sig.drop 32) ≥ L then .ok false
      else match decodePoint aBytes, decodePoint (sig.take 32) with
        | .ok a, .ok r => .ok (checkPoints sha512 aBytes sig d a r)
        | _, _ => .ok false := by
  rw [verifySppEd25519_1]
  by_cases hlen : aBytes.length ≠ 32 ∨ sig.length ≠ 64 ∨ d.length ≠ 32
  · rw [if_pos hlen, if_pos hlen]
    rfl
  rw [if_neg hlen, if_neg hlen]
  dsimp only
  by_cases hs : fromBytesLittle (sig.drop 32) ≥ L
  · rw [if_pos hs, if_pos hs]
    rfl
  rw [if_neg hs, if_neg hs, decodePair]
  rcases decodePoint_cases aBytes with ha | ⟨y, t, x, -, -, -, -, -, ha⟩ <;>
    rcases decodePoint_cases (sig.take 32) with hr | ⟨y', t', x', -, -, -, -, -, hr⟩ <;>
      rw [ha, hr]
  · rfl
  · rfl
  · rfl
  · generalize (if t = 1 then (P : Int) - x else x, (y : Int)) = a
    generalize (if t' = 1 then (P : Int) - x' else x', (y' : Int)) = r
    simp only [checkPoints, challenge, bind, Except.bind, pure, Except.pure]
    cases isIdent a <;> cases isIdent r <;> cases isIdent (pointMul L a) <;>
      cases isIdent (pointMul L r) <;> rfl

/-- The check answers; it never raises. -/
theorem verify_returns (aBytes sig d : Bytes) :
    ∃ b, verifySppEd25519_1 sha512 aBytes sig d = .ok b := by
  rw [verify_eq]
  split
  · exact ⟨_, rfl⟩
  · split
    · exact ⟨_, rfl⟩
    · split <;> exact ⟨_, rfl⟩

theorem checkPoints_iff {aBytes sig d : Bytes} {a r : Int × Int} {A R : Point}
    (hA : Rep a A) (hR : Rep r R)
    (hia : isIdent a = true ↔ aBytes = encode 0) (hir : isIdent r = true ↔ sig.take 32 = encode 0) :
    checkPoints sha512 aBytes sig d a r = true ↔
      aBytes ≠ encode 0 ∧ sig.take 32 ≠ encode 0 ∧ L • A = 0 ∧ L • R = 0 ∧
        fromBytesLittle (sig.drop 32) • basePoint =
          R + challenge sha512 aBytes (sig.take 32) d • A := by
  have hla := isIdent_iff (pointMul_rep hA L) (pointMul_reduced L a)
  have hlr := isIdent_iff (pointMul_rep hR L) (pointMul_reduced L r)
  have hleft := pointMul_rep base_rep (fromBytesLittle (sig.drop 32))
  have hright := pointAdd_rep hR (pointMul_rep hA (challenge sha512 aBytes (sig.take 32) d))
  have heq : pointMul (fromBytesLittle (sig.drop 32)) B =
        pointAdd r (pointMul (challenge sha512 aBytes (sig.take 32) d) a) ↔
      fromBytesLittle (sig.drop 32) • basePoint =
        R + challenge sha512 aBytes (sig.take 32) d • A := by
    constructor
    · intro h
      rw [h] at hleft
      exact hleft.point_eq hright
    · intro h
      rw [← h] at hright
      exact hleft.eq_of_reduced hright (pointMul_reduced _ _) (pointAdd_reduced _ _)
  simp only [checkPoints, Bool.and_eq_true, Bool.not_eq_true', beq_iff_eq, hla, hlr, heq,
    ← Bool.not_eq_true, hia, hir, and_assoc, ne_eq]

/-- **The accepted set, exactly**: §8A with the signed identity let through. -/
theorem verify_iff (aBytes sig d : Bytes) :
    verifySppEd25519_1 sha512 aBytes sig d = .ok true ↔ LooseEd25519 sha512 aBytes sig d := by
  rw [verify_eq, LooseEd25519, Accepts]
  by_cases hlen : aBytes.length ≠ 32 ∨ sig.length ≠ 64 ∨ d.length ≠ 32
  · rw [if_pos hlen]
    constructor
    · intro h
      cases h
    · rintro ⟨h1, h2, h3, -⟩
      exact absurd hlen (by simp [h1, h2, h3])
  rw [if_neg hlen]
  push Not at hlen
  by_cases hs : fromBytesLittle (sig.drop 32) ≥ L
  · rw [if_pos hs]
    constructor
    · intro h
      cases h
    · rintro ⟨-, -, -, h, -⟩
      exact absurd h (not_lt.mpr hs)
  rw [if_neg hs]
  simp only [hlen, not_le.mp hs, true_and]
  constructor
  · intro h
    split at h
    · rename_i a r ha hr
      obtain ⟨A, hA, hsA, hiA⟩ := decodePoint_ok ha
      obtain ⟨R, hR, hsR, hiR⟩ := decodePoint_ok hr
      obtain ⟨hneA, hneR, hLA, hLR, heq⟩ :=
        (checkPoints_iff hA hR hiA hiR).mp (Except.ok.inj h)
      exact ⟨A, R, (spelled_killed_iff hLA).mp ⟨hsA, hneA⟩,
        (spelled_killed_iff hLR).mp ⟨hsR, hneR⟩, hLA, hLR, heq⟩
    · cases h
  · rintro ⟨A, R, hA, hR, hLA, hLR, heq⟩
    obtain ⟨hsA, hneA⟩ := (spelled_killed_iff hLA).mpr hA
    obtain ⟨hsR, hneR⟩ := (spelled_killed_iff hLR).mpr hR
    obtain ⟨a, ha, hrepA⟩ := decodePoint_spelled hsA
    obtain ⟨r, hr, hrepR⟩ := decodePoint_spelled hsR
    obtain ⟨_, _, _, hiA⟩ := decodePoint_ok ha
    obtain ⟨_, _, _, hiR⟩ := decodePoint_ok hr
    rw [ha, hr]
    exact congrArg Except.ok
      ((checkPoints_iff hrepA hrepR hiA hiR).mpr ⟨hneA, hneR, hLA, hLR, heq⟩)

theorem loose_of_spp {aBytes sig d : Bytes} (h : SppEd25519 sha512 aBytes sig d) :
    LooseEd25519 sha512 aBytes sig d := by
  obtain ⟨h1, h2, h3, h4, A, R, hA, hR, hrest⟩ := h
  exact ⟨h1, h2, h3, h4, A, R, .inl hA, .inl hR, hrest⟩

theorem encode_ne_signedIdent {Q : Point} (hQ : Q ≠ 0) : encode Q ≠ signedIdent := by
  intro h
  have hs : Spelled signedIdent Q := .inl h.symm
  exact hQ (hs.unique signedIdent_spelled)

/-- The check is §8A except where `signedIdent` stands for `A` or `R` and
every other condition holds with it read as the identity. -/
theorem verify_exact (sha512 : Bytes → Bytes) (aBytes sig d : Bytes) :
    (verifySppEd25519_1 sha512 aBytes sig d = .ok true ↔ SppEd25519 sha512 aBytes sig d) ↔
      ¬ ((aBytes = signedIdent ∨ sig.take 32 = signedIdent) ∧
        LooseEd25519 sha512 aBytes sig d) := by
  rw [verify_iff]
  constructor
  · rintro hiff ⟨hsigned, hloose⟩
    obtain ⟨-, -, -, -, A, R, ⟨hA, hA0⟩, ⟨hR, hR0⟩, -⟩ := hiff.mp hloose
    rcases hsigned with h | h
    · exact encode_ne_signedIdent hA0 (hA ▸ h)
    · exact encode_ne_signedIdent hR0 (hR ▸ h)
  · intro hcond
    refine ⟨fun hloose => ?_, loose_of_spp⟩
    have hplain : aBytes ≠ signedIdent ∧ sig.take 32 ≠ signedIdent := by
      constructor <;> intro h <;> exact hcond ⟨by simp [h], hloose⟩
    obtain ⟨h1, h2, h3, h4, A, R, hA, hR, hrest⟩ := hloose
    exact ⟨h1, h2, h3, h4, A, R, hA.resolve_right fun h => hplain.1 h.1,
      hR.resolve_right fun h => hplain.2 h.1, hrest⟩

end

/-- `A = R = signedIdent` and `S = 0` sign every digest, whatever the hash. -/
theorem loose_signedIdent (sha512 : Bytes → Bytes) {d : Bytes} (hd : d.length = 32) :
    LooseEd25519 sha512 signedIdent (signedIdent ++ List.replicate 32 0x00) d := by
  have hzero : fromBytesLittle ((signedIdent ++ List.replicate 32 0x00).drop 32) = 0 := by
    decide +kernel
  refine ⟨rfl, rfl, hd, ?_, 0, 0, .inr ⟨rfl, rfl⟩, .inr ⟨rfl, rfl⟩, nsmul_zero L, nsmul_zero L, ?_⟩
  · rw [hzero]
    decide
  · rw [hzero, zero_nsmul, nsmul_zero, add_zero]

theorem not_spp_signedIdent (sha512 : Bytes → Bytes) (sig d : Bytes) :
    ¬ SppEd25519 sha512 signedIdent sig d := by
  rintro ⟨-, -, -, -, A, R, ⟨hA, hA0⟩, -⟩
  exact encode_ne_signedIdent hA0 hA.symm

theorem verify_accepts_signedIdent :
    verifySppEd25519_1 (fun _ => List.replicate 64 0x00) signedIdent
        (signedIdent ++ List.replicate 32 0x00) (List.replicate 32 0x00) = .ok true ∧
      ¬ SppEd25519 (fun _ => List.replicate 64 0x00) signedIdent
        (signedIdent ++ List.replicate 32 0x00) (List.replicate 32 0x00) :=
  ⟨(verify_iff _ _ _).mpr (loose_signedIdent _ rfl), not_spp_signedIdent _ _ _⟩

end SwarmPointer.Ed25519
