import SwarmPointer.Ed25519.Order
import SwarmPointer.Ed25519.Verify
import SwarmPointer.Lib.Raises

/-!
# Ed25519 — honest signatures and their uniqueness

What `sign` returns is accepted unless its scalar `r` is a multiple of `L`,
and the second half of an accepted signature is determined by the rest.

The group law and the order of the base point do the work: with `r` and `a` as
scalars, the equation of the check is `(r + k·a)·B = r·B + k·(a·B)`. Only the
scalar `r` matters to acceptance, since `R` is the identity exactly when `L`
divides it, and a clamped key is never such a multiple.

The last section evaluates one key, for use where a run of the program has to
be exhibited: the key of thirty-two zeros under a hash that is SHA-512 on that
key and constant elsewhere.
-/

namespace SwarmPointer.Ed25519

open BinaryMethod Except Python Python.Ed25519Spp

/-! ## Encoding -/

/-- **`encode_point` of a reduced pair is the encoding of its point.** -/
theorem encodePoint_rep {pt : Int × Int} {Q : Point} (h : Rep pt Q) (hr : Reduced pt) :
    encodePoint pt = .ok (encode Q) := by
  obtain ⟨x, y⟩ := pt
  obtain ⟨⟨hx0, hxP⟩, hy0, hyP⟩ := hr
  dsimp only at hx0 hxP hy0 hyP
  obtain ⟨y, rfl⟩ := Int.eq_ofNat_of_zero_le hy0
  have hx : ((Q.x.val : Nat) : Int) = x := by
    rw [← h.1]
    exact val_of_reduced ⟨hx0, hxP⟩
  have hy : Q.y.val = y := by
    have hval := val_of_reduced ⟨hy0, hyP⟩
    rw [h.2] at hval
    exact_mod_cast hval
  have hpar : (x % 2).toNat = Q.x.val % 2 := by omega
  rw [encodePoint_eq x (by exact_mod_cast hyP), hpar, encode, hy]

/-- The encoding of a multiple of the base point. -/
theorem encodePoint_mul (s : Nat) : encodePoint (pointMul s B) = .ok (encode (s • basePoint)) :=
  encodePoint_rep (pointMul_rep base_rep s) (pointMul_reduced s B)

theorem encode_length (Q : Point) : (encode Q).length = 32 := littleBytes_length _ _

/-! ## Clamping -/

/-- Clamping clears the low three bits and sets bit 254. -/
theorem clamp_eq (h : Bytes) :
    clamp h = 8 * (2 ^ 251 + fromBytesLittle (h.take 32) / 8 % 2 ^ 251) := by
  have hmask : 1 <<< 254 - 8 = (2 ^ 251 - 1) <<< 3 := by norm_num [Nat.shiftLeft_eq]
  have hbit : 1 <<< 254 = 2 ^ 254 * 1 := by norm_num [Nat.shiftLeft_eq]
  rw [clamp, hmask, and_shiftLeft, Nat.and_two_pow_sub_one_eq_mod, Nat.shiftRight_eq_div_pow,
    Nat.shiftLeft_eq, Nat.or_comm, hbit, ← Nat.two_pow_add_eq_or_of_lt]
  · have h254 : 2 ^ 254 = 8 * 2 ^ 251 := by norm_num
    rw [h254, Nat.mul_one, Nat.mul_add]
    ring
  · have hlt := Nat.mod_lt (fromBytesLittle (h.take 32) / 2 ^ 3) (Nat.two_pow_pos 251)
    have h254 : 2 ^ 254 = 2 ^ 251 * 2 ^ 3 := by norm_num
    rw [h254]
    exact Nat.mul_lt_mul_of_pos_right hlt (by decide)

/-- **A clamped scalar is not a multiple of `L`.** -/
theorem not_dvd_clamp (h : Bytes) : ¬ L ∣ clamp h := by
  rw [clamp_eq, L_prime.dvd_mul, not_or]
  have hlt := Nat.mod_lt (fromBytesLittle (h.take 32) / 8) (Nat.two_pow_pos 251)
  have hpos := Nat.two_pow_pos 251
  have hL : 2 ^ 251 + 2 ^ 251 ≤ L := by norm_num [L]
  constructor
  · exact Nat.not_dvd_of_pos_of_lt (by decide) (by norm_num [L])
  · exact Nat.not_dvd_of_pos_of_lt (by omega) (by omega)

/-! ## Signing -/

section
variable (sha512 : Bytes → Bytes)

/-- The scalar that a private key and a digest give, before reduction. -/
def signScalar (privateKey d : Bytes) : Nat :=
  fromBytesLittle (sha512 ((sha512 privateKey).drop 32 ++ assertionMessage d))

/-- The two points of an honest signature. -/
noncomputable def publicPoint (privateKey : Bytes) : Point :=
  clamp (sha512 privateKey) • basePoint

noncomputable def noncePoint (privateKey d : Bytes) : Point :=
  (signScalar sha512 privateKey d % L) • basePoint

/-- The second half of an honest signature, as a number. -/
noncomputable def response (privateKey d : Bytes) : Nat :=
  (signScalar sha512 privateKey d % L +
    challenge sha512 (encode (publicPoint sha512 privateKey))
      (encode (noncePoint sha512 privateKey d)) d * clamp (sha512 privateKey)) % L

theorem publicFromPrivate_eq (privateKey : Bytes) :
    publicFromPrivate sha512 privateKey = .ok (encode (publicPoint sha512 privateKey)) :=
  encodePoint_mul _

theorem L_pos : 0 < L := L_prime.pos

theorem L_lt : L < 256 ^ 32 := by norm_num [L]

/-- **What `sign` returns.** -/
theorem sign_eq {privateKey : Bytes} (hk : privateKey.length = 32) (d : Bytes) :
    sign sha512 privateKey d = .ok (encode (noncePoint sha512 privateKey d) ++
      littleBytes 32 (response sha512 privateKey d)) := by
  have hlt : response sha512 privateKey d < 256 ^ 32 :=
    (Nat.mod_lt _ L_pos).trans L_lt
  have hresponse : toBytesLittle 32 ((response sha512 privateKey d : Nat) : Int) =
      .ok (littleBytes 32 (response sha512 privateKey d)) := by
    rw [toBytesLittle, if_pos ⟨Int.natCast_nonneg _, by exact_mod_cast hlt⟩, Int.toNat_natCast]
  rw [sign, if_neg (not_not.mpr hk)]
  change (encodePoint (pointMul (clamp (sha512 privateKey)) B) >>= fun a =>
    encodePoint (pointMul (signScalar sha512 privateKey d % L) B) >>= fun rBytes =>
      toBytesLittle 32 ((signScalar sha512 privateKey d % L +
        challenge sha512 a rBytes d * clamp (sha512 privateKey)) % L : Nat) >>= fun out =>
          .ok (rBytes ++ out)) = _
  rw [encodePoint_mul, ok_bind, encodePoint_mul, ok_bind]
  change (toBytesLittle 32 ((response sha512 privateKey d : Nat) : Int) >>= fun out => _) = _
  rw [hresponse, ok_bind]
  rfl

variable {sha512}

theorem fromBytesLittle_drop {a b : Bytes} (ha : a.length = 32) :
    (a ++ b).drop 32 = b ∧ (a ++ b).take 32 = a := by
  rw [← ha]
  exact ⟨List.drop_left, List.take_left⟩

/-- An honest signature meets §8A unless its scalar is a multiple of `L`. -/
theorem honest_spp {privateKey d : Bytes} (hd : d.length = 32)
    (hr : signScalar sha512 privateKey d % L ≠ 0) :
    SppEd25519 sha512 (encode (publicPoint sha512 privateKey))
      (encode (noncePoint sha512 privateKey d) ++ littleBytes 32 (response sha512 privateKey d)) d := by
  have hlen := encode_length (noncePoint sha512 privateKey d)
  obtain ⟨hdrop, htake⟩ := fromBytesLittle_drop (b := littleBytes 32 (response sha512 privateKey d)) hlen
  have hlt : response sha512 privateKey d < L := Nat.mod_lt _ L_pos
  have hs : fromBytesLittle (littleBytes 32 (response sha512 privateKey d)) =
      response sha512 privateKey d := by
    rw [fromBytesLittle_littleBytes, Nat.mod_eq_of_lt (hlt.trans L_lt)]
  have killed : ∀ n : Nat, L • n • basePoint = 0 := fun n => by
    rw [smul_comm, L_nsmul_base, smul_zero]
  refine ⟨encode_length _, ?_, hd, ?_, publicPoint sha512 privateKey,
    noncePoint sha512 privateKey d, ⟨rfl, ?_⟩, ⟨htake, ?_⟩, killed _, killed _, ?_⟩
  · rw [List.length_append, hlen, littleBytes_length]
  · rw [hdrop, hs]
    exact hlt
  · exact fun h => not_dvd_clamp _ (nsmul_base_eq_zero.mp h)
  · intro h
    have hdvd := nsmul_base_eq_zero.mp h
    exact hr (Nat.eq_zero_of_dvd_of_lt hdvd (Nat.mod_lt _ L_pos))
  · -- the response is `r + k · s` up to a multiple of `L`
    have hmod : ∀ n : Nat, (n % L) • basePoint = n • basePoint := fun n => by
      conv_rhs => rw [← Nat.mod_add_div n L]
      rw [add_nsmul, mul_comm L, mul_nsmul', L_nsmul_base, nsmul_zero, add_zero]
    rw [hdrop, hs, htake, response, hmod, add_nsmul, mul_nsmul']
    rfl

/-- **A signature of `sign` verifies exactly when its scalar is no multiple of `L`.**
The other way its `R` is the identity, which the check refuses. -/
theorem signed_verifies_iff {privateKey d sig : Bytes} (hk : privateKey.length = 32)
    (hd : d.length = 32) (hsig : sign sha512 privateKey d = .ok sig) :
    verifySppEd25519_1 sha512 (encode (publicPoint sha512 privateKey)) sig d = .ok true ↔
      signScalar sha512 privateKey d % L ≠ 0 := by
  obtain rfl := Except.ok.inj ((sign_eq sha512 hk d).symm.trans hsig)
  rw [verify_iff]
  constructor
  · rintro ⟨-, -, -, -, A, R, -, hR, -⟩ hzero
    have hident : noncePoint sha512 privateKey d = 0 := by
      rw [noncePoint, hzero, zero_nsmul]
    rw [(fromBytesLittle_drop (encode_length _)).2, hident] at hR
    rcases hR with ⟨hR, hne⟩ | ⟨hR, -⟩
    · have hs : Spelled (encode 0) R := .inl hR
      exact hne (hs.unique (.inl rfl))
    · exact signedIdent_ne hR.symm
  · exact fun hr => loose_of_spp (honest_spp hd hr)

/-- **Honest signatures verify.** -/
theorem honest_verifies (sha512 : Bytes → Bytes) (privateKey d : Bytes)
    (hk : privateKey.length = 32) (hd : d.length = 32)
    (hr : signScalar sha512 privateKey d % L ≠ 0) :
    ∃ a sig, publicFromPrivate sha512 privateKey = .ok a ∧ sign sha512 privateKey d = .ok sig ∧
      verifySppEd25519_1 sha512 a sig d = .ok true :=
  ⟨_, _, publicFromPrivate_eq sha512 privateKey, sign_eq sha512 hk d,
    (verify_iff _ _ _).mpr (loose_of_spp (honest_spp hd hr))⟩

/-- With a hash that returns sixty-four ones the scalar is never a multiple of `L`. -/
theorem ones_scalar (d : Bytes) :
    signScalar (fun _ => List.replicate 64 1) (List.replicate 32 0) d % L ≠ 0 := by
  show fromBytesLittle (List.replicate 64 1) % L ≠ 0
  decide +kernel

/-- With that hash. -/
theorem honest_verifies_ones : ∃ a sig,
    publicFromPrivate (fun _ => List.replicate 64 1) (List.replicate 32 0) = .ok a ∧
    sign (fun _ => List.replicate 64 1) (List.replicate 32 0) (List.replicate 32 0) = .ok sig ∧
    verifySppEd25519_1 (fun _ => List.replicate 64 1) a sig (List.replicate 32 0) = .ok true :=
  honest_verifies _ _ _ rfl rfl (ones_scalar _)

/-! ## Uniqueness -/

/-- **The response is determined by the rest of the signature.** -/
theorem response_unique (sha512 : Bytes → Bytes) (aBytes rBytes d s s' : Bytes)
    (hs : s.length = 32) (hs' : s'.length = 32)
    (h : verifySppEd25519_1 sha512 aBytes (rBytes ++ s) d = .ok true)
    (h' : verifySppEd25519_1 sha512 aBytes (rBytes ++ s') d = .ok true) : s = s' := by
  obtain ⟨ha, hlen, hd, hlt, A, R, hA, hR, hLA, hLR, heq⟩ := (verify_iff _ _ _).mp h
  obtain ⟨-, -, -, hlt', A', R', hA', hR', hLA', hLR', heq'⟩ := (verify_iff _ _ _).mp h'
  have hr : rBytes.length = 32 := by
    rw [List.length_append] at hlen
    omega
  obtain ⟨hdrop, htake⟩ := fromBytesLittle_drop (b := s) hr
  obtain ⟨hdrop', htake'⟩ := fromBytesLittle_drop (b := s') hr
  rw [hdrop] at hlt heq
  rw [htake] at hR heq
  rw [hdrop'] at hlt' heq'
  rw [htake'] at hR' heq'
  -- both decode `A` and `R` to the same points
  obtain rfl : A = A' := ((spelled_killed_iff hLA).mpr hA).1.unique ((spelled_killed_iff hLA').mpr hA').1
  obtain rfl : R = R' := ((spelled_killed_iff hLR).mpr hR).1.unique ((spelled_killed_iff hLR').mpr hR').1
  have hval := nsmul_base_inj hlt hlt' (heq.trans heq'.symm)
  rw [← littleBytes_fromBytesLittle s, ← littleBytes_fromBytesLittle s', hval, hs, hs']

end

/-- Of an honest signature, with a hash that returns sixty-four ones. -/
theorem response_unique_ones : ∃ a r s : Bytes, s.length = 32 ∧
    verifySppEd25519_1 (fun _ => List.replicate 64 1) a (r ++ s) (List.replicate 32 0) = .ok true ∧
    ∀ s' : Bytes, s'.length = 32 →
      verifySppEd25519_1 (fun _ => List.replicate 64 1) a (r ++ s') (List.replicate 32 0) =
        .ok true → s' = s := by
  have hlen : ∀ n, (littleBytes 32 n).length = 32 := littleBytes_length 32
  have hspp : SppEd25519 (fun _ => List.replicate 64 1) _ _ (List.replicate 32 0) :=
    honest_spp rfl (ones_scalar _)
  have haccepted := (verify_iff _ _ _).mpr (loose_of_spp hspp)
  exact ⟨_, _, _, hlen _, haccepted,
    fun s' hs' h' => response_unique _ _ _ _ _ _ hs' (hlen _) h' haccepted⟩

/-! ## The key of thirty-two zeros -/

/-- A private key. -/
def zeroKey : Bytes := List.replicate 32 0

/-- Its SHA-512. -/
def zeroHash : Bytes :=
  [80, 70, 173, 193, 219, 168, 56, 134, 123, 43, 187, 253, 208, 195, 66, 62, 88, 181, 121, 112,
    181, 38, 122, 144, 245, 121, 96, 146, 74, 135, 241, 150, 10, 106, 133, 234, 166, 66, 218, 200,
    53, 66, 75, 93, 124, 141, 99, 124, 0, 64, 140, 122, 115, 218, 103, 43, 127, 73, 133, 33, 66,
    11, 109, 211]

/-- Its public key. -/
def zeroPublic : Bytes :=
  [59, 106, 39, 188, 206, 182, 164, 45, 98, 163, 168, 208, 42, 111, 13, 115, 101, 50, 21, 119,
    29, 226, 67, 166, 58, 192, 72, 161, 139, 89, 218, 41]

/-- SHA-512 of that key, and sixty-four ones for everything else. -/
def zeroSha512 (x : Bytes) : Bytes := if x = zeroKey then zeroHash else List.replicate 64 1

/-- Its scalar, and the multiple of the base point as the loop computes it,
which is the pair with denominator one. -/
theorem zeroKey_computed :
    clamp zeroHash =
      39325648866980652792715009169219496062012184734522019333892538943312776480336 ∧
    run (projAdd 37095705934669439343138083508754565189542113879843219016388785533085940283555)
      (0, 1, 1)
      (15112221349535400772501151409588531511454012693041857206046113283949847762202,
        46316835694926478169428394003475163141307993866256225615783033603165251855960, 1)
      39325648866980652792715009169219496062012184734522019333892538943312776480336 =
      (22166199326128235766737590197688806653284343331577523914167238593140587771787,
        34879002489747382148976079659338915642311157980642033411851849548890679075241,
        57368504117523527976812088506666931062013271348605364276801515347001402216353) ∧
    encodePoint (9639205628789703341510410801487549615560488670885798085067615194958049462616,
      18930617471878267742194159801949745215346600387277955685031939302387136031291) =
      .ok zeroPublic := by
  decide +kernel

/-- Fractions with equal values stand for the same point. -/
theorem ProjRep.affine {x y X Y Z : Int} {Q : Point} (h : ProjRep (X, Y, Z) Q)
    (hx : x * Z % P = X % P) (hy : y * Z % P = Y % P) : Rep (x, y) Q := by
  obtain ⟨hz, hX, hY⟩ := h
  dsimp only at hz hX hY
  have cast : ∀ {a b : Int}, a % P = b % P → (a : F) = b := fun hab => by
    rw [← emod_cast, hab, emod_cast]
  have hx' := cast hx
  have hy' := cast hy
  rw [Int.cast_mul, hX] at hx'
  rw [Int.cast_mul, hY] at hy'
  exact ⟨mul_right_cancel₀ hz hx', mul_right_cancel₀ hz hy'⟩

/-- **The public key of thirty-two zeros.** -/
theorem zeroKey_public : publicFromPrivate zeroSha512 zeroKey = .ok zeroPublic := by
  obtain ⟨hclamp, hrun, hencode⟩ := zeroKey_computed
  have hhash : zeroSha512 zeroKey = zeroHash := if_pos rfl
  have hloop := run_rel (projAdd D) ProjRep (fun _ _ _ _ ha hb => projAdd_rep ha hb) ident_projRep
    base_projRep (clamp zeroHash)
  rw [zero_add, hclamp, BX_eq, BY_eq, D_eq, hrun] at hloop
  have hrep := hloop.affine
    (x := 9639205628789703341510410801487549615560488670885798085067615194958049462616)
    (y := 18930617471878267742194159801949745215346600387277955685031939302387136031291)
    (by norm_num [P]) (by norm_num [P])
  rw [publicFromPrivate_eq, publicPoint, hhash, hclamp, ← hencode]
  refine (encodePoint_rep hrep ?_).symm
  norm_num [Reduced, P]

/-- No message hashes to a multiple of `L` there. -/
theorem zeroKey_scalar (d : Bytes) : signScalar zeroSha512 zeroKey d % L ≠ 0 := by
  have hhash : zeroSha512 zeroKey = zeroHash := if_pos rfl
  have hne : zeroHash.drop 32 ++ assertionMessage d ≠ zeroKey := by
    intro h
    have hlen := congrArg List.length h
    have hmessage : (assertionMessage d).length = d.length + 16 := rfl
    rw [List.length_append, hmessage] at hlen
    have hkey : zeroKey.length = 32 := rfl
    have hdrop : (zeroHash.drop 32).length = 32 := rfl
    omega
  rw [signScalar, hhash, zeroSha512, if_neg hne]
  exact ones_scalar d

end SwarmPointer.Ed25519
