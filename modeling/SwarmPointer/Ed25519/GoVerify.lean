import SwarmPointer.Ed25519.Signing
import SwarmPointer.Go.Ed25519

/-!
# Ed25519 — the Go check is §8A

Over any library whose points and scalars behave as documented, the Go check
accepts the §8A signatures and no others: encoding a decoded point again and
comparing the bytes rules out the spelling the Python check lets through.

`Lawful` states what the library documents: canonical decoding up to the
spellings it admits, the group operations, scalars below `L` only. That the
hypotheses can be met is shown by an instance made of the affine points of the
previous modules, and the comparison with Python holds over every library that
meets them.
-/

namespace SwarmPointer.Ed25519

open Python Python.Ed25519Spp
open Go.Ed25519 (Edwards25519 groupL mulByL sppEd25519Verify signaturePrefix)

/-- What the documentation of the library says: `Stands` relates its points to
those of the curve, `value` reads its scalars. `SetBytes` may accept more
spellings than the canonical one. -/
structure Lawful {Pt Sc : Type} (E : Edwards25519 Pt Sc) (Stands : Pt → Point → Prop)
    (value : Sc → Nat) : Prop where
  newIdentityPoint : Stands E.newIdentityPoint 0
  setBytes_point : ∀ b p, E.setBytes b = some p → ∃ Q, Stands p Q
  setBytes_encode : ∀ Q, ∃ p, E.setBytes (encode Q) = some p ∧ Stands p Q
  bytes : ∀ p Q, Stands p Q → E.bytes p = encode Q
  equal : ∀ p q Q R, Stands p Q → Stands q R → (E.equal p q = 1 ↔ Q = R)
  add : ∀ p q Q R, Stands p Q → Stands q R → Stands (E.add p q) (Q + R)
  double : ∀ p Q, Stands p Q → Stands (E.double p) (Q + Q)
  setCanonicalBytes : ∀ b, b.length = 32 → fromBytesLittle b < L →
    ∃ s, E.setCanonicalBytes b = some s ∧ value s = fromBytesLittle b
  setCanonicalBytes_large : ∀ b, b.length = 32 → L ≤ fromBytesLittle b →
    E.setCanonicalBytes b = none
  setUniformBytes : ∀ b, b.length = 64 →
    ∃ s, E.setUniformBytes b = some s ∧ value s = fromBytesLittle b % L
  scalarBaseMult : ∀ s, Stands (E.scalarBaseMult s) (value s • basePoint)
  scalarMult : ∀ s p Q, Stands p Q → Stands (E.scalarMult s p) (value s • Q)

theorem groupL_eq : groupL = L := by norm_num [groupL, L]

theorem message_eq (d : Bytes) : signaturePrefix ++ d = assertionMessage d := rfl

theorem encode_inj {Q R : Point} (h : encode Q = encode R) : Q = R := by
  have hs : Spelled (encode Q) R := .inl h
  exact Spelled.unique (.inl rfl) hs

section
variable {Pt Sc : Type} {E : Edwards25519 Pt Sc} {Stands : Pt → Point → Prop} {value : Sc → Nat}

/-- `mulByL` multiplies by the order. -/
theorem mulByL_stands (hE : Lawful E Stands value) {p : Pt} {Q : Point} (h : Stands p Q) :
    Stands (mulByL E p) (L • Q) := by
  have hsize := BinaryMethod.fromTop_size Stands hE.double
    (fun a b x y ha hb => hE.add a b x y ha hb) h hE.newIdentityPoint groupL
  rwa [groupL_eq] at hsize

/-- A canonical spelling is decoded to its point. -/
theorem setBytes_unique (hE : Lawful E Stands value) {b : Bytes} {p : Pt} {Q R : Point}
    (hp : E.setBytes b = some p) (hR : Stands p R) (hb : b = encode Q) : Q = R := by
  obtain ⟨q, hq, hQ⟩ := hE.setBytes_encode Q
  rw [← hb, hp] at hq
  obtain rfl := Option.some.inj hq
  exact encode_inj ((hE.bytes _ _ hQ).symm.trans (hE.bytes _ _ hR))

theorem setBytes_none (hE : Lawful E Stands value) {b : Bytes} (h : E.setBytes b = none)
    (Q : Point) : b ≠ encode Q := by
  intro hb
  obtain ⟨p, hp, -⟩ := hE.setBytes_encode Q
  rw [← hb, h] at hp
  cases hp

/-- The points the check lets through: the canonical spelling of a point of
the subgroup other than the identity. -/
theorem point_iff (hE : Lawful E Stands value) {b : Bytes} {p : Pt} {Q : Point}
    (hQ : Stands p Q) :
    (E.bytes p = b ∧ ¬ E.equal p E.newIdentityPoint = 1 ∧
      E.equal (mulByL E p) E.newIdentityPoint = 1) ↔ (b = encode Q ∧ Q ≠ 0) ∧ L • Q = 0 := by
  rw [hE.bytes p Q hQ, hE.equal _ _ _ _ hQ hE.newIdentityPoint,
    hE.equal _ _ _ _ (mulByL_stands hE hQ) hE.newIdentityPoint, and_assoc]
  exact and_congr_left fun _ => eq_comm

/-- **The Go check accepts exactly the §8A signatures.** -/
theorem goVerify_iff (hE : Lawful E Stands value) {sha512 : Bytes → Bytes}
    (hsha : ∀ m, (sha512 m).length = 64) (abytes sig d : Bytes) :
    sppEd25519Verify E sha512 abytes sig d = true ↔ SppEd25519 sha512 abytes sig d := by
  rw [sppEd25519Verify, SppEd25519, Accepts]
  simp only [Id.run, pure, Id]
  by_cases hlen : abytes.length ≠ 32 ∨ sig.length ≠ 64 ∨ d.length ≠ 32
  · rw [if_pos hlen]
    constructor
    · intro h
      cases h
    · rintro ⟨h1, h2, h3, -⟩
      exact absurd hlen (by simp [h1, h2, h3])
  rw [if_neg hlen]
  push Not at hlen
  have hhalf : (sig.drop 32).length = 32 := by
    rw [List.length_drop, hlen.2.1]
  by_cases hs : fromBytesLittle (sig.drop 32) < L
  · obtain ⟨s, hset, hvalue⟩ := hE.setCanonicalBytes _ hhalf hs
    rw [hset]
    dsimp only
    simp only [hlen, hs, true_and]
    -- `A` is decoded before `R`; a scalar that is not canonical is refused before both
    cases ha : E.setBytes abytes with
    | none =>
        constructor
        · intro h
          cases h
        · rintro ⟨A, -, ⟨hA, -⟩, -⟩
          exact absurd hA (setBytes_none hE ha A)
    | some a =>
        dsimp only
        cases hr : E.setBytes (sig.take 32) with
        | none =>
            constructor
            · intro h
              cases h
            · rintro ⟨-, R, -, ⟨hR, -⟩, -⟩
              exact absurd hR (setBytes_none hE hr R)
        | some r =>
            dsimp only
            obtain ⟨A, hA⟩ := hE.setBytes_point _ _ ha
            obtain ⟨R, hR⟩ := hE.setBytes_point _ _ hr
            obtain ⟨k, hk, hkvalue⟩ := hE.setUniformBytes _
              (hsha (sig.take 32 ++ abytes ++ signaturePrefix ++ d))
            rw [hk]
            dsimp only
            -- the library compares `[S]B` with `[k]A + R`, the specification with `R + [k]A`
            have hequal : E.equal (E.scalarBaseMult s) (E.add (E.scalarMult k a) r) = 1 ↔
                fromBytesLittle (sig.drop 32) • basePoint =
                  R + challenge sha512 abytes (sig.take 32) d • A := by
              rw [hE.equal _ _ _ _ (hE.scalarBaseMult s) (hE.add _ _ _ _ (hE.scalarMult k a A hA) hR),
                hvalue, hkvalue, add_comm _ R, List.append_assoc, message_eq]
              rfl
            simp only [Bool.if_false_left, Bool.and_eq_true, Bool.not_eq_true',
              decide_eq_false_iff_not, not_not, beq_iff_eq, ne_eq]
            have hpa := point_iff (b := abytes) hE hA
            have hpr := point_iff (b := sig.take 32) hE hR
            constructor
            · rintro ⟨h1, h2, h3, h4, h5, h6, h7⟩
              obtain ⟨hA', hLA⟩ := hpa.mp ⟨h1, h3, h4⟩
              obtain ⟨hR', hLR⟩ := hpr.mp ⟨h2, h5, h6⟩
              exact ⟨A, R, hA', hR', hLA, hLR, hequal.mp h7⟩
            · -- the points are the only ones their bytes stand for
              rintro ⟨A', R', hA', hR', hLA, hLR, heq⟩
              obtain rfl := setBytes_unique hE ha hA hA'.1
              obtain rfl := setBytes_unique hE hr hR hR'.1
              obtain ⟨h1, h3, h4⟩ := hpa.mpr ⟨hA', hLA⟩
              obtain ⟨h2, h5, h6⟩ := hpr.mpr ⟨hR', hLR⟩
              exact ⟨h1, h2, h3, h4, h5, h6, hequal.mpr heq⟩
  · rw [hE.setCanonicalBytes_large _ hhalf (not_lt.mp hs)]
    constructor
    · intro h
      cases h
    · rintro ⟨-, -, -, h, -⟩
      exact absurd h hs

/-- The Python check accepts what §8A accepts, and the signed identity. -/
theorem loose_iff {sha512 : Bytes → Bytes} {abytes sig d : Bytes} :
    LooseEd25519 sha512 abytes sig d ↔ SppEd25519 sha512 abytes sig d ∨
      (abytes = signedIdent ∨ sig.take 32 = signedIdent) ∧ LooseEd25519 sha512 abytes sig d := by
  constructor
  · intro h
    by_cases hsigned : abytes = signedIdent ∨ sig.take 32 = signedIdent
    · exact .inr ⟨hsigned, h⟩
    · rw [not_or] at hsigned
      obtain ⟨h1, h2, h3, h4, A, R, hA, hR, hrest⟩ := h
      exact .inl ⟨h1, h2, h3, h4, A, R, hA.resolve_right fun hA => hsigned.1 hA.1,
        hR.resolve_right fun hR => hsigned.2 hR.1, hrest⟩
  · rintro (h | ⟨-, h⟩)
    · exact loose_of_spp h
    · exact h

/-- **Go against Python.** The Go check is §8A; the Python check accepts the same
signatures and those where `signedIdent` stands for `A` or `R` and every other
condition holds with it read as the identity. -/
theorem goVerify_exact (hE : Lawful E Stands value) {sha512 : Bytes → Bytes}
    (hsha : ∀ m, (sha512 m).length = 64) (abytes sig d : Bytes) :
    (sppEd25519Verify E sha512 abytes sig d = true ↔ SppEd25519 sha512 abytes sig d) ∧
      (verifySppEd25519_1 sha512 abytes sig d = .ok true ↔
        sppEd25519Verify E sha512 abytes sig d = true ∨
          (abytes = signedIdent ∨ sig.take 32 = signedIdent) ∧
            LooseEd25519 sha512 abytes sig d) := by
  have hgo := goVerify_iff hE hsha abytes sig d
  refine ⟨hgo, ?_⟩
  rw [verify_iff, hgo]
  exact loose_iff

end

/-! ## The library at the affine points -/

/-- The operations of the Python module, in the library's place. -/
def affinePoints : Edwards25519 (Int × Int) Nat where
  newIdentityPoint := IDENT
  setBytes b := (decodePoint b).toOption.map fun pt => (pt.1 % P, pt.2 % P)
  bytes pt := (encodePoint pt).toOption.getD []
  equal pt pt' := if pt = pt' then 1 else 0
  add := pointAdd
  double pt := pointAdd pt pt
  setCanonicalBytes b :=
    if b.length = 32 ∧ fromBytesLittle b < L then some (fromBytesLittle b) else none
  setUniformBytes b := if b.length = 64 then some (fromBytesLittle b % L) else none
  scalarBaseMult s := pointMul s B
  scalarMult := pointMul

theorem affinePoints_lawful :
    Lawful affinePoints (fun pt Q => Rep pt Q ∧ Reduced pt) fun s => s where
  newIdentityPoint := ⟨ident_rep, ident_reduced⟩
  setBytes_point b p h := by
    obtain ⟨pt, hpt, rfl⟩ := Option.map_eq_some_iff.mp h
    cases hdec : decodePoint b with
    | error e =>
        rw [hdec] at hpt
        cases hpt
    | ok pt' =>
        rw [hdec] at hpt
        obtain rfl := Option.some.inj hpt
        obtain ⟨Q, hQ, -⟩ := decodePoint_ok hdec
        refine ⟨Q, ⟨?_, ?_⟩, emod_reduced _, emod_reduced _⟩
        · exact (emod_cast _).trans hQ.1
        · exact (emod_cast _).trans hQ.2
  setBytes_encode Q := by
    have hs : Spelled (encode Q) Q := .inl rfl
    obtain ⟨pt, hpt, hQ⟩ := decodePoint_spelled hs
    refine ⟨(pt.1 % P, pt.2 % P), ?_, ⟨?_, ?_⟩, emod_reduced _, emod_reduced _⟩
    · simp only [affinePoints, hpt]
      rfl
    · exact (emod_cast _).trans hQ.1
    · exact (emod_cast _).trans hQ.2
  bytes p Q h := by
    simp only [affinePoints, encodePoint_rep h.1 h.2]
    rfl
  equal p q Q R hp hq := by
    simp only [affinePoints]
    by_cases h : p = q
    · subst h
      rw [if_pos rfl]
      exact ⟨fun _ => hp.1.point_eq hq.1, fun _ => rfl⟩
    · rw [if_neg h]
      constructor
      · intro hne
        cases hne
      · rintro rfl
        exact absurd (hp.1.eq_of_reduced hq.1 hp.2 hq.2) h
  add p q Q R hp hq := ⟨pointAdd_rep hp.1 hq.1, pointAdd_reduced p q⟩
  double p Q hp := ⟨pointAdd_rep hp.1 hp.1, pointAdd_reduced p p⟩
  setCanonicalBytes b hb hs := ⟨_, if_pos ⟨hb, hs⟩, rfl⟩
  setCanonicalBytes_large b _ hs := if_neg fun h => absurd h.2 (not_lt.mpr hs)
  setUniformBytes b hb := ⟨_, if_pos hb, rfl⟩
  scalarBaseMult s := ⟨pointMul_rep base_rep s, pointMul_reduced s B⟩
  scalarMult s p Q hp := ⟨pointMul_rep hp.1 s, pointMul_reduced s p⟩

/-- What the Python check lets through, the Go check refuses. -/
theorem goVerify_refuses_signedIdent :
    ¬ sppEd25519Verify affinePoints (fun _ => List.replicate 64 0x00) signedIdent
      (signedIdent ++ List.replicate 32 0x00) (List.replicate 32 0x00) = true := by
  intro h
  exact not_spp_signedIdent _ _ _ ((goVerify_exact affinePoints_lawful (fun _ => rfl) _ _ _).1.mp h)

end SwarmPointer.Ed25519
