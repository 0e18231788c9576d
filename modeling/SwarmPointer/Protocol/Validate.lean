import SwarmPointer.Jcs.Sorted
import SwarmPointer.Protocol.Schema

/-!
# Protocol — `validate_object` decides validity

The tail of the validator on an object of the right shape, and the verdict of
the whole: a record exactly for the valid assertions, `UnsupportedError`
exactly for the other versions, `SppError` for the rest.

`Returns` is what is asked of the imports: that the canonicaliser writes some
text for every value with distinct names and that the signature check answers.
The real ones satisfy it, and so do the stand-ins that the results about other
programs use. `recordOf` is the record as a function of the object, so "returns
the record of a valid assertion" is one equation.
-/

namespace SwarmPointer.Protocol

open Except Jcs Json Python Python.Protocol

/-! ## Work -/

/-- A power of two that divides the unit, and what is left of it. -/
theorem one_split {a b : Nat} (h : a + b = 1074) (ha : a ≤ 2044) : ∃ c, 0 < c ∧
    Binary64.one = c * 2 ^ b ∧ ∀ n ≤ 2 ^ 53, Binary64.Representable (n * c) := by
  refine ⟨2 ^ a, Nat.two_pow_pos _, ?_, ?_⟩
  · rw [Binary64.one_eq, ← h, pow_add]
  · intro n hn
    exact Binary64.representable_mul hn ha

theorem trueDiv_of {a b : Nat} {x : Binary64}
    (h : Binary64.ofQuotient false (a * Binary64.one) b = some x) : trueDiv a b = .ok x := by
  rw [trueDiv, h, Option.elim_some]

/-- A division by 1024 of an integer that a double holds is exact. -/
theorem trueDiv_kib {n : Nat} (h : n ≤ 2 ^ 53) :
    ∃ q, trueDiv n 1024 = .ok q ∧ ceil q = (n + 1023) / 1024 := by
  obtain ⟨c, hpos, hone, hrep⟩ := one_split (a := 1064) (b := 10) rfl (by decide)
  have hkib : 2 ^ 10 = 1024 := rfl
  rw [hkib] at hone
  have hscale : n * Binary64.one = n * c * 1024 := by rw [hone, Nat.mul_assoc]
  have hexact := Binary64.ofQuotient_exact ⟨false, n * c, hrep n h⟩ (show 0 < 1024 by decide)
  refine ⟨⟨false, n * c, hrep n h⟩, trueDiv_of (hscale ▸ hexact), ?_⟩
  have hsum : n * c + (c * 1024 - 1) = (c - 1) + c * (n + 1023) := by
    rw [Nat.mul_add, Nat.mul_comm n c]
    omega
  have hsmall : (c - 1) / c = 0 := Nat.div_eq_of_lt (by omega)
  rw [ceil, hone, ← Nat.div_div_eq_div_mul, hsum, Nat.add_mul_div_left _ _ hpos, hsmall,
    Nat.zero_add]

/-- The locators of a reference are counted. -/
theorem lenLocators_eq {u : Members Str} {k : Str} (h : Has u k IsRef) :
    lenLocators u k = .ok (locatorCount (u.lookup k)) := by
  obtain ⟨r, hr, ms, rfl, -, -, l, hl, ls, rfl, -, -⟩ := h
  have hget : getItem u k = .ok (.obj ms) := getItem_eq_ok.mpr hr
  have hsub : getItem ms "locators".toList = .ok (.arr ls) := getItem_eq_ok.mpr hl
  rw [lenLocators, hget, hr, locatorCount, hl]
  simp only [ok_bind, subscript, hsub]
  rfl

theorem lenParents_eq {u : Members Str} (h : Optional u "parents".toList AreParents) :
    lenParents u = .ok (arrayLength (u.lookup "parents".toList)) := by
  rw [lenParents]
  by_cases hc : contains u "parents".toList = true
  · obtain ⟨p, hp, hget⟩ := getItem_of_contains hc
    obtain ⟨ps, rfl, -, -⟩ := h p hp
    rw [if_pos hc, hget, hp]
    rfl
  · rw [if_neg hc, contains_eq_false.mp (Bool.not_eq_true _ ▸ hc)]
    rfl

theorem lenDescriptor_eq {u : Members Str} (h : Optional u "descriptor".toList IsRef) :
    lenDescriptor u = .ok (locatorCount (u.lookup "descriptor".toList)) := by
  rw [lenDescriptor]
  by_cases hc : contains u "descriptor".toList = true
  · obtain ⟨r, hr, -⟩ := getItem_of_contains hc
    rw [if_pos hc, lenLocators_eq ⟨r, hr, h r hr⟩]
  · rw [if_neg hc, contains_eq_false.mp (Bool.not_eq_true _ ▸ hc)]
    rfl

theorem workCounts_pointer (u : Members Str) : workCounts u (.str "pointer".toList) =
    lenLocators u "ref".toList >>= fun loc => lenParents u >>= fun n => .ok (loc, n, 0) := rfl

theorem workCounts_channel (u : Members Str) : workCounts u (.str "channel".toList) =
    lenDescriptor u >>= fun loc => .ok (loc, 0, 16) := rfl

/-- **`work_units` counts the units** of a body of the right shape. -/
theorem workUnits_eq {u : Members Str} (h : Shape u) {n : Nat} (hn : n ≤ 2 ^ 53) :
    workUnits u n = .ok (units u n) := by
  obtain ⟨q, hq, hceil⟩ := trueDiv_kib hn
  rw [workUnits, units, ← hceil]
  rcases h.kind with hk | hk
  · have htype : typeIs u "pointer".toList = true := by
      rw [typeIs, hk.1]
      exact decide_eq_true rfl
    have hloc := lenLocators_eq hk.2.2.2.1
    have hparents := lenParents_eq hk.2.2.2.2
    rw [getItem_eq_ok.mpr hk.1, htype, if_pos rfl]
    have hcounts : workCounts u (.str "pointer".toList) = .ok (locatorCount (u.lookup "ref".toList),
        arrayLength (u.lookup "parents".toList), 0) := by
      rw [workCounts_pointer, hloc, hparents]
      rfl
    simp only [ok_bind, hcounts, hq]
    refine congrArg Except.ok ?_
    omega
  · have htype : typeIs u "pointer".toList = false := by
      rw [typeIs, hk.1]
      exact decide_eq_false (by decide)
    have hdescriptor := lenDescriptor_eq hk.2.2.2.2
    rw [getItem_eq_ok.mpr hk.1, htype, if_neg nofun]
    have hcounts : workCounts u (.str "channel".toList) =
        .ok (locatorCount (u.lookup "descriptor".toList), 0, 16) := by
      rw [workCounts_channel, hdescriptor]
      rfl
    simp only [ok_bind, hcounts, hq]
    refine congrArg Except.ok ?_
    omega

theorem units_pos (u : Members Str) (n : Nat) : 0 < units u n := by
  rw [units]
  omega

theorem targetForUnits_eq {n : Nat} (h : 0 < n) : targetForUnits n = .ok (target n) := by
  have hmax : MAX_H = 2 ^ 256 - 1 := by decide
  rw [targetForUnits, UNIT_SCALE, if_neg (by omega), hmax]
  rfl

theorem fromBytesBig_eq (bs : Bytes) (n : Nat) :
    bs.foldl (fun n b => 256 * n + b.toNat) n = 256 ^ bs.length * n + fromBytesBig bs := by
  induction bs generalizing n with
  | nil => simp [fromBytesBig, fromBytesLittle]
  | cons b bs ih =>
      rw [List.foldl_cons, ih, fromBytesBig, fromBytesBig, List.reverse_cons,
        fromBytesLittle_append, List.length_reverse, List.length_cons, fromBytesLittle,
        fromBytesLittle]
      ring

theorem digestValue_eq (d : Digest) : fromBytesBig d.1 = digestValue d := by
  rw [digestValue, fromBytesBig_eq, Nat.mul_zero, Nat.zero_add]

/-- The hash pays for the units when it does not exceed the target. -/
theorem le_target {h n : Nat} (hn : 0 < n) : h ≤ target n ↔ h * n * 65536 ≤ 2 ^ 256 - 1 := by
  rw [target, Nat.le_div_iff_mul_le (by omega), Nat.mul_assoc]

/-! ## The key -/

theorem tagged_inj {tag : Str} {v : Json Str} {as bs : Bytes} (h : Tagged tag v as)
    (h' : Tagged tag v bs) : as = bs := by
  have heq := h.2.symm.trans h'.2
  exact hex_inj (List.append_cancel_left (Json.str.inj heq))

/-- The key is what follows the colon of `actor`. -/
theorem actorKey_eq {u : Members Str} {key : Bytes}
    (h : Has u "actor".toList fun v => Tagged "ed25519:".toList v key) :
    actorKey u = .ok key := by
  obtain ⟨v, hv, -, rfl⟩ := h
  have hcolon : afterColon ("ed25519:".toList ++ hex key) = .ok (hex key) := by
    rw [afterColon, if_pos (List.mem_append_left _ (by decide))]
    rfl
  rw [actorKey, getItem_eq_ok.mpr hv]
  simp only [ok_bind, asStr, hcolon, fromHex_hex]

/-! ## The body -/

theorem lookup_body {obj : Members Str} {k : Str} (hid : k ≠ "id".toList)
    (hsig : k ≠ "sig".toList) : (body obj).lookup k = obj.lookup k := by
  induction obj with
  | nil => rfl
  | cons m obj ih =>
      rw [body, List.filter_cons]
      split
      · rw [List.lookup_cons, List.lookup_cons]
        split
        · rfl
        · exact ih
      · rename_i hm
        have hne : (k == m.1) = false := by
          rw [beq_eq_false_iff_ne]
          rintro rfl
          refine hm (decide_eq_true ?_)
          rw [List.mem_pair, not_or]
          exact ⟨hid, hsig⟩
        rw [List.lookup_cons, hne]
        exact ih

/-- On a body the reserved names make no difference. -/
theorem body_core {obj : Members Str} :
    (∀ m ∈ body obj, m.1 ∈ CORE) ↔ ∀ m ∈ body obj, m.1 ∈ schemaNames := by
  refine forall₂_congr fun m hm => ?_
  have hne := (List.mem_filter.mp hm).2
  simp only [List.mem_cons, List.not_mem_nil, or_false, not_or, decide_eq_true_eq] at hne
  rw [CORE_iff]
  simp only [hne, or_false]

theorem checkSchema_body {obj : Members Str} {x : Unit} :
    checkSchema (body obj) = .ok x ↔ Schema (body obj) := by
  rw [checkSchema_ok, body_core]
  exact ⟨fun h => ⟨h.2, h.1⟩, fun h => ⟨h.closed, h.toShape⟩⟩

theorem all_body {p : Binary64 → Prop} {q : Str → Prop} {obj : Members Str}
    (h : All p q (.obj obj)) : All p q (.obj (body obj)) := by
  obtain ⟨hn, hm⟩ : (obj.map Prod.fst).Nodup ∧ AllMembers p q obj := h
  have hsub : (body obj).Sublist obj := List.filter_sublist
  exact ⟨(hsub.map Prod.fst).nodup hn,
    allMembers_iff.mpr fun m hmem => allMembers_iff.mp hm m (hsub.mem hmem)⟩

theorem distinct_body {obj : Members Str} (h : Distinct (.obj obj)) : Distinct (.obj (body obj)) :=
  all_body h

theorem otherVersion_body {obj : Members Str} : OtherVersion (body obj) ↔ OtherVersion obj := by
  rw [OtherVersion, OtherVersion, Has, lookup_body (by decide) (by decide)]
  rfl

theorem stringMember_ok {d : Members Str} {k s : Str} {e : Exn} :
    stringMember d k e = .ok s ↔ d.lookup k = some (.str s) := by
  rw [stringMember]
  split
  · rename_i t ht
    rw [ht, Option.some_inj, Json.str.injEq]
    exact ⟨Except.ok.inj, congrArg Except.ok⟩
  · rename_i hno
    exact ⟨nofun, fun h => absurd h (hno s)⟩

theorem raises_stringMember {d : Members Str} {k : Str} {s : Stage} {r : Reason} :
    Raises IsSpp (stringMember d k (.sppError s r)) := by
  rw [stringMember]
  split
  · exact .pure _
  · exact .error (isSpp s r)

/-! ## The verdict -/

section
variable {I : Imports} {text : Json Str → Str} {verifies : Bytes → Bytes → Bytes → Bool}

/-- The canonicaliser returns a text on every value whose objects have distinct
names, and the signature check a verdict. -/
structure Returns (I : Imports) (text : Json Str → Str)
    (verifies : Bytes → Bytes → Bytes → Bool) : Prop where
  canonicalize : ∀ v, Distinct v → I.canonicalize v = .ok (text v)
  canonicalizeBytes : ∀ v, Distinct v → I.canonicalizeBytes v = .ok (Unicode.utf8 (text v))
  verify : ∀ a s d, I.verify a s d = .ok (verifies a s d)

/-- The record of a valid assertion. -/
def recordOf (text : Json Str → Str) (sha256 : Bytes → Digest) (obj : Members Str) : Record where
  id := idText (digest (fun v => Unicode.utf8 (text v)) sha256 obj)
  units := unitsOf (fun v => Unicode.utf8 (text v)) obj
  target_hex := fmt064x (target (unitsOf (fun v => Unicode.utf8 (text v)) obj))
  jcs := text (.obj (body obj))
  sig := match obj.lookup "sig".toList with
    | some (.str s) => s
    | _ => []
  digest_hex := hex (digest (fun v => Unicode.utf8 (text v)) sha256 obj).1

theorem checkIdentity_ok {obj : Members Str} {ident : Str} {x : Unit} :
    checkIdentity obj ident = .ok x ↔ obj.lookup "id".toList = some (.str ident) := by
  simp only [checkIdentity, bind_eq_ok_iff, stringMember_ok, raiseIf_eq_ok, not_not]
  constructor
  · rintro ⟨_, h, rfl⟩
    exact h
  · exact fun h => ⟨ident, h, rfl⟩

theorem checkWork_ok {u : Members Str} (hs : Shape u) {n : Nat} (hn : n ≤ 2 ^ 53) {d : Digest}
    {r : Nat × Nat} :
    checkWork u n d.1 = .ok r ↔
      digestValue d * units u n * 65536 ≤ 2 ^ 256 - 1 ∧ r = (units u n, target (units u n)) := by
  have hpos := units_pos u n
  rw [checkWork, workUnits_eq hs hn, ok_bind, targetForUnits_eq hpos, ok_bind, bind_eq_ok_iff,
    ← le_target hpos, digestValue_eq]
  constructor
  · rintro ⟨_, h, hr⟩
    rw [raiseIf_eq_ok, gt_iff_lt, not_lt] at h
    exact ⟨h, (Except.ok.inj hr).symm⟩
  · rintro ⟨h, rfl⟩
    exact ⟨(), raiseIf_eq_ok.mpr (not_lt.mpr h), rfl⟩

theorem checkSignature_ok (hI : Returns I text verifies) {obj u : Members Str} {d : Bytes}
    {key : Bytes} (hkey : Has u "actor".toList fun v => Tagged "ed25519:".toList v key) {s : Str} :
    checkSignature I obj u d = .ok s ↔ ∃ sig, obj.lookup "sig".toList = some (.str (hex sig)) ∧
      sig.length = 64 ∧ verifies key sig d = true ∧ s = hex sig := by
  rw [checkSignature, actorKey_eq hkey]
  simp only [bind_eq_ok_iff, stringMember_ok, raiseIf_eq_ok, Bool.not_eq_false, SIG_iff,
    ok_bind, hI.verify, exists_const]
  constructor
  · rintro ⟨s', hs', ⟨sig, hlen, rfl⟩, sig', hsig', hver, hs⟩
    rw [fromHex_hex] at hsig'
    obtain rfl := Except.ok.inj hsig'
    exact ⟨sig, hs', hlen, hver, (Except.ok.inj hs).symm⟩
  · rintro ⟨sig, hs', hlen, hver, rfl⟩
    exact ⟨_, hs', ⟨sig, hlen, rfl⟩, sig, fromHex_hex sig, hver, rfl⟩

theorem raises_checkSignature (hI : Returns I text verifies) {obj u : Members Str} {d : Bytes}
    {key : Bytes} (hkey : Has u "actor".toList fun v => Tagged "ed25519:".toList v key) :
    Raises IsSpp (checkSignature I obj u d) := by
  rw [checkSignature, actorKey_eq hkey]
  refine raises_stringMember.bind fun sig _ => raises_spp.bind fun _ hsig => ?_
  rw [raiseIf_eq_ok, Bool.not_eq_false, SIG_iff] at hsig
  obtain ⟨bytes, -, rfl⟩ := hsig
  rw [ok_bind, fromHex_hex, ok_bind, hI.verify, ok_bind]
  exact raises_spp.bind fun _ _ => .pure _

theorem size_le {n : Nat} {e : Exn} {x : Unit} :
    raiseIf (n > MAX_JCS) e = .ok x ↔ n ≤ 1048576 := by
  rw [raiseIf_eq_ok, MAX_JCS, gt_iff_lt, not_lt]

/-- **The tail of the validator decides the rest of validity.** -/
theorem validateBody_ok (hI : Returns I text verifies) {obj : Members Str}
    (hd : Distinct (.obj obj)) (hs : Schema (body obj)) {r : Record} :
    validateBody I obj (body obj) = .ok r ↔
      Valid (fun v => Unicode.utf8 (text v)) I.sha256 (fun a s d => verifies a s d = true) obj ∧
        r = recordOf text I.sha256 obj := by
  obtain ⟨a, ha, key, hkey⟩ := hs.actor
  have hactor : Has (body obj) "actor".toList fun v => Tagged "ed25519:".toList v key :=
    ⟨a, ha, hkey⟩
  have hbig : 1048576 ≤ 2 ^ 53 := by decide
  rw [validateBody, hI.canonicalizeBytes _ (distinct_body hd), ok_bind, bind_eq_ok_iff]
  constructor
  · rintro ⟨_, hsize, h⟩
    rw [size_le] at hsize
    obtain ⟨_, hid, h⟩ := bind_eq_ok_iff.mp h
    obtain ⟨w, hw, h⟩ := bind_eq_ok_iff.mp h
    obtain ⟨s, hs', h⟩ := bind_eq_ok_iff.mp h
    rw [checkIdentity_ok] at hid
    obtain ⟨hwork, rfl⟩ := (checkWork_ok hs.toShape (hsize.trans hbig)).mp hw
    obtain ⟨sig, hsig, hlen, hver, rfl⟩ := (checkSignature_ok hI hactor).mp hs'
    rw [hI.canonicalize _ (distinct_body hd), ok_bind] at h
    refine ⟨⟨hs, hsize, hid, hwork, key, sig, hsig, hlen, hactor, hver⟩, ?_⟩
    rw [← Except.ok.inj h, recordOf, hsig]
    rfl
  · rintro ⟨⟨-, hsize, hid, hwork, key', sig, hsig, hlen, ⟨a', ha', hkey'⟩, hver⟩, rfl⟩
    obtain rfl := Option.some.inj (ha.symm.trans ha')
    obtain rfl := tagged_inj hkey hkey'
    refine ⟨(), size_le.mpr hsize, bind_eq_ok_iff.mpr ⟨(), checkIdentity_ok.mpr hid, ?_⟩⟩
    refine bind_eq_ok_iff.mpr
      ⟨_, (checkWork_ok hs.toShape (hsize.trans hbig)).mpr ⟨hwork, rfl⟩, ?_⟩
    refine bind_eq_ok_iff.mpr
      ⟨_, (checkSignature_ok hI hactor).mpr ⟨sig, hsig, hlen, hver, rfl⟩, ?_⟩
    rw [hI.canonicalize _ (distinct_body hd), ok_bind, recordOf, hsig]
    rfl

theorem raises_validateBody (hI : Returns I text verifies) {obj : Members Str}
    (hd : Distinct (.obj obj)) (hs : Schema (body obj)) : Raises IsSpp (validateBody I obj (body obj)) := by
  obtain ⟨a, ha, key, hkey⟩ := hs.actor
  have hbig : 1048576 ≤ 2 ^ 53 := by decide
  rw [validateBody, hI.canonicalizeBytes _ (distinct_body hd), ok_bind]
  refine raises_spp.bind fun _ hsize => ?_
  rw [size_le] at hsize
  refine (raises_stringMember.bind fun _ _ => raises_spp).bind fun _ _ => ?_
  refine Raises.bind ?_ fun w _ => ?_
  · rw [checkWork, workUnits_eq hs.toShape (hsize.trans hbig), ok_bind,
      targetForUnits_eq (units_pos _ _), ok_bind]
    exact raises_spp.bind fun _ _ => .pure _
  · refine (raises_checkSignature hI ⟨a, ha, hkey⟩).bind fun s _ => ?_
    rw [hI.canonicalize _ (distinct_body hd), ok_bind]
    exact .pure _

/-! ## The whole validator -/

theorem isFloat_eq_some {v : Json Str} {x : Binary64} : isFloat v = some x ↔ v = .num x := by
  cases v with
  | num y => rw [isFloat, Option.some_inj, Json.num.injEq]
  | _ => simp [isFloat]

/-- The first test of `validate_object`. -/
theorem otherVersion_iff {obj : Members Str} :
    (∃ x, (obj.lookup "v".toList).bind isFloat = some x ∧ x ≠ oneFloat) ↔ OtherVersion obj := by
  simp only [OtherVersion, Has, Option.bind_eq_some_iff, isFloat_eq_some]
  constructor
  · rintro ⟨x, ⟨v, hv, rfl⟩, hx⟩
    exact ⟨_, hv, x, rfl, hx⟩
  · rintro ⟨_, hv, x, rfl, hx⟩
    exact ⟨x, ⟨_, hv, rfl⟩, hx⟩

theorem valid_version {canon : Json Str → Bytes} {sha256 : Bytes → Digest}
    {P : Bytes → Bytes → Bytes → Prop} {obj : Members Str} (h : Valid canon sha256 P obj) :
    obj.lookup "v".toList = some (.num one) := by
  rw [← lookup_body (k := "v".toList) (by decide) (by decide)]
  exact h.schema.version

theorem not_otherVersion {obj : Members Str} (h : obj.lookup "v".toList = some (.num one)) :
    ¬ OtherVersion obj := by
  rintro ⟨v, hv, x, rfl, hx⟩
  exact hx (Json.num.inj (Option.some.inj (hv.symm.trans h)))

/-- **`validate_object` on another version.** -/
theorem validateObject_other {obj : Members Str} (h : OtherVersion obj) :
    validateObject I obj = .error (.unsupportedError .version .unknownV) := by
  rw [validateObject, raiseIf, if_pos (otherVersion_iff.mpr h)]
  rfl

theorem validateObject_eq {obj : Members Str} (h : ¬ OtherVersion obj) :
    validateObject I obj = checkSchema (body obj) >>= fun _ => validateBody I obj (body obj) := by
  rw [validateObject, raiseIf, if_neg (mt otherVersion_iff.mp h)]
  rfl

/-- **`validate_object` returns exactly for the valid assertions**, with their record. -/
theorem validateObject_ok (hI : Returns I text verifies) {obj : Members Str}
    (hd : Distinct (.obj obj)) {r : Record} :
    validateObject I obj = .ok r ↔
      Valid (fun v => Unicode.utf8 (text v)) I.sha256 (fun a s d => verifies a s d = true) obj ∧
        r = recordOf text I.sha256 obj := by
  by_cases h : OtherVersion obj
  · rw [validateObject_other h]
    exact ⟨nofun, fun ⟨hv, _⟩ => absurd h (not_otherVersion (valid_version hv))⟩
  · rw [validateObject_eq h, bind_eq_ok_iff]
    constructor
    · rintro ⟨_, hs, hbody⟩
      exact (validateBody_ok hI hd (checkSchema_body.mp hs)).mp hbody
    · rintro ⟨hv, hr⟩
      exact ⟨(), checkSchema_body.mpr hv.schema, (validateBody_ok hI hd hv.schema).mpr ⟨hv, hr⟩⟩

/-- **Nothing else is raised**: an `SppError`, except for another version. -/
theorem raises_validateObject (hI : Returns I text verifies) {obj : Members Str}
    (hd : Distinct (.obj obj)) (h : ¬ OtherVersion obj) : Raises IsSpp (validateObject I obj) := by
  rw [validateObject_eq h]
  refine Raises.bind ?_ fun _ hs => raises_validateBody hI hd (checkSchema_body.mp hs)
  refine (raises_checkSchema (body obj)).mono fun e he => he.resolve_right ?_
  exact fun ⟨_, hother⟩ => h (otherVersion_body.mp hother)

end

end SwarmPointer.Protocol
