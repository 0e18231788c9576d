import SwarmPointer.Protocol.Grammar

/-!
# Protocol — `check_schema` is the schema

Each test of `check_schema` returns exactly when its rule holds, and raises
`SppError` otherwise; `UnsupportedError` comes from the version test alone.

`check_schema` looks members up and tests their types one after the other, and
which test fails first decides the stage and the reason of the error. The
lemmas follow its helpers, one pair for each: when the helper returns, and what
it raises. Both directions go through inversion of `>>=`, so no lemma unfolds a
helper that has one.
-/

namespace SwarmPointer.Protocol

open Except Json Python Python.Protocol

/-- An `SppError` that is not an `UnsupportedError`. -/
def IsSpp (e : Exn) : Prop := ∃ s r, e = .sppError s r

theorem isSpp (s : Stage) (r : Reason) : IsSpp (.sppError s r) := ⟨s, r, rfl⟩

theorem raises_schemaError {α : Type} : Raises IsSpp (schemaError : Py α) :=
  .error (isSpp _ _)

theorem raises_spp {p : Prop} [Decidable p] {s : Stage} {r : Reason} :
    Raises IsSpp (raiseIf p (.sppError s r)) :=
  .raiseIf fun _ => isSpp s r

theorem getItem_eq_ok {V : Type} {ms : List (Str × V)} {k : Str} {v : V} :
    getItem ms k = .ok v ↔ ms.lookup k = some v := by
  rw [getItem]
  cases ms.lookup k <;> simp

theorem contains_iff {V : Type} {ms : List (Str × V)} {k : Str} :
    contains ms k = true ↔ ∃ v, ms.lookup k = some v := by
  rw [contains, Option.isSome_iff_exists]

theorem contains_eq_false {V : Type} {ms : List (Str × V)} {k : Str} :
    contains ms k = false ↔ ms.lookup k = none := by
  rw [contains, Option.isSome_eq_false_iff, Option.isNone_iff_eq_none]

theorem not_contains_iff {V : Type} {ms : List (Str × V)} {k : Str} :
    ¬ contains ms k = true ↔ Absent ms k := by
  rw [Bool.not_eq_true, contains_eq_false, Absent]

theorem not_absent {V : Type} {ms : List (Str × V)} {k : Str} {v : V}
    (h : ms.lookup k = some v) : ¬ Absent ms k := by
  rw [Absent, h]
  exact nofun

/-- `d[k]` after `k in d`. -/
theorem getItem_of_contains {V : Type} {ms : List (Str × V)} {k : Str}
    (h : contains ms k = true) : ∃ v, ms.lookup k = some v ∧ getItem ms k = .ok v := by
  obtain ⟨v, hv⟩ := contains_iff.mp h
  exact ⟨v, hv, getItem_eq_ok.mpr hv⟩

theorem raises_getItem {V : Type} {P : Exn → Prop} {ms : List (Str × V)} {k : Str}
    (h : contains ms k = true) : Raises P (getItem ms k) := by
  obtain ⟨v, -, hv⟩ := getItem_of_contains h
  rw [hv]
  exact .pure v

/-! ## Identifiers -/

theorem checkSha256Id_ok {v : Json Str} {x : Unit} : checkSha256Id v = .ok x ↔ IsSha256Id v := by
  cases v with
  | str s =>
      rw [checkSha256Id, raiseIf_eq_ok, Bool.not_eq_false, SHA256_ID, taggedHex_iff]
      simp [IsSha256Id, Tagged]
  | _ => simp [checkSha256Id, IsSha256Id, Tagged]

theorem raises_checkSha256Id (v : Json Str) : Raises IsSpp (checkSha256Id v) := by
  cases v with
  | str s => exact raises_spp
  | _ => exact .error (isSpp _ _)

theorem checkActor_ok {v : Json Str} {x : Unit} :
    checkActor v = .ok x ↔ ∃ key, Tagged "ed25519:".toList v key := by
  cases v with
  | str s =>
      rw [checkActor, raiseIf_eq_ok, Bool.not_eq_false, ACTOR_ID, taggedHex_iff]
      simp [Tagged]
  | _ => simp [checkActor, Tagged]

theorem raises_checkActor (v : Json Str) : Raises IsSpp (checkActor v) := by
  cases v with
  | str s => exact raises_spp
  | _ => exact .error (isSpp _ _)

/-! ## Numbers -/

theorem checkVersion_ok {v : Json Str} {x : Unit} : checkVersion v = .ok x ↔ v = .num one := by
  cases v with
  | num y =>
      rw [checkVersion, isFloat]
      simp only [raiseIf_eq_ok, not_not, Json.num.injEq]
      exact Iff.rfl
  | _ => simp [checkVersion, isFloat, schemaError]

theorem checkCreated_ok {v : Json Str} {x : Unit} : checkCreated v = .ok x ↔ IsCreated v := by
  have hmax : (MAX_CREATED : Int) = 2 ^ 53 - 1 := by decide
  cases v with
  | num y =>
      simp only [checkCreated, isIntValue, IsCreated, hmax]
      by_cases hy : y.isInteger = true
      · simp [hy]
      · simp [hy]
  | _ => simp [checkCreated, isIntValue, IsCreated]

theorem raises_checkCreated (v : Json Str) : Raises IsSpp (checkCreated v) := by
  rw [checkCreated]
  split
  · exact .error (isSpp _ _)
  · exact raises_spp

theorem checkNonce_ok {v : Json Str} {x : Unit} : checkNonce v = .ok x ↔ IsNonce v := by
  cases v with
  | str s =>
      rw [checkNonce]
      simp only [bind_eq_ok_iff, raiseIf_eq_ok, Bool.not_eq_false, gt_iff_lt, not_lt, IsNonce,
        Json.str.injEq, exists_const]
      exact NONCE_iff
  | _ => simp [checkNonce, IsNonce]

theorem raises_checkNonce (v : Json Str) : Raises IsSpp (checkNonce v) := by
  cases v with
  | str s =>
      refine raises_spp.bind fun _ hs => ?_
      rw [raiseIf_eq_ok, Bool.not_eq_false] at hs
      obtain ⟨n, rfl⟩ := NONCE_numeral hs
      rw [int_toDigits]
      exact raises_spp
  | _ => exact .error (isSpp _ _)

/-! ## References -/

theorem checkLocator_ok {v : Json Str} {x : Unit} : checkLocator v = .ok x ↔ IsLocator v := by
  cases v with
  | str s =>
      rw [checkLocator, raiseIf_eq_ok, IsLocator]
      simp [MAX_LOCATOR_BYTES]
  | _ => simp [checkLocator, IsLocator, schemaError]

theorem raises_checkLocator (v : Json Str) : Raises IsSpp (checkLocator v) := by
  cases v with
  | str s => exact raises_spp
  | _ => exact raises_schemaError

theorem checkRef_ok {v : Json Str} {x : Unit} : checkRef v = .ok x ↔ IsRef v := by
  cases v with
  | obj ms =>
      simp only [checkRef, bind_eq_ok_iff, raiseIf_eq_ok, not_not, checkSha256Id_ok, getItem_eq_ok,
        contains_iff]
      constructor
      · rintro ⟨_, ⟨hclosed, -, -⟩, h, hh, _, hid, l, hl, hlocs⟩
        refine ⟨ms, rfl, hclosed, ⟨h, hh, hid⟩, l, hl, ?_⟩
        cases l with
        | arr ls =>
            rw [bind_eq_ok_iff] at hlocs
            obtain ⟨_, hlen, hall⟩ := hlocs
            rw [raiseIf_eq_ok, MAX_LOCATORS, not_lt] at hlen
            exact ⟨ls, rfl, hlen, fun l hl => checkLocator_ok.mp (each_eq_ok.mp hall l hl)⟩
        | _ => cases hlocs
      · rintro ⟨_, ⟨rfl⟩, hclosed, ⟨h, hh, hid⟩, l, hl, ls, rfl, hlen, hall⟩
        refine ⟨(), ⟨hclosed, ⟨h, hh⟩, _, hl⟩, h, hh, (), hid, _, hl, ?_⟩
        rw [bind_eq_ok_iff]
        refine ⟨(), ?_, each_eq_ok.mpr fun l hl => checkLocator_ok.mpr (hall l hl)⟩
        rw [raiseIf_eq_ok, MAX_LOCATORS]
        omega
  | _ => simp [checkRef, IsRef, schemaError]

theorem raises_checkRef (v : Json Str) : Raises IsSpp (checkRef v) := by
  cases v with
  | obj ms =>
      refine raises_spp.bind fun _ hkeys => ?_
      rw [raiseIf_eq_ok, not_not] at hkeys
      obtain ⟨-, hhash, hlocs⟩ := hkeys
      refine (raises_getItem hhash).bind fun h _ => ?_
      refine (raises_checkSha256Id h).bind fun _ _ => ?_
      refine (raises_getItem hlocs).bind fun l _ => ?_
      cases l with
      | arr ls => exact raises_spp.bind fun _ _ => .each fun l _ => raises_checkLocator l
      | _ => exact raises_schemaError
  | _ => exact raises_schemaError

/-! ## The halves of the schema -/

theorem checkExt_ok {u : Members Str} {x : Unit} :
    checkExt u = .ok x ↔ Optional u "ext".toList fun v => ∃ ms, v = .obj ms := by
  rw [checkExt, Optional]
  by_cases h : contains u "ext".toList = true
  · obtain ⟨v, hv, hget⟩ := getItem_of_contains h
    rw [if_pos h, hget, hv, bind_eq_ok_iff]
    cases v <;> simp [schemaError]
  · rw [if_neg h, contains_eq_false.mp (Bool.not_eq_true _ ▸ h)]
    simp

theorem raises_checkExt (u : Members Str) : Raises IsSpp (checkExt u) := by
  rw [checkExt]
  split
  · rename_i h
    refine (raises_getItem h).bind fun v _ => ?_
    cases v with
    | obj ms => exact .pure ()
    | _ => exact raises_schemaError
  · exact .pure ()

theorem checkParentList_ok {ps : List (Json Str)} {x : Unit} :
    (do
      raiseIf (ps.length > MAX_PARENTS) (.sppError .length .tooManyParents)
      each checkSha256Id ps : Py Unit) = .ok x ↔ ps.length ≤ 1024 ∧ ∀ p ∈ ps, IsSha256Id p := by
  simp only [bind_eq_ok_iff, raiseIf_eq_ok, each_eq_ok, checkSha256Id_ok, MAX_PARENTS, not_lt,
    exists_const, gt_iff_lt]

theorem checkParents_ok {u : Members Str} {x : Unit} :
    checkParents u = .ok x ↔ Optional u "parents".toList AreParents := by
  rw [checkParents, Optional]
  by_cases h : contains u "parents".toList = true
  · obtain ⟨v, hv, hget⟩ := getItem_of_contains h
    rw [if_pos h, hget, hv, bind_eq_ok_iff]
    cases v with
    | arr ps => simp [AreParents, checkParentList_ok]
    | _ => simp [schemaError, AreParents]
  · rw [if_neg h, contains_eq_false.mp (Bool.not_eq_true _ ▸ h)]
    simp

theorem raises_checkParents (u : Members Str) : Raises IsSpp (checkParents u) := by
  rw [checkParents]
  split
  · rename_i h
    refine (raises_getItem h).bind fun v _ => ?_
    cases v with
    | arr ps => exact raises_spp.bind fun _ _ => .each fun p _ => raises_checkSha256Id p
    | _ => exact raises_schemaError
  · exact .pure ()

theorem checkPointer_ok {u : Members Str} {x : Unit} :
    checkPointer u = .ok x ↔ Absent u "descriptor".toList ∧ Has u "channel".toList IsSha256Id ∧
      Has u "ref".toList IsRef ∧ Optional u "parents".toList AreParents := by
  simp only [checkPointer, bind_eq_ok_iff, raiseIf_eq_ok, not_or, not_contains_iff,
    getItem_eq_ok, checkSha256Id_ok, checkRef_ok, checkParents_ok]
  constructor
  · rintro ⟨_, ⟨habs, -, -⟩, c, hc, _, hid, r, hr, _, href, hp⟩
    exact ⟨habs, ⟨c, hc, hid⟩, ⟨r, hr, href⟩, hp⟩
  · rintro ⟨habs, ⟨c, hc, hid⟩, ⟨r, hr, href⟩, hp⟩
    exact ⟨(), ⟨habs, not_absent hc, not_absent hr⟩, c, hc, (), hid, r, hr, (), href, hp⟩

theorem raises_checkPointer (u : Members Str) : Raises IsSpp (checkPointer u) := by
  refine raises_spp.bind fun _ hkeys => ?_
  rw [raiseIf_eq_ok, not_or, not_or, not_not, not_not] at hkeys
  refine (raises_getItem hkeys.2.1).bind fun c _ => ?_
  refine (raises_checkSha256Id c).bind fun _ _ => ?_
  refine (raises_getItem hkeys.2.2).bind fun r _ => ?_
  exact (raises_checkRef r).bind fun _ _ => raises_checkParents u

theorem checkChannel_ok {u : Members Str} {x : Unit} :
    checkChannel u = .ok x ↔ Absent u "channel".toList ∧ Absent u "parents".toList ∧
      Absent u "ref".toList ∧ Optional u "descriptor".toList IsRef := by
  simp only [checkChannel, bind_eq_ok_iff, raiseIf_eq_ok, List.exists_mem_cons_iff,
    List.not_mem_nil, false_and, exists_false, or_false, not_or, Bool.not_eq_true,
    contains_eq_false, exists_const, and_assoc]
  refine and_congr Iff.rfl (and_congr Iff.rfl (and_congr Iff.rfl ?_))
  rw [Optional]
  by_cases h : contains u "descriptor".toList = true
  · obtain ⟨v, hv, hget⟩ := getItem_of_contains h
    rw [if_pos h, hget, hv, bind_eq_ok_iff]
    simp [checkRef_ok]
  · rw [if_neg h, contains_eq_false.mp (Bool.not_eq_true _ ▸ h)]
    simp

theorem raises_checkChannel (u : Members Str) : Raises IsSpp (checkChannel u) := by
  refine raises_spp.bind fun _ _ => ?_
  split
  · rename_i h
    exact (raises_getItem h).bind fun v _ => raises_checkRef v
  · exact .pure ()

/-! ## The schema -/

/-- The reserved names in addition to those of the schema. -/
theorem CORE_iff {k : Str} :
    k ∈ CORE ↔ k ∈ schemaNames ∨ k = "id".toList ∨ k = "sig".toList := by
  have hperm : CORE.Perm (schemaNames ++ ["id".toList, "sig".toList]) := by decide
  rw [hperm.mem_iff, List.mem_append, List.mem_pair]

theorem matches_pointer {t : Json Str} :
    (t matches .str ['p', 'o', 'i', 'n', 't', 'e', 'r']) = true ↔ t = .str "pointer".toList := by
  constructor
  · intro h
    split at h
    · rfl
    · cases h
  · rintro rfl
    rfl

theorem matches_channel {t : Json Str} :
    (t matches .str ['c', 'h', 'a', 'n', 'n', 'e', 'l']) = true ↔ t = .str "channel".toList := by
  constructor
  · intro h
    split at h
    · rfl
    · cases h
  · rintro rfl
    rfl

/-- The two halves, after the test of `type`. -/
def checkKind (u : Members Str) (t : Json Str) : Py Unit :=
  if t matches .str ['p', 'o', 'i', 'n', 't', 'e', 'r'] then checkPointer u else checkChannel u

theorem checkKind_pointer (u : Members Str) :
    checkKind u (.str "pointer".toList) = checkPointer u := rfl

theorem checkKind_channel (u : Members Str) :
    checkKind u (.str "channel".toList) = checkChannel u := rfl

theorem checkKind_ok {u : Members Str} {t : Json Str} {x : Unit}
    (ht : u.lookup "type".toList = some t) :
    (t = .str "channel".toList ∨ t = .str "pointer".toList) ∧ checkKind u t = .ok x ↔
      IsPointer u ∨ IsChannel u := by
  rw [IsPointer, IsChannel, ht, Option.some_inj, Option.some_inj]
  constructor
  · rintro ⟨rfl | rfl, h⟩
    · rw [checkKind_channel, checkChannel_ok] at h
      exact .inr ⟨rfl, h⟩
    · rw [checkKind_pointer, checkPointer_ok] at h
      exact .inl ⟨rfl, h⟩
  · rintro (⟨rfl, h⟩ | ⟨rfl, h⟩)
    · rw [checkKind_pointer, checkPointer_ok]
      exact ⟨.inr rfl, h⟩
    · rw [checkKind_channel, checkChannel_ok]
      exact ⟨.inl rfl, h⟩

theorem checkType_ok {t : Json Str} {x : Unit} :
    raiseIf (¬ (t matches .str ['c', 'h', 'a', 'n', 'n', 'e', 'l'] ∨
      t matches .str ['p', 'o', 'i', 'n', 't', 'e', 'r'])) (Exn.sppError .schema .unknownType) =
        .ok x ↔ t = .str "channel".toList ∨ t = .str "pointer".toList := by
  rw [raiseIf_eq_ok, not_not, matches_channel, matches_pointer]

/-- **`check_schema` returns exactly on the shape, with no unknown member.** -/
theorem checkSchema_ok {u : Members Str} {x : Unit} :
    checkSchema u = .ok x ↔ (∀ m ∈ u, m.1 ∈ CORE) ∧ Shape u := by
  rw [checkSchema]
  simp only [bind_eq_ok_iff, getItem_eq_ok, checkVersion_ok, checkActor_ok, checkCreated_ok,
    checkNonce_ok, checkExt_ok]
  constructor
  · rintro ⟨_, hclosed, _, -, v, hv, _, hversion, t, ht, _, htype, a, ha, _, hactor, c, hc, _,
      hcreated, n, hn, _, hnonce, _, hext, hkind⟩
    rw [raiseIf_eq_ok] at hclosed
    refine ⟨?_, ⟨hversion ▸ hv, ⟨a, ha, hactor⟩, ⟨c, hc, hcreated⟩, ⟨n, hn, hnonce⟩, hext, ?_⟩⟩
    · intro m hm
      by_contra hno
      exact hclosed ⟨m, hm, hno⟩
    · exact (checkKind_ok ht).mp ⟨checkType_ok.mp htype, hkind⟩
  · rintro ⟨hclosed, hversion, ⟨a, ha, hactor⟩, ⟨c, hc, hcreated⟩, ⟨n, hn, hnonce⟩, hext, hkind⟩
    obtain ⟨t, ht⟩ : ∃ t, u.lookup "type".toList = some t := by
      rcases hkind with hk | hk <;> exact ⟨_, hk.1⟩
    obtain ⟨htype, hbranch⟩ := (checkKind_ok (x := x) ht).mpr hkind
    refine ⟨(), ?_, (), ?_, _, hversion, (), rfl, t, ht, (), checkType_ok.mpr htype, a, ha, (), hactor, c, hc, (),
      hcreated, n, hn, (), hnonce, (), hext, hbranch⟩
    · rw [raiseIf_eq_ok]
      rintro ⟨m, hm, hno⟩
      exact hno (hclosed m hm)
    · simp only [raiseIf_eq_ok, List.exists_mem_cons_iff, List.not_mem_nil, false_and,
        exists_false, or_false, not_contains_iff, not_or]
      exact ⟨not_absent hversion, not_absent ht, not_absent ha, not_absent hc, not_absent hn⟩

/-- `UnsupportedError` comes from a numeric version other than 1. -/
def VersionRaise (u : Members Str) (e : Exn) : Prop :=
  IsSpp e ∨ e = .unsupportedError .version .unknownV ∧ OtherVersion u

theorem raises_checkVersion {u : Members Str} {v : Json Str} (hv : u.lookup "v".toList = some v) :
    Raises (VersionRaise u) (checkVersion v) := by
  cases v with
  | num x => exact .raiseIf fun hx => .inr ⟨rfl, _, hv, x, rfl, hx⟩
  | _ => exact .error (.inl (isSpp _ _))

/-- **`check_schema` raises `SppError`**, and `UnsupportedError` for a version only. -/
theorem raises_checkSchema (u : Members Str) : Raises (VersionRaise u) (checkSchema u) := by
  have spp : ∀ {x : Py Unit}, Raises IsSpp x → Raises (VersionRaise u) x := fun h =>
    h.mono fun _ he => .inl he
  refine (spp raises_spp).bind fun _ _ => (spp raises_spp).bind fun _ hreq => ?_
  rw [raiseIf_eq_ok, List.exists_mem_cons_iff] at hreq
  simp only [List.exists_mem_cons_iff, List.not_mem_nil, false_and, exists_false, or_false,
    not_or, not_not] at hreq
  obtain ⟨hv, ht, ha, hc, hn⟩ := hreq
  refine (raises_getItem hv).bind fun v hv => ?_
  refine (raises_checkVersion (getItem_eq_ok.mp hv)).bind fun _ _ => ?_
  refine (raises_getItem ht).bind fun t _ => (spp raises_spp).bind fun _ _ => ?_
  refine (raises_getItem ha).bind fun a _ => (spp (raises_checkActor a)).bind fun _ _ => ?_
  refine (raises_getItem hc).bind fun c _ => (spp (raises_checkCreated c)).bind fun _ _ => ?_
  refine (raises_getItem hn).bind fun n _ => (spp (raises_checkNonce n)).bind fun _ _ => ?_
  refine (spp (raises_checkExt u)).bind fun _ _ => ?_
  split
  · exact spp (raises_checkPointer u)
  · exact spp (raises_checkChannel u)

end SwarmPointer.Protocol
