import SwarmPointer.Protocol.Verdict

/-!
# Protocol — the order of members is not observed

Every function of the validator gives the same result, exceptions included,
on a value and on the value with its members sorted. Two texts of one value
therefore have one outcome.

Look-ups do not see the order because names are distinct. What could see it is
the count of locators and parents, which is inside one member, and the
canonical text, which sorts. The result is stated for two byte strings whose
values are equal up to order at every depth.
-/

namespace SwarmPointer.Protocol

open Except Jcs Json JsonInput Rfc8785 Python Python.JsonInput Python.Protocol

/-- The members of an object in the order of their names, at every depth. -/
def ordered (u : Members Str) : Members Str := sortByName (sortedMembers u)

theorem sorted_obj (u : Members Str) : sorted (.obj u) = .obj (ordered u) := by
  rw [sorted, ordered]

theorem ordered_perm (u : Members Str) :
    (ordered u).Perm (u.map fun m => (m.1, sorted m.2)) := by
  rw [ordered, sortedMembers_eq]
  exact sortByName_perm _

theorem ordered_names (u : Members Str) : ((ordered u).map Prod.fst).Perm (u.map Prod.fst) := by
  have h := (ordered_perm u).map Prod.fst
  rwa [List.map_map] at h

theorem forall_ordered {u : Members Str} {p : Str → Prop} :
    (∀ m ∈ ordered u, p m.1) ↔ ∀ m ∈ u, p m.1 := by
  have h : ∀ v : Members Str, (∀ m ∈ v, p m.1) ↔ ∀ k ∈ v.map Prod.fst, p k := fun v =>
    List.forall_mem_map.symm
  rw [h, h]
  exact forall_congr' fun k => by rw [(ordered_names u).mem_iff]

theorem exists_ordered {u : Members Str} {p : Str → Prop} :
    (∃ m ∈ ordered u, p m.1) ↔ ∃ m ∈ u, p m.1 := by
  have h := not_congr (forall_ordered (u := u) (p := fun k => ¬ p k))
  push Not at h
  exact h

theorem lookup_map_snd {V W : Type} (f : V → W) (ms : List (Str × V)) (k : Str) :
    (ms.map fun m => (m.1, f m.2)).lookup k = (ms.lookup k).map f := by
  induction ms with
  | nil => rfl
  | cons m ms ih =>
      rw [List.map_cons, List.lookup_cons, List.lookup_cons]
      split
      · rfl
      · exact ih

theorem lookup_ordered {u : Members Str} (h : (u.map Prod.fst).Nodup) (k : Str) :
    (ordered u).lookup k = (u.lookup k).map sorted := by
  have hnodup := (ordered_names u).nodup_iff.mpr h
  rw [lookup_perm (ordered_perm u) hnodup, lookup_map_snd]

theorem distinct_names {u : Members Str} (h : Distinct (.obj u)) : (u.map Prod.fst).Nodup := h.1

theorem distinct_lookup {u : Members Str} (h : Distinct (.obj u)) {k : Str} {v : Json Str}
    (hv : u.lookup k = some v) : Distinct v :=
  (allMembers_iff.mp h.2 _ ((lookup_eq_some h.1).mp hv)).2

theorem contains_ordered {u : Members Str} (h : Distinct (.obj u)) (k : Str) :
    contains (ordered u) k = contains u k := by
  rw [contains, contains, lookup_ordered h.1, Option.isSome_map]

/-- `d[k]`, and what is done with it. -/
theorem getItem_ordered {α : Type} {u : Members Str} (h : Distinct (.obj u)) {k : Str}
    {f g : Json Str → Py α} (hfg : ∀ v, Distinct v → f (sorted v) = g v) :
    getItem (ordered u) k >>= f = getItem u k >>= g := by
  rw [getItem, getItem, lookup_ordered h.1]
  cases hv : u.lookup k with
  | none => rfl
  | some v => exact hfg v (distinct_lookup h hv)

/-! ## The schema -/

theorem checkSha256Id_sorted (v : Json Str) : checkSha256Id (sorted v) = checkSha256Id v := by
  cases v <;> simp only [sorted, checkSha256Id]

theorem checkLocator_sorted (v : Json Str) : checkLocator (sorted v) = checkLocator v := by
  cases v <;> simp only [sorted, checkLocator]

theorem isFloat_sorted (v : Json Str) : isFloat (sorted v) = isFloat v := by
  cases v <;> simp only [sorted, isFloat]

theorem checkVersion_sorted (v : Json Str) : checkVersion (sorted v) = checkVersion v := by
  rw [checkVersion, checkVersion, isFloat_sorted]

theorem checkActor_sorted (v : Json Str) : checkActor (sorted v) = checkActor v := by
  cases v <;> simp only [sorted, checkActor]

theorem checkCreated_sorted (v : Json Str) : checkCreated (sorted v) = checkCreated v := by
  cases v <;> simp only [sorted, checkCreated, isIntValue]

theorem checkNonce_sorted (v : Json Str) : checkNonce (sorted v) = checkNonce v := by
  cases v <;> simp only [sorted, checkNonce]

theorem checkRef_sorted {v : Json Str} (h : Distinct v) : checkRef (sorted v) = checkRef v := by
  cases v with
  | obj ms =>
      rw [sorted_obj, checkRef, checkRef]
      refine bind_congr_ok (raiseIf_congr ?_ _) fun _ _ => ?_
      · rw [contains_ordered h, contains_ordered h]
        exact not_congr (and_congr_left'
          (forall_ordered (p := fun k => k = "hash".toList ∨ k = "locators".toList)))
      refine getItem_ordered h fun v _ => ?_
      rw [checkSha256Id_sorted]
      refine bind_congr_ok rfl fun _ _ => getItem_ordered h fun v _ => ?_
      cases v with
      | arr ls =>
          rw [sorted, sortedList_eq]
          simp only [List.length_map, each_map fun a _ => checkLocator_sorted a]
      | _ => simp only [sorted]
  | _ => simp only [sorted, checkRef]

theorem checkExt_ordered {u : Members Str} (h : Distinct (.obj u)) :
    checkExt (ordered u) = checkExt u := by
  rw [checkExt, checkExt, contains_ordered h]
  split
  · refine getItem_ordered h fun v _ => ?_
    cases v <;> simp only [sorted]
  · rfl

theorem checkParents_ordered {u : Members Str} (h : Distinct (.obj u)) :
    checkParents (ordered u) = checkParents u := by
  rw [checkParents, checkParents, contains_ordered h]
  split
  · refine getItem_ordered h fun v _ => ?_
    cases v with
    | arr ps =>
        rw [sorted, sortedList_eq]
        simp only [List.length_map, each_map fun a _ => checkSha256Id_sorted a]
    | _ => simp only [sorted]
  · rfl

theorem checkPointer_ordered {u : Members Str} (h : Distinct (.obj u)) :
    checkPointer (ordered u) = checkPointer u := by
  rw [checkPointer, checkPointer, checkParents_ordered h]
  simp only [contains_ordered h]
  refine bind_congr_ok rfl fun _ _ => getItem_ordered h fun v _ => ?_
  rw [checkSha256Id_sorted]
  refine bind_congr_ok rfl fun _ _ => getItem_ordered h fun v hv => ?_
  rw [checkRef_sorted hv]

theorem checkChannel_ordered {u : Members Str} (h : Distinct (.obj u)) :
    checkChannel (ordered u) = checkChannel u := by
  rw [checkChannel, checkChannel]
  simp only [contains_ordered h]
  refine bind_congr_ok rfl fun _ _ => ?_
  split
  · exact getItem_ordered h fun v hv => checkRef_sorted hv
  · rfl

theorem checkSchema_ordered {u : Members Str} (h : Distinct (.obj u)) :
    checkSchema (ordered u) = checkSchema u := by
  rw [checkSchema, checkSchema, checkExt_ordered h, checkPointer_ordered h, checkChannel_ordered h]
  simp only [contains_ordered h]
  refine bind_congr_ok (raiseIf_congr (exists_ordered (p := fun k => k ∉ CORE)) _) fun _ _ => ?_
  refine bind_congr_ok rfl fun _ _ => getItem_ordered h fun v _ => ?_
  rw [checkVersion_sorted]
  refine bind_congr_ok rfl fun _ _ => getItem_ordered h fun t _ => ?_
  have htail : ∀ x : Py Unit, (getItem (ordered u) "actor".toList >>= fun a => checkActor a >>= fun _ =>
      getItem (ordered u) "created".toList >>= fun c => checkCreated c >>= fun _ =>
      getItem (ordered u) "nonce".toList >>= fun n => checkNonce n >>= fun _ => x) =
      (getItem u "actor".toList >>= fun a => checkActor a >>= fun _ =>
      getItem u "created".toList >>= fun c => checkCreated c >>= fun _ =>
      getItem u "nonce".toList >>= fun n => checkNonce n >>= fun _ => x) := by
    intro x
    refine getItem_ordered h fun a _ => ?_
    rw [checkActor_sorted]
    refine bind_congr_ok rfl fun _ _ => getItem_ordered h fun c _ => ?_
    rw [checkCreated_sorted]
    refine bind_congr_ok rfl fun _ _ => getItem_ordered h fun n _ => ?_
    rw [checkNonce_sorted]
  cases t <;> simp only [sorted] <;> exact bind_congr_ok rfl fun _ _ => htail _

/-! ## Work, identity, signature -/

theorem len_sorted (v : Json Str) : len (sorted v) = len v := by
  cases v with
  | arr vs => rw [sorted, sortedList_eq, len, len, List.length_map]
  | obj ms => rw [sorted_obj, len, len, (ordered_perm ms).length_eq, List.length_map]
  | _ => simp only [sorted]

theorem lenLocators_ordered {u : Members Str} (h : Distinct (.obj u)) (k : Str) :
    lenLocators (ordered u) k = lenLocators u k := by
  rw [lenLocators, lenLocators]
  refine getItem_ordered h fun v hv => ?_
  cases v with
  | obj ms =>
      rw [sorted_obj, subscript, subscript]
      exact getItem_ordered hv fun v _ => len_sorted v
  | _ => simp only [sorted, subscript]

theorem lenParents_ordered {u : Members Str} (h : Distinct (.obj u)) :
    lenParents (ordered u) = lenParents u := by
  rw [lenParents, lenParents, contains_ordered h]
  split
  · exact getItem_ordered h fun v _ => len_sorted v
  · rfl

theorem lenDescriptor_ordered {u : Members Str} (h : Distinct (.obj u)) :
    lenDescriptor (ordered u) = lenDescriptor u := by
  rw [lenDescriptor, lenDescriptor, contains_ordered h, lenLocators_ordered h]

theorem workCounts_ordered {u : Members Str} (h : Distinct (.obj u)) (t : Json Str) :
    workCounts (ordered u) (sorted t) = workCounts u t := by
  unfold workCounts
  rw [lenLocators_ordered h, lenParents_ordered h, lenDescriptor_ordered h]
  cases t <;> simp only [sorted] <;> rfl

theorem workUnits_ordered {u : Members Str} (h : Distinct (.obj u)) (n : Nat) :
    workUnits (ordered u) n = workUnits u n := by
  rw [workUnits, workUnits]
  refine getItem_ordered h fun t _ => ?_
  rw [workCounts_ordered h]

theorem actorKey_ordered {u : Members Str} (h : Distinct (.obj u)) :
    actorKey (ordered u) = actorKey u := by
  rw [actorKey, actorKey]
  refine getItem_ordered h fun v _ => ?_
  cases v <;> simp only [sorted, asStr]

theorem stringMember_ordered {u : Members Str} (h : Distinct (.obj u)) (k : Str) (e : Exn) :
    stringMember (ordered u) k e = stringMember u k e := by
  rw [stringMember, stringMember, lookup_ordered h.1]
  cases u.lookup k with
  | none => rfl
  | some v => cases v <;> simp only [sorted, Option.map_some]

/-- Leaving members out and sorting commute. -/
theorem body_ordered {obj : Members Str} (h : Distinct (.obj obj)) :
    body (ordered obj) = ordered (body obj) := by
  have hfilter : ∀ (p : Str → Bool), ((ordered obj).filter fun m => p m.1) =
      sortByName ((sortedMembers obj).filter fun m => p m.1) := by
    intro p
    have hnames : ((sortedMembers obj).map Prod.fst).Nodup := by
      rw [sortedMembers_names]
      exact h.1
    exact eq_sortByName ((sortByName_perm _).filter _) ((sortByName_strict hnames).filter _)
  rw [body, hfilter fun k => k ∉ ["id".toList, "sig".toList], body, ordered, sortedMembers_eq,
    sortedMembers_eq, List.filter_map]
  rfl

section
variable {sha256 : Bytes → Digest} {verify : Bytes → Bytes → Bytes → Py Bool}
  {sign : Bytes → Bytes → Py Bytes}

theorem canonicalize_sorted {v : Json Str} (h : Distinct v) :
    Python.Jcs.canonicalize (sorted v) = Python.Jcs.canonicalize v := by
  rw [canonicalize_eq (sorted_all h), canonicalize_eq h, text_sorted h]

theorem canonicalizeBytes_sorted {v : Json Str} (h : Distinct v) :
    Python.Jcs.canonicalizeBytes (sorted v) = Python.Jcs.canonicalizeBytes v := by
  rw [Python.Jcs.canonicalizeBytes, Python.Jcs.canonicalizeBytes, canonicalize_sorted h]

theorem validateObject_ordered {obj : Members Str} (h : Distinct (.obj obj)) :
    validateObject (pythonImports sha256 verify sign) (ordered obj) =
      validateObject (pythonImports sha256 verify sign) obj := by
  have hb := distinct_body h
  have hversion : (∃ x, ((ordered obj).lookup "v".toList).bind isFloat = some x ∧ x ≠ oneFloat) ↔
      ∃ x, (obj.lookup "v".toList).bind isFloat = some x ∧ x ≠ oneFloat := by
    rw [lookup_ordered h.1, Option.bind_map]
    exact exists_congr fun x => by rw [show isFloat ∘ sorted = isFloat from funext isFloat_sorted]
  have hid : ∀ ident, checkIdentity (ordered obj) ident = checkIdentity obj ident := fun ident => by
    rw [checkIdentity, checkIdentity, stringMember_ordered h]
  have hwork : ∀ n d, checkWork (ordered (body obj)) n d = checkWork (body obj) n d := fun n d => by
    rw [checkWork, checkWork, workUnits_ordered hb]
  have hsig : ∀ d, checkSignature (pythonImports sha256 verify sign) (ordered obj)
      (ordered (body obj)) d =
      checkSignature (pythonImports sha256 verify sign) obj (body obj) d := fun d => by
    rw [checkSignature, checkSignature, stringMember_ordered h, actorKey_ordered hb]
  have hbytes : (pythonImports sha256 verify sign).canonicalizeBytes (.obj (ordered (body obj))) =
      (pythonImports sha256 verify sign).canonicalizeBytes (.obj (body obj)) := by
    rw [← sorted_obj]
    exact canonicalizeBytes_sorted hb
  have htext : (pythonImports sha256 verify sign).canonicalize (.obj (ordered (body obj))) =
      (pythonImports sha256 verify sign).canonicalize (.obj (body obj)) := by
    rw [← sorted_obj]
    exact canonicalize_sorted hb
  rw [validateObject, validateObject, raiseIf_congr hversion]
  refine bind_congr_ok rfl fun _ _ => ?_
  show (checkSchema (body (ordered obj)) >>= fun _ => validateBody _ _ (body (ordered obj))) =
    (checkSchema (body obj) >>= fun _ => validateBody _ _ (body obj))
  rw [body_ordered h, checkSchema_ordered hb, validateBody, validateBody, hbytes]
  simp only [hid, hwork, hsig, htext]

end

/-- **The verdict depends on the value alone**: texts of values that are equal
up to the order of members have the same outcome, the record or the exception
with its stage and reason. -/
theorem validateBytes_same (sha256 : Bytes → Digest) (verify : Bytes → Bytes → Bytes → Py Bool)
    (sign : Bytes → Bytes → Py Bytes) {data data' : Bytes} {obj obj' : Members Str}
    (h : parseObject data = .ok obj) (h' : parseObject data' = .ok obj')
    (hsame : (Json.obj obj).Same (.obj obj')) :
    validateBytes (pythonImports sha256 verify sign) data =
      validateBytes (pythonImports sha256 verify sign) data' := by
  have hd := (parseObject_ijson h).distinct
  have hd' := (parseObject_ijson h').distinct
  have hord : ordered obj = ordered obj' := by
    have hs := (same_iff hd).mp hsame
    rwa [sorted_obj, sorted_obj, Json.obj.injEq] at hs
  rw [validateBytes_ok_of h, validateBytes_ok_of h', ← validateObject_ordered hd, hord,
    validateObject_ordered hd']

/-- `{"a":[],"b":{}}` and `{ "\u0062":{},"a":[]}`. -/
theorem validateBytes_same_two :
    validateBytes (pythonImports (fun _ => ⟨List.replicate 32 0, rfl⟩) (fun _ _ _ => .ok true)
        fun _ _ => .ok [])
      [0x7b, 0x22, 0x61, 0x22, 0x3a, 0x5b, 0x5d, 0x2c, 0x22, 0x62, 0x22, 0x3a, 0x7b, 0x7d, 0x7d] =
    validateBytes (pythonImports (fun _ => ⟨List.replicate 32 0, rfl⟩) (fun _ _ _ => .ok true)
        fun _ _ => .ok [])
      [0x7b, 0x20, 0x22, 0x5c, 0x75, 0x30, 0x30, 0x36, 0x32, 0x22, 0x3a, 0x7b, 0x7d, 0x2c, 0x22,
        0x61, 0x22, 0x3a, 0x5b, 0x5d, 0x7d] := by
  have h : parseObject [0x7b, 0x22, 0x61, 0x22, 0x3a, 0x5b, 0x5d, 0x2c, 0x22, 0x62, 0x22, 0x3a,
      0x7b, 0x7d, 0x7d] = .ok [(['a'], .arr []), (['b'], .obj [])] :=
    parseObject_exact.mpr ⟨.none, .obj (.cons .none [.raw 'a' (by decide)] .none .none
      (.arrEmpty .none) .none (.one .none [.raw 'b' (by decide)] .none .none (.objEmpty .none)
      .none)), .none, by decide, read_eq_some.mp rfl⟩
  have h' : parseObject [0x7b, 0x20, 0x22, 0x5c, 0x75, 0x30, 0x30, 0x36, 0x32, 0x22, 0x3a, 0x7b,
      0x7d, 0x2c, 0x22, 0x61, 0x22, 0x3a, 0x5b, 0x5d, 0x7d] =
      .ok [(['b'], .obj []), (['a'], .arr [])] :=
    parseObject_exact.mpr ⟨.none, .obj (.cons ⟨[' '], by decide⟩ [.unicode ⟨'0', by decide⟩
      ⟨'0', by decide⟩ ⟨'6', by decide⟩ ⟨'2', by decide⟩] .none .none (.objEmpty .none) .none
      (.one .none [.raw 'a' (by decide)] .none .none (.arrEmpty .none) .none)), .none, by decide,
      read_eq_some.mp rfl⟩
  refine validateBytes_same _ _ _ h h' ⟨_, [(['a'], .arr []), (['b'], .obj [])], rfl,
    List.Perm.swap .., sameMembers_iff.mpr ?_⟩
  exact .cons ⟨rfl, same_sorted (.arr [])⟩ (.cons ⟨rfl, same_sorted (.obj [])⟩ .nil)

end SwarmPointer.Protocol
