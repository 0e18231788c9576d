import SwarmPointer.Protocol.Printed
import SwarmPointer.Protocol.Verdict

/-!
# Protocol — the Python diagnostic and the verifier

`run_diagnostic` is `validate_object` written a second time: the same stages in
the same order, with what each stage computes reported on the way (`H` before
the comparison of the identifiers, the counts a second time, the work test
through `work_ok`). The report mirrors the validator stage by stage
(`Mirrors`): same result, `PoW: PASS` exactly when the stages up to the work
pass, and the values of the record under their labels.

The one thing the diagnostic does besides is to print members that nobody has
checked yet: `v`, `type`, `actor`, `created` and `nonce` before the schema,
`id` before the comparison. Converting them fails where they are nested too
deep, and the exception leaves `run_diagnostic`, which has no handler for it;
and as texts they can bring lines of their own. So the printed report agrees
with `verify_file` exactly when these members can do neither
(`diagnostic_agrees_iff`).
-/

namespace SwarmPointer.Protocol

open Except Jcs Json JsonInput Logged Python Python.JsonInput Python.Protocol Python.SppVerify

/-! ## The members -/

/-- The members that are reported before the schema is checked. -/
def unchecked : List (Label × Str) :=
  [(.v, "v".toList), (.type, "type".toList), (.actor, "actor".toList),
    (.created, "created".toList), (.nonce, "nonce".toList)]

section
variable {host : Host} {obj : Json.Members Str}

theorem addMember_limited (host : Host) (label : Label) (d : Json.Members Str) (k : Str) :
    Limited (Fits host (d.lookup k)) (addMember host label d k).result := by
  rcases formatValue_limited host (d.lookup k) with ⟨hp, s, hs⟩ | ⟨hp, hs⟩
  · exact .inl ⟨hp, (), by rw [addMember, result_bind, result_lift, hs]; rfl⟩
  · exact .inr ⟨hp, by rw [addMember, result_bind, result_lift, hs]; rfl⟩

theorem addMember_ok (label : Label) {d : Json.Members Str} {k : Str}
    (h : Fits host (d.lookup k)) :
    addMember host label d k = ⟨.ok (), [(label, printed host (d.lookup k))]⟩ := by
  rcases formatValue_limited host (d.lookup k) with ⟨-, s, hs⟩ | ⟨hno, -⟩
  · rw [addMember, hs, printed_ok hs]
    rfl
  · exact absurd h hno

theorem addMember_logs {label : Label} {d : Json.Members Str} {k : Str} {P : Line → Prop}
    (h : P (label, printed host (d.lookup k))) : Logs P (addMember host label d k) := by
  refine (Logs.lift _).bind fun s hs => .tell ?_
  rwa [← printed_ok hs]

/-- The lines of the unchecked members. -/
def memberLines (host : Host) (obj : Json.Members Str) : List Line :=
  unchecked.map fun m => (m.1, printed host (obj.lookup m.2))

theorem lookup_unchecked {m : Label × Str} (hm : m ∈ unchecked) :
    (body obj).lookup m.2 = obj.lookup m.2 := by
  have hne : ∀ m ∈ unchecked, m.2 ≠ "id".toList ∧ m.2 ≠ "sig".toList := by decide
  exact lookup_body (hne m hm).1 (hne m hm).2

/-- **The unchecked members are reported exactly when each can be converted.** -/
theorem reportMembers_limited (host : Host) (obj : Json.Members Str) :
    Limited (∀ m ∈ unchecked, Fits host (obj.lookup m.2))
      (reportMembers host obj (body obj)).result := by
  have hbody : ∀ m ∈ unchecked,
      Limited (Fits host (obj.lookup m.2)) (addMember host m.1 (body obj) m.2).result := by
    intro m hm
    rw [← lookup_unchecked hm]
    exact addMember_limited host m.1 (body obj) m.2
  have hall : (∀ m ∈ unchecked, Fits host (obj.lookup m.2)) ↔ Fits host (obj.lookup "v".toList) ∧
      Fits host (obj.lookup "type".toList) ∧ Fits host (obj.lookup "actor".toList) ∧
      Fits host (obj.lookup "created".toList) ∧ Fits host (obj.lookup "nonce".toList) := by
    simp [unchecked]
  rw [hall]
  refine (addMember_limited host .v obj _).bind fun _ _ => ?_
  refine (hbody (.type, _) (by decide)).bind fun _ _ => ?_
  refine (hbody (.actor, _) (by decide)).bind fun _ _ => ?_
  refine (hbody (.created, _) (by decide)).bind fun _ _ => ?_
  exact hbody (.nonce, _) (by decide)

theorem reportMembers_ok (h : ∀ m ∈ unchecked, Fits host (obj.lookup m.2)) :
    reportMembers host obj (body obj) = ⟨.ok (), memberLines host obj⟩ := by
  have hadd : ∀ m ∈ unchecked, addMember host m.1 (body obj) m.2 =
      ⟨.ok (), [(m.1, printed host (obj.lookup m.2))]⟩ := by
    intro m hm
    rw [← lookup_unchecked hm]
    refine addMember_ok m.1 ?_
    rw [lookup_unchecked hm]
    exact h m hm
  rw [reportMembers, addMember_ok .v (h (.v, "v".toList) (by decide)),
    hadd (.type, "type".toList) (by decide), hadd (.actor, "actor".toList) (by decide),
    hadd (.created, "created".toList) (by decide), hadd (.nonce, "nonce".toList) (by decide)]
  rfl

theorem reportMembers_logs {P : Line → Prop}
    (h : ∀ m ∈ unchecked, P (m.1, printed host (obj.lookup m.2))) :
    Logs P (reportMembers host obj (body obj)) := by
  have hbody : ∀ m ∈ unchecked, Logs P (addMember host m.1 (body obj) m.2) := fun m hm =>
    addMember_logs (by rw [lookup_unchecked hm]; exact h m hm)
  refine (addMember_logs (h (.v, "v".toList) (by decide))).bind fun _ _ => ?_
  refine (hbody (.type, _) (by decide)).bind fun _ _ => ?_
  refine (hbody (.actor, _) (by decide)).bind fun _ _ => ?_
  refine (hbody (.created, _) (by decide)).bind fun _ _ => ?_
  exact hbody (.nonce, _) (by decide)

end

/-! ## The stages after the schema -/

section
variable {host : Host} {I : Imports} {text : Json Str → Str}
  {verifies : Bytes → Bytes → Bytes → Bool} {obj : Json.Members Str}

/-- The canonical bytes of a canonical text. -/
abbrev bytesOf (text : Json Str → Str) (v : Json Str) : Bytes := Unicode.utf8 (text v)

/-- The lines before the length is checked. -/
def bodyLines (jcs : Str) (n : Nat) : List Line :=
  [(.jcs, jcs), (.canonicalBodyBytes, Nat.toDigits 10 n)]

/-- The lines of the identity stage. -/
def identityLines (ident : Str) (d : Bytes) (received : Str) : List Line :=
  [(.d, hex d), (.idComputed, ident), (.idReceived, received), (.h, fmt064x (fromBytesBig d))]

/-- The lines of the work stage. -/
def workLines (loc parents cdc units : Nat) (ok : Bool) : List Line :=
  [(.locatorCount, Nat.toDigits 10 loc), (.parentCount, Nat.toDigits 10 parents),
    (.channelDescriptionCost, Nat.toDigits 10 cdc), (.units, Nat.toDigits 10 units),
    (.wrequired, Nat.toDigits 10 (units * UNIT_SCALE)), (.target, fmt064x (target units)),
    (.pow, verdict ok)]

theorem reportIdentity_ok (ident : Str) (d : Bytes) (h : Fits host (obj.lookup "id".toList)) :
    reportIdentity host obj ident d = ⟨checkIdentity obj ident,
      identityLines ident d (printed host (obj.lookup "id".toList))⟩ := by
  rw [reportIdentity, addMember_ok .idReceived h]
  rfl

theorem reportIdentity_error {ident : Str} {d : Bytes} (h : ¬ Fits host (obj.lookup "id".toList)) :
    (reportIdentity host obj ident d).result = .error .recursionError := by
  rcases addMember_limited host .idReceived obj "id".toList with ⟨hs, -⟩ | ⟨-, he⟩
  · exact absurd hs h
  · change ((addMember host .idReceived obj "id".toList).result >>= fun _ => _) = _
    rw [he]
    rfl

/-- The work is paid for. -/
abbrev Paid (u : Json.Members Str) (n : Nat) (d : Digest) : Prop :=
  digestValue d ≤ target (units u n)

theorem reportWork_eq {u : Json.Members Str} (hs : Shape u) {n : Nat} (hn : n ≤ 2 ^ 53)
    (d : Digest) : ∃ loc parents cdc, reportWork u n d.1 =
      ⟨raiseIf (¬ Paid u n d) (.sppError .work .insufficientWork),
        workLines loc parents cdc (units u n) (decide (Paid u n d))⟩ := by
  have hunits := workUnits_eq hs hn
  obtain ⟨⟨loc, parents, cdc⟩, hcounts⟩ :
      ∃ c, (getItem u "type".toList >>= workCounts u) = .ok c := by
    obtain ⟨t, ht, h⟩ := bind_eq_ok_iff.mp hunits
    obtain ⟨c, hc, -⟩ := bind_eq_ok_iff.mp h
    exact ⟨c, bind_eq_ok_iff.mpr ⟨t, ht, hc⟩⟩
  have htarget := targetForUnits_eq (units_pos u n)
  have hok : workOk (fromBytesBig d.1) (units u n) = .ok (decide (Paid u n d)) := by
    rw [workOk, htarget, ok_bind, digestValue_eq]
  have hraise : raiseIf (decide (Paid u n d) = false) (Exn.sppError .work .insufficientWork) =
      raiseIf (¬ Paid u n d) (.sppError .work .insufficientWork) :=
    if_congr decide_eq_false_iff_not rfl rfl
  refine ⟨loc, parents, cdc, ?_⟩
  rw [reportWork, hcounts, lift_ok_bind, hunits, lift_ok_bind, htarget, lift_ok_bind, hok,
    lift_ok_bind, hraise]
  rfl

theorem checkWork_eq {u : Json.Members Str} (hs : Shape u) {n : Nat} (hn : n ≤ 2 ^ 53) (d : Digest) :
    checkWork u n d.1 = raiseIf (¬ Paid u n d) (.sppError .work .insufficientWork) >>= fun _ =>
      .ok (units u n, target (units u n)) := by
  rw [checkWork, workUnits_eq hs hn, ok_bind, targetForUnits_eq (units_pos u n), ok_bind,
    digestValue_eq]
  exact congrArg (· >>= _) (if_congr not_le.symm rfl rfl)

theorem reportSignature_result (hI : Returns I text verifies) {u : Json.Members Str} {d key : Bytes}
    (hkey : Has u "actor".toList fun v => Tagged "ed25519:".toList v key) :
    (reportSignature I obj u d).result = checkSignature I obj u d >>= fun _ => .ok () := by
  rw [checkSignature, actorKey_eq hkey]
  simp only [reportSignature, actorKey_eq hkey, result_bind, result_lift, add, result_tell, ok_bind,
    bind_assoc]
  refine bind_congr_ok rfl fun sig _ => bind_congr_ok rfl fun _ _ => ?_
  refine bind_congr_ok rfl fun s _ => ?_
  rw [hI.verify]
  simp only [ok_bind]
  cases verifies key s d <;> rfl

/-- The signature stage reports one line. -/
theorem reportSignature_logs (u : Json.Members Str) (d : Bytes) :
    Logs (fun l => l.1 = .signature ∧ OneLine l.2) (reportSignature I obj u d) := by
  refine (Logs.lift _).bind fun _ _ => (Logs.lift _).bind fun _ _ => (Logs.lift _).bind fun ok _ => ?_
  exact (Logs.tell ⟨rfl, by cases ok <;> decide⟩).bind fun _ _ => .lift _

/-- What `reportBody` does once the canonical bytes are there. -/
theorem reportBody_eq (host : Host) (hI : Returns I text verifies) (hd : Distinct (.obj obj)) :
    reportBody host I obj (body obj) =
      ((⟨raiseIf (size (bytesOf text) obj > MAX_JCS) (.sppError .length .jcsTooLarge),
          bodyLines (text (.obj (body obj))) (size (bytesOf text) obj)⟩ : Diag Unit) >>= fun _ =>
        reportIdentity host obj (idText (digest (bytesOf text) I.sha256 obj))
          (digest (bytesOf text) I.sha256 obj).1 >>= fun _ =>
        reportWork (body obj) (size (bytesOf text) obj)
          (digest (bytesOf text) I.sha256 obj).1 >>= fun _ =>
        reportSignature I obj (body obj) (digest (bytesOf text) I.sha256 obj).1) := by
  have hdecode : decodeJcs (Unicode.utf8 (text (.obj (body obj)))) =
      .ok (text (.obj (body obj))) := by
    rw [decodeJcs, Unicode.decodeUtf8_utf8]
    rfl
  rw [reportBody, hI.canonicalizeBytes _ (distinct_body hd), lift_ok_bind, hdecode, lift_ok_bind]
  rfl

/-- `validateBody` with the canonical bytes filled in. -/
theorem validateBody_eq (hI : Returns I text verifies) (hd : Distinct (.obj obj)) :
    validateBody I obj (body obj) =
      (raiseIf (size (bytesOf text) obj > MAX_JCS) (.sppError .length .jcsTooLarge) >>= fun _ =>
      checkIdentity obj (idText (digest (bytesOf text) I.sha256 obj)) >>= fun _ =>
      checkWork (body obj) (size (bytesOf text) obj)
        (digest (bytesOf text) I.sha256 obj).1 >>= fun w =>
      checkSignature I obj (body obj) (digest (bytesOf text) I.sha256 obj).1 >>= fun sig =>
      .ok ⟨idText (digest (bytesOf text) I.sha256 obj), w.1, fmt064x w.2,
        text (.obj (body obj)), sig, hex (digest (bytesOf text) I.sha256 obj).1⟩) := by
  rw [validateBody, hI.canonicalizeBytes _ (distinct_body hd), ok_bind,
    hI.canonicalize _ (distinct_body hd)]
  rfl

/-! ## The report mirrors the validator -/

/-- All stages up to the work pass. -/
structure PastWork (canon : Json Str → Bytes) (sha256 : Bytes → Digest) (obj : Json.Members Str) :
    Prop where
  schema : Schema (body obj)
  size : size canon obj ≤ 1048576
  identity : obj.lookup "id".toList = some (.str (idText (digest canon sha256 obj)))
  work : digestValue (digest canon sha256 obj) ≤ target (unitsOf canon obj)

/-- A report ends as the validator does, marks the work as paid for exactly
when the stages up to it pass, and reports what a record says. -/
structure Mirrors (canon : Json Str → Bytes) (sha256 : Bytes → Digest) (obj : Json.Members Str)
    (m : Diag Unit) (x : Py Record) : Prop where
  result : m.result = x >>= fun _ => .ok ()
  pow : "PASS".toList ∈ reported .pow m.log ↔ PastWork canon sha256 obj
  info : ∀ info, x = .ok info → PastWork canon sha256 obj ∧
    reported .idComputed m.log = [info.id] ∧
    reported .units m.log = [Nat.toDigits 10 info.units] ∧
    reported .target m.log = [info.target_hex]

theorem reported_none {label : Label} {log : List Line} (h : ∀ l ∈ log, l.1 ≠ label) :
    reported label log = [] := by
  refine List.filterMap_eq_nil_iff.mpr fun l hl => if_neg (h l hl)

/-- **A body that is too long.** -/
theorem mirrors_long (hI : Returns I text verifies) (hd : Distinct (.obj obj))
    (h : ¬ size (bytesOf text) obj ≤ 1048576) : Mirrors (bytesOf text) I.sha256 obj
      (reportBody host I obj (body obj)) (validateBody I obj (body obj)) := by
  have hraise : raiseIf (size (bytesOf text) obj > MAX_JCS)
      (Exn.sppError .length .jcsTooLarge) = .error (.sppError .length .jcsTooLarge) :=
    if_pos (not_le.mp h)
  rw [reportBody_eq host hI hd, validateBody_eq hI hd, hraise]
  refine ⟨rfl, ?_, nofun⟩
  exact ⟨nofun, fun hpast => absurd hpast.size h⟩

theorem checkIdentity_reason {ident : Str} {e : Exn} (h : checkIdentity obj ident = .error e) :
    obj.lookup "id".toList ≠ some (.str ident) := by
  intro hid
  have hok : checkIdentity obj ident = .ok () := checkIdentity_ok.mpr hid
  exact nomatch hok.symm.trans h

/-- What is reported of a body that is not too long. -/
theorem reportBody_short (hI : Returns I text verifies) (hd : Distinct (.obj obj))
    (hs : Schema (body obj)) (hsize : size (bytesOf text) obj ≤ 1048576)
    (hid : Fits host (obj.lookup "id".toList)) : ∃ loc parents cdc,
    reportBody host I obj (body obj) =
      ((⟨checkIdentity obj (idText (digest (bytesOf text) I.sha256 obj)),
          bodyLines (text (.obj (body obj))) (size (bytesOf text) obj) ++ identityLines
            (idText (digest (bytesOf text) I.sha256 obj)) (digest (bytesOf text) I.sha256 obj).1
            (printed host (obj.lookup "id".toList))⟩ : Diag Unit) >>= fun _ =>
        ⟨raiseIf (¬ Paid (body obj) (size (bytesOf text) obj) (digest (bytesOf text) I.sha256 obj))
            (.sppError .work .insufficientWork),
          workLines loc parents cdc (units (body obj) (size (bytesOf text) obj)) (decide
            (Paid (body obj) (size (bytesOf text) obj) (digest (bytesOf text) I.sha256 obj)))⟩
          >>= fun _ =>
        reportSignature I obj (body obj) (digest (bytesOf text) I.sha256 obj).1) := by
  have hraise : raiseIf (size (bytesOf text) obj > MAX_JCS)
      (Exn.sppError .length .jcsTooLarge) = .ok () := if_neg (not_lt.mpr hsize)
  obtain ⟨loc, parents, cdc, hwork⟩ := reportWork_eq hs.toShape
    (hsize.trans (by decide : 1048576 ≤ 2 ^ 53)) (digest (bytesOf text) I.sha256 obj)
  refine ⟨loc, parents, cdc, ?_⟩
  rw [reportBody_eq host hI hd, hraise, reportIdentity_ok _ _ hid, hwork]
  exact congrArg (Logged.mk _) (List.append_assoc ..).symm

theorem validateBody_short (hI : Returns I text verifies) (hd : Distinct (.obj obj))
    (hs : Schema (body obj)) (hsize : size (bytesOf text) obj ≤ 1048576) :
    validateBody I obj (body obj) =
      (checkIdentity obj (idText (digest (bytesOf text) I.sha256 obj)) >>= fun _ =>
      raiseIf (¬ Paid (body obj) (size (bytesOf text) obj) (digest (bytesOf text) I.sha256 obj))
        (.sppError .work .insufficientWork) >>= fun _ =>
      checkSignature I obj (body obj) (digest (bytesOf text) I.sha256 obj).1 >>= fun sig =>
      .ok ⟨idText (digest (bytesOf text) I.sha256 obj),
        units (body obj) (size (bytesOf text) obj),
        fmt064x (target (units (body obj) (size (bytesOf text) obj))),
        text (.obj (body obj)), sig, hex (digest (bytesOf text) I.sha256 obj).1⟩) := by
  have hraise : raiseIf (size (bytesOf text) obj > MAX_JCS)
      (Exn.sppError .length .jcsTooLarge) = .ok () := if_neg (not_lt.mpr hsize)
  rw [validateBody_eq hI hd, hraise, checkWork_eq hs.toShape
    (hsize.trans (by decide : 1048576 ≤ 2 ^ 53)), ok_bind]
  simp only [bind_assoc, ok_bind]

/-- **A body that is not too long.** The stages before the work report nothing
under the label of the work, and nothing after it is reported under the labels
a record is read from. -/
theorem mirrors_short (hI : Returns I text verifies) (hd : Distinct (.obj obj))
    (hs : Schema (body obj)) (hsize : size (bytesOf text) obj ≤ 1048576)
    (hid : Fits host (obj.lookup "id".toList)) : Mirrors (bytesOf text) I.sha256 obj
      (reportBody host I obj (body obj)) (validateBody I obj (body obj)) := by
  obtain ⟨a, ha, key, hkey⟩ := hs.actor
  obtain ⟨loc, parents, cdc, hreport⟩ := reportBody_short hI hd hs hsize hid
  rw [hreport, validateBody_short hI hd hs hsize]
  have hsignature : ∀ {label : Label}, label ≠ .signature → reported label
      (reportSignature I obj (body obj) (digest (bytesOf text) I.sha256 obj).1).log = [] :=
    fun hne => reported_none fun l hl hlabel =>
      hne (hlabel.symm.trans (reportSignature_logs (body obj) _ l hl).1)
  refine ⟨?_, ?_, ?_⟩
  · -- the two runs make the same checks in the same order
    simp only [result_bind, bind_assoc, ok_bind]
    refine bind_congr_ok rfl fun _ _ => bind_congr_ok rfl fun _ _ => ?_
    exact reportSignature_result hI ⟨a, ha, hkey⟩
  · -- `PoW: PASS` is printed between the identity check and the work check
    cases hc : checkIdentity obj (idText (digest (bytesOf text) I.sha256 obj)) with
    | error e =>
        rw [log_bind_error rfl]
        exact iff_of_false List.not_mem_nil fun h => absurd h.identity (checkIdentity_reason hc)
    | ok u =>
        rw [log_bind_ok rfl]
        by_cases hpaid : Paid (body obj) (size (bytesOf text) obj)
            (digest (bytesOf text) I.sha256 obj)
        · have hraise : raiseIf (¬ Paid (body obj) (size (bytesOf text) obj)
              (digest (bytesOf text) I.sha256 obj)) (Exn.sppError .work .insufficientWork) =
              .ok () := if_neg (not_not.mpr hpaid)
          rw [log_bind_ok hraise, decide_eq_true hpaid]
          simp only [reported_append]
          rw [hsignature (show Label.pow ≠ .signature by decide)]
          exact iff_of_true (List.mem_cons_self ..) ⟨hs, hsize, checkIdentity_ok.mp hc, hpaid⟩
        · have hraise : raiseIf (¬ Paid (body obj) (size (bytesOf text) obj)
              (digest (bytesOf text) I.sha256 obj)) (Exn.sppError .work .insufficientWork) =
              .error (.sppError .work .insufficientWork) := if_pos hpaid
          rw [log_bind_error hraise, decide_eq_false hpaid]
          simp only [reported_append]
          exact iff_of_false (fun h => absurd (List.mem_singleton.mp h) (by decide))
            fun h => hpaid h.work
  · -- a run that ends has passed both checks and printed what it returns
    intro info hinfo
    obtain ⟨_, hc, hinfo⟩ := bind_eq_ok_iff.mp hinfo
    obtain ⟨_, hraise, hinfo⟩ := bind_eq_ok_iff.mp hinfo
    obtain ⟨sig, -, hinfo⟩ := bind_eq_ok_iff.mp hinfo
    obtain rfl := Except.ok.inj hinfo
    rw [log_bind_ok hc, log_bind_ok hraise]
    simp only [reported_append]
    rw [hsignature (show Label.idComputed ≠ .signature by decide),
      hsignature (show Label.units ≠ .signature by decide),
      hsignature (show Label.target ≠ .signature by decide)]
    have hpaid := not_not.mp (raiseIf_eq_ok.mp hraise)
    exact ⟨⟨hs, hsize, checkIdentity_ok.mp hc, hpaid⟩, rfl, rfl, rfl⟩

/-! ## The whole report -/

theorem report_other (h : OtherVersion obj) :
    report host I obj = ⟨.error (.unsupportedError .version .unknownV), []⟩ := by
  rw [report, raiseIf, if_pos (otherVersion_iff.mpr h)]
  rfl

theorem report_eq (host : Host) (I : Imports) (h : ¬ OtherVersion obj) : report host I obj =
    (reportMembers host obj (body obj) >>= fun _ => lift (checkSchema (body obj)) >>= fun _ =>
      reportBody host I obj (body obj)) := by
  rw [report, raiseIf, if_neg (mt otherVersion_iff.mp h)]
  rfl

/-- Of the members that are reported, `id` once the schema and the length are
right, each satisfies `p`. -/
def Reported (p : Option (Json Str) → Prop) (canon : Json Str → Bytes) (obj : Json.Members Str) :
    Prop :=
  (∀ m ∈ unchecked, p (obj.lookup m.2)) ∧
    (Schema (body obj) → size canon obj ≤ 1048576 → p (obj.lookup "id".toList))

/-- **The report mirrors the validator**, whatever the object, unless a member
cannot be converted. -/
theorem report_mirrors (hI : Returns I text verifies) (hd : Distinct (.obj obj))
    (hfits : ¬ OtherVersion obj → Reported (Fits host) (bytesOf text) obj) :
    Mirrors (bytesOf text) I.sha256 obj (report host I obj) (validateObject I obj) := by
  by_cases hother : OtherVersion obj
  · rw [report_other hother, validateObject_other hother]
    refine ⟨rfl, ⟨nofun, fun h => ?_⟩, nofun⟩
    have hversion := (lookup_body (k := "v".toList) (by decide) (by decide)).symm.trans
      h.schema.version
    exact absurd hother (not_otherVersion hversion)
  obtain ⟨hmembers, hid⟩ := hfits hother
  rw [report_eq host I hother, validateObject_eq hother, reportMembers_ok hmembers]
  -- the members are reported under labels of their own
  have hlabels : ∀ label : Label, label ∉ unchecked.map Prod.fst →
      reported label (memberLines host obj) = [] := by
    intro label hlabel
    refine reported_none fun l hl heq => hlabel ?_
    obtain ⟨m, hm, rfl⟩ := List.mem_map.mp hl
    exact heq ▸ List.mem_map.mpr ⟨m, hm, rfl⟩
  cases hs : checkSchema (body obj) with
  | error e =>
      refine ⟨rfl, ?_, nofun⟩
      rw [log_bind_ok rfl, log_bind_error rfl, log_lift, List.append_nil, hlabels .pow (by decide)]
      refine iff_of_false nofun fun h => ?_
      have hok : checkSchema (body obj) = .ok () := checkSchema_body.mpr h.schema
      exact nomatch hok.symm.trans hs
  | ok u =>
      have hschema := checkSchema_body.mp hs
      have hbody : Mirrors (bytesOf text) I.sha256 obj (reportBody host I obj (body obj))
          (validateBody I obj (body obj)) := by
        by_cases hsize : size (bytesOf text) obj ≤ 1048576
        · exact mirrors_short hI hd hschema hsize (hid hschema hsize)
        · exact mirrors_long hI hd hsize
      obtain ⟨hresult, hpow, hinfo⟩ := hbody
      refine ⟨hresult, ?_, ?_⟩
      · rw [log_bind_ok rfl, lift_ok_bind, reported_append, hlabels .pow (by decide)]
        exact hpow
      · intro info h
        rw [log_bind_ok rfl, lift_ok_bind]
        simp only [reported_append]
        rw [hlabels .idComputed (by decide), hlabels .units (by decide),
          hlabels .target (by decide)]
        exact hinfo info h

/-- **A member nested too deep ends the report.** -/
theorem report_deep (hI : Returns I text verifies) (hd : Distinct (.obj obj))
    (hother : ¬ OtherVersion obj) (h : ¬ Reported (Fits host) (bytesOf text) obj) :
    (report host I obj).result = .error .recursionError := by
  rw [report_eq host I hother]
  rcases reportMembers_limited host obj with ⟨hmembers, _, hresult⟩ | ⟨-, hresult⟩
  · have hid : Schema (body obj) ∧ size (bytesOf text) obj ≤ 1048576 ∧
        ¬ Fits host (obj.lookup "id".toList) := by
      by_contra hno
      exact h ⟨hmembers, fun hs hsize => by_contra fun hshown => hno ⟨hs, hsize, hshown⟩⟩
    obtain ⟨hs, hsize, hfits⟩ := hid
    have hraise : raiseIf (size (bytesOf text) obj > MAX_JCS)
        (Exn.sppError .length .jcsTooLarge) = .ok () := if_neg (not_lt.mpr hsize)
    have hschema : checkSchema (body obj) = .ok () := checkSchema_body.mpr hs
    rw [result_bind, hresult, hschema, reportBody_eq host hI hd, hraise]
    change ((reportIdentity host obj _ _).result >>= fun _ => _) = _
    rw [reportIdentity_error hfits]
    rfl
  · rw [result_bind, hresult]
    rfl

/-- The last lines of a rejection are the only ones with their labels. -/
def Inner (l : Line) : Prop := l.1 ∉ [Label.status, .stage, .reason]

/-- **The lines of a report**: each value is on one line, but for the members
that are printed as they are. -/
theorem report_logs (hI : Returns I text verifies) (hd : Distinct (.obj obj))
    (htext : ∀ v, OneLine (text v)) {P : Line → Prop} (hP : ∀ l, Inner l → OneLine l.2 → P l)
    (hmembers : Reported (fun v => ∀ label, label ∉ [Label.status, .stage, .reason] →
      label ≠ .pow → P (label, printed host v)) (bytesOf text) obj) : Logs P (report host I obj) := by
  by_cases hother : OtherVersion obj
  · rw [report_other hother]
    exact nofun
  have hadd : ∀ (label : Label) {s : Str}, label ∉ [Label.status, .stage, .reason] → OneLine s →
      Logs P (add label s) := fun label s hl hs => .tell (hP (label, s) hl hs)
  have hdigits : ∀ n, OneLine (Nat.toDigits 10 n) := oneLine_digits (by decide) (by decide)
  have hunchecked : ∀ m ∈ unchecked, m.1 ∉ [Label.status, .stage, .reason] ∧ m.1 ≠ .pow := by decide
  rw [report_eq host I hother]
  refine (reportMembers_logs fun m hm =>
    hmembers.1 m hm m.1 (hunchecked m hm).1 (hunchecked m hm).2).bind fun _ _ => ?_
  refine (Logs.lift _).bind fun _ hs => ?_
  have hschema := checkSchema_body.mp hs
  rw [reportBody_eq host hI hd]
  refine Logs.bind ?_ fun _ hsize => Logs.bind ?_ fun _ _ => Logs.bind ?_ fun _ _ => ?_
  · -- the canonical text and its length
    intro l hl
    rcases List.mem_cons.mp hl with rfl | hl
    · exact hP _ (by simp [Inner]) (htext _)
    · rw [List.mem_singleton.mp hl]
      exact hP _ (by simp [Inner]) (hdigits _)
  · -- the identifiers
    refine (hadd .d (by decide) (oneLine_hex _)).bind fun _ _ => ?_
    refine (hadd .idComputed (by decide) (oneLine_idText _)).bind fun _ _ => ?_
    refine (addMember_logs ?_).bind fun _ _ => ?_
    · exact hmembers.2 hschema (not_lt.mp (raiseIf_eq_ok.mp hsize)) .idReceived (by decide) (by decide)
    · exact (hadd .h (by decide) (oneLine_fmt064x _)).bind fun _ _ => .lift _
  · -- the work
    refine (Logs.lift _).bind fun ⟨loc, parents, cdc⟩ _ => ?_
    refine (hadd .locatorCount (by decide) (hdigits _)).bind fun _ _ => ?_
    refine (hadd .parentCount (by decide) (hdigits _)).bind fun _ _ => ?_
    refine (hadd .channelDescriptionCost (by decide) (hdigits _)).bind fun _ _ => ?_
    refine (Logs.lift _).bind fun _ _ => (Logs.lift _).bind fun _ _ => ?_
    refine (hadd .units (by decide) (hdigits _)).bind fun _ _ => ?_
    refine (hadd .wrequired (by decide) (hdigits _)).bind fun _ _ => ?_
    refine (hadd .target (by decide) (oneLine_fmt064x _)).bind fun _ _ => ?_
    refine (Logs.lift _).bind fun ok _ => ?_
    exact (hadd .pow (by decide) (by cases ok <;> decide)).bind fun _ _ => .lift _
  · -- the signature
    intro l hl
    obtain ⟨hlabel, hline⟩ := reportSignature_logs (body obj) _ l hl
    exact hP l (by simp [Inner, hlabel]) hline

theorem inner_report (hI : Returns I text verifies) (hd : Distinct (.obj obj))
    (htext : ∀ v, OneLine (text v)) : Logs Inner (report host I obj) :=
  report_logs hI hd htext (fun _ h _ => h) ⟨fun _ _ _ h _ => h, fun _ _ _ h _ => h⟩

/-- The diagnostic can convert the members it reports, and none of them
forges a line. -/
def Prints (host : Host) (canon : Json Str → Bytes) (obj : Json.Members Str) : Prop :=
  Reported (Shown host) canon obj

theorem Prints.fits {canon : Json Str → Bytes} (h : Prints host canon obj) :
    Reported (Fits host) canon obj :=
  ⟨fun m hm => (shown_iff.mp (h.1 m hm)).1, fun hs hsize => (shown_iff.mp (h.2 hs hsize)).1⟩

/-- **A line of the report is forged exactly when a reported member forges it.** -/
theorem prints_iff (hI : Returns I text verifies) (hd : Distinct (.obj obj))
    (htext : ∀ v, OneLine (text v)) (hother : ¬ OtherVersion obj)
    (hfits : Reported (Fits host) (bytesOf text) obj) :
    Prints host (bytesOf text) obj ↔ ∀ l ∈ (report host I obj).log, ¬ Forges l.2 := by
  constructor
  · intro h
    refine report_logs hI hd htext (fun _ _ => not_forges) ⟨?_, ?_⟩
    · exact fun m hm _ _ _ => (shown_iff.mp (h.1 m hm)).2
    · exact fun hs hsize _ _ _ => (shown_iff.mp (h.2 hs hsize)).2
  · intro h
    rw [report_eq host I hother, reportMembers_ok hfits.1, log_bind_ok rfl] at h
    constructor
    · intro m hm
      refine shown_iff.mpr ⟨hfits.1 m hm, ?_⟩
      exact h _ (List.mem_append_left _ (List.mem_map.mpr ⟨m, hm, rfl⟩))
    · intro hs hsize
      refine shown_iff.mpr ⟨hfits.2 hs hsize, ?_⟩
      obtain ⟨loc, parents, cdc, hreport⟩ := reportBody_short hI hd hs hsize (hfits.2 hs hsize)
      have hschema : checkSchema (body obj) = .ok () := checkSchema_body.mpr hs
      refine h (.idReceived, _) (List.mem_append_right _ ?_)
      rw [hschema, lift_ok_bind, hreport, log_bind]
      refine List.mem_append_left _ (List.mem_append_right _ ?_)
      exact List.mem_cons_of_mem _ (List.mem_cons_of_mem _ (List.mem_cons_self ..))

/-- The texts of the schema are on one line each. -/
theorem oneLine_schema {u : Json.Members Str} (h : Shape u) :
    ∀ m ∈ unchecked, ∀ t, u.lookup m.2 = some (.str t) → OneLine t := by
  have htype : ∀ t, u.lookup "type".toList = some (.str t) → OneLine t := by
    intro t ht
    rcases h.kind with hkind | hkind
    · obtain rfl := Json.str.inj (Option.some.inj (hkind.1.symm.trans ht))
      decide
    · obtain rfl := Json.str.inj (Option.some.inj (hkind.1.symm.trans ht))
      decide
  have hactor : ∀ t, u.lookup "actor".toList = some (.str t) → OneLine t := by
    intro t ht
    obtain ⟨v, hv, key, -, rfl⟩ := h.actor
    obtain rfl := Json.str.inj (Option.some.inj (hv.symm.trans ht))
    exact oneLine_append.mpr ⟨by decide, oneLine_hex key⟩
  have hnonce : ∀ t, u.lookup "nonce".toList = some (.str t) → OneLine t := by
    intro t ht
    obtain ⟨v, hv, n, -, rfl⟩ := h.nonce
    obtain rfl := Json.str.inj (Option.some.inj (hv.symm.trans ht))
    exact oneLine_digits (by decide) (by decide) n
  intro m hm t ht
  simp only [unchecked, List.mem_cons, List.not_mem_nil, or_false] at hm
  rcases hm with rfl | rfl | rfl | rfl | rfl
  · exact nomatch h.version.symm.trans ht
  · exact htype t ht
  · exact hactor t ht
  · obtain ⟨v, hv, x, rfl, -⟩ := h.created
    exact nomatch hv.symm.trans ht
  · exact hnonce t ht

/-- The members of an assertion whose work is paid for are on one line each. -/
theorem oneLine_pastWork {canon : Json Str → Bytes} {sha256 : Bytes → Digest}
    (h : PastWork canon sha256 obj) : Reported (fun v => OneLine (printed host v)) canon obj := by
  constructor
  · intro m hm
    refine oneLine_printed fun t ht => oneLine_schema h.schema.toShape m hm t ?_
    rwa [lookup_unchecked hm]
  · intro _ _
    refine oneLine_printed fun t ht => ?_
    obtain rfl := Json.str.inj (Option.some.inj (h.identity.symm.trans ht))
    exact oneLine_idText _

end

/-! ## The printed report -/

theorem values_ending (label : Label) {log last : List Line} (hne : last ≠ [])
    (hlast : ∀ l ∈ last, OneLine l.2) : values label.text (diagnosticText (log ++ last)) =
      (log.flatMap fun l => values label.text (lineText l)) ++ reported label last := by
  rw [values_diagnosticText _ (List.append_ne_nil_of_right_ne_nil _ hne), List.flatMap_append,
    values_lines hlast]

/-- Whatever is printed before them, the last lines are the ones of the end. -/
theorem final_ending (label : Label) {log last : List Line} {s : Str}
    (hlast : ∀ l ∈ last, OneLine l.2) (h : reported label last = [s]) :
    final label.text (diagnosticText (log ++ last)) = some s := by
  have hne : last ≠ [] := by
    rintro rfl
    cases h
  rw [final, values_ending label hne hlast, h, List.getLast?_concat]

theorem pass_ending {log last : List Line} (hne : last ≠ [])
    (hlog : ∀ l ∈ log, l.1 = .pow → OneLine l.2) (hforged : ∀ l ∈ log, ¬ Forges l.2)
    (hlast : ∀ l ∈ last, OneLine l.2) (hother : ∀ l ∈ last, l.1 ≠ .pow) :
    "PASS".toList ∈ values "PoW" (diagnosticText (log ++ last)) ↔
      "PASS".toList ∈ reported .pow log := by
  rw [pass_printed (List.append_ne_nil_of_right_ne_nil _ hne), reported_append,
    reported_none hother, List.append_nil]
  · refine or_iff_left ?_
    rintro ⟨l, hl, hf⟩
    rcases List.mem_append.mp hl with hl | hl
    · exact hforged l hl hf
    · exact not_forges (hlast l hl) hf
  · intro l hl hpow
    rcases List.mem_append.mp hl with hl | hl
    · exact hlog l hl hpow
    · exact hlast l hl

theorem oneLine_stage (s : Stage) : OneLine (Server.stage s).toList := by
  cases s <;> decide

theorem oneLine_reason (r : Reason) : OneLine (Server.reason r).toList := by
  cases r with
  | json r => cases r <;> decide
  | _ => decide

theorem oneLine_refusal {status : String} (hstatus : OneLine status.toList) (s : Stage)
    (r : Reason) : ∀ l ∈ refusal status (Server.stage s) (Server.reason r), OneLine l.2 := by
  intro l hl
  simp only [refusal, List.mem_cons, List.not_mem_nil, or_false] at hl
  rcases hl with rfl | rfl | rfl
  · exact hstatus
  · exact oneLine_stage s
  · exact oneLine_reason r

/-! ## The two commands -/

section
variable {sha256 : Bytes → Digest} {verifies : Bytes → Bytes → Bytes → Bool}
  {sign : Bytes → Bytes → Py Bytes} {data : Bytes}

/-- The printed diagnostic does not contradict the verifier: the same exit code
and the same last status, stage and reason, a line `PoW: PASS` exactly when
validation gets past the work, and of a valid input the values of the record. -/
def Agrees (host : Host) (I : Imports) (data : Bytes) : Prop :=
  ∃ code text, runDiagnostic host I data = .ok (code, text) ∧
    ("PASS".toList ∈ values "PoW" text ↔
      ∃ obj, Section6 data obj ∧ PastWork Rfc8785.bytes I.sha256 obj) ∧
    ((∃ info, validateBytes I data = .ok info ∧ verifyFile I data = (code, formatValid info) ∧
        final "status" text = some "VALID".toList ∧ final "stage" text = none ∧
        final "reason" text = none ∧ values "id_computed" text = [info.id] ∧
        values "units" text = [Nat.toDigits 10 info.units] ∧
        values "target" text = [info.target_hex]) ∨
      ∃ kind s r, verifyFile I data = (code, formatInvalid kind s r) ∧
        final "status" text = some kind.toList ∧
        final "stage" text = some (Server.stage s).toList ∧
        final "reason" text = some (Server.reason r).toList)

/-- `loadObject` and `parse_object` differ in the exception for what is no object. -/
theorem loadObject_cases (host : Host) (I : Imports) (data : Bytes) :
    (∃ obj, parseObject data = .ok obj ∧ loadObject data = .ok obj) ∨
      ∃ r, parseObject data = .error (.jsonInputError r) ∧ runDiagnostic host I data =
        .ok (1, diagnosticText
          ([] ++ refusal "INVALID" (Server.stage .jsonInput) (Server.reason (.json r)))) := by
  rcases parseUtf8_returns data with ⟨v, h⟩ | ⟨r, h⟩
  · cases v with
    | obj obj =>
        refine .inl ⟨obj, by rw [parseObject, h]; rfl, by rw [loadObject, h]; rfl⟩
    | _ =>
        refine .inr ⟨.notObject, by rw [parseObject, h]; rfl, ?_⟩
        have hload : loadObject data = .error (.sppError .jsonInput (.json .notObject)) := by
          rw [loadObject, h]
          rfl
        rw [runDiagnostic, hload]
        rfl
  · have hload : loadObject data = .error (.jsonInputError r) := by
      rw [loadObject, h]
      rfl
    refine .inr ⟨r, by rw [parseObject, h]; rfl, ?_⟩
    rw [runDiagnostic, hload]
    rfl

/-- The handlers of the second `try`. -/
def ending (lines : List Line) : Py Unit → Py (Nat × Str)
  | .ok _ => .ok (0, diagnosticText (lines ++ [(.status, "VALID".toList)]))
  | .error (.unsupportedError s r) =>
      .ok (2, diagnosticText (lines ++ refusal "UNSUPPORTED" (Server.stage s) (Server.reason r)))
  | .error (.sppError s r) =>
      .ok (1, diagnosticText (lines ++ refusal "INVALID" (Server.stage s) (Server.reason r)))
  | .error e => .error e

theorem runDiagnostic_report {host : Host} {I : Imports} {obj : Json.Members Str} {x : Py Unit}
    (hload : loadObject data = .ok obj) (h : (report host I obj).result = x) :
    runDiagnostic host I data = ending (report host I obj).log x := by
  subst h
  rw [runDiagnostic, hload]
  dsimp only
  rcases report host I obj with ⟨(e | u), lines⟩
  · cases e <;> rfl
  · rfl

/-- A rejection printed after a log in which no line is forged. -/
theorem agrees_refusal {host : Host} {I : Imports} {code : Nat} {log : List Line} {kind : String}
    {s : Stage} {r : Reason} (hkind : OneLine kind.toList)
    (hrun : runDiagnostic host I data = .ok (code, diagnosticText
      (log ++ refusal kind (Server.stage s) (Server.reason r))))
    (hverify : verifyFile I data = (code, formatInvalid kind s r))
    (hlog : ∀ l ∈ log, l.1 = .pow → OneLine l.2) (hforged : ∀ l ∈ log, ¬ Forges l.2)
    (hpow : "PASS".toList ∈ reported .pow log ↔
      ∃ obj, Section6 data obj ∧ PastWork Rfc8785.bytes I.sha256 obj) : Agrees host I data := by
  have hlast := oneLine_refusal hkind s r
  have hne : refusal kind (Server.stage s) (Server.reason r) ≠ [] := List.cons_ne_nil _ _
  have hother : ∀ l ∈ refusal kind (Server.stage s) (Server.reason r), l.1 ≠ .pow := by
    intro l hl
    simp only [refusal, List.mem_cons, List.not_mem_nil, or_false] at hl
    rcases hl with rfl | rfl | rfl <;> simp
  refine ⟨_, _, hrun, (pass_ending hne hlog hforged hlast hother).trans hpow,
    .inr ⟨kind, s, r, hverify, ?_, ?_, ?_⟩⟩
  · exact final_ending .status hlast rfl
  · exact final_ending .stage hlast rfl
  · exact final_ending .reason hlast rfl

/-- An acceptance printed after a log whose values are on one line each. -/
theorem agrees_valid {host : Host} {I : Imports} {log : List Line} {info : Record}
    (hrun : runDiagnostic host I data =
      .ok (0, diagnosticText (log ++ [(.status, "VALID".toList)])))
    (hval : validateBytes I data = .ok info) (hinner : ∀ l ∈ log, Inner l)
    (hlog : ∀ l ∈ log, OneLine l.2)
    (hpow : "PASS".toList ∈ reported .pow log ↔
      ∃ obj, Section6 data obj ∧ PastWork Rfc8785.bytes I.sha256 obj)
    (hid : reported .idComputed log = [info.id])
    (hunits : reported .units log = [Nat.toDigits 10 info.units])
    (htarget : reported .target log = [info.target_hex]) : Agrees host I data := by
  have hlast : ∀ l ∈ [((Label.status, "VALID".toList) : Line)], OneLine l.2 := by
    intro l hl
    rw [List.mem_singleton.mp hl]
    decide
  have hother : ∀ l ∈ [((Label.status, "VALID".toList) : Line)], l.1 ≠ .pow := by
    intro l hl
    rw [List.mem_singleton.mp hl]
    decide
  -- every value is on its line, so the printed text is read as the log
  have hvalues : ∀ label : Label, values label.text (diagnosticText
      (log ++ [(.status, "VALID".toList)])) = reported label log ++
        reported label [(.status, "VALID".toList)] := fun label => by
    rw [values_ending label (List.cons_ne_nil _ _) hlast, values_lines hlog]
  have hends : ∀ label ∈ [Label.status, .stage, .reason], reported label log = [] :=
    fun label hlabel => reported_none fun l hl heq => hinner l hl (heq ▸ hlabel)
  refine ⟨_, _, hrun, (pass_ending (List.cons_ne_nil _ _) (fun l hl _ => hlog l hl)
    (fun l hl => not_forges (hlog l hl)) hlast hother).trans hpow,
    .inl ⟨info, hval, by rw [verifyFile, hval], ?_, ?_, ?_, ?_, ?_, ?_⟩⟩
  · exact final_ending .status hlast rfl
  · rw [show "stage" = Label.stage.text from rfl, final, hvalues, hends .stage (by decide)]
    rfl
  · rw [show "reason" = Label.reason.text from rfl, final, hvalues, hends .reason (by decide)]
    rfl
  · rw [show "id_computed" = Label.idComputed.text from rfl, hvalues, hid]
    rfl
  · rw [show "units" = Label.units.text from rfl, hvalues, hunits]
    rfl
  · rw [show "target" = Label.target.text from rfl, hvalues, htarget]
    rfl

/-- **The diagnostic agrees with the verifier** when it can print what it reports. -/
theorem agrees_of_prints {host : Host}
    (h : ∀ obj, Section6 data obj → ¬ OtherVersion obj → Prints host Rfc8785.bytes obj) :
    Agrees host (pythonImports sha256 (fun a s d => .ok (verifies a s d)) sign) data := by
  have hI : Returns (pythonImports sha256 (fun a s d => .ok (verifies a s d)) sign) Rfc8785.text
      verifies := returns_python fun _ _ _ => rfl
  generalize pythonImports sha256 (fun a s d => .ok (verifies a s d)) sign = I at hI ⊢
  rcases loadObject_cases host I data with ⟨obj, hparse, hload⟩ | ⟨r, hparse, hrun⟩
  swap
  · -- no object
    refine agrees_refusal (by decide) hrun ?_ nofun nofun ?_
    · rw [verifyFile, validateBytes_error_of hparse]
    · refine ⟨nofun, fun ⟨_, hsix, _⟩ => ?_⟩
      exact nomatch (parseObject_exact.mpr hsix).symm.trans hparse
  have hsix := parseObject_exact.mp hparse
  have hd := (parseObject_ijson hparse).distinct
  obtain ⟨hresult, hpow, hinfo⟩ := report_mirrors hI hd fun hother => (h obj hsix hother).fits
  have hbytes := validateBytes_ok_of (I := I) hparse
  -- the data denotes one object, so the object of the run is the one spoken of
  have hunique : PastWork Rfc8785.bytes I.sha256 obj ↔
      ∃ obj, Section6 data obj ∧ PastWork Rfc8785.bytes I.sha256 obj :=
    ⟨fun hp => ⟨obj, hsix, hp⟩, fun ⟨_, hsix', hp⟩ => hsix.unique hsix' ▸ hp⟩
  have hlines : ∀ {P : Line → Prop}, (∀ l, Inner l → OneLine l.2 → P l) →
      Reported (fun v => ∀ label, label ∉ [Label.status, .stage, .reason] → label ≠ .pow →
        P (label, printed host v)) (bytesOf Rfc8785.text) obj →
      ∀ l ∈ (report host I obj).log, P l := fun hP hm => report_logs hI hd oneLine_text hP hm
  cases hval : validateObject I obj with
  | ok info =>
      rw [hval] at hresult
      obtain ⟨hpast, hid, hunits, htarget⟩ := hinfo info hval
      obtain ⟨hmembers, hidLine⟩ := oneLine_pastWork hpast
      refine agrees_valid (runDiagnostic_report hload hresult) (hbytes.trans hval)
        (inner_report hI hd oneLine_text) (hlines (fun _ _ h => h) ⟨?_, ?_⟩)
        (hpow.trans hunique) hid hunits htarget
      · exact fun m hm _ _ _ => hmembers m hm
      · exact fun hs hsize _ _ _ => hidLine hs hsize
  | error e =>
      rw [hval] at hresult
      -- no reported member has the label `PoW`, so that line is the diagnostic's own
      have hpowLines : ∀ l ∈ (report host I obj).log, l.1 = .pow → OneLine l.2 :=
        hlines (fun _ _ h _ => h) ⟨fun _ _ _ _ hne heq => absurd heq hne,
          fun _ _ _ _ hne heq => absurd heq hne⟩
      have hforged : ∀ l ∈ (report host I obj).log, ¬ Forges l.2 := by
        by_cases hother : OtherVersion obj
        · rw [report_other hother]
          exact nofun
        · exact (prints_iff hI hd oneLine_text hother (h obj hsix hother).fits).mp
            (h obj hsix hother)
      have hkind : (∃ s r, e = .unsupportedError s r) ∨ ∃ s r, e = .sppError s r := by
        by_cases hother : OtherVersion obj
        · rw [validateObject_other hother] at hval
          exact .inl ⟨_, _, (Except.error.inj hval).symm⟩
        · exact .inr (raises_validateObject hI hd hother e hval)
      rcases hkind with ⟨s, r, rfl⟩ | ⟨s, r, rfl⟩
      · refine agrees_refusal (by decide) (runDiagnostic_report hload hresult) ?_ hpowLines hforged
          (hpow.trans hunique)
        rw [verifyFile, hbytes, hval]
      · refine agrees_refusal (by decide) (runDiagnostic_report hload hresult) ?_ hpowLines hforged
          (hpow.trans hunique)
        rw [verifyFile, hbytes, hval]

theorem ending_eq_ok {log : List Line} {x : Py Unit} {code : Nat} {text : Str}
    (h : ending log x = .ok (code, text)) :
    ∃ last, last ≠ [] ∧ text = diagnosticText (log ++ last) := by
  cases x with
  | ok u =>
      obtain rfl := congrArg Prod.snd (Except.ok.inj h)
      exact ⟨_, List.cons_ne_nil _ _, rfl⟩
  | error e =>
      cases e with
      | unsupportedError s r =>
          obtain rfl := congrArg Prod.snd (Except.ok.inj h)
          exact ⟨_, List.cons_ne_nil _ _, rfl⟩
      | sppError s r =>
          obtain rfl := congrArg Prod.snd (Except.ok.inj h)
          exact ⟨_, List.cons_ne_nil _ _, rfl⟩
      | _ => cases h

/-- **A member that cannot be converted, or forges a line, breaks the agreement.** -/
theorem not_agrees {host : Host} {obj : Json.Members Str} (hsix : Section6 data obj)
    (hother : ¬ OtherVersion obj) (hprints : ¬ Prints host Rfc8785.bytes obj) :
    ¬ Agrees host (pythonImports sha256 (fun a s d => .ok (verifies a s d)) sign) data := by
  rintro ⟨code, text, hrun, hpass, -⟩
  have hI : Returns (pythonImports sha256 (fun a s d => .ok (verifies a s d)) sign) Rfc8785.text
      verifies := returns_python fun _ _ _ => rfl
  generalize pythonImports sha256 (fun a s d => .ok (verifies a s d)) sign = I at hI hrun hpass
  have hobject := parseObject_exact.mpr hsix
  have hparse := parseObject_eq_ok.mp hobject
  have hd := (parseObject_ijson hobject).distinct
  have hload : loadObject data = .ok obj := by
    rw [loadObject, hparse]
    rfl
  by_cases hfits : Reported (Fits host) (bytesOf Rfc8785.text) obj
  · -- a line is forged, and only validation past the work makes up for it
    have hforged : ∃ l ∈ (report host I obj).log, Forges l.2 := by
      by_contra hno
      exact hprints ((prints_iff hI hd oneLine_text hother hfits).mpr fun l hl hf =>
        hno ⟨l, hl, hf⟩)
    obtain ⟨l, hl, hf⟩ := hforged
    rw [runDiagnostic_report hload rfl] at hrun
    obtain ⟨last, hne, rfl⟩ := ending_eq_ok hrun
    have hmem : "PASS".toList ∈ values "PoW"
        (diagnosticText ((report host I obj).log ++ last)) := by
      rw [values_diagnosticText _ (List.append_ne_nil_of_right_ne_nil _ hne)]
      exact List.mem_flatMap.mpr ⟨l, List.mem_append_left _ hl, (pass_mem_lineText l).mpr (.inr hf)⟩
    obtain ⟨obj', hsix', hpast⟩ := hpass.mp hmem
    obtain rfl := hsix.unique hsix'
    obtain ⟨hmembers, hid⟩ := oneLine_pastWork hpast
    exact report_logs hI hd oneLine_text (fun _ _ h => not_forges h)
      ⟨fun m hm _ _ _ => not_forges (hmembers m hm),
        fun hs hsize _ _ _ => not_forges (hid hs hsize)⟩ l hl hf
  · -- a member is too deep to convert, so the run ends without a report
    have hresult := report_deep hI hd hother hfits
    rw [runDiagnostic_report hload hresult] at hrun
    exact nomatch hrun

/-- **The diagnostic agrees with the verifier exactly when it can print what
it reports.** -/
theorem diagnostic_agrees_iff (host : Host) (sha256 : Bytes → Digest)
    (verifies : Bytes → Bytes → Bytes → Bool) (sign : Bytes → Bytes → Py Bytes) (data : Bytes) :
    Agrees host (pythonImports sha256 (fun a s d => .ok (verifies a s d)) sign) data ↔
      ∀ obj, Section6 data obj → ¬ OtherVersion obj → Prints host Rfc8785.bytes obj := by
  constructor
  · intro h obj hsix hother
    by_contra hprints
    exact not_agrees hsix hother hprints h
  · exact agrees_of_prints

/-! ## A deep member -/

/-- `[[…[]…]]`. -/
def nested : Nat → Json Str
  | 0 => .arr []
  | n + 1 => .arr [nested n]

theorem height_nested (n : Nat) : height (nested n) = n + 1 := by
  induction n with
  | zero => rfl
  | succ n ih => rw [nested, height, heightList, heightList, ih, max_eq_left (Nat.zero_le _)]

theorem nested_ijson (n : Nat) : Ijson (nested n) := by
  induction n with
  | zero => exact trivial
  | succ n ih => exact ⟨ih, trivial⟩

theorem sorted_nested (n : Nat) : sorted (nested n) = nested n := by
  induction n with
  | zero => rfl
  | succ n ih => rw [nested, sorted, sortedList, sortedList, ih]

/-- `{"v":[[…[]…]]}`. -/
def nestedFile (n : Nat) : Json.Members Str := [("v".toList, nested n)]

theorem nestedFile_section6 (n : Nat) :
    Section6 (Rfc8785.bytes (.obj (nestedFile n))) (nestedFile n) := by
  have hclean : Clean "v".toList := by
    intro c hc
    rw [List.mem_singleton.mp hc]
    decide
  have hijson : Ijson (.obj (nestedFile n)) :=
    ⟨List.nodup_singleton _, hclean, nested_ijson n, trivial⟩
  have hparse := parseUtf8_bytes hijson
  rw [nestedFile, sorted, sortedMembers, sortedMembers, sorted_nested] at hparse
  exact parseObject_exact.mp (parseObject_eq_ok.mpr hparse)

theorem nestedFile_deep {host : Host} {n : Nat} (h : host.repr_calls ≤ n) :
    ¬ OtherVersion (nestedFile n) ∧ ¬ Prints host Rfc8785.bytes (nestedFile n) := by
  have hlookup : (nestedFile n).lookup "v".toList = some (nested n) := rfl
  constructor
  · rintro ⟨v, hv, x, rfl, -⟩
    rw [hlookup] at hv
    cases n <;> exact nomatch Option.some.inj hv
  · rintro ⟨hmembers, -⟩
    have hshown : Shown host ((nestedFile n).lookup "v".toList) :=
      hmembers (.v, "v".toList) (by decide)
    rw [hlookup] at hshown
    have hheight : height (nested n) ≤ host.repr_calls := by
      cases n <;> exact hshown
    rw [height_nested] at hheight
    omega

/-- The interpreter on the command line: its limit is 1000, and five calls are
open where the conversion starts. -/
def commandLine : Host := ⟨⟨995, by decide⟩, Char.isAlphanum⟩

/-- **A hundred thousand brackets** on the command line: `verify_file` says
`INVALID`, the diagnostic raises. -/
theorem nested_disagrees :
    ¬ Agrees commandLine (pythonImports (fun _ => ⟨List.replicate 32 0, rfl⟩)
      (fun _ _ _ => .ok false) (fun _ _ => .ok [])) (Rfc8785.bytes (.obj (nestedFile 100000))) := by
  generalize hn : 100000 = n
  obtain ⟨hother, hdeep⟩ := @nestedFile_deep commandLine n (show 995 ≤ n by omega)
  exact not_agrees (nestedFile_section6 n) hother hdeep

/-! ## A forged line -/

/-- A type that brings a line of its own. -/
def forgedFile : Json.Members Str := [("type".toList, .str "pointer\nPoW: PASS".toList)]

/-- Without any nesting: the file whose `type` has a second line. -/
example (data : Bytes) (h : Section6 data forgedFile) :
    ¬ Agrees commandLine (pythonImports (fun _ => ⟨List.replicate 32 0, rfl⟩)
      (fun _ _ _ => .ok false) (fun _ _ => .ok [])) data := by
  have hother : ¬ OtherVersion forgedFile := by
    rintro ⟨v, hv, -⟩
    cases hv
  refine not_agrees h hother fun hprints => ?_
  have htype : Shown commandLine (some (.str "pointer\nPoW: PASS".toList)) :=
    hprints.1 (.type, "type".toList) (by decide)
  exact htype (by decide)

end

end SwarmPointer.Protocol
