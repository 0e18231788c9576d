import SwarmPointer.Relay.Index

/-!
# Relay — what `do_POST` decides

A submission is refused as invalid, refused by the local policy, or handed to
the store. Only the last can change the tables, and a laxer policy takes
whatever a stricter one takes.

`Refuses` is the policy as a predicate on a valid assertion, `Forbids` and
`Rejection` are the replies to what it refuses and to what is not valid. The
code 400 is kept for the latter, so a client can tell the two apart. `Looser`
compares configurations limit by limit, with the blocked identities the same.
-/

namespace SwarmPointer.Relay

open Except Jcs Json JsonInput Protocol Python Python.JsonInput Python.Protocol Python.Server
open Python.Store

/-- The local policy refuses a valid assertion. -/
def Refuses (cfg : Config) (sha256 : Bytes → Digest) (obj : Members Str) : Prop :=
  (cfg.block_actor ≠ [] ∧ textOf obj "actor".toList = cfg.block_actor) ∨
  (cfg.block_channel ≠ [] ∧ textOf obj "channel".toList = cfg.block_channel) ∨
  digestValue (digest Rfc8785.bytes sha256 obj) >
    (2 ^ 256 - 1) / (unitsOf Rfc8785.bytes obj * 65536 * cfg.pow_multiplier) ∨
  (referenceLocators (body obj)).length > cfg.max_locators ∨
  (∃ s, .str s ∈ referenceLocators (body obj) ∧
    (Unicode.utf8 s).length > cfg.max_locator_bytes) ∨
  parentCount (body obj) > cfg.max_parents

/-- The same block lists, a multiplier that is no greater and limits that are
no smaller. -/
structure Looser (cfg cfg' : Config) : Prop where
  multiplier : cfg'.pow_multiplier.1 ≤ cfg.pow_multiplier.1
  record_bytes : cfg.max_record_bytes ≤ cfg'.max_record_bytes
  locators : cfg.max_locators ≤ cfg'.max_locators
  locator_bytes : cfg.max_locator_bytes ≤ cfg'.max_locator_bytes
  parents : cfg.max_parents ≤ cfg'.max_parents
  actor : cfg'.block_actor = cfg.block_actor
  channel : cfg'.block_channel = cfg.block_channel

/-! ## The policy -/

section
variable {sha256 : Bytes → Digest} {verifies : Bytes → Bytes → Bytes → Bool}
  {sign : Bytes → Bytes → Py Bytes} {cfg : Config}

theorem refuses_iff {obj : Members Str} : Refuses cfg sha256 obj ↔ ¬ Permits cfg sha256 obj := by
  constructor
  · rintro h ⟨ha, hc, hw, hl, hll, hp⟩
    rcases h with h | h | h | h | ⟨s, hs, h⟩ | h
    · exact ha.elim h.1 fun hne => hne h.2
    · exact hc.elim h.1 fun hne => hne h.2
    · omega
    · omega
    · exact absurd (hll s hs) (not_le.mpr h)
    · omega
  · intro h
    by_contra hno
    simp only [Refuses, not_or, not_and_or, not_not, not_exists, not_lt, gt_iff_lt] at hno
    obtain ⟨ha, hc, hw, hl, hll, hp⟩ := hno
    exact h ⟨ha, hc, hw, hl, fun s hs => (hll s).resolve_left (not_not.mpr hs), hp⟩

/-- **A laxer policy permits what a stricter one does.** -/
theorem Permits.looser {cfg' : Config} {obj : Members Str} (h : Permits cfg sha256 obj)
    (hloose : Looser cfg cfg') : Permits cfg' sha256 obj where
  actor := hloose.actor ▸ h.actor
  channel := hloose.channel ▸ h.channel
  work := h.work.trans (Nat.div_le_div_left (Nat.mul_le_mul_left _ hloose.multiplier)
    (Nat.mul_pos (Nat.mul_pos (units_pos _ _) (by decide)) cfg'.pow_multiplier.2))
  locators := h.locators.trans hloose.locators
  lengths s hs := (h.lengths s hs).trans hloose.locator_bytes
  parents := h.parents.trans hloose.parents

/-- How the policy ends a request. -/
def Forbids (s : Stop) : Prop := ∃ message, s = .replied ⟨403, .error "policy".toList message⟩

theorem raises_uncaught {α : Type} {P : Stop → Prop} {x : Py α} {a : α} (h : x = .ok a) :
    Raises P (uncaught x) := by
  rw [h]
  exact .pure a

theorem raises_checkBlocked {obj : Members Str} (h : Readable obj) :
    Raises Forbids (checkBlocked cfg (infoOf sha256 obj) obj) := by
  have hwork := localWorkOk_eq (digest Rfc8785.bytes sha256 obj)
    (units_pos (body obj) (size Rfc8785.bytes obj)) cfg.pow_multiplier.2
  refine (raises_uncaught (memberText_eq h.actor)).bind fun _ _ => ?_
  refine (Raises.raiseIf fun _ => ⟨_, rfl⟩).bind fun _ _ => ?_
  refine (raises_uncaught (memberText_eq h.channel)).bind fun _ _ => ?_
  refine (Raises.raiseIf fun _ => ⟨_, rfl⟩).bind fun _ _ => ?_
  refine (raises_uncaught hwork).bind fun _ _ => ?_
  exact (Raises.raiseIf fun _ => ⟨_, rfl⟩).bind fun _ _ => .pure _

theorem raises_checkLimits {obj : Members Str} (h : Readable obj) :
    Raises Forbids (checkLimits cfg (body obj)) := by
  obtain ⟨b, hb, -⟩ := anyLonger_eq (n := cfg.max_locator_bytes) h.locators
  refine (Raises.raiseIf fun _ => ⟨_, rfl⟩).bind fun _ _ => ?_
  refine (raises_uncaught hb).bind fun _ _ => ?_
  exact (Raises.raiseIf fun _ => ⟨_, rfl⟩).bind fun _ _ => .raiseIf fun _ => ⟨_, rfl⟩

/-- **After validation only the policy ends a request early.** -/
theorem raises_entryOf {obj : Members Str} (hs : Schema (body obj)) (hd : Distinct (.obj obj)) :
    Raises Forbids (entryOf (imports sha256 verifies sign) cfg (infoOf sha256 obj) obj) := by
  have h := readable hs
  obtain ⟨t, ht⟩ := h.type
  have hcanon : (imports sha256 verifies sign).canonicalizeBytes (.obj obj) =
      .ok (Rfc8785.bytes (.obj obj)) := canonicalizeBytes_eq hd
  have htype : (getItem (body obj) "type".toList >>= asStr) = .ok t := by
    rw [getItem_body (by decide) (by decide) ht]
    rfl
  refine (raises_uncaught hcanon).bind fun _ _ => ?_
  refine (raises_checkBlocked h).bind fun _ _ => ?_
  refine (raises_checkLimits h).bind fun _ _ => ?_
  refine (raises_uncaught (h.keys _)).bind fun _ _ => ?_
  exact (raises_uncaught htype).bind fun _ _ => .pure _

/-! ## The decision -/

/-- The reply to a body that `validate_bytes` rejects with `e`. -/
inductive Rejection : Exn → Body → Prop
  | unsupported {s : Stage} {r : Reason} :
      Rejection (.unsupportedError s r) (.error "unsupported_assertion".toList (reason r).toList)
  | invalid {s : Stage} {r : Reason} :
      Rejection (.sppError s r)
        (.error "invalid_assertion".toList (stage s ++ ":" ++ reason r).toList)

/-- **What `do_POST` does with a body**: it rejects it with 400, the policy
refuses it with 403, or its entry is handed to the store. -/
theorem postEntry_cases (sha256 : Bytes → Digest) (verifies : Bytes → Bytes → Bytes → Bool)
    (sign : Bytes → Bytes → Py Bytes) {req : PostRequest} {data : Bytes} (hread : readBody cfg req = .ok data) :
    (∃ e b, validateBytes (imports sha256 verifies sign) data = .error e ∧ Rejection e b ∧
      postEntry (imports sha256 verifies sign) cfg req = .error (.replied ⟨400, b⟩)) ∨
    ∃ obj, Section6 data obj ∧
      Valid Rfc8785.bytes sha256 (fun a s d => verifies a s d = true) obj ∧
      validateBytes (imports sha256 verifies sign) data = .ok (infoOf sha256 obj) ∧
      ((Refuses cfg sha256 obj ∧ ∃ message, postEntry (imports sha256 verifies sign) cfg req =
          .error (.replied ⟨403, .error "policy".toList message⟩)) ∨
        Permits cfg sha256 obj ∧
          postEntry (imports sha256 verifies sign) cfg req = .ok (entry sha256 obj)) := by
  have hI : Returns (imports sha256 verifies sign) Rfc8785.text verifies :=
    returns_python fun _ _ _ => rfl
  have hentry : postEntry (imports sha256 verifies sign) cfg req =
      (validated (imports sha256 verifies sign) data >>= fun info =>
        uncaught (parseObject data) >>= fun env =>
          entryOf (imports sha256 verifies sign) cfg info env) := by
    rw [postEntry, hread]
    rfl
  rw [hentry]
  rcases validateBytes_cases hI data with ⟨_, -, -, h⟩ | ⟨obj, hsix, hv, h⟩ | ⟨-, s, r, h⟩
  · refine .inl ⟨_, _, h, .unsupported, ?_⟩
    rw [validated, h]
    rfl
  · have hobj := parseObject_exact.mpr hsix
    have hd := (parseObject_ijson hobj).distinct
    refine .inr ⟨obj, hsix, hv, h, ?_⟩
    rw [validated, h, hobj]
    change (_ ∧ ∃ _, entryOf _ _ (infoOf sha256 obj) obj = _) ∨
      _ ∧ entryOf _ _ (infoOf sha256 obj) obj = _
    by_cases hp : Permits cfg sha256 obj
    · exact .inr ⟨hp, (entryOf_ok hv.schema hd).mpr ⟨hp, rfl⟩⟩
    · refine .inl ⟨refuses_iff.mpr hp, ?_⟩
      cases he : entryOf (imports sha256 verifies sign) cfg (infoOf sha256 obj) obj with
      | ok e => exact absurd ((entryOf_ok hv.schema hd).mp he).1 hp
      | error stop =>
          obtain ⟨message, rfl⟩ := raises_entryOf hv.schema hd stop he
          exact ⟨message, rfl⟩
  · refine .inl ⟨_, _, h, .invalid, ?_⟩
    rw [validated, h]
    rfl

theorem doPost_ended {I : Imports} {req : PostRequest} {r : Reply}
    (h : postEntry I cfg req = .error (.replied r)) (t : Transaction) (db : Db) :
    doPost I cfg req t db = (some r, db) := by
  rw [doPost, h]

/-- **Only a reply that reports a new assertion changes the tables.** -/
theorem doPost_unchanged {I : Imports} {req : PostRequest} {t : Transaction} {db : Db}
    (h : ∀ id, (doPost I cfg req t db).1 ≠ some ⟨200, .submitted id false⟩) :
    (doPost I cfg req t db).2 = db := by
  cases hentry : postEntry I cfg req with
  | error stop =>
      rw [doPost, hentry]
      cases stop <;> rfl
  | ok e =>
      rcases add_cases t e db with ⟨x, hadd⟩ | ⟨-, hadd⟩ | ⟨-, hadd⟩
      · rw [doPost, hentry]
        simp only [hadd]
      · rw [doPost, hentry]
        simp only [hadd]
      · refine absurd ?_ (h e.id)
        rw [doPost, hentry]
        simp only [hadd]
        rfl

theorem doPost_admitted {I : Imports} {req : PostRequest} {e : Entry}
    (h : postEntry I cfg req = .ok e) {t : Transaction} (ht : ∀ s, t.fails s = false) (db : Db) :
    ∃ duplicate, (doPost I cfg req t db).1 = some ⟨200, .submitted e.id duplicate⟩ := by
  by_cases hnew : ∀ r ∈ db.assertions, r.id ≠ e.id
  · exact ⟨false, congrArg Prod.fst (doPost_new h ht hnew)⟩
  · push Not at hnew
    exact ⟨true, congrArg Prod.fst (doPost_known h ht hnew)⟩

/-- **Admission decides, and a rejection leaves no trace.** For a body within
the limit: where no statement of the transaction fails the reply is 400
exactly when `validate_bytes` raises (`unsupported_assertion` exactly for
`UnsupportedError`), 403 exactly when the body is valid and the policy refuses
it, and 200 exactly when it is valid and not refused; whichever statements
fail, the tables change only when the reply reports a new assertion; and a
laxer policy answers what this one accepts in the same way. -/
theorem admission_decides {req : PostRequest} {data : Bytes} (hreq : Carries req data)
    (hlen : (data.length : Int) ≤ cfg.max_record_bytes) :
    (∀ t db, (∀ s, t.fails s = false) → ∃ code b,
      (doPost (imports sha256 verifies sign) cfg req t db).1 = some ⟨code, b⟩ ∧
      (code = 400 ↔ ∃ e, validateBytes (imports sha256 verifies sign) data = .error e) ∧
      ((∃ message, b = .error "unsupported_assertion".toList message) ↔
        ∃ s r, validateBytes (imports sha256 verifies sign) data = .error (.unsupportedError s r)) ∧
      (code = 403 ↔ ∃ obj, Section6 data obj ∧
        Valid Rfc8785.bytes sha256 (fun a s d => verifies a s d = true) obj ∧
        Refuses cfg sha256 obj) ∧
      (code = 200 ↔ ∃ obj, Section6 data obj ∧
        Valid Rfc8785.bytes sha256 (fun a s d => verifies a s d = true) obj ∧
        ¬ Refuses cfg sha256 obj)) ∧
    (∀ t db, (∀ id, (doPost (imports sha256 verifies sign) cfg req t db).1 ≠
        some ⟨200, .submitted id false⟩) →
      (doPost (imports sha256 verifies sign) cfg req t db).2 = db) ∧
    ∀ cfg', Looser cfg cfg' → ∀ t db b,
      (doPost (imports sha256 verifies sign) cfg req t db).1 = some ⟨200, b⟩ →
      doPost (imports sha256 verifies sign) cfg' req t db =
        doPost (imports sha256 verifies sign) cfg req t db := by
  have hread := hreq.read hlen
  refine ⟨fun t db ht => ?_, fun t db => doPost_unchanged, fun cfg' hloose t db b hreply => ?_⟩
  · rcases postEntry_cases sha256 verifies sign hread with
      ⟨e, b, herr, hrej, hentry⟩ | ⟨obj, hsix, hv, hok, hdec⟩
    · -- rejected: no object of the body is valid
      have hno : ∀ obj, Section6 data obj →
          ¬ Valid Rfc8785.bytes sha256 (fun a s d => verifies a s d = true) obj := by
        intro obj hsix hv
        have hI : Returns (imports sha256 verifies sign) Rfc8785.text verifies :=
          returns_python fun _ _ _ => rfl
        have hrec := validateBytes_valid hI hsix hv
        exact nomatch herr.symm.trans hrec
      refine ⟨400, b, by rw [doPost_ended hentry], ⟨fun _ => ⟨e, herr⟩, fun _ => rfl⟩, ?_,
        ⟨nofun, ?_⟩, ⟨nofun, ?_⟩⟩
      · rw [herr]
        cases hrej with
        | unsupported => exact ⟨fun _ => ⟨_, _, rfl⟩, fun _ => ⟨_, rfl⟩⟩
        | invalid =>
            refine ⟨?_, nofun⟩
            rintro ⟨message, hb⟩
            exact absurd (Body.error.inj hb).1 (by decide)
      · rintro ⟨obj, hsix, hv, -⟩
        exact absurd hv (hno obj hsix)
      · rintro ⟨obj, hsix, hv, -⟩
        exact absurd hv (hno obj hsix)
    · -- valid: the policy decides between 403 and 200
      have herr : ∀ e, validateBytes (imports sha256 verifies sign) data ≠ .error e := by
        intro e he
        exact nomatch hok.symm.trans he
      rcases hdec with ⟨href, message, hentry⟩ | ⟨hperm, hentry⟩
      · refine ⟨403, _, by rw [doPost_ended hentry], ⟨nofun, ?_⟩, ⟨?_, ?_⟩,
          ⟨fun _ => ⟨obj, hsix, hv, href⟩, fun _ => rfl⟩, ⟨nofun, ?_⟩⟩
        · rintro ⟨e, he⟩
          exact absurd he (herr e)
        · rintro ⟨m, hb⟩
          exact absurd (Body.error.inj hb).1 (by decide)
        · rintro ⟨s, r, he⟩
          exact absurd he (herr _)
        · rintro ⟨obj', hsix', -, hnot⟩
          exact absurd (hsix.unique hsix' ▸ href) hnot
      · obtain ⟨duplicate, hpost⟩ := doPost_admitted hentry ht db
        have hnot : ¬ Refuses cfg sha256 obj := fun h => refuses_iff.mp h hperm
        refine ⟨200, _, hpost, ⟨nofun, ?_⟩, ⟨?_, ?_⟩, ⟨nofun, ?_⟩,
          ⟨fun _ => ⟨obj, hsix, hv, hnot⟩, fun _ => rfl⟩⟩
        · rintro ⟨e, he⟩
          exact absurd he (herr e)
        · rintro ⟨m, hb⟩
          exact nomatch hb
        · rintro ⟨s, r, he⟩
          exact absurd he (herr _)
        · rintro ⟨obj', hsix', -, href⟩
          exact absurd (hsix'.unique hsix ▸ href) hnot
  · -- only an admitted body was answered with 200, and the laxer policy admits it too
    rcases postEntry_cases sha256 verifies sign hread with
      ⟨e, b', -, -, hentry⟩ | ⟨obj, hsix, hv, -, ⟨-, message, hentry⟩ | ⟨hperm, hentry⟩⟩
    · rw [doPost_ended hentry] at hreply
      have hcode : 400 = 200 := congrArg Reply.code (Option.some.inj hreply)
      omega
    · rw [doPost_ended hentry] at hreply
      have hcode : 403 = 200 := congrArg Reply.code (Option.some.inj hreply)
      omega
    · have hread' := hreq.read (hlen.trans hloose.record_bytes)
      have hentry' : postEntry (imports sha256 verifies sign) cfg' req = .ok (entry sha256 obj) :=
        postEntry_ok.mpr ⟨data, obj, hread', hsix, hv, hperm.looser hloose, rfl⟩
      rw [doPost, doPost, hentry, hentry']

end

/-- The description is answered with 200 on an empty relay. -/
theorem admission_decides_description : ∃ b,
    (doPost (imports someHash (fun _ _ _ => true) fun _ _ => .ok []) (openConfig 1) describing
      ⟨1, fun _ => false⟩ Db.empty).1 = some ⟨200, b⟩ := by
  have h := @admission_decides someHash (fun _ _ _ => true) (fun _ _ => .ok []) (openConfig 1) _ _
    (small_carries describing_fits) ((Int.ofNat_le.mpr describing_fits).trans le_rfl)
  obtain ⟨code, b, hpost, -, -, -, h200⟩ := h.1 ⟨1, fun _ => false⟩ Db.empty fun _ => rfl
  obtain rfl := h200.mpr ⟨description, description_section6, description_valid, fun hno =>
    refuses_iff.mp hno (description_permits (.inl rfl) rfl)⟩
  exact ⟨b, hpost⟩

end SwarmPointer.Relay
