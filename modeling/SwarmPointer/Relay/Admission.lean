import SwarmPointer.Ed25519.Signing
import SwarmPointer.Protocol.Verdict
import SwarmPointer.Relay.Cursor
import SwarmPointer.Python.Server

/-!
# Relay — what is admitted

`do_POST` up to the transaction: it hands an entry to `add` exactly for the
valid assertions that the local policy permits, and the entry is a function
of the assertion.

`Carries` is what a request has to look like for its body to be read at all:
the path, the media type, the length. The policy is a predicate on the members
of the assertion (`Permits`), stated independently of the code that reads them.
The handler reads members with look-ups that would raise `KeyError`; on a valid
assertion they succeed.

The last section writes out a channel description and a pointer in it, with
identifiers that meet the work condition, for the results that exhibit a run.
-/

namespace SwarmPointer.Relay

open Except Jcs Json JsonInput Protocol Python Python.JsonInput Python.Protocol Python.Server
open Python.Store

/-- `protocol.py` with a hash and a signature predicate. -/
abbrev imports (sha256 : Bytes → Digest) (verifies : Bytes → Bytes → Bytes → Bool)
    (sign : Bytes → Bytes → Py Bytes) : Imports :=
  pythonImports sha256 (fun a s d => .ok (verifies a s d)) sign

/-! ## The entry of an assertion -/

/-- The string a member holds, empty when it holds none. -/
def textOf (obj : Members Str) (k : Str) : Str :=
  match obj.lookup k with
  | some (.str s) => s
  | _ => []

/-- The hash of a reference object. -/
def hashOf (v : Option (Json Str)) : Option Str :=
  match v with
  | some (.obj ms) => some (textOf ms "hash".toList)
  | _ => none

/-- The channel an assertion is in: for a channel description its own. -/
def channelOf (ident : Str) (obj : Members Str) : Str :=
  if textOf obj "type".toList = "channel".toList then ident else textOf obj "channel".toList

/-- The object an assertion is about. -/
def objectOf (obj : Members Str) : Option Str :=
  if textOf obj "type".toList = "channel".toList then hashOf (obj.lookup "descriptor".toList)
  else hashOf (obj.lookup "ref".toList)

/-- The identifier of an assertion. -/
def identOf (sha256 : Bytes → Digest) (obj : Members Str) : Str :=
  idText (digest Rfc8785.bytes sha256 obj)

/-- The row of an assertion. -/
def entry (sha256 : Bytes → Digest) (obj : Members Str) : Entry where
  id := identOf sha256 obj
  envelope := Rfc8785.bytes (.obj obj)
  type := textOf obj "type".toList
  actor := textOf obj "actor".toList
  channel := some (channelOf (identOf sha256 obj) obj)
  object_hash := objectOf obj

/-- What the local policy asks of a valid assertion. -/
structure Permits (cfg : Config) (sha256 : Bytes → Digest) (obj : Members Str) : Prop where
  actor : cfg.block_actor = [] ∨ textOf obj "actor".toList ≠ cfg.block_actor
  channel : cfg.block_channel = [] ∨ textOf obj "channel".toList ≠ cfg.block_channel
  work : digestValue (digest Rfc8785.bytes sha256 obj) ≤
    (2 ^ 256 - 1) / (unitsOf Rfc8785.bytes obj * 65536 * cfg.pow_multiplier)
  locators : (referenceLocators (body obj)).length ≤ cfg.max_locators
  lengths : ∀ s, .str s ∈ referenceLocators (body obj) →
    (Unicode.utf8 s).length ≤ cfg.max_locator_bytes
  parents : parentCount (body obj) ≤ cfg.max_parents

/-! ## Members of a valid assertion -/

theorem textOf_eq {obj : Members Str} {k s : Str} (h : obj.lookup k = some (.str s)) :
    textOf obj k = s := by
  rw [textOf, h]

theorem memberText_eq {obj : Members Str} {k : Str}
    (h : Optional obj k fun v => ∃ s, v = .str s) : memberText obj k = .ok (textOf obj k) := by
  rw [memberText, textOf]
  cases hk : obj.lookup k with
  | none => rfl
  | some v =>
      obtain ⟨s, rfl⟩ := h v hk
      rfl

/-- Reading a member that the body has. -/
theorem getItem_body {obj : Members Str} {k : Str} (hid : k ≠ "id".toList) (hsig : k ≠ "sig".toList)
    {v : Json Str} (h : obj.lookup k = some v) : getItem (body obj) k = .ok v :=
  getItem_eq_ok.mpr ((lookup_body hid hsig).trans h)

/-- What the admission code reads of a valid assertion. -/
structure Readable (obj : Members Str) : Prop where
  actor : Optional obj "actor".toList fun v => ∃ s, v = .str s
  channel : Optional obj "channel".toList fun v => ∃ s, v = .str s
  locators : ∀ v ∈ referenceLocators (body obj), ∃ s, v = .str s
  keys : ∀ ident, indexKeys ident (body obj) = .ok (channelOf ident obj, objectOf obj)
  type : ∃ t, obj.lookup "type".toList = some (.str t)

theorem locators_of_ref {v : Option (Json Str)} (h : ∀ r, v = some r → IsRef r) {ref : Members Str}
    {locs : List (Json Str)} (hv : v = some (.obj ref))
    (hl : ref.lookup "locators".toList = some (.arr locs)) : ∀ l ∈ locs, ∃ s, l = .str s := by
  obtain ⟨ms, hms, -, -, w, hw, ls, rfl, -, hall⟩ := h _ hv
  obtain rfl := Json.obj.inj hms
  obtain rfl := Json.arr.inj (Option.some.inj (hl.symm.trans hw))
  intro l hmem
  obtain ⟨s, rfl, -⟩ := hall l hmem
  exact ⟨s, rfl⟩

/-- The locators of a body whose reference has the right shape are strings. -/
theorem referenceLocators_strings {u : Members Str}
    (h : ∀ r, reference u = some r → IsRef r) : ∀ v ∈ referenceLocators u, ∃ s, v = .str s := by
  intro v hv
  rw [referenceLocators] at hv
  split at hv
  · rename_i ref href
    split at hv
    · rename_i locs hlocs
      exact locators_of_ref h href hlocs v hv
    · cases hv
  · cases hv

theorem hash_of_ref {r : Json Str} (h : IsRef r) :
    ∃ ms s, r = .obj ms ∧ getItem ms "hash".toList = .ok (.str s) ∧ hashOf (some r) = some s := by
  obtain ⟨ms, rfl, -, ⟨v, hv, bs, -, rfl⟩, -⟩ := h
  exact ⟨ms, _, rfl, getItem_eq_ok.mpr hv, congrArg some (textOf_eq hv)⟩

theorem indexKeys_channel {ident : Str} {u : Members Str}
    (h : getItem u "type".toList = .ok (.str "channel".toList)) :
    indexKeys ident u = describedKeys ident u := by
  rw [indexKeys, h]
  rfl

theorem indexKeys_pointer {ident : Str} {u : Members Str}
    (h : getItem u "type".toList = .ok (.str "pointer".toList)) :
    indexKeys ident u = pointedKeys u := by
  rw [indexKeys, h]
  rfl

theorem describedKeys_eq {ident : Str} {u : Members Str}
    (h : Optional u "descriptor".toList IsRef) :
    describedKeys ident u = .ok (ident, hashOf (u.lookup "descriptor".toList)) := by
  rw [describedKeys]
  cases hd : u.lookup "descriptor".toList with
  | none => rfl
  | some r =>
      obtain ⟨ms, s, rfl, hget, hhash⟩ := hash_of_ref (h r hd)
      rw [hhash]
      simp only [hget, ok_bind, asStr]

theorem pointedKeys_eq {u : Members Str} (hc : Has u "channel".toList IsSha256Id)
    (hr : Has u "ref".toList IsRef) :
    pointedKeys u = .ok (textOf u "channel".toList, hashOf (u.lookup "ref".toList)) := by
  obtain ⟨v, hv, bs, -, rfl⟩ := hc
  obtain ⟨r, hr, href⟩ := hr
  obtain ⟨ms, s, rfl, hget, hhash⟩ := hash_of_ref href
  rw [pointedKeys, getItem_eq_ok.mpr hv, getItem_eq_ok.mpr hr, textOf_eq hv, hr, hhash]
  simp only [ok_bind, asStr, subscript, hget]

theorem reference_channel {u : Members Str}
    (h : u.lookup "type".toList = some (.str "channel".toList)) :
    reference u = u.lookup "descriptor".toList := by
  rw [reference, h]
  rfl

theorem reference_pointer {u : Members Str}
    (h : u.lookup "type".toList = some (.str "pointer".toList)) :
    reference u = u.lookup "ref".toList := by
  rw [reference, h]
  rfl

theorem textOf_body {obj : Members Str} {k : Str} (hid : k ≠ "id".toList)
    (hsig : k ≠ "sig".toList) : textOf (body obj) k = textOf obj k := by
  rw [textOf, lookup_body hid hsig, textOf]

/-- **A valid assertion has every member the admission code reads.** -/
theorem readable {obj : Members Str} (h : Schema (body obj)) : Readable obj := by
  have hlook : ∀ {k : Str}, k ≠ "id".toList → k ≠ "sig".toList →
      (body obj).lookup k = obj.lookup k := lookup_body
  have hactor : Optional obj "actor".toList fun v => ∃ s, v = .str s := by
    intro v hv
    obtain ⟨a, ha, key, -, rfl⟩ := h.actor
    rw [hlook (by decide) (by decide), hv] at ha
    exact ⟨_, Option.some.inj ha⟩
  rcases h.kind with ⟨htype, -, hc, hr, -⟩ | ⟨htype, hc, -, -, hd⟩
  · have htype' := hlook (k := "type".toList) (by decide) (by decide) ▸ htype
    have hne : textOf obj "type".toList ≠ "channel".toList := by
      rw [textOf_eq htype']
      decide
    refine ⟨hactor, ?_, referenceLocators_strings ?_, fun ident => ?_, _, htype'⟩
    · intro v hv
      obtain ⟨c, hc, bs, -, rfl⟩ := hc
      rw [hlook (by decide) (by decide), hv] at hc
      exact ⟨_, Option.some.inj hc⟩
    · rw [reference_pointer htype]
      intro r hr'
      obtain ⟨r', hr, href⟩ := hr
      exact Option.some.inj (hr.symm.trans hr') ▸ href
    · rw [indexKeys_pointer (getItem_eq_ok.mpr htype), pointedKeys_eq hc hr, channelOf, objectOf,
        if_neg hne, if_neg hne, textOf_body (by decide) (by decide),
        hlook (by decide) (by decide)]
  · have htype' := hlook (k := "type".toList) (by decide) (by decide) ▸ htype
    have heq : textOf obj "type".toList = "channel".toList := textOf_eq htype'
    refine ⟨hactor, ?_, referenceLocators_strings ?_, fun ident => ?_, _, htype'⟩
    · intro v hv
      rw [Absent, hlook (by decide) (by decide), hv] at hc
      cases hc
    · rw [reference_channel htype]
      exact hd
    · rw [indexKeys_channel (getItem_eq_ok.mpr htype), describedKeys_eq hd, channelOf, objectOf,
        if_pos heq, if_pos heq, hlook (by decide) (by decide)]

/-! ## The work multiplier -/

theorem inHex_hexDigit {n : Nat} (h : n < 16) : inHex (hexDigit n) = true := by
  have key : ∀ n < 16, inHex (hexDigit n) = true := by decide
  exact key n h

theorem hex_inHex (bs : Bytes) : (hex bs).all inHex = true := by
  induction bs with
  | nil => rfl
  | cons b bs ih =>
      have hb := b.toNat_lt
      rw [hex_cons, List.all_cons, List.all_cons, inHex_hexDigit (by omega),
        inHex_hexDigit (by omega), ih]
      rfl

/-- Reading hexadecimal digits is reading bytes. -/
theorem foldl_hex (bs : Bytes) (n : Nat) :
    (hex bs).foldl (fun n c => 16 * n + (JsonGrammar.hexVal c).getD 0) n =
      bs.foldl (fun n b => 256 * n + b.toNat) n := by
  induction bs generalizing n with
  | nil => rfl
  | cons b bs ih =>
      have hb := b.toNat_lt
      have hbyte : 16 * (16 * n + b.toNat / 16) + b.toNat % 16 = 256 * n + b.toNat := by omega
      rw [hex_cons, List.foldl_cons, List.foldl_cons, hexVal_hexDigit (by omega),
        hexVal_hexDigit (by omega), Option.getD_some, Option.getD_some, hbyte, ih,
        List.foldl_cons]

theorem int16_ident (d : Digest) : int16 ((idText d).drop 7) = .ok (digestValue d) := by
  have hdrop : (idText d).drop 7 = hex d.1 := rfl
  have hne : hex d.1 ≠ [] := by
    intro h
    have hlen := hex_length d.1
    rw [h, d.2] at hlen
    cases hlen
  rw [hdrop, int16, if_pos ⟨hne, hex_inHex d.1⟩, foldl_hex]
  rfl

theorem localWorkOk_eq (d : Digest) {units multiplier : Nat} (hu : 0 < units)
    (hm : 0 < multiplier) : localWorkOk (idText d) units multiplier =
      .ok (decide (digestValue d ≤ (2 ^ 256 - 1) / (units * 65536 * multiplier))) := by
  have hmax : MAX_H = 2 ^ 256 - 1 := by decide
  have hpos : units * 65536 * multiplier ≠ 0 := (Nat.mul_pos (by omega) hm).ne'
  rw [localWorkOk, int16_ident, ok_bind, UNIT_SCALE, if_neg hpos, hmax]

/-! ## The policy -/

@[simp] theorem uncaught_eq_ok {α : Type} {x : Py α} {a : α} : uncaught x = .ok a ↔ x = .ok a := by
  cases x with
  | error e => exact ⟨nofun, nofun⟩
  | ok b => exact ⟨fun h => congrArg Except.ok (Except.ok.inj h),
      fun h => congrArg Except.ok (Except.ok.inj h)⟩

theorem anyLonger_eq {n : Nat} {vs : List (Json Str)} (h : ∀ v ∈ vs, ∃ s, v = .str s) :
    ∃ b, anyLonger n vs = .ok b ∧ (b = false ↔ ∀ s, .str s ∈ vs → (Unicode.utf8 s).length ≤ n) := by
  induction vs with
  | nil => exact ⟨false, rfl, fun _ s hs => absurd hs List.not_mem_nil, fun _ => rfl⟩
  | cons v vs ih =>
      obtain ⟨s, rfl⟩ := h v (List.mem_cons_self ..)
      obtain ⟨b, hb, hiff⟩ := ih fun v hv => h v (List.mem_cons_of_mem _ hv)
      rw [anyLonger, asStr, ok_bind]
      by_cases hlen : (Unicode.utf8 s).length > n
      · rw [if_pos hlen]
        refine ⟨true, rfl, fun h => Bool.noConfusion h, fun hall => ?_⟩
        exact absurd hlen (not_lt.mpr (hall s (List.mem_cons_self ..)))
      · rw [if_neg hlen]
        refine ⟨b, hb, hiff.trans ⟨fun hall t ht => ?_, fun hall t ht => ?_⟩⟩
        · rcases List.mem_cons.mp ht with heq | ht
          · rw [Json.str.inj heq]
            exact not_lt.mp hlen
          · exact hall t ht
        · exact hall t (List.mem_cons_of_mem _ ht)

section
variable {sha256 : Bytes → Digest} {verifies : Bytes → Bytes → Bytes → Bool}
  {sign : Bytes → Bytes → Py Bytes} {cfg : Config}

/-- The record of a valid assertion. -/
abbrev infoOf (sha256 : Bytes → Digest) (obj : Members Str) : Record :=
  recordOf Rfc8785.text sha256 obj

theorem checkBlocked_ok {obj : Members Str} (h : Readable obj) {a : Str} :
    checkBlocked cfg (infoOf sha256 obj) obj = .ok a ↔
      (cfg.block_actor = [] ∨ textOf obj "actor".toList ≠ cfg.block_actor) ∧
      (cfg.block_channel = [] ∨ textOf obj "channel".toList ≠ cfg.block_channel) ∧
      digestValue (digest Rfc8785.bytes sha256 obj) ≤
        (2 ^ 256 - 1) / (unitsOf Rfc8785.bytes obj * 65536 * cfg.pow_multiplier) ∧
      a = textOf obj "actor".toList := by
  have hwork : localWorkOk (infoOf sha256 obj).id (infoOf sha256 obj).units cfg.pow_multiplier =
      .ok (decide (digestValue (digest Rfc8785.bytes sha256 obj) ≤
        (2 ^ 256 - 1) / (unitsOf Rfc8785.bytes obj * 65536 * cfg.pow_multiplier))) :=
    localWorkOk_eq _ (units_pos _ _) cfg.pow_multiplier.2
  rw [checkBlocked, memberText_eq h.actor, memberText_eq h.channel, hwork]
  simp only [uncaught, ok_bind, bind_eq_ok_iff, raiseIf_eq_ok, exists_const, Bool.not_eq_false,
    decide_eq_true_eq, Decidable.not_and_iff_not_or_not, not_not, Except.ok.injEq, eq_comm (b := a)]

theorem checkLimits_ok {obj : Members Str} (h : Readable obj) {x : Unit} :
    checkLimits cfg (body obj) = .ok x ↔
      (referenceLocators (body obj)).length ≤ cfg.max_locators ∧
      (∀ s, .str s ∈ referenceLocators (body obj) →
        (Unicode.utf8 s).length ≤ cfg.max_locator_bytes) ∧
      parentCount (body obj) ≤ cfg.max_parents := by
  obtain ⟨b, hb, hiff⟩ := anyLonger_eq (n := cfg.max_locator_bytes) h.locators
  rw [checkLimits, hb]
  simp only [uncaught, ok_bind, bind_eq_ok_iff, raiseIf_eq_ok, exists_const, gt_iff_lt, not_lt,
    Bool.not_eq_true, hiff]

/-- **The policy decides, and the entry is that of the assertion.** -/
theorem entryOf_ok {obj : Members Str} (hs : Schema (body obj)) (hd : Distinct (.obj obj))
    {e : Entry} :
    entryOf (imports sha256 verifies sign) cfg
        (infoOf sha256 obj) obj = .ok e ↔ Permits cfg sha256 obj ∧ e = entry sha256 obj := by
  have h := readable hs
  obtain ⟨t, ht⟩ := h.type
  have hcanon : (imports sha256 verifies sign).canonicalizeBytes
      (.obj obj) = .ok (Rfc8785.bytes (.obj obj)) := canonicalizeBytes_eq hd
  have htype : (getItem (body obj) "type".toList >>= asStr) = .ok t := by
    rw [getItem_body (by decide) (by decide) ht]
    rfl
  have hkeys : indexKeys (infoOf sha256 obj).id (body obj) =
      .ok (channelOf (identOf sha256 obj) obj, objectOf obj) := h.keys _
  have hentry : entry sha256 obj = ⟨(infoOf sha256 obj).id, Rfc8785.bytes (.obj obj), t,
      textOf obj "actor".toList, some (channelOf (identOf sha256 obj) obj), objectOf obj⟩ := by
    rw [entry, textOf_eq ht]
    rfl
  have hbody : reconstructU obj = body obj := rfl
  rw [entryOf]
  simp only [bind_eq_ok_iff, uncaught_eq_ok, checkBlocked_ok h, hbody, checkLimits_ok h, hkeys,
    htype, hcanon, Except.ok.injEq]
  constructor
  · rintro ⟨_, rfl, _, ⟨ha, hc, hw, rfl⟩, _, ⟨hl, hll, hp⟩, _, rfl, _, rfl, rfl⟩
    exact ⟨⟨ha, hc, hw, hl, hll, hp⟩, hentry.symm⟩
  · rintro ⟨⟨ha, hc, hw, hl, hll, hp⟩, rfl⟩
    exact ⟨_, rfl, _, ⟨ha, hc, hw, rfl⟩, (), ⟨hl, hll, hp⟩, _, rfl, _, rfl, hentry.symm⟩

theorem validated_eq_ok {I : Imports} {data : Bytes} {info : Record} :
    validated I data = .ok info ↔ validateBytes I data = .ok info := by
  rw [validated]
  split
  · rename_i info' h
    rw [h]
    exact ⟨fun h => congrArg Except.ok (Except.ok.inj h), fun h => congrArg Except.ok (Except.ok.inj h)⟩
  all_goals
    rename_i h
    rw [h]
    exact ⟨nofun, nofun⟩

/-- **`do_POST` reaches the store exactly with the permitted valid assertions.** -/
theorem postEntry_ok {req : PostRequest} {e : Entry} :
    postEntry (imports sha256 verifies sign) cfg req = .ok e ↔
      ∃ data obj, readBody cfg req = .ok data ∧ Section6 data obj ∧
        Valid Rfc8785.bytes sha256 (fun a s d => verifies a s d = true) obj ∧
        Permits cfg sha256 obj ∧ e = entry sha256 obj := by
  have hI : Returns (imports sha256 verifies sign) Rfc8785.text
      verifies := returns_python fun _ _ _ => rfl
  rw [postEntry]
  simp only [bind_eq_ok_iff, uncaught_eq_ok, validated_eq_ok]
  constructor
  · rintro ⟨data, hread, info, hinfo, obj, hobj, he⟩
    have hd := (parseObject_ijson hobj).distinct
    rw [validateBytes_ok_of hobj] at hinfo
    obtain ⟨hv, rfl⟩ := (validateObject_ok hI hd).mp hinfo
    exact ⟨data, obj, hread, parseObject_exact.mp hobj, hv, (entryOf_ok hv.schema hd).mp he⟩
  · rintro ⟨data, obj, hread, hsix, hv, he⟩
    have hobj := parseObject_exact.mpr hsix
    have hd := (parseObject_ijson hobj).distinct
    refine ⟨data, hread, infoOf sha256 obj, ?_, obj, hobj, (entryOf_ok hv.schema hd).mpr he⟩
    rw [validateBytes_ok_of hobj]
    exact (validateObject_ok hI hd).mpr ⟨hv, rfl⟩

end

/-! ## A submission -/

/-- A POST of `data` the way clients send it. -/
def submission (data : Bytes) : PostRequest where
  path := "/v1/assertions".toList
  content_encoding := none
  content_type := some "application/json".toList
  content_length := some (Nat.toDigits 10 data.length)
  stream := data

/-- A POST of `data` to `/v1/assertions` with an accepted `Content-Type`, the
identity encoding and the right length. -/
structure Carries (req : PostRequest) (data : Bytes) : Prop where
  path : req.path = "/v1/assertions".toList
  encoding : req.content_encoding.getD [] = [] ∨
    lower (req.content_encoding.getD []) = "identity".toList
  type : mediaType (req.content_type.getD []) ∈
    ["application/json".toList, "application/spp+json".toList]
  length : contentLength req.content_length = .ok (data.length : Int)
  stream : req.stream.take data.length = data

/-- **A body within the limit is read whole.** -/
theorem Carries.read {cfg : Config} {req : PostRequest} {data : Bytes} (h : Carries req data)
    (hlen : (data.length : Int) ≤ cfg.max_record_bytes) : readBody cfg req = .ok data := by
  have htake : req.stream.take (data.length : Int).toNat = data := by
    rw [Int.toNat_natCast, h.stream]
  rw [readBody]
  refine bind_eq_ok_iff.mpr ⟨(), raiseIf_eq_ok.mpr (not_not.mpr h.path), ?_⟩
  refine bind_eq_ok_iff.mpr ⟨(), raiseIf_eq_ok.mpr fun hbad => ?_, ?_⟩
  · exact h.encoding.elim hbad.1 hbad.2
  refine bind_eq_ok_iff.mpr ⟨(), raiseIf_eq_ok.mpr (not_not.mpr h.type), ?_⟩
  refine bind_eq_ok_iff.mpr ⟨_, h.length, ?_⟩
  refine bind_eq_ok_iff.mpr ⟨(), raiseIf_eq_ok.mpr (by omega), ?_⟩
  change raiseIf ((req.stream.take (data.length : Int).toNat).length > cfg.max_record_bytes) _ >>=
    (fun _ => .ok (req.stream.take (data.length : Int).toNat)) = _
  rw [htake]
  exact bind_eq_ok_iff.mpr ⟨(), raiseIf_eq_ok.mpr (by omega), rfl⟩

theorem submission_carries {data : Bytes}
    (hdigits : (Nat.toDigits 10 data.length).length ≤ MAX_STR_DIGITS) :
    Carries (submission data) data where
  path := rfl
  encoding := .inl rfl
  type := by
    change mediaType "application/json".toList ∈ _
    decide
  length := by
    have hint : intText (Nat.toDigits 10 data.length) = .ok (data.length : Int) := by
      rw [intText_digits Nat.toDigits_ne_nil (fun c hc =>
        Nat.isDigit_of_mem_toDigits (by decide) (by decide) hc) hdigits,
        Nat.ofDigitChars_ten_toDigits]
    change contentLength (some (Nat.toDigits 10 data.length)) = _
    rw [contentLength, hint]
    exact Nat.toDigits_ne_nil
  stream := List.take_length

/-! ## A channel description and a pointer -/

/-- The public key of the private key of thirty-two zeros. -/
def someKey : Bytes := Ed25519.zeroPublic

/-- The SHA-256 of the body of `description`. -/
def someDigest : Digest :=
  ⟨[0, 0, 1, 251, 148, 148, 202, 53, 18, 103, 164, 84, 72, 90, 74, 230, 125, 219, 169, 109, 222,
    245, 178, 224, 144, 80, 169, 245, 249, 35, 140, 170], rfl⟩

/-- The signature of `someDigest` under `someKey`. -/
def someSig : Bytes :=
  [109, 87, 43, 38, 247, 64, 140, 197, 157, 132, 194, 199, 133, 44, 238, 117, 55, 255, 98, 79,
    17, 28, 140, 204, 20, 223, 118, 89, 175, 217, 69, 139, 201, 236, 99, 54, 170, 34, 23, 219,
    38, 141, 20, 146, 82, 139, 116, 245, 254, 202, 241, 84, 0, 203, 58, 171, 120, 89, 29, 242,
    152, 107, 117, 9]

/-- The SHA-256 of the body of `pointer`. -/
def pointerDigest : Digest :=
  ⟨[0, 0, 57, 75, 108, 14, 86, 65, 157, 251, 212, 110, 51, 203, 47, 233, 13, 220, 7, 121, 174, 240,
    183, 237, 164, 149, 232, 245, 216, 196, 79, 166], rfl⟩

/-- The signature of `pointerDigest` under `someKey`. -/
def pointerSig : Bytes :=
  [214, 74, 17, 144, 136, 251, 37, 183, 197, 162, 35, 161, 28, 123, 15, 226, 48, 70, 199, 15, 74,
    146, 247, 126, 146, 199, 189, 206, 96, 74, 254, 156, 23, 59, 235, 154, 63, 199, 252, 71, 186,
    166, 27, 112, 67, 44, 173, 139, 47, 191, 38, 7, 92, 70, 33, 178, 167, 140, 97, 73, 238, 105,
    159, 1]

/-- The SHA-256 of no bytes, the object that `pointer` names. -/
def emptyDigest : Digest :=
  ⟨[227, 176, 196, 66, 152, 252, 28, 20, 154, 251, 244, 200, 153, 111, 185, 36, 39, 174, 65, 228,
    100, 155, 147, 76, 164, 149, 153, 27, 120, 82, 184, 85], rfl⟩

/-- The hash, on the two bodies that matter here. -/
def someHash (bs : Bytes) : Digest := if bs.length = 137 then someDigest else pointerDigest

/-- A channel description. -/
def description : Members Str :=
  [("actor".toList, .str ("ed25519:".toList ++ hex someKey)),
    ("created".toList, .num (Binary64.ofNat53 0 Binary64.zero_fits)),
    ("id".toList, .str (idText someDigest)),
    ("nonce".toList, .str "1013937".toList),
    ("sig".toList, .str (hex someSig)),
    ("type".toList, .str "channel".toList),
    ("v".toList, .num Protocol.one)]

/-- What `pointer` refers to. -/
def reference : Members Str :=
  [("hash".toList, .str (idText emptyDigest)), ("locators".toList, .arr [.str "urn:a".toList])]

/-- A pointer in the channel that `description` describes. -/
def pointer : Members Str :=
  [("actor".toList, .str ("ed25519:".toList ++ hex someKey)),
    ("channel".toList, .str (idText someDigest)),
    ("created".toList, .num (Binary64.ofNat53 0 Binary64.zero_fits)),
    ("id".toList, .str (idText pointerDigest)),
    ("nonce".toList, .str "51003".toList),
    ("ref".toList, .obj reference),
    ("sig".toList, .str (hex pointerSig)),
    ("type".toList, .str "pointer".toList),
    ("v".toList, .num Protocol.one)]

theorem description_sorted : sorted (.obj description) = .obj description :=
  sorted_listed (by decide) (by simp only [description, List.forall_mem_cons]; simp [sorted])

theorem pointer_sorted : sorted (.obj pointer) = .obj pointer := by
  have href : sorted (.obj reference) = .obj reference :=
    sorted_listed (by decide) (by
      simp only [reference, List.forall_mem_cons]
      simp [sorted, sortedList])
  refine sorted_listed (by decide) ?_
  simp only [pointer, List.forall_mem_cons, href]
  simp [sorted]

theorem description_ijson : Ijson (.obj description) := by
  have clean : ∀ {s : Str}, (∀ c ∈ s, c.toNat < 0x80) → Clean s := fun h => Ascii.clean h
  obtain ⟨hzero, hone⟩ := notNegZero_zero_one
  exact ⟨by decide, clean (by decide), (plain_key _).clean, clean (by decide), hzero,
    clean (by decide), (plain_idText _).clean, clean (by decide), clean (by decide),
    clean (by decide), (plain_hex _).clean, clean (by decide), clean (by decide),
    clean (by decide), hone, trivial⟩

theorem pointer_ijson : Ijson (.obj pointer) := by
  have clean : ∀ {s : Str}, (∀ c ∈ s, c.toNat < 0x80) → Clean s := fun h => Ascii.clean h
  obtain ⟨hzero, hone⟩ := notNegZero_zero_one
  have href : Ijson (.obj reference) :=
    ⟨by decide, clean (by decide), (plain_idText _).clean, clean (by decide),
      ⟨clean (by decide), trivial⟩, trivial⟩
  exact ⟨by decide, clean (by decide), (plain_key _).clean, clean (by decide),
    (plain_idText _).clean, clean (by decide), hzero, clean (by decide),
    (plain_idText _).clean, clean (by decide), clean (by decide), clean (by decide), href,
    clean (by decide), (plain_hex _).clean, clean (by decide), clean (by decide),
    clean (by decide), hone, trivial⟩

theorem length_description : (Rfc8785.bytes (.obj description)).length = 353 := by
  rw [description, length_bytes_obj (List.cons_ne_nil _ _) (by decide)]
  simp only [List.map_cons, List.map_nil, length_bytes_key, length_bytes_idText, length_bytes_hex,
    length_bytes_zero_one.1, length_bytes_zero_one.2]
  decide

theorem length_reference : (Rfc8785.bytes (.obj reference)).length = 103 := by
  rw [reference, length_bytes_obj (List.cons_ne_nil _ _) (by decide)]
  simp only [List.map_cons, List.map_nil, length_bytes_idText]
  decide

theorem length_pointer : (Rfc8785.bytes (.obj pointer)).length = 545 := by
  rw [pointer, length_bytes_obj (List.cons_ne_nil _ _) (by decide)]
  simp only [List.map_cons, List.map_nil, length_bytes_key, length_bytes_idText, length_bytes_hex,
    length_bytes_zero_one.1, length_bytes_zero_one.2, length_reference]
  decide

theorem description_units : size Rfc8785.bytes description = 137 ∧
    unitsOf Rfc8785.bytes description = 18 := by
  have hsize : size Rfc8785.bytes description = 137 := by
    have hbody : body description =
        [("actor".toList, .str ("ed25519:".toList ++ hex someKey)),
          ("created".toList, .num (Binary64.ofNat53 0 Binary64.zero_fits)),
          ("nonce".toList, .str "1013937".toList), ("type".toList, .str "channel".toList),
          ("v".toList, .num Protocol.one)] := rfl
    rw [size, hbody, length_bytes_obj (List.cons_ne_nil _ _) (by decide)]
    simp only [List.map_cons, List.map_nil, length_bytes_key, length_bytes_zero_one.1,
      length_bytes_zero_one.2]
    decide
  refine ⟨hsize, ?_⟩
  rw [unitsOf, hsize, units]
  rfl

theorem pointer_units : size Rfc8785.bytes pointer = 329 ∧
    unitsOf Rfc8785.bytes pointer = 3 := by
  have hsize : size Rfc8785.bytes pointer = 329 := by
    have hbody : body pointer =
        [("actor".toList, .str ("ed25519:".toList ++ hex someKey)),
          ("channel".toList, .str (idText someDigest)),
          ("created".toList, .num (Binary64.ofNat53 0 Binary64.zero_fits)),
          ("nonce".toList, .str "51003".toList), ("ref".toList, .obj reference),
          ("type".toList, .str "pointer".toList), ("v".toList, .num Protocol.one)] := rfl
    rw [size, hbody, length_bytes_obj (List.cons_ne_nil _ _) (by decide)]
    simp only [List.map_cons, List.map_nil, length_bytes_key, length_bytes_idText,
      length_bytes_zero_one.1, length_bytes_zero_one.2, length_reference]
    decide
  refine ⟨hsize, ?_⟩
  rw [unitsOf, hsize, units]
  rfl

theorem description_digest : digest Rfc8785.bytes someHash description = someDigest := by
  have hshort : (Rfc8785.bytes (.obj (body description))).length = 137 := description_units.1
  rw [digest, someHash, if_pos hshort]

theorem pointer_digest : digest Rfc8785.bytes someHash pointer = pointerDigest := by
  have hlong : (Rfc8785.bytes (.obj (body pointer))).length = 329 := pointer_units.1
  rw [digest, someHash, hlong]
  rfl

theorem isCreated_zero : IsCreated (.num (Binary64.ofNat53 0 Binary64.zero_fits)) := by
  refine ⟨_, rfl, Binary64.isInteger_ofNat53 _, (Binary64.toInt_ofNat53 (n := 0) (by decide)).ge, ?_⟩
  rw [Binary64.toInt_ofNat53]
  decide

theorem description_valid :
    Valid Rfc8785.bytes someHash (fun _ _ _ => true = true) description where
  schema := ⟨⟨rfl, ⟨_, rfl, someKey, rfl, rfl⟩, ⟨_, rfl, isCreated_zero⟩,
    ⟨_, rfl, 1013937, by decide, rfl⟩, nofun, .inr ⟨rfl, rfl, rfl, rfl, nofun⟩⟩, by decide⟩
  size := by
    rw [description_units.1]
    decide
  identity := by
    rw [description_digest]
    rfl
  work := by
    rw [description_digest, description_units.2]
    decide
  signature := ⟨someKey, someSig, rfl, rfl, ⟨_, rfl, rfl, rfl⟩, rfl⟩

theorem pointer_valid :
    Valid Rfc8785.bytes someHash (fun _ _ _ => true = true) pointer where
  schema := by
    have href : IsRef (.obj reference) :=
      ⟨_, rfl, by decide, ⟨_, rfl, emptyDigest.1, rfl, rfl⟩, _, rfl, _, rfl, by decide,
        fun l hl => ⟨_, List.mem_singleton.mp hl, by decide⟩⟩
    exact ⟨⟨rfl, ⟨_, rfl, someKey, rfl, rfl⟩, ⟨_, rfl, isCreated_zero⟩,
      ⟨_, rfl, 51003, by decide, rfl⟩, nofun,
      .inl ⟨rfl, rfl, ⟨_, rfl, someDigest.1, rfl, rfl⟩, ⟨_, rfl, href⟩, nofun⟩⟩, by decide⟩
  size := by
    rw [pointer_units.1]
    decide
  identity := by
    rw [pointer_digest]
    rfl
  work := by
    rw [pointer_digest, pointer_units.2]
    decide
  signature := ⟨someKey, pointerSig, rfl, rfl, ⟨_, rfl, rfl, rfl⟩, rfl⟩

theorem description_section6 : Section6 (Rfc8785.bytes (.obj description)) description := by
  refine parseObject_exact.mp (parseObject_eq_ok.mpr ?_)
  rw [parseUtf8_bytes description_ijson, description_sorted]

theorem pointer_section6 : Section6 (Rfc8785.bytes (.obj pointer)) pointer := by
  refine parseObject_exact.mp (parseObject_eq_ok.mpr ?_)
  rw [parseUtf8_bytes pointer_ijson, pointer_sorted]

/-- The requests that submit them. -/
def describing : PostRequest := submission (Rfc8785.bytes (.obj description))

def pointing : PostRequest := submission (Rfc8785.bytes (.obj pointer))

theorem describing_fits : (Rfc8785.bytes (.obj description)).length ≤ 65536 := by
  rw [length_description]
  decide

theorem pointing_fits : (Rfc8785.bytes (.obj pointer)).length ≤ 65536 := by
  rw [length_pointer]
  decide

/-- A small body is read whole. -/
theorem small_carries {data : Bytes} (h : data.length ≤ 65536) : Carries (submission data) data := by
  have hdigits : (Nat.toDigits 10 data.length).length ≤ 5 :=
    (Nat.length_toDigits_le_iff (by decide) (by decide)).mpr (by omega)
  exact submission_carries (hdigits.trans (by decide))

theorem small_read {data : Bytes} (h : data.length ≤ 65536) {cfg : Config}
    (hlen : (65536 : Int) ≤ cfg.max_record_bytes) : readBody cfg (submission data) = .ok data :=
  (small_carries h).read ((Int.ofNat_le.mpr h).trans hlen)

/-- They are admitted wherever the policy permits them. -/
theorem postEntry_description {cfg : Config} {sign : Bytes → Bytes → Py Bytes}
    (hp : Permits cfg someHash description) (hlen : (65536 : Int) ≤ cfg.max_record_bytes) :
    postEntry (imports someHash (fun _ _ _ => true) sign) cfg describing =
      .ok (entry someHash description) :=
  postEntry_ok.mpr ⟨_, description, small_read describing_fits hlen,
    description_section6, description_valid, hp, rfl⟩

theorem postEntry_pointer {cfg : Config} {sign : Bytes → Bytes → Py Bytes}
    (hp : Permits cfg someHash pointer) (hlen : (65536 : Int) ≤ cfg.max_record_bytes) :
    postEntry (imports someHash (fun _ _ _ => true) sign) cfg pointing =
      .ok (entry someHash pointer) :=
  postEntry_ok.mpr ⟨_, pointer, small_read pointing_fits hlen, pointer_section6,
    pointer_valid, hp, rfl⟩

/-- A policy that blocks no actor and asks for no further work permits the description. -/
theorem description_permits {cfg : Config}
    (ha : cfg.block_actor = [] ∨ "ed25519:".toList ++ hex someKey ≠ cfg.block_actor)
    (hm : cfg.pow_multiplier.1 = 1) : Permits cfg someHash description where
  actor := ha
  channel := (eq_or_ne cfg.block_channel []).imp_right Ne.symm
  work := by
    rw [description_digest, description_units.2, hm]
    decide
  locators := Nat.zero_le _
  lengths := nofun
  parents := Nat.zero_le _

theorem pointer_permits {cfg : Config}
    (ha : cfg.block_actor = [] ∨ "ed25519:".toList ++ hex someKey ≠ cfg.block_actor)
    (hc : cfg.block_channel = [] ∨ idText someDigest ≠ cfg.block_channel)
    (hm : cfg.pow_multiplier.1 = 1) (hl : 1 ≤ cfg.max_locators) (hb : 5 ≤ cfg.max_locator_bytes) :
    Permits cfg someHash pointer where
  actor := ha
  channel := hc
  work := by
    rw [pointer_digest, pointer_units.2, hm]
    decide
  locators := hl
  lengths := by
    intro s hs
    have hs' : Json.str s ∈ [Json.str "urn:a".toList] := hs
    rw [Json.str.inj (List.mem_singleton.mp hs')]
    exact hb
  parents := Nat.zero_le _

end SwarmPointer.Relay
