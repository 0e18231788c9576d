import SwarmPointer.Protocol.Order
import SwarmPointer.Relay.Index

/-!
# Relay — the order of submissions

Transactions that do not fail, in any order: the columns other than the
envelope and the advertised channels come out the same, and every accepted
identifier is new exactly once.

`Columns` is a row without its `seq` and its envelope: the envelope of an
identifier is the one that came first, and two envelopes of one assertion may
differ in the order of members. That an identifier determines the columns needs
that SHA-256 has no collision among the bodies that are posted, which is stated
for those bodies only (`NoCollision`).
-/

namespace SwarmPointer.Relay

open Except Jcs Json JsonInput Protocol Python Python.JsonInput Python.Protocol Python.Server
open Python.Store

/-! ## What an identifier determines -/

/-- The columns other than `seq` and `envelope`. -/
abbrev Columns := Str × Str × Str × Option Str × Option Str

def columns (e : Entry) : Columns := (e.id, e.type, e.actor, e.channel, e.object_hash)

/-- Different byte strings among `S` have different digests. -/
def NoCollision (sha256 : Bytes → Digest) (S : Bytes → Prop) : Prop :=
  ∀ a b, S a → S b → sha256 a = sha256 b → a = b

/-- Canonical bytes determine the value up to the order of members. -/
theorem sorted_of_bytes {v w : Json Str} (hv : Ijson v) (hw : Ijson w)
    (h : Rfc8785.bytes v = Rfc8785.bytes w) : sorted v = sorted w :=
  Except.ok.inj ((parseUtf8_bytes hv).symm.trans ((congrArg parseUtf8 h).trans (parseUtf8_bytes hw)))

theorem ijson_body {obj : Members Str} (h : Ijson (.obj obj)) : Ijson (.obj (body obj)) :=
  all_body h

theorem textOf_ordered {u : Members Str} (h : (u.map Prod.fst).Nodup) (k : Str) :
    textOf (ordered u) k = textOf u k := by
  rw [textOf, textOf, lookup_ordered h]
  cases u.lookup k with
  | none => rfl
  | some v => cases v <;> rfl

theorem hashOf_sorted {v : Option (Json Str)} (h : ∀ w, v = some w → Distinct w) :
    hashOf (v.map sorted) = hashOf v := by
  cases v with
  | none => rfl
  | some w =>
      cases w with
      | obj ms =>
          rw [Option.map_some, sorted_obj, hashOf, hashOf, textOf_ordered (h _ rfl).1]
      | _ => rfl

/-- The columns of an assertion are read from its body. -/
theorem columns_congr {sha256 : Bytes → Digest} {obj obj' : Members Str} (h : Ijson (.obj obj))
    (h' : Ijson (.obj obj')) (hid : identOf sha256 obj = identOf sha256 obj')
    (hbody : Rfc8785.bytes (.obj (body obj)) = Rfc8785.bytes (.obj (body obj'))) :
    columns (entry sha256 obj) = columns (entry sha256 obj') := by
  have hi := ijson_body h
  have hi' := ijson_body h'
  have hord : ordered (body obj) = ordered (body obj') := by
    have hsorted := sorted_of_bytes hi hi' hbody
    rw [sorted_obj, sorted_obj] at hsorted
    exact Json.obj.inj hsorted
  have htext : ∀ k, k ≠ "id".toList → k ≠ "sig".toList → textOf obj k = textOf obj' k := by
    intro k hk hk'
    rw [← textOf_body hk hk', ← textOf_ordered hi.distinct.1, hord, textOf_ordered hi'.distinct.1,
      textOf_body hk hk']
  have hhash : ∀ k, k ≠ "id".toList → k ≠ "sig".toList →
      hashOf (obj.lookup k) = hashOf (obj'.lookup k) := by
    intro k hk hk'
    rw [← lookup_body hk hk', ← hashOf_sorted fun w hw => distinct_lookup hi.distinct hw,
      ← lookup_ordered hi.distinct.1, hord, lookup_ordered hi'.distinct.1,
      hashOf_sorted fun w hw => distinct_lookup hi'.distinct hw, lookup_body hk hk']
  rw [columns, columns, entry, entry, channelOf, channelOf, objectOf, objectOf, hid,
    htext "type".toList (by decide) (by decide), htext "actor".toList (by decide) (by decide),
    htext "channel".toList (by decide) (by decide), hhash "ref".toList (by decide) (by decide),
    hhash "descriptor".toList (by decide) (by decide)]

/-! ## Sequences of submissions -/

/-- POSTs in the order of their transactions, none of which fails: the
replies and the tables after them. -/
inductive Submits (I : Imports) (cfg : Config) : Db → List PostRequest → List (Option Reply) → Db → Prop
  | nil {db : Db} : Submits I cfg db [] [] db
  | cons {db db' : Db} {req : PostRequest} {t : Transaction} {reqs : List PostRequest}
      {replies : List (Option Reply)} (ht : Fresh t db) (hruns : ∀ s, t.fails s = false)
      (rest : Submits I cfg (doPost I cfg req t db).2 reqs replies db') :
      Submits I cfg db (req :: reqs) ((doPost I cfg req t db).1 :: replies) db'

variable {I : Imports} {cfg : Config}

/-- One POST of a sequence. -/
theorem submit_cases (I : Imports) (cfg : Config) (req : PostRequest) {t : Transaction} (db : Db)
    (hruns : ∀ s, t.fails s = false) :
    (∃ e, postEntry I cfg req = .ok e ∧ (∀ r ∈ db.assertions, r.id ≠ e.id) ∧
      doPost I cfg req t db = (some ⟨200, .submitted e.id false⟩, insert ⟨e, t.seq⟩ db)) ∨
    (∃ e, postEntry I cfg req = .ok e ∧ (∃ r ∈ db.assertions, r.id = e.id) ∧
      doPost I cfg req t db = (some ⟨200, .submitted e.id true⟩, db)) ∨
    (∀ e, postEntry I cfg req ≠ .ok e) ∧ (doPost I cfg req t db).2 = db := by
  cases hentry : postEntry I cfg req with
  | error x =>
      refine .inr (.inr ⟨nofun, ?_⟩)
      rw [doPost, hentry]
      cases x <;> rfl
  | ok e =>
      by_cases hknown : ∃ r ∈ db.assertions, r.id = e.id
      · exact .inr (.inl ⟨e, rfl, hknown, doPost_known hentry hruns hknown⟩)
      · have hnew : ∀ r ∈ db.assertions, r.id ≠ e.id := fun r hr heq => hknown ⟨r, hr, heq⟩
        exact .inl ⟨e, rfl, hnew, doPost_new hentry hruns hnew⟩

theorem submits_run {db db' : Db} {reqs : List PostRequest} {replies : List (Option Reply)}
    (h : Submits I cfg db reqs replies db') :
    Relation.ReflTransGen (Posts I fun c _ => c = cfg) db db' := by
  induction h with
  | nil => exact .refl
  | cons ht _ _ ih => exact .head (.post rfl ht) ih

/-- **The columns after a sequence** are those from before and those of the
entries it admits, provided an identifier determines its columns. -/
theorem submits_columns {E : Entry → Prop}
    (hE : ∀ e e', E e → E e' → e.id = e'.id → columns e = columns e') {db db' : Db}
    {reqs : List PostRequest} {replies : List (Option Reply)} (h : Submits I cfg db reqs replies db')
    (hdb : ∀ r ∈ db.assertions, E r.toEntry)
    (hreqs : ∀ req ∈ reqs, ∀ e, postEntry I cfg req = .ok e → E e) (c : Columns) :
    (∃ r ∈ db'.assertions, columns r.toEntry = c) ↔
      (∃ r ∈ db.assertions, columns r.toEntry = c) ∨
        ∃ req ∈ reqs, ∃ e, postEntry I cfg req = .ok e ∧ columns e = c := by
  induction h with
  | nil => exact ⟨.inl, fun h => h.resolve_right fun ⟨_, hmem, _⟩ => nomatch hmem⟩
  | @cons db db' req t reqs replies ht hruns rest ih =>
      have hrest : ∀ r ∈ reqs, ∀ e, postEntry I cfg r = .ok e → E e :=
        fun r hr => hreqs r (List.mem_cons_of_mem _ hr)
      have hhead := hreqs req (List.mem_cons_self ..)
      simp only [List.mem_cons, exists_eq_or_imp]
      -- a new entry adds its row, a known id leaves the row that has its columns
      rcases submit_cases I cfg req db hruns with
        ⟨e, he, hnew, hpost⟩ | ⟨e, he, ⟨r, hr, heq⟩, hpost⟩ | ⟨hno, hpost⟩
      · have hrows : ∀ r ∈ (insert ⟨e, t.seq⟩ db).assertions, E r.toEntry := by
          intro r hr
          rcases List.mem_append.mp hr with hr | hr
          · exact hdb r hr
          · rw [List.mem_singleton.mp hr]
            exact hhead e he
        rw [hpost] at ih
        rw [ih hrows hrest, insert]
        simp only [List.mem_append, List.mem_singleton, or_and_right, exists_or, exists_eq_left, he,
          Except.ok.injEq, exists_eq_left', or_assoc]
      · rw [hpost] at ih
        rw [ih hdb hrest]
        have hcols : columns r.toEntry = columns e := hE _ _ (hdb r hr) (hhead e he) heq
        simp only [he, Except.ok.injEq, exists_eq_left']
        constructor
        · exact Or.imp_right .inr
        · rintro (h | h | h)
          · exact .inl h
          · exact .inl ⟨r, hr, hcols.trans h⟩
          · exact .inr h
      · rw [hpost] at ih
        rw [ih hdb hrest]
        constructor
        · exact Or.imp_right .inr
        · rintro (h | ⟨e, he, -⟩ | h)
          · exact .inl h
          · exact absurd he (hno e)
          · exact .inr h

/-! ## Replies -/

/-- An exception or an error reply. -/
def Rejects : Stop → Prop
  | .raised _ => True
  | .replied r => ∃ token message, r.body = .error token message

theorem rejects_err (code : Nat) (token message : String) : Rejects (err code token message) :=
  ⟨_, _, rfl⟩

theorem raises_err {p : Prop} [Decidable p] {code : Nat} {token message : String} :
    Raises Rejects (raiseIf p (err code token message)) :=
  .raiseIf fun _ => rejects_err code token message

theorem rejects_uncaught {α : Type} (x : Py α) : Raises Rejects (uncaught x) := by
  cases x with
  | ok a => exact .pure a
  | error e => exact .error trivial

theorem raises_readBody (req : PostRequest) : Raises Rejects (readBody cfg req) := by
  rw [readBody]
  refine raises_err.bind fun _ _ => raises_err.bind fun _ _ => raises_err.bind fun _ _ => ?_
  refine Raises.bind ?_ fun _ _ => raises_err.bind fun _ _ => raises_err.bind fun _ _ => .pure _
  unfold contentLength
  split
  · exact .pure _
  · exact .pure _
  · split
    · exact .pure _
    · exact .error (rejects_err _ _ _)

theorem raises_validated (data : Bytes) : Raises Rejects (validated I data) := by
  rw [validated]
  split
  · exact .pure _
  · exact .error (rejects_err _ _ _)
  · exact .error (rejects_err _ _ _)
  · exact .error trivial

theorem rejects_entryOf (info : Record) (env : Members Str) :
    Raises Rejects (entryOf I cfg info env) := by
  rw [entryOf]
  refine (rejects_uncaught _).bind fun _ _ => Raises.bind ?_ fun _ _ => Raises.bind ?_ fun _ _ =>
    (rejects_uncaught _).bind fun _ _ => (rejects_uncaught _).bind fun _ _ => .pure _
  · rw [checkBlocked]
    exact (rejects_uncaught _).bind fun _ _ => raises_err.bind fun _ _ =>
      (rejects_uncaught _).bind fun _ _ => raises_err.bind fun _ _ =>
        (rejects_uncaught _).bind fun _ _ => raises_err.bind fun _ _ => .pure _
  · rw [checkLimits]
    exact raises_err.bind fun _ _ => (rejects_uncaught _).bind fun _ _ =>
      raises_err.bind fun _ _ => raises_err

/-- **A request that is not admitted is rejected**: an exception or an error reply. -/
theorem raises_postEntry (req : PostRequest) : Raises Rejects (postEntry I cfg req) := by
  rw [postEntry]
  exact (raises_readBody req).bind fun data _ => (raises_validated data).bind fun info _ =>
    (rejects_uncaught _).bind fun env _ => rejects_entryOf info env

/-- A reply that reports an identifier as stored. -/
def Answers (i : Str) (reply : Option Reply) : Prop := ∃ b, reply = some ⟨200, .submitted i b⟩

/-- A reply that reports an identifier as new. -/
def isNew (i : Str) (reply : Option Reply) : Bool :=
  match reply with
  | some ⟨_, .submitted j false⟩ => j = i
  | _ => false

theorem not_answers {req : PostRequest} {t : Transaction} {db : Db}
    (h : ∀ e, postEntry I cfg req ≠ .ok e) (i : Str) :
    ¬ Answers i (doPost I cfg req t db).1 ∧ isNew i (doPost I cfg req t db).1 = false := by
  rw [doPost]
  cases hentry : postEntry I cfg req with
  | ok e => exact absurd hentry (h e)
  | error x =>
      have hx := raises_postEntry req x hentry
      cases x with
      | raised e =>
          refine ⟨?_, rfl⟩
          rintro ⟨b, hb⟩
          cases hb
      | replied r =>
          obtain ⟨code, _⟩ := r
          obtain ⟨token, message, rfl⟩ := hx
          refine ⟨?_, rfl⟩
          rintro ⟨b, hb⟩
          cases hb

/-- The accepted identifiers of a sequence. -/
def Accepted (I : Imports) (cfg : Config) (reqs : List PostRequest) (i : Str) : Prop :=
  ∃ req ∈ reqs, ∃ e, postEntry I cfg req = .ok e ∧ e.id = i

/-- **An accepted submission is answered with its identifier**, no other is. -/
theorem submits_answers {db db' : Db} {reqs : List PostRequest} {replies : List (Option Reply)}
    (h : Submits I cfg db reqs replies db') :
    List.Forall₂ (fun req reply => ∀ i, Answers i reply ↔ ∃ e, postEntry I cfg req = .ok e ∧ e.id = i)
      reqs replies := by
  induction h with
  | nil => exact .nil
  | @cons db db' req t reqs replies ht hruns rest ih =>
      refine .cons (fun i => ?_) ih
      rcases submit_cases I cfg req db hruns with ⟨e, he, -, hpost⟩ | ⟨e, he, -, hpost⟩ | ⟨hno, -⟩
      · rw [hpost, he]
        constructor
        · rintro ⟨b, hb⟩
          cases hb
          exact ⟨e, rfl, rfl⟩
        · rintro ⟨e', he', rfl⟩
          cases he'
          exact ⟨false, rfl⟩
      · rw [hpost, he]
        constructor
        · rintro ⟨b, hb⟩
          cases hb
          exact ⟨e, rfl, rfl⟩
        · rintro ⟨e', he', rfl⟩
          cases he'
          exact ⟨true, rfl⟩
      · exact ⟨fun h => absurd h (not_answers hno i).1, fun ⟨e, he, _⟩ => absurd he (hno e)⟩

/-- **Once stored an identifier is never new again.** -/
theorem submits_known {db db' : Db} {reqs : List PostRequest} {replies : List (Option Reply)}
    (h : Submits I cfg db reqs replies db') {i : Str} (hi : ∃ r ∈ db.assertions, r.id = i) :
    replies.countP (isNew i) = 0 := by
  induction h with
  | nil => rfl
  | @cons db db' req t reqs replies ht hruns rest ih =>
      obtain ⟨r, hr, rfl⟩ := hi
      rcases submit_cases I cfg req db hruns with
        ⟨e, -, hnew, hpost⟩ | ⟨e, -, -, hpost⟩ | ⟨hno, hpost⟩
      · have hne : isNew r.id (some ⟨200, .submitted e.id false⟩) = false :=
          decide_eq_false fun heq => hnew r hr heq.symm
        rw [hpost] at ih ⊢
        rw [List.countP_cons, hne, ih ⟨r, List.mem_append_left _ hr, rfl⟩]
        rfl
      · rw [hpost] at ih ⊢
        rw [List.countP_cons, ih ⟨r, hr, rfl⟩]
        rfl
      · rw [hpost] at ih
        rw [List.countP_cons, ih ⟨r, hr, rfl⟩, (not_answers hno r.id).2]
        rfl

/-- **An accepted identifier that is not stored yet is new exactly once.** -/
theorem submits_new {db db' : Db} {reqs : List PostRequest} {replies : List (Option Reply)}
    (h : Submits I cfg db reqs replies db') {i : Str} (hi : ∀ r ∈ db.assertions, r.id ≠ i)
    (haccepted : Accepted I cfg reqs i) : replies.countP (isNew i) = 1 := by
  induction h with
  | nil => exact absurd haccepted fun ⟨_, hmem, _⟩ => nomatch hmem
  | @cons db db' req t reqs replies ht hruns rest ih =>
      rcases submit_cases I cfg req db hruns with
        ⟨e, he, hnew, hpost⟩ | ⟨e, he, ⟨r, hr, heq⟩, hpost⟩ | ⟨hno, hpost⟩
      · rw [hpost] at ih rest ⊢
        -- this is the new reply for `i`, and from here on `i` is known
        by_cases hid : e.id = i
        · have hone : isNew i (some ⟨200, .submitted e.id false⟩) = true := decide_eq_true hid
          have hrow : (⟨e, t.seq⟩ : Row) ∈ (insert ⟨e, t.seq⟩ db).assertions :=
            List.mem_append_right _ (List.mem_singleton_self _)
          rw [List.countP_cons, hone, submits_known rest ⟨_, hrow, hid⟩]
          rfl
        · have hzero : isNew i (some ⟨200, .submitted e.id false⟩) = false := decide_eq_false hid
          rw [List.countP_cons, hzero, ih ?_ ?_]
          · rfl
          · intro r hr
            rcases List.mem_append.mp hr with hr | hr
            · exact hi r hr
            · rw [List.mem_singleton.mp hr]
              exact hid
          · obtain ⟨req', hmem, e', he', rfl⟩ := haccepted
            rcases List.mem_cons.mp hmem with rfl | hmem
            · exact absurd (congrArg Entry.id (Except.ok.inj (he.symm.trans he'))) hid
            · exact ⟨req', hmem, e', he', rfl⟩
      · rw [hpost] at ih ⊢
        rw [List.countP_cons, ih hi ?_]
        · rfl
        · obtain ⟨req', hmem, e', he', rfl⟩ := haccepted
          rcases List.mem_cons.mp hmem with rfl | hmem
          · rw [he] at he'
            exact absurd (heq.trans (congrArg Entry.id (Except.ok.inj he'))) (hi r hr)
          · exact ⟨req', hmem, e', he', rfl⟩
      · rw [hpost] at ih
        rw [List.countP_cons, (not_answers hno i).2, ih hi ?_]
        · rfl
        · obtain ⟨req', hmem, e', he', rfl⟩ := haccepted
          rcases List.mem_cons.mp hmem with rfl | hmem
          · exact absurd he' (hno e')
          · exact ⟨req', hmem, e', he', rfl⟩

/-! ## The result -/

section
variable {sha256 : Bytes → Digest} {verifies : Bytes → Bytes → Bytes → Bool}
  {sign : Bytes → Bytes → Py Bytes}

/-- The canonical bodies of the objects in the requests. -/
def PostedBody (cfg : Config) (reqs : List PostRequest) (bs : Bytes) : Prop :=
  ∃ req ∈ reqs, ∃ data obj, readBody cfg req = .ok data ∧ Section6 data obj ∧
    bs = Rfc8785.bytes (.obj (body obj))

/-- Among requests without a collision the identifier determines the columns. -/
theorem admitted_columns {reqs : List PostRequest} (hcol : NoCollision sha256 (PostedBody cfg reqs))
    {req req' : PostRequest} (hreq : req ∈ reqs) (hreq' : req' ∈ reqs) {e e' : Entry}
    (he : postEntry (imports sha256 verifies sign) cfg req = .ok e)
    (he' : postEntry (imports sha256 verifies sign) cfg req' = .ok e') (hid : e.id = e'.id) :
    columns e = columns e' := by
  obtain ⟨data, obj, hread, hsix, -, -, rfl⟩ := postEntry_ok.mp he
  obtain ⟨data', obj', hread', hsix', -, -, rfl⟩ := postEntry_ok.mp he'
  refine columns_congr (parseObject_ijson (parseObject_exact.mpr hsix))
    (parseObject_ijson (parseObject_exact.mpr hsix')) hid ?_
  exact hcol _ _ ⟨req, hreq, data, obj, hread, hsix, rfl⟩ ⟨req', hreq', data', obj', hread', hsix', rfl⟩
    (idText_inj hid)

/-- **The order of submissions does not matter and nothing is duplicated.**
Whatever the order of the transactions of a list of POSTs, the columns of the
rows and the advertised channels are the same; the answers report exactly the
admitted identifiers, each as new once; a further submission of a stored
identifier leaves the tables as they are. SHA-256 has no collision among the
posted bodies. -/
theorem submissions_commute {reqs reqs' : List PostRequest} (hperm : reqs.Perm reqs')
    (hcol : NoCollision sha256 (PostedBody cfg reqs)) {replies replies' : List (Option Reply)}
    {db db' : Db} (h : Submits (imports sha256 verifies sign) cfg Db.empty reqs replies db)
    (h' : Submits (imports sha256 verifies sign) cfg Db.empty reqs' replies' db') :
    (∀ c, (∃ r ∈ db.assertions, columns r.toEntry = c) ↔
      ∃ r ∈ db'.assertions, columns r.toEntry = c) ∧
    (∀ ac, ac ∈ db.advertised_channels ↔ ac ∈ db'.advertised_channels) ∧
    List.Forall₂ (fun req reply => ∀ i, Answers i reply ↔
      ∃ e, postEntry (imports sha256 verifies sign) cfg req = .ok e ∧ e.id = i) reqs replies ∧
    (∀ i, Accepted (imports sha256 verifies sign) cfg reqs i → replies.countP (isNew i) = 1) ∧
    ∀ req t e, postEntry (imports sha256 verifies sign) cfg req = .ok e →
      (∃ r ∈ db.assertions, r.id = e.id) →
      (doPost (imports sha256 verifies sign) cfg req t db).2 = db := by
  -- the entries admitted from these requests
  let E : Entry → Prop := fun e => ∃ req ∈ reqs, postEntry (imports sha256 verifies sign) cfg req = .ok e
  have hE : ∀ e e', E e → E e' → e.id = e'.id → columns e = columns e' := by
    rintro e e' ⟨req, hreq, he⟩ ⟨req', hreq', he'⟩ hid
    exact admitted_columns hcol hreq hreq' he he' hid
  have hcols : ∀ c, (∃ r ∈ db.assertions, columns r.toEntry = c) ↔
      ∃ r ∈ db'.assertions, columns r.toEntry = c := by
    intro c
    rw [submits_columns hE h nofun (fun req hreq e he => ⟨req, hreq, he⟩) c,
      submits_columns hE h' nofun (fun req hreq e he => ⟨req, hperm.mem_iff.mpr hreq, he⟩) c]
    simp only [hperm.mem_iff]
  have hinv : Inv db := reachable_inv (submits_run h)
  have hinv' : Inv db' := reachable_inv (submits_run h')
  have hlisted : ∀ {d : Db}, Inv d → ∀ ac : Str × Str, ac ∈ d.advertised_channels ↔
      ac.1 = ac.2 ∧ ∃ a ch o, ∃ r ∈ d.assertions,
        columns r.toEntry = (ac.2, "channel".toList, a, ch, o) := by
    intro d hd ac
    rw [hd.advertised, List.mem_map]
    constructor
    · rintro ⟨r, hr, rfl⟩
      obtain ⟨hr, hc⟩ := mem_descriptions.mp hr
      exact ⟨rfl, _, _, _, r, hr, by rw [columns, hc]⟩
    · rintro ⟨heq, a, ch, o, r, hr, hcol⟩
      obtain ⟨hid, hcol⟩ := Prod.mk.inj hcol
      obtain ⟨hty, -⟩ := Prod.mk.inj hcol
      exact ⟨r, mem_descriptions.mpr ⟨hr, hty⟩, Prod.ext (hid.trans heq.symm) hid⟩
  refine ⟨hcols, fun ac => ?_, submits_answers h, fun i hi => submits_new h nofun hi, ?_⟩
  · rw [hlisted hinv, hlisted hinv']
    simp only [hcols]
  · intro req t e he hknown
    rcases add_cases t e db with ⟨x, hadd⟩ | ⟨-, hadd⟩ | ⟨hnew, -⟩
    · rw [doPost, he]
      simp only [hadd]
    · rw [doPost, he]
      simp only [hadd]
    · obtain ⟨r, hr, heq⟩ := hknown
      exact absurd heq (hnew r hr)

end

/-! ## Two orders of a description and a pointer -/

/-- Any POSTs can be submitted, with the next numbers for their rows. -/
theorem exists_submits (I : Imports) (cfg : Config) (reqs : List PostRequest) {n : Nat} {db : Db}
    (hdb : ∀ r ∈ db.assertions, r.seq ≤ n) (hn : n + reqs.length < 2 ^ 63) :
    ∃ replies db', Submits I cfg db reqs replies db' := by
  induction reqs generalizing n db with
  | nil => exact ⟨[], db, .nil⟩
  | cons req reqs ih =>
      rw [List.length_cons] at hn
      have hfresh : Fresh ⟨n + 1, fun _ => false⟩ db :=
        ⟨Nat.succ_pos n, by change n + 1 < 2 ^ 63; omega, fun r hr => Nat.lt_succ_of_le (hdb r hr)⟩
      have hnext : ∀ r ∈ (doPost I cfg req ⟨n + 1, fun _ => false⟩ db).2.assertions,
          r.seq ≤ n + 1 := by
        intro r hr
        rcases submit_cases I cfg req db (t := ⟨n + 1, fun _ => false⟩) (fun _ => rfl) with
          ⟨e, -, -, hpost⟩ | ⟨e, -, -, hpost⟩ | ⟨-, hpost⟩
        · rw [hpost] at hr
          rcases List.mem_append.mp hr with hr | hr
          · exact (hdb r hr).trans (Nat.le_succ n)
          · rw [List.mem_singleton.mp hr]
        · rw [hpost] at hr
          exact (hdb r hr).trans (Nat.le_succ n)
        · rw [hpost] at hr
          exact (hdb r hr).trans (Nat.le_succ n)
      obtain ⟨replies, db', h⟩ := ih hnext (by omega)
      exact ⟨_, db', .cons hfresh (fun _ => rfl) h⟩

theorem someHash_noCollision :
    NoCollision someHash (PostedBody (openConfig 1) [describing, pointing]) := by
  have hbody : ∀ bs, PostedBody (openConfig 1) [describing, pointing] bs →
      bs = Rfc8785.bytes (.obj (body description)) ∨ bs = Rfc8785.bytes (.obj (body pointer)) := by
    rintro bs ⟨req, hreq, data, obj, hread, hsix, rfl⟩
    rcases List.mem_pair.mp hreq with rfl | rfl
    · obtain rfl := Except.ok.inj ((small_read describing_fits le_rfl).symm.trans hread)
      exact .inl (by rw [description_section6.unique hsix])
    · obtain rfl := Except.ok.inj ((small_read pointing_fits le_rfl).symm.trans hread)
      exact .inr (by rw [pointer_section6.unique hsix])
  have hne : someDigest ≠ pointerDigest := by decide
  intro a b ha hb heq
  rcases hbody a ha with rfl | rfl <;> rcases hbody b hb with rfl | rfl
  · rfl
  · exact absurd (description_digest.symm.trans (heq.trans pointer_digest)) hne
  · exact absurd (description_digest.symm.trans (heq.symm.trans pointer_digest)) hne
  · rfl

/-- The description and the pointer, in both orders. -/
theorem submissions_commute_pair : ∃ replies db replies' db',
    Submits (imports someHash (fun _ _ _ => true) fun _ _ => .ok []) (openConfig 1) Db.empty
      [describing, pointing] replies db ∧
    Submits (imports someHash (fun _ _ _ => true) fun _ _ => .ok []) (openConfig 1) Db.empty
      [pointing, describing] replies' db' ∧
    (∀ c, (∃ r ∈ db.assertions, columns r.toEntry = c) ↔
      ∃ r ∈ db'.assertions, columns r.toEntry = c) ∧
    (∀ ac, ac ∈ db.advertised_channels ↔ ac ∈ db'.advertised_channels) ∧
    replies.countP (isNew (idText someDigest)) = 1 ∧
    replies.countP (isNew (idText pointerDigest)) = 1 := by
  obtain ⟨replies, db, h⟩ := exists_submits (imports someHash (fun _ _ _ => true) fun _ _ => .ok [])
    (openConfig 1) [describing, pointing] (show ∀ r ∈ Db.empty.assertions, r.seq ≤ 0 from nofun)
    (by decide)
  obtain ⟨replies', db', h'⟩ := exists_submits
    (imports someHash (fun _ _ _ => true) fun _ _ => .ok []) (openConfig 1) [pointing, describing]
    (show ∀ r ∈ Db.empty.assertions, r.seq ≤ 0 from nofun) (by decide)
  obtain ⟨hcolumns, hadvertised, -, hnew, -⟩ :=
    submissions_commute (List.Perm.swap ..) someHash_noCollision h h'
  obtain ⟨hd, hp⟩ := openConfig_permits 1
  exact ⟨replies, db, replies', db', h, h', hcolumns, hadvertised,
    hnew _ ⟨describing, List.mem_cons_self .., _, postEntry_description hd le_rfl, describedRow_id⟩,
    hnew _ ⟨pointing, List.mem_cons_of_mem _ (List.mem_singleton_self _), _,
      postEntry_pointer hp le_rfl, pointerRow_id⟩⟩

end SwarmPointer.Relay
