import SwarmPointer.Relay.Pages
import SwarmPointer.Relay.Submissions

/-!
# Relay — what is served revalidates

The stored envelope is the canonical form of a valid assertion: it parses to
the assertion with its members sorted, which is as valid and has the same
identifier. Every reply of `do_GET` that is not an error consists of such
envelopes.

`Revalidates` is about one row: `validate_bytes` accepts the stored envelope
with the identifier of the row, and the other columns are those of its members.
`Served` is about bodies: a single envelope, or a page that parses to the
parses of its envelopes in order.
-/

namespace SwarmPointer.Relay

open Except Jcs Json JsonGrammar JsonInput Protocol Python Python.JsonInput Python.Protocol
open Python.Server Python.Store

/-! ## Rows -/

/-- The columns of a row are what the members of its envelope say. -/
structure Indexed (env : Json.Members Str) (r : Row) : Prop where
  type : env.lookup "type".toList = some (.str r.type)
  actor : env.lookup "actor".toList = some (.str r.actor)
  described : r.type = "channel".toList → r.channel = some r.id ∧
    (env.lookup "descriptor".toList = none → r.object_hash = none) ∧
    ∀ ref, env.lookup "descriptor".toList = some ref → ∃ ms h, ref = .obj ms ∧
      ms.lookup "hash".toList = some (.str h) ∧ r.object_hash = some h
  pointed : r.type ≠ "channel".toList →
    (∃ c, env.lookup "channel".toList = some (.str c) ∧ r.channel = some c) ∧
    ∃ ms h, env.lookup "ref".toList = some (.obj ms) ∧ ms.lookup "hash".toList = some (.str h) ∧
      r.object_hash = some h

section
variable {sha256 : Bytes → Digest} {verifies : Bytes → Bytes → Bytes → Bool}
  {sign : Bytes → Bytes → Py Bytes}

theorem lookup_of_textOf {obj : Json.Members Str} {k s : Str} (h : ∃ t, obj.lookup k = some (.str t))
    (hs : textOf obj k = s) : obj.lookup k = some (.str s) := by
  obtain ⟨t, ht⟩ := h
  rw [ht, ← hs, textOf_eq ht]

/-- The row of a valid assertion is indexed by its members. -/
theorem entry_indexed {obj : Json.Members Str} (h : Schema (body obj)) {r : Row}
    (hr : r.toEntry = entry sha256 obj) : Indexed obj r := by
  obtain ⟨e, seq⟩ := r
  obtain rfl : e = entry sha256 obj := hr
  have hlook : ∀ {k : Str}, k ≠ "id".toList → k ≠ "sig".toList →
      (body obj).lookup k = obj.lookup k := lookup_body
  have hactor : ∃ t, obj.lookup "actor".toList = some (.str t) := by
    obtain ⟨a, ha, key, -, rfl⟩ := h.actor
    exact ⟨_, hlook (k := "actor".toList) (by decide) (by decide) ▸ ha⟩
  have hash_of : ∀ {v : Json Str}, IsRef v → ∃ ms s, v = .obj ms ∧
      ms.lookup "hash".toList = some (.str s) ∧ hashOf (some v) = some s := by
    rintro v ⟨ms, rfl, -, ⟨w, hw, bs, -, rfl⟩, -⟩
    exact ⟨ms, _, rfl, hw, congrArg some (textOf_eq hw)⟩
  obtain ⟨t, ht⟩ := (readable h).type
  refine ⟨lookup_of_textOf ⟨t, ht⟩ rfl, lookup_of_textOf hactor rfl, ?_, ?_⟩
  · -- a channel description: the channel is its own id, the object its descriptor
    intro hc
    have hc' : textOf obj "type".toList = "channel".toList := hc
    have hchannel : channelOf (identOf sha256 obj) obj = identOf sha256 obj := if_pos hc'
    have hobject : objectOf obj = hashOf (obj.lookup "descriptor".toList) := if_pos hc'
    refine ⟨congrArg some hchannel, fun hnone => ?_, fun ref href => ?_⟩
    · change objectOf obj = none
      rw [hobject, hnone]
      rfl
    · have hd : Optional (body obj) "descriptor".toList IsRef := by
        rcases h.kind with hk | hk
        · have htype := hlook (k := "type".toList) (by decide) (by decide) ▸ hk.1
          rw [textOf_eq htype] at hc'
          exact absurd hc' (by decide)
        · exact hk.2.2.2.2
      obtain ⟨ms, s, rfl, hget, hhash⟩ := hash_of (hd ref ((hlook (by decide) (by decide)).trans href))
      refine ⟨ms, s, rfl, hget, ?_⟩
      change objectOf obj = some s
      rw [hobject, href, hhash]
  · -- a pointer: the channel it names and the object it refers to
    intro hc
    have hc' : textOf obj "type".toList ≠ "channel".toList := hc
    have hchannel : channelOf (identOf sha256 obj) obj = textOf obj "channel".toList := if_neg hc'
    have hobject : objectOf obj = hashOf (obj.lookup "ref".toList) := if_neg hc'
    rcases h.kind with ⟨-, -, ⟨c, hcm, bs, -, rfl⟩, ⟨ref, href, hisref⟩, -⟩ | hk
    · have hcm' := hlook (k := "channel".toList) (by decide) (by decide) ▸ hcm
      have href' := hlook (k := "ref".toList) (by decide) (by decide) ▸ href
      obtain ⟨ms, s, rfl, hget, hhash⟩ := hash_of hisref
      refine ⟨⟨_, hcm', ?_⟩, ms, s, href', hget, ?_⟩
      · change some (channelOf (identOf sha256 obj) obj) = _
        rw [hchannel, textOf_eq hcm']
      · change objectOf obj = some s
        rw [hobject, href', hhash]
    · have htype := hlook (k := "type".toList) (by decide) (by decide) ▸ hk.1
      exact absurd (textOf_eq htype) hc'

/-- Sorting the members does not change the entry. -/
theorem entry_ordered {obj : Json.Members Str} (h : Distinct (.obj obj))
    (hid : identOf sha256 (ordered obj) = identOf sha256 obj) :
    entry sha256 (ordered obj) = entry sha256 obj := by
  have hhash : ∀ k, hashOf ((ordered obj).lookup k) = hashOf (obj.lookup k) := fun k => by
    rw [lookup_ordered h.1, hashOf_sorted fun w hw => distinct_lookup h hw]
  have hbytes : Rfc8785.bytes (.obj (ordered obj)) = Rfc8785.bytes (.obj obj) := by
    rw [Rfc8785.bytes, ← sorted_obj, text_sorted h]
    rfl
  simp only [entry, channelOf, objectOf, textOf_ordered h.1, hhash, hid, hbytes]

/-- **The canonical bytes of a valid assertion revalidate** to the same record,
and are those of the parse. -/
theorem revalidates (sign : Bytes → Bytes → Py Bytes) {obj : Json.Members Str} (hi : Ijson (.obj obj))
    (hv : Valid Rfc8785.bytes sha256 (fun a s d => verifies a s d = true) obj) :
    parseObject (Rfc8785.bytes (.obj obj)) = .ok (ordered obj) ∧
    Valid Rfc8785.bytes sha256 (fun a s d => verifies a s d = true) (ordered obj) ∧
    validateBytes (imports sha256 verifies sign) (Rfc8785.bytes (.obj obj)) = .ok (infoOf sha256 obj) ∧
    entry sha256 (ordered obj) = entry sha256 obj := by
  have hI : Returns (imports sha256 verifies sign) Rfc8785.text verifies :=
    returns_python fun _ _ _ => rfl
  have hparse : parseObject (Rfc8785.bytes (.obj obj)) = .ok (ordered obj) := by
    rw [parseObject_eq_ok, parseUtf8_bytes hi, sorted_obj]
  have hdist : Distinct (.obj (ordered obj)) := (parseObject_ijson hparse).distinct
  have hok : validateObject (imports sha256 verifies sign) (ordered obj) = .ok (infoOf sha256 obj) := by
    rw [validateObject_ordered hi.distinct]
    exact (validateObject_ok hI hi.distinct).mpr ⟨hv, rfl⟩
  obtain ⟨hv', hinfo⟩ := (validateObject_ok hI hdist).mp hok
  refine ⟨hparse, hv', by rw [validateBytes_ok_of hparse, hok], entry_ordered hi.distinct ?_⟩
  exact (congrArg Record.id hinfo).symm

/-! ## Replies -/

variable {db : Db}

/-- What is said of a row: its envelope validates to the row's identifier, and
the columns are read from the envelope. -/
def Revalidates (I : Imports) (r : Row) : Prop :=
  (∃ info, validateBytes I r.envelope = .ok info ∧ info.id = r.id) ∧
    ∃ env, parseObject r.envelope = .ok env ∧ Indexed env r

theorem derived_revalidates {r : Row} (h : Derived sha256 verifies r.toEntry) :
    Revalidates (imports sha256 verifies sign) r := by
  obtain ⟨obj, hi, hv, he⟩ := h
  obtain ⟨hparse, hv', hvalid, hentry⟩ := revalidates sign hi hv
  have henv : r.envelope = Rfc8785.bytes (.obj obj) := congrArg Entry.envelope he
  rw [Revalidates, henv]
  exact ⟨⟨_, hvalid, (congrArg Entry.id he).symm⟩, _, hparse,
    entry_indexed hv'.schema (he.trans hentry.symm)⟩

/-- What a body of bytes may be: an envelope, or a page of a list that parses
to its items, each the parse of a row's envelope, in order. -/
inductive Served (db : Db) (path : Str) (data : Bytes) : Prop
  | one {hexid : Str} {r : Row} (hroute : assertionRoute (pathParts path) = some hexid)
      (hr : r ∈ db.assertions) (hid : r.id = "sha256:".toList ++ hexid) (hdata : data = r.envelope)
  | list {kind hexid : Str} {key : Row → Option Str} {rows : List Row} {nxt : Option Str}
      {values : List (Json Str)}
      (hkind : kind = "channels".toList ∧ key = (fun r => r.channel) ∨
        kind = "objects".toList ∧ key = fun r => r.object_hash)
      (hroute : listRoute kind (pathParts path) = some hexid)
      (hrows : ∀ r ∈ rows, r ∈ db.assertions ∧ key r = some ("sha256:".toList ++ hexid))
      (hdata : data = listBody (blobList (rows.map fun r => r.envelope)) nxt)
      (hparse : parseUtf8 data = .ok (pageValue values (nxt.elim .null .str)))
      (hitems : List.Forall₂ (fun r v => parseUtf8 r.envelope = .ok v) rows values)
  | channels {rows : List Row} {nxt : Option Str} (hpath : path = "/v1/channels".toList)
      (hrows : ∀ r ∈ rows, r ∈ db.assertions ∧ r.type = "channel".toList)
      (hdata : data = listBody (idList (rows.map fun r => r.id)) nxt)
      (hparse : parseUtf8 data =
        .ok (pageValue (rows.map fun r => .str r.id) (nxt.elim .null .str)))

theorem page_ok {size : PageSize} {rows rs : List Row} {k : Nat} {nxt : Option Str}
    (h : page size rows k = .ok (rs, nxt)) :
    (∀ r ∈ rs, r ∈ rows) ∧ ∀ token ∈ nxt, Printable token := by
  obtain ⟨sel, hsel, h⟩ := bind_eq_ok_iff.mp h
  obtain ⟨after, -, hsel⟩ := bind_eq_ok_iff.mp hsel
  obtain ⟨limit, -, hsel⟩ := bind_eq_ok_iff.mp hsel
  have hmem : ∀ r ∈ sel, r ∈ rows := by
    intro r hr
    rw [← Except.ok.inj hsel] at hr
    exact List.mem_of_mem_filter ((List.mem_insertionSort _).mp (List.mem_of_mem_take hr))
  rw [paginate] at h
  obtain ⟨hrs, hnxt⟩ := Prod.mk.inj (Except.ok.inj h)
  constructor
  · intro r hr
    rw [← hrs] at hr
    exact hmem r (List.mem_of_mem_take hr)
  · intro token htoken
    rw [← hnxt] at htoken
    split at htoken
    · obtain ⟨r, -, rfl⟩ := Option.map_eq_some_iff.mp htoken
      exact encodeCursor_printable _
    · cases htoken

/-- The values behind the envelopes of a page. -/
theorem derived_values {rows : List Row} (h : ∀ r ∈ rows, Derived sha256 verifies r.toEntry) :
    ∃ vs : List (Json Str), (∀ v ∈ vs, Ijson v) ∧
      rows.map (fun r => r.envelope) = vs.map Rfc8785.bytes ∧
      List.Forall₂ (fun r v => parseUtf8 r.envelope = .ok v) rows (vs.map Jcs.sorted) := by
  induction rows with
  | nil => exact ⟨[], nofun, rfl, .nil⟩
  | cons r rows ih =>
      obtain ⟨vs, hvs, henvs, hparse⟩ := ih fun r hr => h r (List.mem_cons_of_mem _ hr)
      obtain ⟨obj, hi, -, he⟩ := h r (List.mem_cons_self ..)
      have henv : r.envelope = Rfc8785.bytes (.obj obj) := congrArg Entry.envelope he
      refine ⟨.obj obj :: vs, ?_, ?_, .cons ?_ hparse⟩
      · intro v hv
        rcases List.mem_cons.mp hv with rfl | hv
        · exact hi
        · exact hvs v hv
      · rw [List.map_cons, List.map_cons, henv, henvs]
      · rw [henv, parseUtf8_bytes hi]

theorem idText_printable (d : Digest) : Printable (idText d) := by
  have hprefix : Printable "sha256:".toList := by decide
  intro c hc
  rcases List.mem_append.mp hc with hc | hc
  · exact hprefix c hc
  · exact (lowerHex_le (List.all_eq_true.mp (hex_lower d.1) c hc)).trans (by decide)

theorem getList_bytes {query : Py (List Bytes × Option Str)} {hexid : Str} {code : Nat}
    {data : Bytes} (h : getList query hexid = .ok ⟨code, .bytes data⟩) :
    ∃ blobs nxt, query = .ok (blobs, nxt) ∧ data = listBody (blobList blobs) nxt := by
  rw [getList] at h
  split at h
  · obtain ⟨⟨blobs, nxt⟩, hq, h⟩ := bind_eq_ok_iff.mp h
    exact ⟨blobs, nxt, hq, (Body.bytes.inj (Reply.mk.inj (Except.ok.inj h)).2).symm⟩
  · cases (Reply.mk.inj (Except.ok.inj h)).2

/-- A page of assertions is served as the envelopes of its rows. -/
theorem served_list (hdb : ∀ r ∈ db.assertions, Derived sha256 verifies r.toEntry)
    {path kind hexid : Str} {key : Row → Option Str}
    (hkind : kind = "channels".toList ∧ key = (fun r => r.channel) ∨
      kind = "objects".toList ∧ key = fun r => r.object_hash)
    (hroute : listRoute kind (pathParts path) = some hexid) {size : PageSize} {k : Nat}
    {code : Nat} {data : Bytes}
    (h : getList (do
      let (rows, nxt) ← page size
        (db.assertions.filter fun r => key r = some ("sha256:".toList ++ hexid)) k
      .ok (rows.map fun r => r.envelope, nxt)) hexid = .ok ⟨code, .bytes data⟩) :
    Served db path data := by
  obtain ⟨blobs, nxt, hq, hdata⟩ := getList_bytes h
  obtain ⟨⟨rows, nxt'⟩, hpage, hq⟩ := bind_eq_ok_iff.mp hq
  obtain ⟨rfl, rfl⟩ := Prod.mk.inj (Except.ok.inj hq)
  obtain ⟨hmem, hnxt⟩ := page_ok hpage
  have hrows : ∀ r ∈ rows, r ∈ db.assertions ∧ key r = some ("sha256:".toList ++ hexid) := by
    intro r hr
    obtain ⟨hr, hkey⟩ := List.mem_filter.mp (hmem r hr)
    exact ⟨hr, of_decide_eq_true hkey⟩
  obtain ⟨vs, hvs, henvs, hitems⟩ := derived_values fun r hr => hdb r (hrows r hr).1
  refine .list hkind hroute hrows hdata ?_ hitems
  rw [hdata, henvs]
  exact parseUtf8_listBody hvs hnxt

theorem served_channels (hinv : Inv db)
    (hdb : ∀ r ∈ db.assertions, Derived sha256 verifies r.toEntry) {path : Str}
    (hpath : path = "/v1/channels".toList) {size : PageSize} {k : Nat} {code : Nat} {data : Bytes}
    (h : getChannels (advertisedChannels size db k) = .ok ⟨code, .bytes data⟩) :
    Served db path data := by
  obtain ⟨⟨ids, nxt⟩, hq, h⟩ := bind_eq_ok_iff.mp h
  obtain ⟨⟨rows, nxt'⟩, hpage, hq⟩ := bind_eq_ok_iff.mp hq
  obtain ⟨rfl, rfl⟩ := Prod.mk.inj (Except.ok.inj hq)
  have hdata : data = listBody (idList (rows.map fun r => r.id)) nxt' :=
    (Body.bytes.inj (Reply.mk.inj (Except.ok.inj h)).2).symm
  obtain ⟨hmem, hnxt⟩ := page_ok hpage
  rw [advertisedRows_eq hinv] at hmem
  have hids : ∀ s ∈ rows.map (fun r => r.id), Printable s := by
    intro s hs
    obtain ⟨r, hr, rfl⟩ := List.mem_map.mp hs
    obtain ⟨obj, -, -, he⟩ := hdb r (mem_descriptions.mp (hmem r hr)).1
    rw [show r.id = identOf sha256 obj from congrArg Entry.id he]
    exact idText_printable _
  refine .channels hpath (fun r hr => mem_descriptions.mp (hmem r hr)) hdata ?_
  have hstr : ∀ v ∈ (rows.map fun r => r.id).map Json.str, Ijson v := by
    intro v hv
    obtain ⟨s, hs, rfl⟩ := List.mem_map.mp hv
    exact printable_clean (hids s hs)
  have hsorted : ((rows.map fun r => r.id).map Json.str).map Jcs.sorted =
      rows.map fun r => .str r.id := by
    rw [List.map_map, List.map_map]
    refine List.map_congr_left fun r _ => ?_
    simp only [Function.comp_apply, Jcs.sorted]
  rw [hdata, idList_eq hids, parseUtf8_listBody hstr hnxt, hsorted]

theorem getOne_bytes {hexid : Str} {code : Nat} {data : Bytes}
    (h : getOne db hexid = ⟨code, .bytes data⟩) :
    ∃ r ∈ db.assertions, r.id = "sha256:".toList ++ hexid ∧ data = r.envelope := by
  rw [getOne] at h
  split at h
  · cases hget : getAssertion db hexid with
    | none =>
        rw [hget] at h
        exact nomatch (Reply.mk.inj h).2
    | some blob =>
        rw [hget] at h
        obtain ⟨r, hfind, rfl⟩ := Option.map_eq_some_iff.mp hget
        have hid := List.find?_some hfind
        exact ⟨r, List.mem_of_find?_eq_some hfind, of_decide_eq_true hid,
          (Body.bytes.inj (Reply.mk.inj h).2).symm⟩
  · exact nomatch (Reply.mk.inj h).2

/-- **Every reply that is not an error serves stored envelopes.** -/
theorem doGet_served (hinv : Inv db) (hdb : ∀ r ∈ db.assertions, Derived sha256 verifies r.toEntry)
    {cfg : Config} {path : Str} {cursor : Option Str} {code : Nat} {data : Bytes}
    (h : doGet cfg db path cursor = some ⟨code, .bytes data⟩) : Served db path data := by
  rw [doGet] at h
  split at h
  · cases (Reply.mk.inj (Option.some.inj h)).2
  · cases h
  rename_i k _
  replace h : route cfg db path k = .ok ⟨code, .bytes data⟩ := by
    cases hr : route cfg db path k with
    | error e =>
        rw [hr] at h
        cases h
    | ok reply =>
        rw [hr] at h
        exact congrArg Except.ok (Option.some.inj h)
  rw [route] at h
  split at h
  · cases (Reply.mk.inj (Except.ok.inj h)).2
  split at h
  · rename_i hpath
    exact served_channels hinv hdb hpath h
  rw [routeParts] at h
  split at h
  · rename_i hexid hroute
    obtain ⟨r, hr, hid, hdata⟩ := getOne_bytes (Except.ok.inj h)
    exact .one hroute hr hid hdata
  split at h
  · rename_i hexid hroute
    exact served_list hdb (.inl ⟨rfl, rfl⟩) hroute h
  split at h
  · rename_i hexid hroute
    exact served_list hdb (.inr ⟨rfl, rfl⟩) hroute h
  · cases (Reply.mk.inj (Except.ok.inj h)).2

/-- **What is served revalidates.** In every reachable state, whatever is
posted and whichever statements fail, the envelope of every row validates to
the row's identifier and says what the columns say, and every body of bytes a
GET gets consists of such envelopes, a list body being a JSON object whose
items are those blobs in order. -/
theorem serves_valid (h : Reachable (imports sha256 verifies sign) (fun _ _ => True) db) :
    (∀ r ∈ db.assertions, Revalidates (imports sha256 verifies sign) r) ∧
    ∀ cfg path cursor code data, doGet cfg db path cursor = some ⟨code, .bytes data⟩ →
      Served db path data :=
  ⟨fun r hr => derived_revalidates (reachable_derived h r hr),
    fun _ _ _ _ _ hget => doGet_served (reachable_inv h) (reachable_derived h) hget⟩

end

theorem read_describedList : read (openConfig 2) describedList pairDb none =
    .ok ([describedRow, pointerRow], none) := by
  rw [read, cursor_start, ok_bind, describedList_rows]
  rfl

/-- Both rows, and the list of the channel with both envelopes. -/
theorem serves_valid_pair :
    Revalidates (imports someHash (fun _ _ _ => true) fun _ _ => .ok []) describedRow ∧
    Revalidates (imports someHash (fun _ _ _ => true) fun _ _ => .ok []) pointerRow ∧
    doGet (openConfig 2) pairDb describedList.path none =
      some ⟨200, .bytes (listBody (blobList [describedRow.envelope, pointerRow.envelope]) none)⟩ ∧
    Served pairDb describedList.path
      (listBody (blobList [describedRow.envelope, pointerRow.envelope]) none) := by
  obtain ⟨hrows, hserved⟩ := serves_valid openConfig_pair
  have hget := doGet_list read_describedList
  exact ⟨hrows describedRow (List.mem_cons_self ..),
    hrows pointerRow (List.mem_cons_of_mem _ (List.mem_singleton_self _)), hget,
    hserved _ _ _ _ _ hget⟩

end SwarmPointer.Relay
