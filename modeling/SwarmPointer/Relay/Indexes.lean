import SwarmPointer.Lib.Paging
import SwarmPointer.Python.InMemory
import SwarmPointer.Relay.Pages
import SwarmPointer.Relay.Submissions
import SwarmPointer.TypeScript.InMemory

/-!
# Relay — one index, three times

The tables of the durable relay, the dictionaries of the Python relay and the
maps of the TypeScript relay show the same lists. What ties them together is
the list of rows: a dictionary of lists shows it when the list of every key
is that of the rows with this key.

The three stores are run on one list of submissions. The durable relay numbers
its rows and pages by number, the other two keep positions; the cursors differ,
so what is compared is what a client has read when the traversal ends, for each
of the three listings. `Shows` is the invariant of both indexes in memory, with
the type of keys and identifiers as a parameter.
-/

namespace SwarmPointer.Relay

open Except Jcs Json JsonInput Protocol Python Python.JsonInput Python.Protocol Python.Server
open Python.Store

/-! ## Keys -/

/-- An identifier of its digits. -/
def sha (digits : Str) : Str := "sha256:".toList ++ digits

theorem drop_sha (digits : Str) : (sha digits).drop 7 = digits := rfl

theorem sha_inj {a b : Str} (h : sha a = sha b) : a = b := List.append_cancel_left h

theorem isPrefixOf_sha (digits : Str) : "sha256:".toList.isPrefixOf (sha digits) = true := rfl

/-- A reference object with the hash of these digits, or none. -/
def Refers (v : Option (Json Str)) : Option Str → Prop
  | none => v = none
  | some h => ∃ ms, v = some (.obj ms) ∧ ms.lookup "hash".toList = some (.str (sha h))

theorem Refers.hashOf {v : Option (Json Str)} {o : Option Str} (h : Refers v o) :
    hashOf v = o.map sha := by
  cases o with
  | none =>
      obtain rfl : v = none := h
      rfl
  | some d =>
      obtain ⟨ms, rfl, hms⟩ := h
      exact congrArg some (textOf_eq hms)

theorem refers_of_ref {v : Json Str} (h : IsRef v) : ∃ d, Refers (some v) (some d) := by
  obtain ⟨ms, rfl, -, ⟨w, hw, bs, -, rfl⟩, -⟩ := h
  exact ⟨hex bs, ms, rfl, hw⟩

/-- What the relays read of a channel description and of a pointer. -/
inductive Keyed (obj : Members Str) : (described : Bool) → (channel : Option Str) →
    (object : Option Str) → Prop
  | channel {o : Option Str} (htype : obj.lookup "type".toList = some (.str "channel".toList))
      (href : Refers (obj.lookup "descriptor".toList) o) : Keyed obj true none o
  | pointer {c h : Str} (htype : obj.lookup "type".toList = some (.str "pointer".toList))
      (hchannel : obj.lookup "channel".toList = some (.str (sha c)))
      (href : Refers (obj.lookup "ref".toList) (some h)) : Keyed obj false (some c) (some h)

/-- **The schema gives an assertion its keys.** -/
theorem exists_keyed {obj : Members Str} (hs : Schema (body obj)) :
    ∃ described c o, Keyed obj described c o := by
  have hlook : ∀ {k : Str}, k ≠ "id".toList → k ≠ "sig".toList →
      (body obj).lookup k = obj.lookup k := lookup_body
  rcases hs.kind with ⟨htype, -, hc, hr, -⟩ | ⟨htype, -, -, -, hd⟩
  · rw [hlook (by decide) (by decide)] at htype
    obtain ⟨v, hv, bs, -, rfl⟩ := hc
    obtain ⟨r, hr, href⟩ := hr
    rw [hlook (by decide) (by decide)] at hv hr
    obtain ⟨h, hh⟩ := refers_of_ref href
    exact ⟨false, some (hex bs), some h, .pointer htype hv (hr ▸ hh)⟩
  · rw [hlook (by decide) (by decide)] at htype
    rw [Optional, hlook (by decide) (by decide)] at hd
    cases hv : obj.lookup "descriptor".toList with
    | none => exact ⟨true, none, none, .channel htype hv⟩
    | some r =>
        obtain ⟨h, hh⟩ := refers_of_ref (hd r hv)
        exact ⟨true, none, some h, .channel htype (hv ▸ hh)⟩

/-- The columns of its row, where `d` are the digits of its identifier. -/
theorem Keyed.columns {sha256 : Bytes → Digest} {obj : Members Str} {described : Bool}
    {c o : Option Str} (h : Keyed obj described c o) {d : Str} (hd : identOf sha256 obj = sha d) :
    ((entry sha256 obj).type = "channel".toList ↔ described = true) ∧
      (entry sha256 obj).channel = some (sha (c.getD d)) ∧
      (entry sha256 obj).object_hash = o.map sha := by
  cases h with
  | channel htype href =>
      have htext : textOf obj "type".toList = "channel".toList := textOf_eq htype
      refine ⟨⟨fun _ => rfl, fun _ => htext⟩, ?_, ?_⟩
      · exact congrArg some ((if_pos htext).trans hd)
      · exact (if_pos htext).trans href.hashOf
  | pointer htype hchannel href =>
      have htext : textOf obj "type".toList = "pointer".toList := textOf_eq htype
      have hne : textOf obj "type".toList ≠ "channel".toList := by
        rw [htext]
        decide
      refine ⟨⟨fun h => absurd h hne, nofun⟩, ?_, ?_⟩
      · exact congrArg some ((if_neg hne).trans (textOf_eq hchannel))
      · exact (if_neg hne).trans href.hashOf

/-! ## Lists of rows under keys -/

section
variable {K : Type} [BEq K]

/-- The digits of the identifier of a row, in the strings of a relay. -/
def digits (f : Str → K) (r : Row) : K := f (r.id.drop 7)

/-- The identifiers of rows, the channel descriptions among them, and the
lists under channels and objects. -/
structure Shows (f : Str → K) (known : K → Prop) (advertised : List K)
    (channel object : List (K × List K)) (rows : List Row) : Prop where
  known : ∀ d, known (f d) ↔ ∃ r ∈ rows, r.id = sha d
  advertised : advertised = (rows.filter fun r => r.type = "channel".toList).map (digits f)
  channel : ∀ h, Multimap.get channel (f h) =
    (rows.filter fun r => r.channel = some (sha h)).map (digits f)
  object : ∀ h, Multimap.get object (f h) =
    (rows.filter fun r => r.object_hash = some (sha h)).map (digits f)

variable [LawfulBEq K]

/-- A list under a key after a row with this key or another one. -/
theorem filter_push {f : Str → K} (hf : Function.Injective f) (key : Row → Option Str)
    {rows : List Row} {row : Row} {m : List (K × List K)} {c h : Str}
    (hkey : key row = some (sha c))
    (hm : Multimap.get m (f h) = (rows.filter fun r => key r = some (sha h)).map (digits f)) :
    Multimap.get (Multimap.push m (f c) (digits f row)) (f h) =
      ((rows ++ [row]).filter fun r => key r = some (sha h)).map (digits f) := by
  rw [Multimap.get_push, List.filter_append, List.filter_singleton, List.map_append, ← hm, hkey]
  by_cases hc : h = c
  · rw [hc, beq_self_eq_true, decide_eq_true rfl]
    rfl
  · have hne : f h ≠ f c := fun heq => hc (hf heq)
    have hkeys : some (sha c) ≠ some (sha h) := fun heq => hc (sha_inj (Option.some.inj heq)).symm
    rw [beq_eq_false_iff_ne.mpr hne, decide_eq_false hkeys]
    exact (List.append_nil _).symm

/-- **One more row**: its identifier in all lists it is under. -/
theorem Shows.push {f : Str → K} (hf : Function.Injective f) {known known' : K → Prop}
    {advertised : List K} {channel object : List (K × List K)} {rows : List Row}
    (h : Shows f known advertised channel object rows) (row : Row) {d c : Str} {o : Option Str}
    {described : Bool} (hid : row.id = sha d) (hknown : ∀ k, known' k ↔ known k ∨ k = f d)
    (htype : row.type = "channel".toList ↔ described = true)
    (hchannel : row.channel = some (sha c)) (hobject : row.object_hash = o.map sha) :
    Shows f known' (if described then advertised ++ [f d] else advertised)
      (Multimap.push channel (f c) (f d))
      (o.elim object fun k => Multimap.push object (f k) (f d)) (rows ++ [row]) := by
  have hdigits : digits f row = f d := by rw [digits, hid, drop_sha]
  refine ⟨fun e => ?_, ?_, fun k => ?_, fun k => ?_⟩
  · rw [hknown, h.known]
    simp only [List.mem_append, List.mem_singleton, or_and_right, exists_or, exists_eq_left, hid]
    refine or_congr_right ⟨fun heq => by rw [hf heq], fun heq => by rw [sha_inj heq]⟩
  · rw [List.filter_append, List.filter_singleton, List.map_append, ← h.advertised]
    cases hdesc : described with
    | true => rw [decide_eq_true (htype.mpr hdesc), ← hdigits]; rfl
    | false =>
        have hne : ¬ row.type = "channel".toList := fun heq => by
          rw [hdesc] at htype
          exact nomatch htype.mp heq
        rw [decide_eq_false hne]
        exact (List.append_nil _).symm
  · rw [← hdigits]
    exact filter_push hf (fun r => r.channel) hchannel (h.channel k)
  · cases o with
    | some j =>
        rw [← hdigits]
        exact filter_push hf (fun r => r.object_hash) hobject (h.object k)
    | none =>
        have hne : ¬ row.object_hash = some (sha k) := fun heq => nomatch hobject.symm.trans heq
        rw [List.filter_append, List.filter_singleton, decide_eq_false hne]
        exact (h.object k).trans (congrArg _ (List.append_nil _).symm)

end

/-! ## The Python relay -/

open Python.InMemory in
/-- The dictionaries show these rows. -/
def PythonShows (store : InMemory.Store) (rows : List Row) : Prop :=
  Shows id (fun d => contains store.envelopes d = true) store.advertised store.channel_of
    store.object_of rows

theorem shaSuffix_sha (h : Str) : InMemory.shaSuffix (some (.str (sha h))) = some h := rfl

/-- `put` under the key of a reference object. -/
theorem pushObject_refers {v : Option (Json Str)} {o : Option Str} (h : Refers v o)
    (store : InMemory.Store) (digest : Str) : ∃ w, InMemory.hashMember v = .ok w ∧
      InMemory.pushObject store w digest = { store with
        object_of := o.elim store.object_of fun k => Multimap.push store.object_of k digest } := by
  cases o with
  | none =>
      obtain rfl : v = none := h
      exact ⟨none, rfl, rfl⟩
  | some k =>
      obtain ⟨ms, rfl, hms⟩ := h
      refine ⟨_, rfl, ?_⟩
      rw [hms, InMemory.pushObject, shaSuffix_sha]
      rfl

theorem contains_append {V : Type} (ms : List (Str × V)) (k j : Str) (v : V) :
    contains (ms ++ [(k, v)]) j = true ↔ contains ms j = true ∨ j = k := by
  rw [contains, contains, List.lookup_append, Option.isSome_or, List.lookup_cons, List.lookup_nil,
    Bool.or_eq_true]
  refine or_congr_right ?_
  by_cases h : j = k
  · rw [h, beq_self_eq_true]
    exact ⟨fun _ => rfl, fun _ => rfl⟩
  · rw [beq_eq_false_iff_ne.mpr h]
    exact ⟨fun hsome => Bool.noConfusion hsome, fun heq => absurd heq h⟩

/-- **`put` of a valid assertion** adds its row, once. -/
theorem put_shows {sha256 : Bytes → Digest} {obj : Members Str} (hs : Schema (body obj)) {d : Str}
    (hd : identOf sha256 obj = sha d) {store : InMemory.Store} {rows : List Row}
    (h : PythonShows store rows) (seq : Nat) :
    ((∃ r ∈ rows, r.id = identOf sha256 obj) →
      InMemory.put obj (identOf sha256 obj) store = .ok store) ∧
    ((∀ r ∈ rows, r.id ≠ identOf sha256 obj) →
      ∃ store', InMemory.put obj (identOf sha256 obj) store = .ok store' ∧
        PythonShows store' (rows ++ [⟨entry sha256 obj, seq⟩])) := by
  rw [hd, InMemory.put, drop_sha]
  constructor
  · intro hknown
    have hmem : contains store.envelopes d = true := (h.known d).mpr hknown
    exact if_pos hmem
  · intro hnew
    have hfresh : ¬ contains store.envelopes d = true := fun hmem => by
      obtain ⟨r, hr, hid⟩ := (h.known d).mp hmem
      exact hnew r hr hid
    have hfilter : (obj.filter fun m => m.1 ∉ ["id".toList, "sig".toList]) = body obj := rfl
    have hlook : ∀ {k : Str}, k ≠ "id".toList → k ≠ "sig".toList →
        (body obj).lookup k = obj.lookup k := lookup_body
    rw [if_neg hfresh]
    simp only [hfilter, hlook (k := "type".toList) (by decide) (by decide)]
    obtain ⟨described, c, o, hkeyed⟩ := exists_keyed hs
    obtain ⟨htype, hchannel, hobject⟩ := hkeyed.columns hd
    have hpush := Shows.push Function.injective_id h ⟨entry sha256 obj, seq⟩ hd
      (fun k => contains_append store.envelopes d k obj) htype hchannel hobject
    -- the envelope is in; what is left is the index its type calls for
    cases hkeyed with
    | channel ht href =>
        rw [← hlook (k := "descriptor".toList) (by decide) (by decide)] at href
        obtain ⟨w, hw, hobj⟩ := pushObject_refers href ⟨store.envelopes ++ [(d, obj)],
          store.order ++ [d], Multimap.push store.channel_of d d, store.object_of,
          store.advertised ++ [d]⟩ d
        rw [ht]
        refine ⟨_, ?_, show PythonShows ⟨_, store.order ++ [d], _, _, _⟩ _ from hpush⟩
        change InMemory.putChannel _ (body obj) d = _
        rw [InMemory.putChannel, hw, ok_bind, hobj]
        rfl
    | @pointer c k ht hc href =>
        rw [← hlook (k := "ref".toList) (by decide) (by decide)] at href
        obtain ⟨w, hw, hobj⟩ := pushObject_refers href ⟨store.envelopes ++ [(d, obj)],
          store.order ++ [d], Multimap.push store.channel_of c d, store.object_of,
          store.advertised⟩ d
        have htext : memberText (body obj) "channel".toList = .ok (sha c) := by
          rw [memberText, hlook (by decide) (by decide), hc]
          rfl
        rw [ht]
        refine ⟨_, ?_, show PythonShows ⟨_, store.order ++ [d], _, _, _⟩ _ from hpush⟩
        change InMemory.putPointer _ (body obj) d = _
        rw [InMemory.putPointer, htext, ok_bind, if_pos (isPrefixOf_sha c), hw, ok_bind, drop_sha,
          hobj]
        rfl

/-! ## The TypeScript relay -/

/-- The maps show these rows. -/
def TypeScriptShows (ix : TypeScript.InMemory.Index) (rows : List Row) : Prop :=
  Shows Unicode.utf16 (fun d => (ix.envelopes.lookup d).isSome = true) ix.advertised ix.channelOf
    ix.objectOf rows

/-- A member under an ASCII name in the object of the host. -/
theorem lookup_lit {ms : Members Str} (hd : Distinct (.obj ms)) {k : Str}
    (hk : ∀ c ∈ k, c.toNat < 0x80) :
    (TypeScript.ownMembers ms).lookup (TypeScript.lit k) = (ms.lookup k).map TypeScript.ofJson := by
  rw [lit_eq_utf16 hk]
  exact TypeScript.lookup_ownMembers (distinct_names hd) k

theorem ofJson_obj (ms : Members Str) :
    TypeScript.ofJson (.obj ms) = .obj (TypeScript.ownMembers ms) := rfl

theorem drop_utf16_sha (digits : Str) :
    (Unicode.utf16 (sha digits)).drop 7 = Unicode.utf16 digits := by
  have hlen : (Unicode.utf16 "sha256:".toList).length = 7 := by decide +kernel
  have happend : Unicode.utf16 (sha digits) =
      Unicode.utf16 "sha256:".toList ++ Unicode.utf16 digits := Unicode.utf16_append _ _
  rw [happend, List.drop_left' hlen]

/-- `store` under the key of a reference object. -/
theorem pushObject_utf16 {obj : Members Str} (hd : Distinct (.obj obj)) {k : Str} {o : Option Str}
    (h : Refers (obj.lookup k) o) (ix : TypeScript.InMemory.Index) (hex : TypeScript.Units) :
    TypeScript.InMemory.pushObject ix ((obj.lookup k).map TypeScript.ofJson) hex = { ix with
      objectOf := o.elim ix.objectOf fun k => Multimap.push ix.objectOf (Unicode.utf16 k) hex } := by
  cases o with
  | none =>
      rw [show obj.lookup k = none from h]
      rfl
  | some d =>
      obtain ⟨ms, hms, hhash⟩ := h
      have hlook := lookup_lit (k := "hash".toList) (distinct_lookup hd hms) (by decide)
      have hslice : TypeScript.InMemory.hashSlice (some (.obj (TypeScript.ownMembers ms))) =
          some (Unicode.utf16 d) := by
        rw [TypeScript.InMemory.hashSlice, hlook, hhash]
        exact congrArg some (drop_utf16_sha d)
      rw [hms, Option.map_some, ofJson_obj, TypeScript.InMemory.pushObject, hslice]
      rfl

theorem isSome_set {V : Type} (m : List (TypeScript.Units × V)) (k j : TypeScript.Units) (v : V) :
    ((Multimap.set m k v).lookup j).isSome = true ↔ (m.lookup j).isSome = true ∨ j = k := by
  rw [Multimap.lookup_set]
  by_cases h : j = k
  · rw [h, beq_self_eq_true]
    exact ⟨fun _ => .inr rfl, fun _ => rfl⟩
  · rw [beq_eq_false_iff_ne.mpr h]
    exact ⟨.inl, fun hor => hor.resolve_right h⟩

/-- **`store` of a valid assertion** adds its row, once. -/
theorem store_shows {sha256 : Bytes → Digest} {obj : Members Str} (hs : Schema (body obj))
    (hobj : Distinct (.obj obj)) {d : Str} (hd : identOf sha256 obj = sha d)
    {ix : TypeScript.InMemory.Index} {rows : List Row} (h : TypeScriptShows ix rows) (seq : Nat) :
    ((∃ r ∈ rows, r.id = identOf sha256 obj) → TypeScript.InMemory.store
      (TypeScript.ownMembers obj) (Unicode.utf16 (identOf sha256 obj)) ix = ix) ∧
    ((∀ r ∈ rows, r.id ≠ identOf sha256 obj) → TypeScriptShows (TypeScript.InMemory.store
      (TypeScript.ownMembers obj) (Unicode.utf16 (identOf sha256 obj)) ix)
        (rows ++ [⟨entry sha256 obj, seq⟩])) := by
  rw [hd, TypeScript.InMemory.store, drop_utf16_sha]
  constructor
  · intro hknown
    exact if_pos ((h.known d).mpr hknown)
  · intro hnew
    have hfresh : ¬ (ix.envelopes.lookup (Unicode.utf16 d)).isSome = true := fun hmem => by
      obtain ⟨r, hr, hid⟩ := (h.known d).mp hmem
      exact hnew r hr hid
    obtain ⟨described, c, o, hkeyed⟩ := exists_keyed hs
    obtain ⟨htype, hchannel, hobject⟩ := hkeyed.columns hd
    have hpush := Shows.push (fun _ _ => Unicode.utf16_inj) h ⟨entry sha256 obj, seq⟩ hd
      (fun k => isSome_set ix.envelopes (Unicode.utf16 d) k (TypeScript.ownMembers obj)) htype
      hchannel hobject
    rw [if_neg hfresh]
    simp only [lookup_lit hobj (k := "type".toList) (by decide),
      lookup_lit hobj (k := "descriptor".toList) (by decide),
      lookup_lit hobj (k := "channel".toList) (by decide),
      lookup_lit hobj (k := "ref".toList) (by decide)]
    cases hkeyed with
    | channel ht href =>
        rw [ht]
        simp only [Option.map_some, pushObject_utf16 hobj href]
        exact hpush
    | @pointer c k ht hc href =>
        rw [ht, hc]
        simp only [Option.map_some, pushObject_utf16 hobj href]
        exact hpush

/-! ## Runs -/

/-- The durable relay: what `do_POST` hands to `add` for assertions one after
another, no statement failing. -/
inductive Stores (I : Imports) (cfg : Config) : Db → List (Members Str) → Db → Prop
  | nil {db : Db} : Stores I cfg db [] db
  | cons {db db' : Db} {obj : Members Str} {objs : List (Members Str)} {info : Record} {e : Entry}
      {t : Transaction} (hinfo : validateObject I obj = .ok info)
      (he : entryOf I cfg info obj = .ok e) (ht : Fresh t db) (hruns : ∀ s, t.fails s = false)
      (rest : Stores I cfg (add t e db).2 objs db') : Stores I cfg db (obj :: objs) db'

/-- The Python relay. -/
def putAll (I : Imports) : List (Members Str) → InMemory.Store → Py InMemory.Store
  | [], store => .ok store
  | env :: objs, store => do
      let info ← validateObject I env
      putAll I objs (← InMemory.put env info.id store)

/-- The TypeScript relay, with the identifier that validation gives a valid assertion. -/
def storeAll (sha256 : Bytes → Digest) (objs : List (Members Str))
    (ix : TypeScript.InMemory.Index) : TypeScript.InMemory.Index :=
  objs.foldl (fun ix obj => TypeScript.InMemory.store (TypeScript.ownMembers obj)
    (Unicode.utf16 (identOf sha256 obj)) ix) ix

section
variable {sha256 : Bytes → Digest} {verifies : Bytes → Bytes → Bytes → Bool}
  {sign : Bytes → Bytes → Py Bytes} {cfg : Config}

/-- A protocol-valid assertion that arrived as bytes. -/
def Assertion (sha256 : Bytes → Digest) (verifies : Bytes → Bytes → Bytes → Bool)
    (obj : Members Str) : Prop :=
  ∃ data, Section6 data obj ∧ Valid Rfc8785.bytes sha256 (fun a s d => verifies a s d = true) obj

theorem stores_run {db db' : Db} {objs : List (Members Str)}
    (h : Stores (imports sha256 verifies sign) cfg db objs db') : Run (fun _ => True) db db' := by
  induction h with
  | nil => exact .refl
  | cons _ _ ht _ _ ih => exact .head (.add trivial ht) ih

/-- All identifiers are `sha256:` and digits. -/
def Named (rows : List Row) : Prop := ∀ r ∈ rows, ∃ d, r.id = sha d

/-- **The three indexes keep showing the same rows**, whatever is submitted. -/
theorem stores_show {db db' : Db} {objs : List (Members Str)}
    (h : Stores (imports sha256 verifies sign) cfg db objs db')
    (hvalid : ∀ obj ∈ objs, Assertion sha256 verifies obj) (store : InMemory.Store)
    (ix : TypeScript.InMemory.Index) (hnamed : Named db.assertions)
    (hstore : PythonShows store db.assertions) (hix : TypeScriptShows ix db.assertions) :
    Named db'.assertions ∧ (∃ store', putAll (imports sha256 verifies sign) objs store = .ok store' ∧
      PythonShows store' db'.assertions) ∧
      TypeScriptShows (storeAll sha256 objs ix) db'.assertions := by
  induction h generalizing store ix with
  | nil => exact ⟨hnamed, ⟨store, rfl, hstore⟩, hix⟩
  | @cons db db' obj objs info e t hinfo he ht hruns rest ih =>
      obtain ⟨data, hsix, hv⟩ := hvalid obj (List.mem_cons_self ..)
      have hd := (parseObject_ijson (parseObject_exact.mpr hsix)).distinct
      have hI : Returns (imports sha256 verifies sign) Rfc8785.text verifies :=
        returns_python fun _ _ _ => rfl
      obtain rfl : info = infoOf sha256 obj := ((validateObject_ok hI hd).mp hinfo).2
      obtain ⟨-, rfl⟩ := (entryOf_ok hv.schema hd).mp he
      have hid : identOf sha256 obj = sha (hex (digest Rfc8785.bytes sha256 obj).1) := rfl
      have hput := put_shows hv.schema hid hstore t.seq
      have hts := store_shows hv.schema hd hid hix t.seq
      have hrun : ∀ store', InMemory.put obj (identOf sha256 obj) store = .ok store' →
          putAll (imports sha256 verifies sign) (obj :: objs) store =
            putAll (imports sha256 verifies sign) objs store' := by
        intro store' hs
        rw [putAll, hinfo, ok_bind]
        change (InMemory.put obj (identOf sha256 obj) store >>= fun s =>
          putAll (imports sha256 verifies sign) objs s) = _
        rw [hs, ok_bind]
      have hrest : ∀ obj ∈ objs, Assertion sha256 verifies obj :=
        fun obj hobj => hvalid obj (List.mem_cons_of_mem _ hobj)
      rcases add_cases t (entry sha256 obj) db with ⟨x, hadd⟩ | ⟨hknown, hadd⟩ | ⟨hnew, hadd⟩
      · obtain ⟨b, hb⟩ := add_returns hruns (entry sha256 obj) db
        rw [hadd] at hb
        cases hb
      · rw [hadd] at ih
        rw [hrun store (hput.1 hknown)]
        have hnext := ih hrest store ix hnamed hstore hix
        rwa [storeAll, List.foldl_cons, hts.1 hknown]
      · rw [hadd] at ih
        obtain ⟨store', hs, hshows⟩ := hput.2 hnew
        rw [hrun store' hs]
        refine ih hrest store' _ (fun r hr => ?_) hshows (hts.2 hnew)
        rcases List.mem_append.mp hr with hr | hr
        · exact hnamed r hr
        · rw [List.mem_singleton.mp hr]
          exact ⟨_, hid⟩

/-! ## Traversals -/

namespace Listing

/-- The list the Python relay reads pages of. -/
def inMemory (store : InMemory.Store) : Listing → List Str
  | channel hexid _ => Multimap.get store.channel_of hexid
  | object hexid _ => Multimap.get store.object_of hexid
  | advertised => store.advertised.map sha

/-- The identifier that an element of it stands for. -/
def ident (element : Str) : Listing → Str
  | advertised => element
  | _ => sha element

/-- The list the TypeScript relay reads pages of. -/
def inMaps (ix : TypeScript.InMemory.Index) : Listing → List TypeScript.Units
  | channel hexid _ => Multimap.get ix.channelOf (Unicode.utf16 hexid)
  | object hexid _ => Multimap.get ix.objectOf (Unicode.utf16 hexid)
  | advertised => ix.advertised.map fun h => Unicode.utf16 "sha256:".toList ++ h

/-- The identifier that an element of it stands for. -/
def identUnits (element : TypeScript.Units) : Listing → TypeScript.Units
  | advertised => element
  | _ => Unicode.utf16 "sha256:".toList ++ element

/-- The identifiers of the rows of a list. -/
def idents (rows : List Row) (l : Listing) : List Str :=
  (rows.filter fun r => l.Matches r).map fun r => r.id

end Listing

theorem map_digits {rows : List Row} (hnamed : Named rows) (p : Row → Bool) :
    ((rows.filter p).map (digits id)).map sha = (rows.filter p).map fun r => r.id := by
  rw [List.map_map]
  refine List.map_congr_left fun r hr => ?_
  obtain ⟨d, hd⟩ := hnamed r (List.mem_of_mem_filter hr)
  rw [Function.comp_apply, digits, hd, drop_sha, id]

theorem inMemory_idents {rows : List Row} (hnamed : Named rows) {store : InMemory.Store}
    (h : PythonShows store rows) (l : Listing) :
    (l.inMemory store).map (fun d => l.ident d) = l.idents rows := by
  cases l with
  | channel hexid _ => exact (congrArg _ (h.channel hexid)).trans (map_digits hnamed _)
  | object hexid _ => exact (congrArg _ (h.object hexid)).trans (map_digits hnamed _)
  | advertised =>
      have hids := (congrArg (List.map sha) h.advertised).trans (map_digits hnamed _)
      exact (List.map_id _).trans hids

theorem map_units {rows : List Row} (hnamed : Named rows) (p : Row → Bool) :
    ((rows.filter p).map (digits Unicode.utf16)).map (fun h => Unicode.utf16 "sha256:".toList ++ h) =
      ((rows.filter p).map fun r => r.id).map Unicode.utf16 := by
  rw [List.map_map, List.map_map]
  refine List.map_congr_left fun r hr => ?_
  obtain ⟨d, hd⟩ := hnamed r (List.mem_of_mem_filter hr)
  rw [Function.comp_apply, Function.comp_apply, digits, hd, drop_sha]
  exact (Unicode.utf16_append _ _).symm

theorem inMaps_idents {rows : List Row} (hnamed : Named rows) {ix : TypeScript.InMemory.Index}
    (h : TypeScriptShows ix rows) (l : Listing) :
    (l.inMaps ix).map (fun d => l.identUnits d) = (l.idents rows).map Unicode.utf16 := by
  cases l with
  | channel hexid _ => exact (congrArg _ (h.channel hexid)).trans (map_units hnamed _)
  | object hexid _ => exact (congrArg _ (h.object hexid)).trans (map_units hnamed _)
  | advertised =>
      have hids := (congrArg (List.map fun h => Unicode.utf16 "sha256:".toList ++ h)
        h.advertised).trans (map_units hnamed _)
      exact (List.map_id _).trans hids

/-- There are fewer rows than `seq` has values. -/
theorem rows_length {db : Db} (h : Inv db) : db.assertions.length ≤ 2 ^ 63 := by
  have hnodup : (db.assertions.map fun r => r.seq).Nodup :=
    List.pairwise_map.mpr (h.seqs.imp fun hlt => Nat.ne_of_lt hlt)
  have hsub : (db.assertions.map fun r => r.seq) ⊆ List.range (2 ^ 63) := by
    intro n hn
    obtain ⟨r, hr, rfl⟩ := List.mem_map.mp hn
    exact List.mem_range.mpr (h.range r hr).2
  have hle := (hnodup.subperm hsub).length_le
  rwa [List.length_map, List.length_range] at hle

/-- **The pages of the Python relay.** -/
theorem page_slice {items : List Str} (hlen : items.length ≤ 2 ^ 63) (size : Nat) {n : Nat}
    (hn : n ≤ items.length) : InMemory.page size items (Paging.cursorAt (Nat.toDigits 10) n) =
      .ok ((Paging.slice size n items).1,
        (Paging.slice size n items).2.map (Nat.toDigits 10)) := by
  have hcut : ∀ start : Nat, (.ok ((items.drop start).take size,
      if start + ((items.drop start).take size).length < items.length then
        some (Nat.toDigits 10 (start + ((items.drop start).take size).length)) else none) :
        Py (List Str × Option Str)) = .ok ((Paging.slice size start items).1,
          (Paging.slice size start items).2.map (Nat.toDigits 10)) := by
    intro start
    rw [Paging.slice, apply_ite (Option.map (Nat.toDigits 10))]
    rfl
  by_cases h0 : n = 0
  · rw [Paging.cursorAt, if_pos h0, h0, InMemory.page, ok_bind]
    exact hcut 0
  · obtain ⟨c, cs, hdigits⟩ := List.exists_cons_of_ne_nil (Nat.toDigits_ne_nil (b := 10) (n := n))
    have hint : intText (Nat.toDigits 10 n) = .ok (n : Int) := by
      have hshort : (Nat.toDigits 10 n).length ≤ 19 :=
        (Nat.length_toDigits_le_iff (by decide) (by decide)).mpr (by omega)
      rw [intText_digits Nat.toDigits_ne_nil
        (fun c hc => Nat.isDigit_of_mem_toDigits (by decide) (by decide) hc)
        (hshort.trans (by decide)), Nat.ofDigitChars_toDigits (by decide) (by decide)]
    have hstart : (max 0 (n : Int)).toNat = n := by omega
    rw [Paging.cursorAt, if_neg h0, InMemory.page, hdigits]
    simp only
    rw [← hdigits, hint, ok_bind, hstart]
    · exact hcut n
    · exact Nat.toDigits_ne_nil

theorem fromBase64url_b64url (n : Nat) :
    TypeScript.InMemory.fromBase64url (TypeScript.InMemory.b64url n) = some (Nat.toDigits 10 n) := by
  obtain ⟨hall, hpad, -⟩ := Base64.strip_encode (Unicode.utf8 (Nat.toDigits 10 n))
  have hchars : (TypeScript.InMemory.b64url n).map (fun u => Char.ofNat u.toNat) =
      Base64.strip (Base64.encode (Unicode.utf8 (Nat.toDigits 10 n))) := by
    rw [TypeScript.InMemory.b64url, TypeScript.lit, List.map_map]
    conv_rhs => rw [← List.map_id (Base64.strip _)]
    refine List.map_congr_left fun c hc => ?_
    have hlt := digitVal_ascii (hall c hc)
    rw [Function.comp_apply, TypeScript.ascii, UInt16.toNat_ofNat', Nat.mod_eq_of_lt (by omega),
      Char.ofNat_toNat, id]
  rw [TypeScript.InMemory.fromBase64url, hchars, if_neg (Base64.strip_encode_length _), hpad, Base64.decode_encode]
  exact Unicode.decodeUtf8_utf8 _

theorem fromCursor_b64url (other : Str → Nat) (n : Nat) :
    TypeScript.InMemory.fromCursor other (some (TypeScript.InMemory.b64url n)) = n := by
  have hne : TypeScript.InMemory.b64url n ≠ [] := by
    intro hnil
    have hback := fromBase64url_b64url n
    rw [hnil] at hback
    exact Nat.toDigits_ne_nil (Option.some.inj hback).symm
  have hdigits : (Nat.toDigits 10 n).all Char.isDigit = true :=
    List.all_eq_true.mpr fun c hc => Nat.isDigit_of_mem_toDigits (by decide) (by decide) hc
  rw [TypeScript.InMemory.fromCursor, fromBase64url_b64url]
  · simp only
    rw [if_pos ⟨Nat.toDigits_ne_nil, hdigits⟩, Nat.ofDigitChars_toDigits (by decide) (by decide)]
  · exact hne

/-- **The pages of the TypeScript relay.** -/
theorem slicePage_slice (other : Str → Nat) (size : Nat) (ids : List TypeScript.Units) (n : Nat) :
    TypeScript.InMemory.slicePage other size ids
        (Paging.cursorAt TypeScript.InMemory.b64url n) =
      ((Paging.slice size n ids).1, (Paging.slice size n ids).2.map TypeScript.InMemory.b64url) := by
  have hstart : TypeScript.InMemory.fromCursor other
      (Paging.cursorAt TypeScript.InMemory.b64url n) = n := by
    by_cases h0 : n = 0
    · rw [Paging.cursorAt, if_pos h0, h0]
      rfl
    · rw [Paging.cursorAt, if_neg h0]
      exact fromCursor_b64url other n
  rw [TypeScript.InMemory.slicePage, hstart, Paging.slice,
    apply_ite (Option.map TypeScript.InMemory.b64url)]
  rfl

/-- The pages of the durable relay, when nothing is added meanwhile. -/
theorem complete_of_follow {l : Listing} {db : Db} {cursor : Option Str} {n : Nat}
    {pages : List (List Row)} (h : follow cfg l cursor (List.replicate n db) = .ok (pages, true)) :
    Paging.Complete (read cfg l db) cursor pages := by
  induction n generalizing cursor pages with
  | zero => cases (Prod.mk.inj (Except.ok.inj h)).2
  | succ n ih =>
      rw [List.replicate_succ, follow] at h
      obtain ⟨⟨rows, nxt⟩, hread, h⟩ := bind_eq_ok_iff.mp h
      cases nxt with
      | none =>
          obtain ⟨rfl, -⟩ := Prod.mk.inj (Except.ok.inj h)
          exact .last hread
      | some token =>
          obtain ⟨⟨rest, done⟩, hrest, h⟩ := bind_eq_ok_iff.mp h
          obtain ⟨rfl, rfl⟩ := Prod.mk.inj (Except.ok.inj h)
          exact .more hread (ih hrest)

theorem durable_lists {db : Db} (h : Inv db) (hsize : (pageSize cfg.page_size).1 + 1 < 2 ^ 63)
    (l : Listing) : Paging.Lists (read cfg l db) (fun r => r.id) (l.idents db.assertions) := by
  obtain ⟨n, pages, hfollow⟩ := follow_ends hsize l h
  have hlists := Paging.Lists.of_complete (complete_of_follow hfollow) fun r : Row => r.id
  rwa [follow_static h hfollow] at hlists

/-- **The three relays list the same identifiers in the same order.** After
any sequence of valid assertions, with repetitions, a complete traversal of
a channel, of an object or of the advertised channels gives the same
identifiers, whatever the three page sizes. -/
theorem indexes_agree {page_size : Int} (hsize : 1 ≤ page_size ∧ page_size + 1 < 2 ^ 63)
    (hcfg : cfg.page_size = page_size) {objs : List (Members Str)}
    (hvalid : ∀ obj ∈ objs, Assertion sha256 verifies obj) {db : Db}
    (hstores : Stores (imports sha256 verifies sign) cfg Db.empty objs db) (l : Listing)
    {p q : Nat} (hp : 1 ≤ p) (hq : 1 ≤ q) (other : Str → Nat) :
    ∃ store ids, putAll (imports sha256 verifies sign) objs InMemory.Store.empty = .ok store ∧
      Paging.Lists (InMemory.page p (l.inMemory store)) (fun d => l.ident d) ids ∧
      Paging.Lists (fun cursor => (.ok (TypeScript.InMemory.slicePage other q
        (l.inMaps (storeAll sha256 objs TypeScript.InMemory.Index.empty)) cursor) :
          Except TypeScript.Thrown _)) (fun d => l.identUnits d) (ids.map Unicode.utf16) ∧
      Paging.Lists (read cfg l db) (fun r => r.id) ids := by
  have hinv : Inv db := run_inv inv_empty (stores_run hstores)
  have hpage : (pageSize cfg.page_size).1 + 1 < 2 ^ 63 := by
    rw [hcfg]
    change (max 1 page_size).toNat + 1 < 2 ^ 63
    omega
  obtain ⟨hnamed, ⟨store, hput, hpython⟩, hts⟩ := stores_show hstores hvalid .empty .empty
    nofun ⟨fun _ => by simp [InMemory.Store.empty, contains, Db.empty], rfl,
      fun _ => rfl, fun _ => rfl⟩
    ⟨fun _ => by simp [TypeScript.InMemory.Index.empty, Db.empty], rfl, fun _ => rfl, fun _ => rfl⟩
  have hids := inMemory_idents hnamed hpython l
  have hlen : (l.inMemory store).length ≤ 2 ^ 63 := by
    have hle : ((l.inMemory store).map fun d => l.ident d).length ≤ db.assertions.length := by
      rw [hids, Listing.idents, List.length_map]
      exact List.length_filter_le _ _
    rw [List.length_map] at hle
    exact hle.trans (rows_length hinv)
  refine ⟨store, l.idents db.assertions, hput, ?_, ?_, durable_lists hinv hpage l⟩
  · rw [← hids]
    exact Paging.lists_slices hp (fun n hn => page_slice hlen p hn) _
  · rw [← inMaps_idents hnamed hts l]
    exact Paging.lists_slices hq
      (fun n _ => congrArg Except.ok (slicePage_slice other q _ n)) _

end

/-- With the largest page size of SQLite the durable relay has no page of an
empty list, the others have. -/
theorem indexes_disagree_max_page :
    Stores (imports someHash (fun _ _ _ => true) fun _ _ => .ok []) (openConfig (2 ^ 63 - 1))
      Db.empty [] Db.empty ∧
    Paging.Lists (InMemory.page 1 (Listing.inMemory InMemory.Store.empty .advertised)) id [] ∧
    ∀ ids, ¬ Paging.Lists (read (openConfig (2 ^ 63 - 1)) .advertised Db.empty) (fun r => r.id)
      ids := by
  have hempty : Paging.Complete
      (InMemory.page 1 (Listing.inMemory InMemory.Store.empty .advertised)) none [[]] := .last rfl
  refine ⟨.nil, Paging.Lists.of_complete hempty id, ?_⟩
  rintro ids ⟨⟨pages, hpages⟩, -⟩
  have hread : ∀ result, read (openConfig (2 ^ 63 - 1)) .advertised Db.empty none ≠ .ok result :=
    fun result h => absurd (read_size h) (by decide)
  cases hpages with
  | last h => exact hread _ h
  | more h _ => exact hread _ h

/-! ## A description, a pointer and the description again -/

theorem pair_assertions : ∀ obj ∈ [description, pointer, description],
    Assertion someHash (fun _ _ _ => true) obj := by
  have hd : Assertion someHash (fun _ _ _ => true) description :=
    ⟨_, description_section6, description_valid⟩
  have hp : Assertion someHash (fun _ _ _ => true) pointer := ⟨_, pointer_section6, pointer_valid⟩
  intro obj hobj
  simp only [List.mem_cons, List.not_mem_nil, or_false] at hobj
  rcases hobj with rfl | rfl | rfl
  · exact hd
  · exact hp
  · exact hd

/-- The third submission changes nothing. -/
theorem pair_stores : Stores (imports someHash (fun _ _ _ => true) fun _ _ => .ok [])
    (openConfig 1) Db.empty [description, pointer, description] pairDb := by
  have hI : Returns (imports someHash (fun _ _ _ => true) fun _ _ => .ok []) Rfc8785.text
      (fun _ _ _ => true) := returns_python fun _ _ _ => rfl
  obtain ⟨hd, hp⟩ := openConfig_permits 1
  have hdescription := (validateObject_ok hI description_ijson.distinct).mpr ⟨description_valid, rfl⟩
  have hpointer := (validateObject_ok hI pointer_ijson.distinct).mpr ⟨pointer_valid, rfl⟩
  have hfirst : add ⟨1, fun _ => false⟩ (entry someHash description) Db.empty =
      (.ok true, insert describedRow Db.empty) := add_new (fun _ => rfl) nofun
  have hsecond : add ⟨2, fun _ => false⟩ (entry someHash pointer) (insert describedRow Db.empty) =
      (.ok true, pairDb) := by
    refine add_new (fun _ => rfl) fun r hr => ?_
    rw [List.mem_singleton.mp hr, describedRow_id]
    exact fun h => absurd (h.trans pointerRow_id) (by decide)
  have hthird : add ⟨3, fun _ => false⟩ (entry someHash description) pairDb = (.ok false, pairDb) :=
    add_known (fun _ => rfl) ⟨describedRow, List.mem_cons_self .., rfl⟩
  have hfresh : Fresh ⟨3, fun _ => false⟩ pairDb := ⟨by decide, by decide, fun r hr => by
    rcases List.mem_pair.mp (show r ∈ [describedRow, pointerRow] from hr) with rfl | rfl
    · exact Nat.lt_of_sub_eq_succ rfl
    · exact Nat.lt_of_sub_eq_succ rfl⟩
  refine .cons hdescription ((entryOf_ok description_valid.schema description_ijson.distinct).mpr
    ⟨hd, rfl⟩) describing_fresh (fun _ => rfl) ?_
  rw [hfirst]
  refine .cons hpointer ((entryOf_ok pointer_valid.schema pointer_ijson.distinct).mpr
    ⟨hp, rfl⟩) pointing_fresh (fun _ => rfl) ?_
  rw [hsecond]
  refine .cons hdescription ((entryOf_ok description_valid.schema description_ijson.distinct).mpr
    ⟨hd, rfl⟩) hfresh (fun _ => rfl) ?_
  rw [hthird]
  exact .nil

/-- The channel of the two in pages of one, on all three relays. -/
theorem indexes_agree_pair : ∃ store,
    putAll (imports someHash (fun _ _ _ => true) fun _ _ => .ok [])
      [description, pointer, description] InMemory.Store.empty = .ok store ∧
    Paging.Lists (InMemory.page 1 (describedList.inMemory store)) (fun d => describedList.ident d)
      [idText someDigest, idText pointerDigest] ∧
    Paging.Lists (fun cursor => (.ok (TypeScript.InMemory.slicePage (fun _ => 0) 1
      (describedList.inMaps (storeAll someHash [description, pointer, description]
        TypeScript.InMemory.Index.empty)) cursor) : Except TypeScript.Thrown _))
      (fun d => describedList.identUnits d)
      [Unicode.utf16 (idText someDigest), Unicode.utf16 (idText pointerDigest)] ∧
    Paging.Lists (read (openConfig 1) describedList pairDb) (fun r => r.id)
      [idText someDigest, idText pointerDigest] := by
  obtain ⟨store, ids, hput, hpython, hts, hdurable⟩ := indexes_agree (by decide) rfl
    pair_assertions pair_stores describedList le_rfl le_rfl fun _ => 0
  have hinv : Inv pairDb := reachable_inv openConfig_pair
  have hids : describedList.idents pairDb.assertions =
      [idText someDigest, idText pointerDigest] := by
    have hrows := describedList.rows_eq hinv
    rw [describedList_rows] at hrows
    rw [Listing.idents, ← hrows, ← describedRow_id, ← pointerRow_id]
    rfl
  obtain rfl : ids = [idText someDigest, idText pointerDigest] :=
    (hdurable.unique (durable_lists hinv (by decide) describedList)).trans hids
  exact ⟨store, hput, hpython, hts, hdurable⟩

end SwarmPointer.Relay
