import SwarmPointer.Relay.Admission
import SwarmPointer.Relay.Traversal

/-!
# Relay — the two tables agree

Every row is the entry of a valid assertion, and the advertised channels are
those that have a description.

This is where the two halves meet: what a run does to the tables, for any
entries, and which entries requests lead to. A transaction that fails between
its two statements is rolled back, so the agreement holds after it as well.
-/

namespace SwarmPointer.Relay

open Except Jcs Json JsonInput Protocol Python Python.Protocol Python.Server Python.Store

section
variable {sha256 : Bytes → Digest} {verifies : Bytes → Bytes → Bytes → Bool}
  {sign : Bytes → Bytes → Py Bytes} {posts : Config → PostRequest → Prop} {db : Db}

/-- An entry is that of a valid assertion the parser delivered. -/
def Derived (sha256 : Bytes → Digest) (verifies : Bytes → Bytes → Bytes → Bool) (e : Entry) : Prop :=
  ∃ obj, Ijson (.obj obj) ∧ Valid Rfc8785.bytes sha256 (fun a s d => verifies a s d = true) obj ∧
    e = entry sha256 obj

/-- **Every row is derived from a valid assertion.** -/
theorem reachable_derived (h : Reachable (imports sha256 verifies sign) posts db) :
    ∀ r ∈ db.assertions, Derived sha256 verifies r.toEntry := by
  intro r hr
  obtain ⟨cfg, req, -, hentry⟩ := reachable_rows h r hr
  obtain ⟨data, obj, -, hsix, hv, -, he⟩ := postEntry_ok.mp hentry
  exact ⟨obj, parseObject_ijson (parseObject_exact.mpr hsix), hv, he⟩

/-- A channel description is in its own channel. -/
theorem Derived.own {e : Entry} (h : Derived sha256 verifies e)
    (hc : e.type = "channel".toList) : e.channel = some e.id := by
  obtain ⟨obj, -, -, rfl⟩ := h
  exact congrArg some (if_pos hc)

theorem mem_descriptions {r : Row} :
    r ∈ descriptions db ↔ r ∈ db.assertions ∧ r.type = "channel".toList := by
  rw [descriptions, List.mem_filter, decide_eq_true_eq]

/-- **The tables agree**, whatever is posted and whichever statements fail:
the advertised channels are the pairs of an identifier of a channel
description, identifiers are unique, a channel description is in its own
channel, and a full traversal of `GET /v1/channels` lists exactly the
identifiers of the channel descriptions. -/
theorem tables_agree (h : Reachable (imports sha256 verifies sign) (fun _ _ => True) db) :
    (∀ c i, (c, i) ∈ db.advertised_channels ↔
      c = i ∧ ∃ r ∈ db.assertions, r.type = "channel".toList ∧ r.id = i) ∧
    (db.assertions.map fun r => r.id).Nodup ∧
    (∀ r ∈ db.assertions, r.type = "channel".toList → r.channel = some r.id) ∧
    ∀ cfg n pages, follow cfg .advertised none (List.replicate n db) = .ok (pages, true) →
      ∀ i, i ∈ pages.flatten.map (fun r => r.id) ↔
        ∃ r ∈ db.assertions, r.type = "channel".toList ∧ r.id = i := by
  have hinv := reachable_inv h
  refine ⟨fun c i => ?_, hinv.ids, fun r hr => (reachable_derived h r hr).own, ?_⟩
  · rw [hinv.advertised, List.mem_map]
    constructor
    · rintro ⟨r, hr, heq⟩
      obtain ⟨rfl, rfl⟩ := Prod.mk.inj heq
      obtain ⟨hr, hc⟩ := mem_descriptions.mp hr
      exact ⟨rfl, r, hr, hc, rfl⟩
    · rintro ⟨rfl, r, hr, hc, rfl⟩
      exact ⟨r, mem_descriptions.mpr ⟨hr, hc⟩, rfl⟩
  · intro cfg n pages hfollow i
    rw [follow_static hinv hfollow, List.mem_map]
    constructor
    · rintro ⟨r, hr, rfl⟩
      obtain ⟨hr, hc⟩ := List.mem_filter.mp hr
      exact ⟨r, hr, of_decide_eq_true hc, rfl⟩
    · rintro ⟨r, hr, hc, rfl⟩
      exact ⟨r, List.mem_filter.mpr ⟨hr, decide_eq_true hc⟩, rfl⟩

end

/-! ## A channel and a pointer in it -/

/-- The rows of `description` and of `pointer`. -/
def describedRow : Row := ⟨entry someHash description, 1⟩

def pointerRow : Row := ⟨entry someHash pointer, 2⟩

/-- The tables with both of them. -/
def pairDb : Db := insert pointerRow (insert describedRow Db.empty)

theorem describedRow_id : describedRow.id = idText someDigest := congrArg idText description_digest

theorem pointerRow_id : pointerRow.id = idText pointerDigest := congrArg idText pointer_digest

theorem describing_fresh : Fresh ⟨1, fun _ => false⟩ Db.empty := ⟨by decide, by decide, nofun⟩

theorem pointing_fresh : Fresh ⟨2, fun _ => false⟩ (insert describedRow Db.empty) :=
  ⟨by decide, by decide, fun r hr => by
    rw [List.mem_singleton.mp hr]
    exact Nat.one_lt_two⟩

/-- Both rows are in the channel. -/
theorem pair_channel : describedRow.channel = some (idText someDigest) ∧
    pointerRow.channel = some (idText someDigest) :=
  ⟨congrArg some ((if_pos rfl).trans describedRow_id), rfl⟩

/-- The list of the channel. -/
def describedList : Listing := .channel (hex someDigest.1) (by decide)

theorem describedList_rows : describedList.rows pairDb = [describedRow, pointerRow] := by
  refine List.filter_eq_self.mpr fun r hr => decide_eq_true ?_
  rcases List.mem_pair.mp (show r ∈ [describedRow, pointerRow] from hr) with rfl | rfl
  · exact pair_channel.1
  · exact pair_channel.2

section
variable {sign : Bytes → Bytes → Py Bytes} {cfg : Config} {posts : Config → PostRequest → Prop}

/-- The POST of the description to an empty relay that permits it. -/
theorem post_description (hd : Permits cfg someHash description)
    (hlen : (65536 : Int) ≤ cfg.max_record_bytes) :
    doPost (imports someHash (fun _ _ _ => true) sign) cfg describing ⟨1, fun _ => false⟩ Db.empty =
      (some ⟨200, .submitted describedRow.id false⟩, insert describedRow Db.empty) :=
  doPost_new (postEntry_description hd hlen) (fun _ => rfl) nofun

/-- And the POST of the pointer after it. -/
theorem post_pointer (hp : Permits cfg someHash pointer)
    (hlen : (65536 : Int) ≤ cfg.max_record_bytes) :
    doPost (imports someHash (fun _ _ _ => true) sign) cfg pointing ⟨2, fun _ => false⟩
        (insert describedRow Db.empty) =
      (some ⟨200, .submitted pointerRow.id false⟩, pairDb) := by
  refine doPost_new (postEntry_pointer hp hlen) (fun _ => rfl) fun r hr => ?_
  rw [List.mem_singleton.mp hr, describedRow_id]
  exact fun h => absurd (h.trans pointerRow_id) (by decide)

theorem reachable_description (hd : Permits cfg someHash description)
    (hlen : (65536 : Int) ≤ cfg.max_record_bytes) (hposts : posts cfg describing) :
    Reachable (imports someHash (fun _ _ _ => true) sign) posts (insert describedRow Db.empty) := by
  have hstep : Posts (imports someHash (fun _ _ _ => true) sign) posts Db.empty
      (doPost (imports someHash (fun _ _ _ => true) sign) cfg describing ⟨1, fun _ => false⟩
        Db.empty).2 := .post hposts describing_fresh
  rw [post_description hd hlen] at hstep
  exact .single hstep

theorem reachable_pair (hd : Permits cfg someHash description) (hp : Permits cfg someHash pointer)
    (hlen : (65536 : Int) ≤ cfg.max_record_bytes) (hposts : posts cfg describing)
    (hposts' : posts cfg pointing) :
    Reachable (imports someHash (fun _ _ _ => true) sign) posts pairDb := by
  have hstep : Posts (imports someHash (fun _ _ _ => true) sign) posts
      (insert describedRow Db.empty)
      (doPost (imports someHash (fun _ _ _ => true) sign) cfg pointing ⟨2, fun _ => false⟩
        (insert describedRow Db.empty)).2 := .post hposts' pointing_fresh
  rw [post_pointer hp hlen] at hstep
  exact (reachable_description hd hlen hposts).tail hstep

end

theorem openConfig_permits (n : Int) : Permits (openConfig n) someHash description ∧
    Permits (openConfig n) someHash pointer :=
  ⟨description_permits (.inl rfl) rfl,
    pointer_permits (.inl rfl) (.inl rfl) rfl (Nat.le_of_ble_eq_true rfl)
      (Nat.le_of_ble_eq_true rfl)⟩

/-- A relay without restrictions reaches the two rows. -/
theorem openConfig_pair : Reachable (imports someHash (fun _ _ _ => true) fun _ _ => .ok [])
    (fun _ _ => True) pairDb :=
  reachable_pair (openConfig_permits 1).1 (openConfig_permits 1).2 le_rfl trivial trivial

/-- The tables of the two rows. -/
theorem tables_agree_pair :
    (∀ c i, (c, i) ∈ pairDb.advertised_channels ↔
      c = i ∧ ∃ r ∈ pairDb.assertions, r.type = "channel".toList ∧ r.id = i) ∧
    (pairDb.assertions.map fun r => r.id).Nodup ∧
    (∀ r ∈ pairDb.assertions, r.type = "channel".toList → r.channel = some r.id) ∧
    ∀ cfg n pages, follow cfg .advertised none (List.replicate n pairDb) = .ok (pages, true) →
      ∀ i, i ∈ pages.flatten.map (fun r => r.id) ↔
        ∃ r ∈ pairDb.assertions, r.type = "channel".toList ∧ r.id = i :=
  tables_agree openConfig_pair

end SwarmPointer.Relay
