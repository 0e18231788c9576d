import SwarmPointer.Relay.Index

/-!
# Relay — blocked actors and channels

`do_POST` compares the `actor` member with the blocked actor and the `channel`
member with the blocked channel. The first comparison is enough: every
assertion names its actor. The second is not: a channel description has no
`channel` member and is indexed under its own identifier, so a description of
the blocked channel itself is admitted, listed and advertised.

The result is exact in the state (`blocked_iff`): what is reached is blocked
as configured unless a description of the blocked channel is held.
-/

namespace SwarmPointer.Relay

open Except Jcs Json JsonInput Protocol Python Python.Protocol Python.Server Python.Store

/-- What blocking an actor `X` and a channel `C` is for, either of them unset
when empty: no assertion of `X` is held, the list of `C` is empty and `C` is
not among the advertised channels. -/
def Blocked (X C : Str) (db : Db) : Prop :=
  (X ≠ [] → ∀ r ∈ db.assertions, r.actor ≠ X) ∧
  (C ≠ [] → (∀ hexid h, C = "sha256:".toList ++ hexid → ∀ cfg cursor rows nxt,
      read cfg (.channel hexid h) db cursor = .ok (rows, nxt) → rows = [] ∧ nxt = none) ∧
    ∀ cfg cursor rows nxt, read cfg .advertised db cursor = .ok (rows, nxt) →
      C ∉ rows.map fun r => r.id)

theorem read_rows {cfg : Config} {l : Listing} {db : Db} {cursor : Option Str} {rows : List Row}
    {nxt : Option Str} (h : read cfg l db cursor = .ok (rows, nxt)) :
    (∀ r ∈ rows, r ∈ l.rows db) ∧ (rows = [] → nxt = none) := by
  obtain ⟨k, _, hpage⟩ := Except.bind_eq_ok_iff.mp h
  obtain ⟨sel, hselect, hpage⟩ := Except.bind_eq_ok_iff.mp hpage
  obtain ⟨a, _, hselect⟩ := Except.bind_eq_ok_iff.mp hselect
  obtain ⟨n, _, hselect⟩ := Except.bind_eq_ok_iff.mp hselect
  obtain rfl := Except.ok.inj hselect
  obtain ⟨rfl, rfl⟩ := Prod.mk.inj (Except.ok.inj hpage)
  constructor
  · intro r hr
    have hmem := List.mem_of_mem_take (List.mem_of_mem_take hr)
    exact List.mem_of_mem_filter ((List.perm_insertionSort _ _).mem_iff.mp hmem)
  · intro hnil
    rw [hnil]
    split <;> rfl

/-- Rows without the blocked actor and out of the blocked channel give `Blocked`. -/
theorem blocked_of_rows {X C : Str} {db : Db} (hinv : Inv db)
    (hX : X ≠ [] → ∀ r ∈ db.assertions, r.actor ≠ X)
    (hC : C ≠ [] → ∀ r ∈ db.assertions, r.channel ≠ some C)
    (hown : ∀ r ∈ db.assertions, r.type = "channel".toList → r.channel = some r.id) :
    Blocked X C db := by
  refine ⟨hX, fun hne => ⟨?_, ?_⟩⟩
  · rintro hexid hhex rfl cfg cursor rows nxt hread
    obtain ⟨hsub, hnext⟩ := read_rows hread
    have hnil : rows = [] := by
      refine List.eq_nil_iff_forall_not_mem.mpr fun r hr => ?_
      have hmem := hsub r hr
      rw [Listing.rows_eq _ hinv, List.mem_filter] at hmem
      exact hC hne r hmem.1 (of_decide_eq_true hmem.2)
    exact ⟨hnil, hnext hnil⟩
  · intro cfg cursor rows nxt hread hmem
    obtain ⟨r, hr, rfl⟩ := List.mem_map.mp hmem
    have hrow := (read_rows hread).1 r hr
    rw [Listing.rows_eq _ hinv, List.mem_filter] at hrow
    exact hC hne r hrow.1 (hown r hrow.1 (of_decide_eq_true hrow.2))

/-- The pages that a client gets are pages that `read` returns. -/
theorem read_of_follow {cfg : Config} {l : Listing} {cursor : Option Str} {dbs : List Db}
    {pages : List (List Row)} {done : Bool} (h : follow cfg l cursor dbs = .ok (pages, done)) :
    ∀ rows ∈ pages, ∃ db ∈ dbs, ∃ cursor nxt, read cfg l db cursor = .ok (rows, nxt) := by
  induction dbs generalizing cursor pages done with
  | nil =>
      obtain ⟨rfl, -⟩ := Prod.mk.inj (Except.ok.inj h)
      exact nofun
  | cons db dbs ih =>
      rw [follow] at h
      obtain ⟨⟨rows, nxt⟩, hread, h⟩ := bind_eq_ok_iff.mp h
      cases nxt with
      | none =>
          obtain ⟨rfl, -⟩ := Prod.mk.inj (Except.ok.inj h)
          intro rows' hrows
          rw [List.mem_singleton.mp hrows]
          exact ⟨db, List.mem_cons_self .., _, _, hread⟩
      | some token =>
          obtain ⟨⟨rest, done'⟩, hrest, h⟩ := bind_eq_ok_iff.mp h
          obtain ⟨rfl, -⟩ := Prod.mk.inj (Except.ok.inj h)
          intro rows' hrows
          rcases List.mem_cons.mp hrows with rfl | hrows
          · exact ⟨db, List.mem_cons_self .., _, _, hread⟩
          · obtain ⟨d, hd, hpage⟩ := ih hrest rows' hrows
            exact ⟨d, List.mem_cons_of_mem _ hd, hpage⟩

/-! ## What the two settings keep out -/

section
variable {sha256 : Bytes → Digest} {verifies : Bytes → Bytes → Bytes → Bool}
  {sign : Bytes → Bytes → Py Bytes} {X C : Str} {db : Db}

/-- **The blocked actor stays out**, whatever else is configured and posted. -/
theorem blocked_actor_absent
    (h : Reachable (imports sha256 verifies sign) (fun cfg _ => cfg.block_actor = X) db)
    (hX : X ≠ []) : ∀ r ∈ db.assertions, r.actor ≠ X := by
  intro r hr
  obtain ⟨cfg, req, rfl, hentry⟩ := reachable_rows h r hr
  obtain ⟨data, obj, -, -, -, hp, he⟩ := postEntry_ok.mp hentry
  rw [he]
  exact hp.actor.resolve_left hX

/-- **In the blocked channel there is its own description or nothing.** -/
theorem blocked_channel_rows
    (h : Reachable (imports sha256 verifies sign) (fun cfg _ => cfg.block_channel = C) db)
    (hC : C ≠ []) : ∀ r ∈ db.assertions, r.channel = some C →
      r.type = "channel".toList ∧ r.id = C := by
  intro r hr hchannel
  obtain ⟨cfg, req, rfl, hentry⟩ := reachable_rows h r hr
  obtain ⟨data, obj, -, -, -, hp, he⟩ := postEntry_ok.mp hentry
  rw [he] at hchannel ⊢
  have heq : channelOf (identOf sha256 obj) obj = cfg.block_channel := Option.some.inj hchannel
  rw [channelOf] at heq
  split at heq
  · rename_i htype
    exact ⟨htype, heq⟩
  · exact absurd heq (hp.channel.resolve_left hC)

/-- The configurations of a relay that blocks `X` and `C`. -/
def Configured (X C : Str) (cfg : Config) : Prop := cfg.block_actor = X ∧ cfg.block_channel = C

/-- **A reachable state is blocked as configured exactly when it holds no
description of the blocked channel.** -/
theorem blocked_iff
    (h : Reachable (imports sha256 verifies sign) (fun cfg _ => Configured X C cfg) db) :
    Blocked X C db ↔ (C ≠ [] → ∀ r ∈ db.assertions, r.type = "channel".toList → r.id ≠ C) := by
  have hinv := reachable_inv h
  constructor
  · rintro ⟨-, hchannel⟩ hC r hr htype hid
    -- the description is on a page of the advertised channels
    obtain ⟨n, pages, hfollow⟩ := follow_ends
      (show (pageSize (openConfig 1).page_size).1 + 1 < 2 ^ 63 by decide) .advertised hinv
    have hlisted : r ∈ pages.flatten := by
      rw [follow_static hinv hfollow]
      exact List.mem_filter.mpr ⟨hr, decide_eq_true htype⟩
    obtain ⟨rows, hrows, hmem⟩ := List.mem_flatten.mp hlisted
    obtain ⟨d, hd, cursor, nxt, hread⟩ := read_of_follow hfollow rows hrows
    rw [List.eq_of_mem_replicate hd] at hread
    exact (hchannel hC).2 _ _ _ _ hread (List.mem_map.mpr ⟨r, hmem, hid⟩)
  · intro hnone
    have hactor := blocked_actor_absent (reachable_mono h fun _ _ hp => hp.1)
    have hrows := blocked_channel_rows (reachable_mono h fun _ _ hp => hp.2)
    have hout : C ≠ [] → ∀ r ∈ db.assertions, r.channel ≠ some C := fun hC r hr heq =>
      hnone hC r hr (hrows hC r hr heq).1 (hrows hC r hr heq).2
    exact blocked_of_rows hinv hactor hout fun r hr => (reachable_derived h r hr).own

/-- A request with a valid description of the channel `C` that the policy
permits. -/
def Describes (sha256 : Bytes → Digest) (verifies : Bytes → Bytes → Bytes → Bool) (C : Str)
    (cfg : Config) (req : PostRequest) : Prop :=
  ∃ data obj, readBody cfg req = .ok data ∧ Section6 data obj ∧
    Valid Rfc8785.bytes sha256 (fun a s d => verifies a s d = true) obj ∧
    Permits cfg sha256 obj ∧ textOf obj "type".toList = "channel".toList ∧ identOf sha256 obj = C

/-- **Blocked identities stay out as long as nobody describes the blocked
channel**; the blocked actor stays out in any case. -/
theorem blocked_unless_described (sha256 : Bytes → Digest)
    (verifies : Bytes → Bytes → Bytes → Bool) (sign : Bytes → Bytes → Py Bytes) (X C : Str)
    (db : Db) :
    (Reachable (imports sha256 verifies sign) (fun cfg _ => Configured X C cfg) db →
      X ≠ [] → ∀ r ∈ db.assertions, r.actor ≠ X) ∧
    (Reachable (imports sha256 verifies sign)
        (fun cfg req => Configured X C cfg ∧ (C ≠ [] → ¬ Describes sha256 verifies C cfg req)) db →
      Blocked X C db) := by
  constructor
  · intro h
    exact blocked_actor_absent (reachable_mono h fun _ _ hp => hp.1)
  · intro h
    refine (blocked_iff (reachable_mono h fun _ _ hp => hp.1)).mpr ?_
    intro hC r hr htype hid
    obtain ⟨cfg, req, ⟨-, hno⟩, hentry⟩ := reachable_rows h r hr
    obtain ⟨data, obj, hread, hsix, hv, hp, he⟩ := postEntry_ok.mp hentry
    rw [he] at htype hid
    exact hno hC ⟨data, obj, hread, hsix, hv, hp, htype, hid⟩

end

/-! ## Runs -/

/-- The defaults with a blocked actor and a blocked channel. -/
def blockingConfig (actor channel : Str) : Config :=
  { openConfig 1 with block_actor := actor, block_channel := channel }

/-- The actor of the private key of thirty-two ones. -/
def otherActor : Str := "ed25519:".toList ++
  hex [138, 136, 227, 221, 116, 9, 241, 149, 253, 82, 219, 45, 60, 186, 93, 114, 202, 103, 9, 191,
    29, 148, 18, 27, 243, 116, 136, 1, 180, 15, 111, 92]

/-- The channel of a description by that actor, created at 0 with the nonce 888861. -/
def otherChannel : Str := "sha256:".toList ++
  hex [0, 0, 2, 111, 165, 44, 239, 163, 214, 72, 24, 209, 32, 173, 46, 247, 15, 224, 77, 14, 92,
    171, 30, 110, 27, 232, 118, 131, 9, 55, 183, 224]

/-- Neither of the two requests describes that channel. -/
theorem not_describes_other {cfg : Config} (hlen : (65536 : Int) ≤ cfg.max_record_bytes)
    {req : PostRequest} (hreq : req = describing ∨ req = pointing) :
    ¬ Describes someHash (fun _ _ _ => true) otherChannel cfg req := by
  rintro ⟨data, obj, hread, hsix, -, -, htype, hid⟩
  rcases hreq with rfl | rfl
  · obtain rfl := Except.ok.inj ((small_read describing_fits hlen).symm.trans hread)
    obtain rfl := description_section6.unique hsix
    have hids := (congrArg idText description_digest).symm.trans hid
    exact absurd hids (by decide)
  · obtain rfl := Except.ok.inj ((small_read pointing_fits hlen).symm.trans hread)
    obtain rfl := pointer_section6.unique hsix
    exact absurd htype (by decide)

/-- A description and a pointer by another actor, in another channel. -/
theorem blocked_pair : Blocked otherActor otherChannel pairDb := by
  have hactor : "ed25519:".toList ++ hex someKey ≠ otherActor := by decide
  have hchannel : idText someDigest ≠ otherChannel := by decide
  have h : Reachable (imports someHash (fun _ _ _ => true) fun _ _ => .ok [])
      (fun cfg req => Configured otherActor otherChannel cfg ∧ (otherChannel ≠ [] →
        ¬ Describes someHash (fun _ _ _ => true) otherChannel cfg req)) pairDb :=
    reachable_pair
      (show Permits (blockingConfig otherActor otherChannel) _ _ from
        description_permits (.inr hactor) rfl)
      (pointer_permits (.inr hactor) (.inr hchannel) rfl (Nat.le_of_ble_eq_true rfl)
        (Nat.le_of_ble_eq_true rfl)) le_rfl
      ⟨⟨rfl, rfl⟩, fun _ => not_describes_other le_rfl (.inl rfl)⟩
      ⟨⟨rfl, rfl⟩, fun _ => not_describes_other le_rfl (.inr rfl)⟩
  exact (blocked_unless_described _ _ _ _ _ _).2 h

/-- **A relay that blocks a channel takes its description and lists it.** -/
theorem blocked_channel_described :
    Reachable (imports someHash (fun _ _ _ => true) fun _ _ => .ok [])
      (fun cfg _ => Configured [] (idText someDigest) cfg) (insert describedRow Db.empty) ∧
    ¬ Blocked [] (idText someDigest) (insert describedRow Db.empty) := by
  have hreach : Reachable (imports someHash (fun _ _ _ => true) fun _ _ => .ok [])
      (fun cfg _ => Configured [] (idText someDigest) cfg) (insert describedRow Db.empty) :=
    reachable_description
      (show Permits (blockingConfig [] (idText someDigest)) _ _ from
        description_permits (.inl rfl) rfl) le_rfl ⟨rfl, rfl⟩
  refine ⟨hreach, fun h => ?_⟩
  have hnone := (blocked_iff hreach).mp h (by decide)
  exact hnone describedRow (List.mem_singleton_self _) rfl describedRow_id

end SwarmPointer.Relay
