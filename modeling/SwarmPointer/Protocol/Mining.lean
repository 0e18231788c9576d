import SwarmPointer.Ed25519.Signing
import SwarmPointer.Protocol.Order
import SwarmPointer.Protocol.Verdict

/-!
# Protocol — what the miner returns

`mine_and_sign` hashes everything it was given except the nonce, the validator
everything it reads except `id` and `sig`. The two agree exactly when the
body has neither.

The loop is described once, over any check and any `sign`: what it returns is
the `envelope` of a nonce that pays (`mineAndSign_ok`), and a hash that marks
one candidate makes it return that candidate's (`mineAndSign_marking`). The
results are about the program's own signatures, with both hashes as
parameters (`ownImports`); of SHA-256 they ask nothing.
-/

namespace SwarmPointer.Protocol

open Except Json Jcs JsonInput Python Python.JsonInput Python.Protocol

/-! ## Assigning members -/

theorem lookup_append {V : Type} (ms ns : List (Str × V)) (k : Str) :
    (ms ++ ns).lookup k = (ms.lookup k).or (ns.lookup k) := by
  induction ms with
  | nil => rfl
  | cons m ms ih =>
      rw [List.cons_append, List.lookup_cons, List.lookup_cons, ih]
      split <;> rfl

theorem lookup_replace {V : Type} (ms : List (Str × V)) (k : Str) (v : V) (j : Str) :
    (ms.map fun m => if m.1 = k then (k, v) else m).lookup j =
      if j = k then (ms.lookup k).map fun _ => v else ms.lookup j := by
  induction ms with
  | nil => simp
  | cons m ms ih =>
      rw [List.map_cons, List.lookup_cons, List.lookup_cons, List.lookup_cons, ih]
      by_cases hm : m.1 = k
      · rw [if_pos hm, hm]
        by_cases hj : j = k
        · simp [hj]
        · simp [hj, beq_eq_false_iff_ne.mpr hj]
      · rw [if_neg hm, beq_eq_false_iff_ne.mpr (Ne.symm hm)]
        by_cases hj : j = m.1
        · subst hj
          simp [hm]
        · rw [beq_eq_false_iff_ne.mpr hj]

theorem lookup_setItem {V : Type} (ms : List (Str × V)) (k : Str) (v : V) (j : Str) :
    (setItem ms k v).lookup j = if j = k then some v else ms.lookup j := by
  rw [setItem]
  split
  · rename_i h
    rw [lookup_replace]
    cases hk : ms.lookup k with
    | none => exact absurd h (lookup_eq_none.mp hk)
    | some w => rfl
  · rename_i h
    rw [lookup_append]
    by_cases hj : j = k
    · rw [if_pos hj, hj, lookup_eq_none.mpr h]
      simp
    · rw [if_neg hj, List.lookup_cons, beq_eq_false_iff_ne.mpr hj]
      exact Option.or_none

/-- The names after an assignment. -/
theorem setItem_names {V : Type} (ms : List (Str × V)) (k : Str) (v : V) :
    (setItem ms k v).map Prod.fst =
      if k ∈ ms.map Prod.fst then ms.map Prod.fst else ms.map Prod.fst ++ [k] := by
  rw [setItem]
  split
  · rw [List.map_map]
    refine List.map_congr_left fun m _ => ?_
    rw [Function.comp_apply]
    split
    · rename_i h
      exact h.symm
    · rfl
  · rw [List.map_append]
    rfl

theorem mem_setItem {V : Type} {ms : List (Str × V)} {k : Str} {v : V} {m : Str × V}
    (h : m ∈ setItem ms k v) : m = (k, v) ∨ m ∈ ms := by
  rw [setItem] at h
  split at h
  · obtain ⟨m', hm', rfl⟩ := List.mem_map.mp h
    split
    · exact .inl rfl
    · exact .inr hm'
  · rcases List.mem_append.mp h with h | h
    · exact .inr h
    · exact .inl (List.mem_singleton.mp h)

theorem mem_setItem_of {V : Type} {ms : List (Str × V)} {k : Str} {v : V} {m : Str × V}
    (h : m ∈ ms) (hk : m.1 ≠ k) : m ∈ setItem ms k v := by
  rw [setItem]
  split
  · exact List.mem_map.mpr ⟨m, h, if_neg hk⟩
  · exact List.mem_append_left _ h

theorem distinct_setItem {ms : Members Str} {k : Str} {v : Json Str} (h : Distinct (.obj ms))
    (hv : Distinct v) : Distinct (.obj (setItem ms k v)) := by
  obtain ⟨hn, hm⟩ : (ms.map Prod.fst).Nodup ∧ AllMembers _ _ ms := h
  have hn' : ((setItem ms k v).map Prod.fst).Nodup := by
    rw [setItem_names]
    split
    · exact hn
    · rename_i hk
      exact List.nodup_append.mpr ⟨hn, List.nodup_singleton k, fun a ha b hb => by
        rw [List.mem_singleton.mp hb]
        rintro rfl
        exact hk ha⟩
  refine ⟨hn', allMembers_iff.mpr fun m hmem => ?_⟩
  rcases mem_setItem hmem with rfl | hmem
  · exact ⟨trivial, hv⟩
  · exact allMembers_iff.mp hm m hmem

theorem body_cons_of_mem {m : Str × Json Str} (ms : Members Str)
    (h : m.1 ∈ ["id".toList, "sig".toList]) : body (m :: ms) = body ms :=
  List.filter_cons_of_neg fun hm => of_decide_eq_true hm h

theorem body_cons_of_not_mem {m : Str × Json Str} (ms : Members Str)
    (h : m.1 ∉ ["id".toList, "sig".toList]) : body (m :: ms) = m :: body ms :=
  List.filter_cons_of_pos (decide_eq_true h)

/-- Assigning `id` or `sig` does not change the body. -/
theorem body_setItem {ms : Members Str} {k : Str} {v : Json Str}
    (hk : k ∈ ["id".toList, "sig".toList]) : body (setItem ms k v) = body ms := by
  have replace : ∀ ms : Members Str,
      body (ms.map fun m => if m.1 = k then (k, v) else m) = body ms := by
    intro ms
    induction ms with
    | nil => rfl
    | cons m ms ih =>
        rw [List.map_cons]
        by_cases hm : m.1 = k
        · rw [if_pos hm, body_cons_of_mem _ hk, body_cons_of_mem _ (hm ▸ hk), ih]
        · rw [if_neg hm]
          by_cases hmem : m.1 ∈ ["id".toList, "sig".toList]
          · rw [body_cons_of_mem _ hmem, body_cons_of_mem _ hmem, ih]
          · rw [body_cons_of_not_mem _ hmem, body_cons_of_not_mem _ hmem, ih]
  rw [setItem]
  split
  · exact replace ms
  · have happend : body (ms ++ [(k, v)]) = body ms ++ body [(k, v)] := List.filter_append ..
    rw [happend, body_cons_of_mem _ hk]
    exact List.append_nil _

/-! ## The body that is mined -/

/-- `u` with the nonce that `check_schema` sees. -/
def filled (u : Members Str) : Members Str :=
  setItem u "nonce".toList ((u.lookup "nonce".toList).getD (.str ['0']))

/-- What is hashed for the nonce `n`. -/
def candidate (u : Members Str) (n : Nat) : Members Str :=
  (u.filter fun m => m.1 ≠ "nonce".toList) ++ [("nonce".toList, .str (Nat.toDigits 10 n))]

theorem lookup_drop {V : Type} (u : List (Str × V)) {k j : Str} (h : j ≠ k) :
    (u.filter fun m => m.1 ≠ k).lookup j = u.lookup j := by
  induction u with
  | nil => rfl
  | cons m u ih =>
      rw [List.lookup_cons]
      by_cases hm : m.1 = k
      · rw [List.filter_cons_of_neg (by simpa using hm), ih, hm, beq_eq_false_iff_ne.mpr h]
      · rw [List.filter_cons_of_pos (by simpa using hm), List.lookup_cons, ih]

theorem candidate_lookup (u : Members Str) (n : Nat) {k : Str} (h : k ≠ "nonce".toList) :
    (candidate u n).lookup k = u.lookup k := by
  rw [candidate, lookup_append, lookup_drop u h, List.lookup_cons, beq_eq_false_iff_ne.mpr h]
  exact Option.or_none

theorem candidate_nonce (u : Members Str) (n : Nat) :
    (candidate u n).lookup "nonce".toList = some (.str (Nat.toDigits 10 n)) := by
  have hnone : (u.filter fun m => m.1 ≠ "nonce".toList).lookup "nonce".toList = none := by
    rw [lookup_eq_none, List.mem_map]
    rintro ⟨m, hm, heq⟩
    exact of_decide_eq_true (List.mem_filter.mp hm).2 heq
  rw [candidate, lookup_append, hnone]
  rfl

theorem filled_lookup (u : Members Str) {k : Str} (h : k ≠ "nonce".toList) :
    (filled u).lookup k = u.lookup k := by
  rw [filled, lookup_setItem, if_neg h]

/-- **Any nonce in range fits**: the candidates have the shape that the filled
body has. -/
theorem candidate_shape {u : Members Str} (h : Shape (filled u)) {n : Nat} (hn : n ≤ 2 ^ 64 - 1) :
    Shape (candidate u n) := by
  have hlook : ∀ k, k ≠ "nonce".toList → (candidate u n).lookup k = (filled u).lookup k :=
    fun k hk => (candidate_lookup u n hk).trans (filled_lookup u hk).symm
  have hkind : IsPointer (filled u) ∨ IsChannel (filled u) := h.kind
  refine ⟨?_, ?_, ?_, ⟨_, candidate_nonce u n, n, hn, rfl⟩, ?_, ?_⟩
  · rw [hlook _ (by decide)]
    exact h.version
  · obtain ⟨v, hv, hp⟩ := h.actor
    exact ⟨v, (hlook _ (by decide)).trans hv, hp⟩
  · obtain ⟨v, hv, hp⟩ := h.created
    exact ⟨v, (hlook _ (by decide)).trans hv, hp⟩
  · intro v hv
    exact h.ext v ((hlook _ (by decide)).symm.trans hv)
  · simp only [IsPointer, IsChannel, Absent, Has, Optional] at hkind ⊢
    simpa only [hlook "type".toList (by decide), hlook "descriptor".toList (by decide),
      hlook "channel".toList (by decide), hlook "ref".toList (by decide),
      hlook "parents".toList (by decide)] using hkind

theorem candidate_distinct {u : Members Str} (h : Distinct (.obj u)) (n : Nat) :
    Distinct (.obj (candidate u n)) := by
  obtain ⟨hn, hm⟩ : (u.map Prod.fst).Nodup ∧ AllMembers _ _ u := h
  have hsub : (u.filter fun m => m.1 ≠ "nonce".toList).Sublist u := List.filter_sublist
  refine ⟨?_, allMembers_iff.mpr fun m hmem => ?_⟩
  · rw [candidate, List.map_append]
    refine List.nodup_append.mpr ⟨(hsub.map Prod.fst).nodup hn, List.nodup_singleton _, ?_⟩
    intro a ha b hb
    obtain ⟨m, hm, rfl⟩ := List.mem_map.mp ha
    rw [List.mem_singleton.mp hb]
    exact of_decide_eq_true (List.mem_filter.mp hm).2
  · rcases List.mem_append.mp hmem with hmem | hmem
    · exact allMembers_iff.mp hm m (hsub.mem hmem)
    · rw [List.mem_singleton.mp hmem]
      exact ⟨trivial, trivial⟩

/-! ## Negative zeros -/

theorem text_dropSigns (v : Json Str) : Rfc8785.text (dropSigns v) = Rfc8785.text v := by
  induction v using Json.induct with
  | hnum x => rw [dropSigns, Rfc8785.text, Rfc8785.text, ecmaString_dropSign]
  | harr vs ih =>
      rw [dropSigns, Rfc8785.text, Rfc8785.text, Rfc8785.textList_eq, Rfc8785.textList_eq,
        dropSignsList_eq, List.map_map, ← List.map_congr_left fun v hv => ih v hv]
      rfl
  | hobj ms ih =>
      rw [dropSigns, Rfc8785.text, Rfc8785.text, Rfc8785.textMembers_eq, Rfc8785.textMembers_eq,
        dropSignsMembers_eq, List.map_map]
      have hmap : ∀ m ∈ ms, (m.1, Rfc8785.text (dropSigns m.2)) = (m.1, Rfc8785.text m.2) :=
        fun m hm => by rw [ih m hm]
      rw [← List.map_congr_left hmap]
      rfl
  | _ => simp only [dropSigns]

theorem distinct_dropSigns {v : Json Str} (h : Distinct v) : Distinct (dropSigns v) := by
  induction v using Json.induct with
  | harr vs ih =>
      have h' := allList_iff.mp (show AllList _ _ vs from h)
      rw [dropSigns, dropSignsList_eq]
      refine allList_iff.mpr fun w hw => ?_
      obtain ⟨v, hv, rfl⟩ := List.mem_map.mp hw
      exact ih v hv (h' v hv)
  | hobj ms ih =>
      obtain ⟨hn, hm⟩ : (ms.map Prod.fst).Nodup ∧ AllMembers _ _ ms := h
      rw [dropSigns, dropSignsMembers_eq]
      refine ⟨by rwa [List.map_map], allMembers_iff.mpr fun m hmem => ?_⟩
      obtain ⟨m', hm', rfl⟩ := List.mem_map.mp hmem
      exact ⟨trivial, ih m' hm' (allMembers_iff.mp hm m' hm').2⟩
  | _ => simp only [dropSigns]; trivial

theorem lookup_dropSigns (ms : Members Str) (k : Str) :
    (dropSignsMembers ms).lookup k = (ms.lookup k).map dropSigns := by
  rw [dropSignsMembers_eq, lookup_map_snd]

theorem body_dropSigns (ms : Members Str) : body (dropSignsMembers ms) = dropSignsMembers (body ms) := by
  rw [body, body, dropSignsMembers_eq, dropSignsMembers_eq, List.filter_map]
  rfl

theorem dropSigns_sha256Id {v : Json Str} (h : IsSha256Id v) : dropSigns v = v := by
  obtain ⟨bs, -, rfl⟩ := h
  rw [dropSigns]

theorem dropSigns_map {vs : List (Json Str)} (h : ∀ v ∈ vs, dropSigns v = v) :
    dropSigns (.arr vs) = .arr vs := by
  rw [dropSigns, dropSignsList_eq, List.map_congr_left h, List.map_id']

/-- A reference object has no numbers. -/
theorem isRef_dropSigns {v : Json Str} (h : IsRef v) : IsRef (dropSigns v) := by
  obtain ⟨ms, rfl, hnames, ⟨w, hw, hid⟩, l, hl, ls, rfl, hlen, hls⟩ := h
  refine ⟨dropSignsMembers ms, by rw [dropSigns], ?_, ⟨w, ?_, hid⟩, .arr ls, ?_, ls, rfl, hlen, hls⟩
  · intro m hm
    rw [dropSignsMembers_eq] at hm
    obtain ⟨m', hm', rfl⟩ := List.mem_map.mp hm
    exact hnames m' hm'
  · rw [lookup_dropSigns, hw, Option.map_some, dropSigns_sha256Id hid]
  · rw [lookup_dropSigns, hl, Option.map_some, dropSigns_map]
    intro v hv
    obtain ⟨s, rfl, -⟩ := hls v hv
    rw [dropSigns]

theorem areParents_dropSigns {v : Json Str} (h : AreParents v) : AreParents (dropSigns v) := by
  obtain ⟨ps, rfl, hlen, hps⟩ := h
  rw [dropSigns_map fun v hv => dropSigns_sha256Id (hps v hv)]
  exact ⟨ps, rfl, hlen, hps⟩

theorem toInt_dropSign (x : Binary64) : (dropSign x).toInt = x.toInt := by
  rw [dropSign]
  split
  · rename_i h
    have hz : x.mag / Binary64.one = 0 := by rw [h, Nat.zero_div]
    have hx : x.toInt = 0 := by
      rw [Binary64.toInt, hz]
      split <;> rfl
    rw [hx, Binary64.toInt]
    exact (if_neg Bool.false_ne_true).trans (congrArg Nat.cast hz)
  · rfl

theorem isInteger_dropSign (x : Binary64) : (dropSign x).isInteger = x.isInteger := by
  rw [dropSign]
  split <;> rfl

theorem isCreated_dropSigns {v : Json Str} (h : IsCreated v) : IsCreated (dropSigns v) := by
  obtain ⟨x, rfl, hint, hlo, hhi⟩ := h
  rw [dropSigns]
  exact ⟨_, rfl, (isInteger_dropSign x).trans hint, by rwa [toInt_dropSign], by rwa [toInt_dropSign]⟩

theorem has_dropSigns {u : Members Str} {k : Str} {p : Json Str → Prop}
    (hp : ∀ v, p v → p (dropSigns v)) (h : Has u k p) : Has (dropSignsMembers u) k p := by
  obtain ⟨v, hv, h⟩ := h
  exact ⟨dropSigns v, by rw [lookup_dropSigns, hv, Option.map_some], hp v h⟩

theorem optional_dropSigns {u : Members Str} {k : Str} {p : Json Str → Prop}
    (hp : ∀ v, p v → p (dropSigns v)) (h : Optional u k p) : Optional (dropSignsMembers u) k p := by
  intro w hw
  rw [lookup_dropSigns] at hw
  obtain ⟨v, hv, rfl⟩ := Option.map_eq_some_iff.mp hw
  exact hp v (h v hv)

theorem absent_dropSigns {u : Members Str} {k : Str} (h : Absent u k) :
    Absent (dropSignsMembers u) k := by
  rw [Absent, lookup_dropSigns, h, Option.map_none]

theorem string_dropSigns {u : Members Str} {k s : Str} (h : u.lookup k = some (.str s)) :
    (dropSignsMembers u).lookup k = some (.str s) := by
  rw [lookup_dropSigns, h, Option.map_some, dropSigns]

/-- **The schema does not see the sign of a zero.** -/
theorem schema_dropSigns {u : Members Str} (h : Schema u) : Schema (dropSignsMembers u) := by
  have hid : ∀ v, IsSha256Id v → IsSha256Id (dropSigns v) := fun v hv => by
    rwa [dropSigns_sha256Id hv]
  have hone : dropSign one = one := dropSign_eq fun hneg => nomatch hneg.1
  refine ⟨⟨?_, ?_, has_dropSigns (fun _ => isCreated_dropSigns) h.created, ?_, ?_, ?_⟩, ?_⟩
  · rw [lookup_dropSigns, h.version, Option.map_some, dropSigns, hone]
  · obtain ⟨v, hv, key, hkey, rfl⟩ := h.actor
    exact ⟨_, string_dropSigns hv, key, hkey, rfl⟩
  · obtain ⟨v, hv, n, hn, rfl⟩ := h.nonce
    exact ⟨_, string_dropSigns hv, n, hn, rfl⟩
  · refine optional_dropSigns ?_ h.ext
    rintro _ ⟨ms, rfl⟩
    exact ⟨dropSignsMembers ms, by rw [dropSigns]⟩
  · rcases h.kind with ⟨ht, hd, hc, hr, hp⟩ | ⟨ht, hc, hp, hr, hd⟩
    · exact .inl ⟨string_dropSigns ht, absent_dropSigns hd, has_dropSigns hid hc,
        has_dropSigns (fun _ => isRef_dropSigns) hr,
        optional_dropSigns (fun _ => areParents_dropSigns) hp⟩
    · exact .inr ⟨string_dropSigns ht, absent_dropSigns hc, absent_dropSigns hp,
        absent_dropSigns hr, optional_dropSigns (fun _ => isRef_dropSigns) hd⟩
  · intro m hm
    rw [dropSignsMembers_eq] at hm
    obtain ⟨m', hm', rfl⟩ := List.mem_map.mp hm
    exact h.closed m' hm'

theorem locatorCount_dropSigns (v : Option (Json Str)) :
    locatorCount (v.map dropSigns) = locatorCount v := by
  cases v with
  | none => rfl
  | some w =>
      cases w with
      | obj ms =>
          rw [Option.map_some, dropSigns, locatorCount, locatorCount, lookup_dropSigns]
          cases ms.lookup "locators".toList with
          | none => rfl
          | some l =>
              cases l with
              | arr ls =>
                  rw [Option.map_some, dropSigns, dropSignsList_eq]
                  exact List.length_map _
              | _ => simp only [Option.map_some, dropSigns]
      | _ => simp only [Option.map_some, dropSigns, locatorCount]

theorem arrayLength_dropSigns (v : Option (Json Str)) :
    arrayLength (v.map dropSigns) = arrayLength v := by
  cases v with
  | none => rfl
  | some w =>
      cases w with
      | arr vs =>
          rw [Option.map_some, dropSigns, dropSignsList_eq]
          exact List.length_map _
      | _ => simp only [Option.map_some, dropSigns, arrayLength]

theorem typeIs_dropSigns (u : Members Str) (t : Str) : typeIs (dropSignsMembers u) t = typeIs u t := by
  rw [typeIs, typeIs, lookup_dropSigns]
  cases u.lookup "type".toList with
  | none => rfl
  | some v => cases v <;> simp only [Option.map_some, dropSigns]

theorem units_dropSigns (u : Members Str) (n : Nat) : units (dropSignsMembers u) n = units u n := by
  rw [units, units, typeIs_dropSigns, lookup_dropSigns, lookup_dropSigns, lookup_dropSigns,
    locatorCount_dropSigns, locatorCount_dropSigns, arrayLength_dropSigns]

/-! ## The loop -/

section
variable {sha256 : Bytes → Digest} {verifies : Bytes → Bytes → Bytes → Bool}
  {sign : Bytes → Bytes → Py Bytes} {u : Members Str}

/-- The envelope of a candidate. -/
def envelope (cand : Members Str) (d : Digest) (sig : Bytes) : Members Str :=
  setItem (setItem cand "id".toList (.str (idText d))) "sig".toList (.str (hex sig))

/-- The bytes that are hashed for the nonce `n`. -/
def hashed (u : Members Str) (n : Nat) : Bytes := Rfc8785.bytes (.obj (candidate u n))

/-- The digest `d` is low enough for the candidate of the nonce `n`. -/
def Pays (u : Members Str) (n : Nat) (d : Digest) : Prop :=
  digestValue d * units (candidate u n) (hashed u n).length * 65536 ≤ 2 ^ 256 - 1

/-- The nonce `n` gives `env`. -/
structure Gives (sha256 : Bytes → Digest) (sign : Bytes → Bytes → Py Bytes) (u : Members Str)
    (key : Bytes) (n : Nat) (env : Members Str) : Prop where
  size : (hashed u n).length ≤ 1048576
  work : Pays u n (sha256 (hashed u n))
  signed : ∃ sig, sign key (sha256 (hashed u n)).1 = .ok sig ∧
    env = envelope (candidate u n) (sha256 (hashed u n)) sig

/-- One turn of the loop. -/
theorem mineLoop_succ (sha256 : Bytes → Digest) (verifies : Bytes → Bytes → Bytes → Bool)
    (sign : Bytes → Bytes → Py Bytes) (hd : Distinct (.obj u)) (hs : Shape (filled u)) (key : Bytes)
    (turns : Nat) {n : Nat} (hn : n ≤ 2 ^ 64 - 1) :
    mineLoop (pythonImports sha256 (fun a s d => .ok (verifies a s d)) sign)
      (u.filter fun m => m.1 ≠ "nonce".toList) key (turns + 1) n =
    if 1048576 < (hashed u n).length then .error (.sppError .length .jcsTooLarge)
    else if digestValue (sha256 (hashed u n)) * units (candidate u n) (hashed u n).length * 65536 ≤
        2 ^ 256 - 1 then
      sign key (sha256 (hashed u n)).1 >>= fun sig =>
        .ok (envelope (candidate u n) (sha256 (hashed u n)) sig)
    else mineLoop (pythonImports sha256 (fun a s d => .ok (verifies a s d)) sign)
      (u.filter fun m => m.1 ≠ "nonce".toList) key turns (n + 1) := by
  have hcanon : Python.Jcs.canonicalizeBytes (.obj (candidate u n)) = .ok (hashed u n) :=
    canonicalizeBytes_eq (candidate_distinct hd n)
  have hpos := units_pos (candidate u n) (hashed u n).length
  have hsha : sha256IdOf (pythonImports sha256 (fun a s d => .ok (verifies a s d)) sign)
      (hashed u n) = (idText (sha256 (hashed u n)), (sha256 (hashed u n)).1) := rfl
  rw [mineLoop]
  change (Python.Jcs.canonicalizeBytes (.obj (candidate u n)) >>= fun jcs => _) = _
  rw [hcanon, ok_bind, raiseIf, MAX_JCS, hsha]
  split
  · rfl
  · rename_i hsize
    have hbig : (hashed u n).length ≤ 2 ^ 53 := (not_lt.mp hsize).trans (by decide)
    change (workUnits (candidate u n) (hashed u n).length >>= fun units => _) = _
    rw [workUnits_eq (candidate_shape hs hn) hbig, ok_bind, targetForUnits_eq hpos, ok_bind,
      digestValue_eq]
    simp only [le_target hpos]
    rfl

/-- **What the miner returns is the envelope of a nonce that pays.** -/
theorem mineLoop_ok (hd : Distinct (.obj u)) (hs : Shape (filled u)) {key : Bytes}
    {env : Members Str} {turns n : Nat} (hturns : n + turns ≤ 2 ^ 64)
    (h : mineLoop (pythonImports sha256 (fun a s d => .ok (verifies a s d)) sign)
      (u.filter fun m => m.1 ≠ "nonce".toList) key turns n = .ok env) :
    ∃ m ≤ 2 ^ 64 - 1, Gives sha256 sign u key m env := by
  induction turns generalizing n with
  | zero => cases h
  | succ turns ih =>
      have hn : n ≤ 2 ^ 64 - 1 := by omega
      rw [mineLoop_succ sha256 verifies sign hd hs _ _ hn] at h
      split at h
      · cases h
      rename_i hsize
      split at h
      · rename_i hwork
        obtain ⟨sig, hsig, henv⟩ := bind_eq_ok_iff.mp h
        exact ⟨n, hn, not_lt.mp hsize, hwork, sig, hsig, (Except.ok.inj henv).symm⟩
      · exact ih (by omega) h

theorem mineAndSign_ok (hd : Distinct (.obj u)) {key : Bytes} {start : Nat} {env : Members Str}
    (h : mineAndSign (pythonImports sha256 (fun a s d => .ok (verifies a s d)) sign) u key start =
      .ok env) : ∃ n ≤ 2 ^ 64 - 1, Gives sha256 sign u key n env := by
  obtain ⟨_, hs, h⟩ := bind_eq_ok_iff.mp h
  have hshape : Shape (filled u) := (checkSchema_ok.mp hs).2
  have hmax : MAX_NONCE = 2 ^ 64 - 1 := by decide
  change mineLoop _ _ _ (MAX_NONCE + 1 - start) start = _ at h
  rw [hmax] at h
  by_cases hstart : start ≤ 2 ^ 64
  · exact mineLoop_ok hd hshape (by omega) h
  · have hzero : 2 ^ 64 - 1 + 1 - start = 0 := by omega
    rw [hzero] at h
    cases h

/-! ## When the validator agrees -/

/-- Signatures by `key` on the digests that pay verify under the key that `u`
names as its actor. -/
def SignsFor (verifies : Bytes → Bytes → Bytes → Bool) (sign : Bytes → Bytes → Py Bytes)
    (key : Bytes) (u : Members Str) : Prop :=
  ∀ actor, Has u "actor".toList (fun v => Tagged "ed25519:".toList v actor) →
    ∀ n ≤ 2 ^ 64 - 1, ∀ d, Pays u n d → ∀ sig, sign key d.1 = .ok sig →
      sig.length = 64 ∧ verifies actor sig d.1 = true

/-- The canonical bytes of `env` validate, with its own identifier and with the
work units that were paid when it was mined. -/
def MinedValid (I : Imports) (u env : Members Str) : Prop :=
  ∃ data rec n jcs, I.canonicalizeBytes (.obj env) = .ok data ∧ validateBytes I data = .ok rec ∧
    env.lookup "id".toList = some (.str rec.id) ∧
    env.lookup "nonce".toList = some (.str (Nat.toDigits 10 n)) ∧
    I.canonicalizeBytes (.obj (candidate u n)) = .ok jcs ∧
    workUnits (candidate u n) jcs.length = .ok rec.units

theorem body_eq_self {u : Members Str} (hid : Absent u "id".toList) (hsig : Absent u "sig".toList) :
    body u = u := by
  rw [body, List.filter_eq_self]
  intro m hm
  rw [decide_eq_true_eq, List.mem_pair]
  rintro (h | h)
  · exact lookup_eq_none.mp hid (h ▸ List.mem_map_of_mem hm)
  · exact lookup_eq_none.mp hsig (h ▸ List.mem_map_of_mem hm)

theorem envelope_lookup (cand : Members Str) (d : Digest) (sig : Bytes) (k : Str) :
    (envelope cand d sig).lookup k =
      if k = "sig".toList then some (.str (hex sig))
      else if k = "id".toList then some (.str (idText d)) else cand.lookup k := by
  rw [envelope, lookup_setItem, lookup_setItem]

theorem body_envelope (cand : Members Str) (d : Digest) (sig : Bytes) :
    body (envelope cand d sig) = body cand := by
  rw [envelope, body_setItem (by decide), body_setItem (by decide)]

theorem distinct_envelope {cand : Members Str} (h : Distinct (.obj cand)) (d : Digest) (sig : Bytes) :
    Distinct (.obj (envelope cand d sig)) :=
  distinct_setItem (distinct_setItem h trivial) trivial

/-- **Reading canonical bytes back does not change the verdict**: negative
zeros and the order of the members do not matter. -/
theorem validateBytes_canonical {obj : Members Str} (h : CleanAll (.obj obj)) :
    validateBytes (pythonImports sha256 (fun a s d => .ok (verifies a s d)) sign)
      (Rfc8785.bytes (.obj obj)) =
    validateObject (pythonImports sha256 (fun a s d => .ok (verifies a s d)) sign)
      (dropSignsMembers obj) := by
  have hparse : parseObject (Rfc8785.bytes (.obj obj)) = .ok (ordered (dropSignsMembers obj)) := by
    rw [parseObject_eq_ok, parseUtf8_canonical]
    refine ⟨h, ?_⟩
    rw [dropSigns, sorted_obj]
  have hd : Distinct (.obj obj) := All.imp (fun _ _ => trivial) (fun _ _ => trivial) h
  have hd' : Distinct (.obj (dropSignsMembers obj)) := by
    have hdrop := distinct_dropSigns hd
    rwa [dropSigns] at hdrop
  rw [validateBytes_ok_of hparse, validateObject_ordered hd']

theorem bytes_dropSigns (ms : Members Str) :
    Rfc8785.bytes (.obj (dropSignsMembers ms)) = Rfc8785.bytes (.obj ms) := by
  have htext := text_dropSigns (.obj ms)
  rw [dropSigns] at htext
  rw [Rfc8785.bytes, Rfc8785.bytes, htext]

theorem candidate_closed {u : Members Str} (h : ∀ m ∈ filled u, m.1 ∈ CORE)
    (hid : Absent u "id".toList) (hsig : Absent u "sig".toList) (n : Nat) :
    ∀ m ∈ candidate u n, m.1 ∈ schemaNames := by
  intro m hm
  rcases List.mem_append.mp hm with hm | hm
  · obtain ⟨hm, hne⟩ := List.mem_filter.mp hm
    have hcore := h m (mem_setItem_of hm (of_decide_eq_true hne))
    rcases CORE_iff.mp hcore with hcore | hcore | hcore
    · exact hcore
    · exact absurd (List.mem_map_of_mem hm) (hcore ▸ lookup_eq_none.mp hid)
    · exact absurd (List.mem_map_of_mem hm) (hcore ▸ lookup_eq_none.mp hsig)
  · rw [List.mem_singleton.mp hm]
    show "nonce".toList ∈ schemaNames
    decide

theorem absent_candidate {u : Members Str} {k : Str} (hk : k ≠ "nonce".toList) (h : Absent u k)
    (n : Nat) : Absent (candidate u n) k :=
  (candidate_lookup u n hk).trans h

theorem digits_clean (n : Nat) : Clean (Nat.toDigits 10 n) :=
  Ascii.clean fun _ hc => JsonInput.isDigit_ascii (Nat.isDigit_of_mem_toDigits (by decide) (by decide) hc)

theorem names_clean :
    Clean "nonce".toList ∧ Clean "id".toList ∧ Clean "sig".toList ∧ Clean "sha256:".toList := by
  unfold Clean
  decide

theorem clean_setItem {ms : Members Str} {k : Str} {v : Json Str} (h : CleanAll (.obj ms))
    (hk : Clean k) (hv : CleanAll v) : CleanAll (.obj (setItem ms k v)) := by
  have hd : Distinct (.obj (setItem ms k v)) :=
    distinct_setItem (All.imp (fun _ _ => trivial) (fun _ _ => trivial) h)
      (All.imp (fun _ _ => trivial) (fun _ _ => trivial) hv)
  obtain ⟨-, hm⟩ : (ms.map Prod.fst).Nodup ∧ AllMembers _ Clean ms := h
  refine ⟨hd.1, allMembers_iff.mpr fun m hmem => ?_⟩
  rcases mem_setItem hmem with rfl | hmem
  · exact ⟨hk, hv⟩
  · exact allMembers_iff.mp hm m hmem

theorem clean_candidate {u : Members Str} (h : CleanAll (.obj u)) (n : Nat) :
    CleanAll (.obj (candidate u n)) := by
  have hd := candidate_distinct (All.imp (fun _ _ => trivial) (fun _ _ => trivial) h) n
  obtain ⟨-, hm⟩ : (u.map Prod.fst).Nodup ∧ AllMembers _ Clean u := h
  refine ⟨hd.1, allMembers_iff.mpr fun m hmem => ?_⟩
  rcases List.mem_append.mp hmem with hmem | hmem
  · exact allMembers_iff.mp hm m (List.mem_of_mem_filter hmem)
  · rw [List.mem_singleton.mp hmem]
    exact ⟨names_clean.1, digits_clean n⟩

theorem body_candidate {u : Members Str} (hid : Absent u "id".toList) (hsig : Absent u "sig".toList)
    (n : Nat) : body (candidate u n) = candidate u n :=
  body_eq_self (absent_candidate (by decide) hid n) (absent_candidate (by decide) hsig n)

/-- What the validator hashes of an envelope. -/
theorem body_read (cand : Members Str) (d : Digest) (sig : Bytes) :
    body (dropSignsMembers (envelope cand d sig)) = dropSignsMembers (body cand) := by
  rw [body_dropSigns, body_envelope]

/-- **The envelope of a body without `id` and `sig` is valid.** -/
theorem envelope_valid {key : Bytes} {n : Nat} {env : Members Str}
    (hs : checkSchema (filled u) = .ok ()) (hid : Absent u "id".toList)
    (hsig : Absent u "sig".toList) (hn : n ≤ 2 ^ 64 - 1) (hkey : SignsFor verifies sign key u)
    (g : Gives sha256 sign u key n env) :
    Valid Rfc8785.bytes sha256 (fun a s d => verifies a s d = true) (dropSignsMembers env) ∧
      digest Rfc8785.bytes sha256 (dropSignsMembers env) = sha256 (hashed u n) ∧
      unitsOf Rfc8785.bytes (dropSignsMembers env) =
        units (candidate u n) (hashed u n).length := by
  obtain ⟨hcore, hshape⟩ := checkSchema_ok.mp hs
  obtain ⟨sig, hsigned, rfl⟩ := g.signed
  have hbody := body_read (candidate u n) (sha256 (hashed u n)) sig
  rw [body_candidate hid hsig] at hbody
  -- the verifier hashes the bytes the miner hashed: `id` and `sig` are taken out again
  have hbytes : Rfc8785.bytes (.obj (body (dropSignsMembers
      (envelope (candidate u n) (sha256 (hashed u n)) sig)))) = hashed u n := by
    rw [hbody, bytes_dropSigns, hashed]
  have hdigest : digest Rfc8785.bytes sha256 (dropSignsMembers
      (envelope (candidate u n) (sha256 (hashed u n)) sig)) = sha256 (hashed u n) := by
    rw [digest, hbytes]
  have hsize : size Rfc8785.bytes (dropSignsMembers
      (envelope (candidate u n) (sha256 (hashed u n)) sig)) = (hashed u n).length := by
    rw [size, hbytes]
  have hunits : unitsOf Rfc8785.bytes (dropSignsMembers
      (envelope (candidate u n) (sha256 (hashed u n)) sig)) =
      units (candidate u n) (hashed u n).length := by
    rw [unitsOf, hbody, hsize, units_dropSigns]
  have hschema : Schema (candidate u n) :=
    ⟨candidate_shape hshape hn, candidate_closed hcore hid hsig n⟩
  refine ⟨⟨?_, ?_, ?_, ?_, ?_⟩, hdigest, hunits⟩
  · rw [hbody]
    exact schema_dropSigns hschema
  · rw [hsize]
    exact g.size
  · rw [hdigest]
    refine string_dropSigns ?_
    rw [envelope_lookup, if_neg (by decide), if_pos rfl]
  · rw [hdigest, hunits]
    exact g.work
  · -- the key signs for the actor of the body that is mined
    obtain ⟨v, hv, actor, hactor⟩ := hschema.actor
    have hv' : u.lookup "actor".toList = some v := by
      rw [← candidate_lookup u n (by decide), hv]
    obtain ⟨hlen, hverify⟩ := hkey actor ⟨v, hv', hactor⟩ n hn _ g.work sig hsigned
    refine ⟨actor, sig, string_dropSigns ?_, hlen, ?_, by rwa [hdigest]⟩
    · rw [envelope_lookup, if_pos rfl]
    · rw [hbody]
      refine ⟨v, ?_, hactor⟩
      obtain ⟨-, rfl⟩ := hactor
      exact string_dropSigns hv

theorem clean_envelope {cand : Members Str} (h : CleanAll (.obj cand)) (d : Digest) (sig : Bytes) :
    CleanAll (.obj (envelope cand d sig)) := by
  obtain ⟨-, hid, hsig, htag⟩ := names_clean
  exact clean_setItem (clean_setItem h hid (clean_append.mpr ⟨htag, (plain_hex _).clean⟩)) hsig (plain_hex _).clean

/-- Its canonical bytes validate. -/
theorem gives_validates {key : Bytes} {n : Nat} {env : Members Str}
    (hs : checkSchema (filled u) = .ok ()) (hid : Absent u "id".toList)
    (hsig : Absent u "sig".toList) (hclean : CleanAll (.obj u)) (hn : n ≤ 2 ^ 64 - 1)
    (hkey : SignsFor verifies sign key u) (g : Gives sha256 sign u key n env) :
    ∃ rec, Python.Jcs.canonicalizeBytes (.obj env) = .ok (Rfc8785.bytes (.obj env)) ∧
      validateBytes (pythonImports sha256 (fun a s d => .ok (verifies a s d)) sign)
        (Rfc8785.bytes (.obj env)) = .ok rec ∧
      rec.id = idText (sha256 (hashed u n)) ∧
      rec.units = units (candidate u n) (hashed u n).length := by
  obtain ⟨hv, hdigest, hunits⟩ := envelope_valid hs hid hsig hn hkey g
  obtain ⟨sig, -, henv⟩ := g.signed
  have hclean' : CleanAll (.obj env) := henv ▸ clean_envelope (clean_candidate hclean n) _ sig
  have hd' : Distinct (.obj env) := All.imp (fun _ _ => trivial) (fun _ _ => trivial) hclean'
  have hdrop : Distinct (.obj (dropSignsMembers env)) := by
    have h := distinct_dropSigns hd'
    rwa [dropSigns] at h
  refine ⟨recordOf Rfc8785.text sha256 (dropSignsMembers env), canonicalizeBytes_eq hd', ?_,
    congrArg idText hdigest, hunits⟩
  rw [validateBytes_canonical hclean']
  exact (validateObject_ok (returns_python fun _ _ _ => rfl) hdrop).mpr ⟨hv, rfl⟩

/-- **A body without `id`, `sig` and noncharacters is mined to valid envelopes.** -/
theorem minedValid_of (hd : Distinct (.obj u)) (hs : checkSchema (filled u) = .ok ())
    (hid : Absent u "id".toList) (hsig : Absent u "sig".toList) (hclean : CleanAll (.obj u))
    {key : Bytes} (hkey : SignsFor verifies sign key u) {start : Nat} {env : Members Str}
    (hmine : mineAndSign (pythonImports sha256 (fun a s d => .ok (verifies a s d)) sign) u key
      start = .ok env) :
    MinedValid (pythonImports sha256 (fun a s d => .ok (verifies a s d)) sign) u env := by
  obtain ⟨n, hn, g⟩ := mineAndSign_ok hd hmine
  obtain ⟨rec, hcanon, hvalid, hrec, hunits⟩ := gives_validates hs hid hsig hclean hn hkey g
  obtain ⟨sig, -, henv⟩ := g.signed
  refine ⟨_, rec, n, hashed u n, hcanon, hvalid, ?_, ?_,
    canonicalizeBytes_eq (candidate_distinct hd n), ?_⟩
  · rw [hrec, henv, envelope_lookup, if_neg (by decide), if_pos rfl]
  · rw [henv, envelope_lookup, if_neg (by decide), if_neg (by decide), candidate_nonce]
  · have hbig : (hashed u n).length ≤ 2 ^ 53 := g.size.trans (by decide)
    rw [workUnits_eq (candidate_shape (checkSchema_ok.mp hs).2 hn) hbig, hunits]

/-! ## When it does not -/

def zeros : Digest := ⟨List.replicate 32 0, rfl⟩

def ones : Digest := ⟨List.replicate 32 1, rfl⟩

/-- A hash that tells `bs` from every other byte string. -/
def marking (bs : Bytes) (d : Digest) : Bytes → Digest := fun x => if x = bs then d else ones

/-- Thirty-two ones pay for nothing. -/
theorem not_pays_ones (u : Members Str) (n : Nat) : ¬ Pays u n ones := by
  intro h
  have hpos := units_pos (candidate u n) (hashed u n).length
  have hvalue : 2 ^ 256 ≤ digestValue ones * 65536 := by decide
  have hle := Nat.mul_le_mul hvalue hpos
  rw [Pays, Nat.mul_right_comm] at h
  omega

theorem pays_zeros (u : Members Str) (n : Nat) : Pays u n zeros := by
  have hzero : digestValue zeros = 0 := by decide
  rw [Pays, hzero, Nat.zero_mul, Nat.zero_mul]
  exact Nat.zero_le _

theorem marking_eq {canon : Json Str → Bytes} {bs : Bytes} {d : Digest} {obj : Members Str}
    (hd : d ≠ ones) (h : idText d = idText (digest canon (marking bs d) obj)) :
    canon (.obj (body obj)) = bs := by
  have hdigest := idText_inj h
  rw [digest, marking] at hdigest
  split at hdigest
  · assumption
  · exact absurd hdigest hd

/-- The nonce `n` pays under a hash that marks it. -/
theorem mineAndSign_marking (hd : Distinct (.obj u)) (hs : checkSchema (filled u) = .ok ())
    {key sig : Bytes} {n : Nat} {d : Digest} (hn : n ≤ 2 ^ 64 - 1)
    (hsize : (hashed u n).length ≤ 1048576) (hpays : Pays u n d) (hsig : sign key d.1 = .ok sig) :
    mineAndSign (pythonImports (marking (hashed u n) d) (fun a s d => .ok (verifies a s d)) sign)
      u key n = .ok (envelope (candidate u n) d sig) := by
  have hmax : MAX_NONCE + 1 - n = (2 ^ 64 - 1 - n) + 1 := by
    have hmax : MAX_NONCE = 2 ^ 64 - 1 := by decide
    omega
  have hmark : marking (hashed u n) d (hashed u n) = d := if_pos rfl
  rw [mineAndSign]
  refine bind_eq_ok_iff.mpr ⟨(), hs, ?_⟩
  change mineLoop _ _ _ (MAX_NONCE + 1 - n) n = _
  rw [hmax, mineLoop_succ _ verifies sign hd (checkSchema_ok.mp hs).2 _ _ hn,
    if_neg (not_lt.mpr hsize), hmark]
  exact (if_pos hpays).trans (by rw [hsig, ok_bind])

theorem names_of_sorted {ms ns : Members Str}
    (h : sorted (dropSigns (.obj ms)) = sorted (dropSigns (.obj ns))) :
    (ms.map Prod.fst).Perm (ns.map Prod.fst) := by
  have drop : ∀ vs : Members Str, (dropSignsMembers vs).map Prod.fst = vs.map Prod.fst := fun vs => by
    rw [dropSignsMembers_eq, List.map_map]
    rfl
  rw [dropSigns, dropSigns, sorted_obj, sorted_obj] at h
  have hms := ordered_names (dropSignsMembers ms)
  have hns := ordered_names (dropSignsMembers ns)
  rw [drop] at hms hns
  rw [Json.obj.inj h] at hms
  exact hms.symm.trans hns

theorem nonce_clean {v : Json Str} (h : IsNonce v) : CleanAll v := by
  obtain ⟨n, -, rfl⟩ := h
  exact digits_clean n

/-- The members that are not hashed have no noncharacters either. -/
theorem clean_of_candidate (hd : Distinct (.obj u)) (hs : checkSchema (filled u) = .ok ()) {n : Nat}
    (h : CleanAll (.obj (candidate u n))) : CleanAll (.obj u) := by
  obtain ⟨-, hm⟩ : ((candidate u n).map Prod.fst).Nodup ∧ AllMembers _ Clean (candidate u n) := h
  refine ⟨hd.1, allMembers_iff.mpr fun m hmem => ?_⟩
  by_cases hne : m.1 = "nonce".toList
  · obtain ⟨v, hv, hnonce⟩ := (checkSchema_ok.mp hs).2.nonce
    have hlook : u.lookup "nonce".toList = some m.2 := by
      rw [lookup_eq_some hd.1, ← hne]
      exact hmem
    rw [filled, lookup_setItem, if_pos rfl, hlook, Option.getD_some] at hv
    obtain rfl := Option.some.inj hv
    exact ⟨hne ▸ names_clean.1, nonce_clean hnonce⟩
  · exact allMembers_iff.mp hm m
      (List.mem_append_left _ (List.mem_filter.mpr ⟨hmem, decide_eq_true hne⟩))

/-- What the validator has seen of an envelope that it accepts. -/
theorem valid_of_accepted {cand : Members Str} (hcand : Distinct (.obj cand)) {d : Digest}
    {sig data : Bytes} {rec : Record}
    (hdata : Python.Jcs.canonicalizeBytes (.obj (envelope cand d sig)) = .ok data)
    (hvalid : validateBytes (pythonImports sha256 (fun a s d => .ok (verifies a s d)) sign) data =
      .ok rec) :
    CleanAll (.obj (envelope cand d sig)) ∧
      Valid Rfc8785.bytes sha256 (fun a s d => verifies a s d = true)
        (dropSignsMembers (envelope cand d sig)) := by
  have henv := distinct_envelope hcand d sig
  obtain rfl : Rfc8785.bytes (.obj (envelope cand d sig)) = data :=
    Except.ok.inj ((canonicalizeBytes_eq henv).symm.trans hdata)
  -- it parses, so the envelope has no noncharacters
  have hclean : CleanAll (.obj (envelope cand d sig)) := by
    rcases parseObject_returns (Rfc8785.bytes (.obj (envelope cand d sig))) with ⟨obj, h⟩ | ⟨r, h⟩
    · exact (parseUtf8_canonical.mp (parseObject_eq_ok.mp h)).1
    · rw [validateBytes_error_of h] at hvalid
      cases hvalid
  have hdrop : Distinct (.obj (dropSignsMembers (envelope cand d sig))) := by
    have h := distinct_dropSigns henv
    rwa [dropSigns] at h
  have hobject := (validateBytes_canonical hclean).symm.trans hvalid
  exact ⟨hclean, ((validateObject_ok (returns_python fun _ _ _ => rfl) hdrop).mp hobject).1⟩

/-- With that hash, a body that is mined to a valid envelope has no `id`, no
`sig` and no noncharacters. -/
theorem clean_of_marking (hd : Distinct (.obj u)) (hs : checkSchema (filled u) = .ok ()) {n : Nat}
    {d : Digest} (hpays : Pays u n d) {sig data : Bytes} {rec : Record}
    (hdata : Python.Jcs.canonicalizeBytes (.obj (envelope (candidate u n) d sig)) = .ok data)
    (hvalid : validateBytes (pythonImports (marking (hashed u n) d)
      (fun a s d => .ok (verifies a s d)) sign) data = .ok rec) :
    Absent u "id".toList ∧ Absent u "sig".toList ∧ CleanAll (.obj u) := by
  obtain ⟨hclean, hv⟩ := valid_of_accepted (candidate_distinct hd n) hdata hvalid
  have hne : d ≠ ones := by
    rintro rfl
    exact not_pays_ones u n hpays
  -- it is valid, so what the validator hashes is what the miner hashed
  have hid : (dropSignsMembers (envelope (candidate u n) d sig)).lookup "id".toList =
      some (.str (idText d)) := by
    refine string_dropSigns ?_
    rw [envelope_lookup, if_neg (by decide), if_pos rfl]
  have hidentity := Option.some.inj (hid.symm.trans hv.identity)
  have hsame : Rfc8785.bytes (.obj (body (candidate u n))) = hashed u n := by
    rw [← bytes_dropSigns, ← body_read (candidate u n) d sig]
    exact marking_eq hne (Json.str.inj hidentity)
  -- equal canonical bytes have equal members
  have hbody : CleanAll (.obj (body (candidate u n))) := by
    rw [← body_envelope (candidate u n) d sig]
    exact all_body hclean
  have hparse : parseUtf8 (hashed u n) = .ok (sorted (dropSigns (.obj (body (candidate u n))))) := by
    rw [← hsame]
    exact parseUtf8_canonical.mpr ⟨hbody, rfl⟩
  obtain ⟨hcleanCand, hsorted⟩ := parseUtf8_canonical.mp hparse
  have hnames := names_of_sorted hsorted
  have habsent : ∀ k, k ∈ ["id".toList, "sig".toList] → k ≠ "nonce".toList → Absent u k := by
    intro k hk hne
    rw [Absent, ← candidate_lookup u n hne, lookup_eq_none]
    intro hmem
    obtain ⟨m, hm, rfl⟩ := List.mem_map.mp (hnames.mem_iff.mpr hmem)
    exact of_decide_eq_true (List.mem_filter.mp hm).2 hk
  exact ⟨habsent _ (by decide) (by decide), habsent _ (by decide) (by decide),
    clean_of_candidate hd hs hcleanCand⟩

end

/-! ## The program's own signatures -/

section
variable {sha256 : Bytes → Digest} {sha512 : Bytes → Bytes} {key : Bytes} {u : Members Str}

/-- `protocol.py` with its own canonicaliser and its own signatures. -/
def ownImports (sha256 : Bytes → Digest) (sha512 : Bytes → Bytes) : Imports :=
  pythonImports sha256 (Ed25519Spp.verifySppEd25519_1 sha512) (Ed25519Spp.sign sha512)

/-- What the signature check answers. -/
def accepts (sha512 : Bytes → Bytes) (a s d : Bytes) : Bool :=
  decide (Ed25519Spp.verifySppEd25519_1 sha512 a s d = .ok true)

theorem accepts_iff {a s d : Bytes} :
    accepts sha512 a s d = true ↔ Ed25519Spp.verifySppEd25519_1 sha512 a s d = .ok true :=
  decide_eq_true_iff

theorem ownImports_eq : ownImports sha256 sha512 =
    pythonImports sha256 (fun a s d => .ok (accepts sha512 a s d)) (Ed25519Spp.sign sha512) := by
  have hverify : Ed25519Spp.verifySppEd25519_1 sha512 =
      fun a s d => .ok (accepts sha512 a s d) := by
    funext a s d
    obtain ⟨b, hb⟩ : ∃ b, Ed25519Spp.verifySppEd25519_1 sha512 a s d = .ok b :=
      Ed25519.verify_returns a s d
    rw [accepts, hb]
    cases b <;> rfl
  rw [ownImports, hverify]

/-- `key` is a private key of the actor that `u` names. -/
structure KeyOf (sha512 : Bytes → Bytes) (key : Bytes) (u : Members Str) : Prop where
  length : key.length = 32
  actor : ∃ pub, Ed25519Spp.publicFromPrivate sha512 key = .ok pub ∧
    u.lookup "actor".toList = some (.str ("ed25519:".toList ++ hex pub))

/-- The check accepts every signature that `sign` returns for a digest. -/
def AcceptsSigned (sha512 : Bytes → Bytes) (key : Bytes) : Prop :=
  ∀ pub d sig, Ed25519Spp.publicFromPrivate sha512 key = .ok pub → d.length = 32 →
    Ed25519Spp.sign sha512 key d = .ok sig →
      Ed25519Spp.verifySppEd25519_1 sha512 pub sig d = .ok true

/-- Whatever `key` mines from `u` is valid. -/
def MinesValid (sha512 : Bytes → Bytes) (key : Bytes) (u : Members Str) : Prop :=
  ∀ (sha256 : Bytes → Digest) (start : Nat) (env : Members Str),
    mineAndSign (ownImports sha256 sha512) u key start = .ok env →
      MinedValid (ownImports sha256 sha512) u env

theorem exists_sig (sha512 : Bytes → Bytes) (hkey : key.length = 32) (d : Bytes) :
    ∃ sig, Ed25519Spp.sign sha512 key d = .ok sig ∧ sig.length = 64 := by
  refine ⟨_, Ed25519.sign_eq sha512 hkey d, ?_⟩
  rw [List.length_append, Ed25519.encode_length, littleBytes_length]

/-- The public key of the actor. -/
theorem KeyOf.public_eq (h : KeyOf sha512 key u) {actor : Bytes}
    (ha : Has u "actor".toList fun v => Tagged "ed25519:".toList v actor) :
    Ed25519Spp.publicFromPrivate sha512 key = .ok actor := by
  obtain ⟨pub, hpub, hactor⟩ := h.actor
  obtain ⟨v, hv, -, rfl⟩ := ha
  have htext := Json.str.inj (Option.some.inj (hactor.symm.trans hv))
  rw [hpub, hex_inj (List.append_cancel_left htext)]

theorem KeyOf.signsFor (h : KeyOf sha512 key u)
    (haccepted : ∀ n ≤ 2 ^ 64 - 1, ∀ d, Pays u n d → ∀ pub sig,
      Ed25519Spp.publicFromPrivate sha512 key = .ok pub → Ed25519Spp.sign sha512 key d.1 = .ok sig →
        Ed25519Spp.verifySppEd25519_1 sha512 pub sig d.1 = .ok true) :
    SignsFor (accepts sha512) (Ed25519Spp.sign sha512) key u := by
  intro actor hactor n hn d hpays sig hsig
  obtain ⟨sig', hsig', hlen⟩ := exists_sig sha512 h.length d.1
  obtain rfl := Except.ok.inj (hsig'.symm.trans hsig)
  exact ⟨hlen, accepts_iff.mpr (haccepted n hn d hpays _ _ (h.public_eq hactor) hsig)⟩

theorem clean_of_minesValid (hkey : KeyOf sha512 key u) (hd : Distinct (.obj u))
    (hs : checkSchema (filled u) = .ok ()) (h : MinesValid sha512 key u) {n : Nat}
    (hn : n ≤ 2 ^ 64 - 1) (hle : (hashed u n).length ≤ 1048576) :
    Absent u "id".toList ∧ Absent u "sig".toList ∧ CleanAll (.obj u) := by
  obtain ⟨sig, hsig, -⟩ := exists_sig sha512 hkey.length zeros.1
  have hmined : mineAndSign (ownImports (marking (hashed u n) zeros) sha512) u key n =
      .ok (envelope (candidate u n) zeros sig) := by
    rw [ownImports_eq]
    exact mineAndSign_marking hd hs hn hle (pays_zeros u n) hsig
  obtain ⟨data, rec, -, -, hdata, hvalid, -⟩ := h _ _ _ hmined
  rw [ownImports_eq] at hdata hvalid
  exact clean_of_marking hd hs (pays_zeros u n) hdata hvalid

/-- **The miner's output is valid exactly for bodies without `id`, `sig` and
noncharacters**, or when there is no output because every candidate is longer
than the protocol allows. -/
theorem minesValid_iff (hkey : KeyOf sha512 key u) (haccepted : AcceptsSigned sha512 key)
    (hd : Distinct (.obj u)) (hs : checkSchema (filled u) = .ok ()) :
    MinesValid sha512 key u ↔
      (Absent u "id".toList ∧ Absent u "sig".toList ∧ CleanAll (.obj u)) ∨
      ∀ n ≤ 2 ^ 64 - 1, 1048576 < (hashed u n).length := by
  constructor
  · intro h
    by_cases hsize : ∀ n ≤ 2 ^ 64 - 1, 1048576 < (hashed u n).length
    · exact .inr hsize
    · push Not at hsize
      obtain ⟨n, hn, hle⟩ := hsize
      exact .inl (clean_of_minesValid hkey hd hs h hn hle)
  · rintro (⟨hid, hsig, hclean⟩ | hsize) sha256 start env hmine
    · rw [ownImports_eq] at hmine ⊢
      have hsigns := hkey.signsFor fun _ _ d _ pub sig hpub hsign =>
        haccepted pub d.1 sig hpub d.2 hsign
      exact minedValid_of hd hs hid hsig hclean hsigns hmine
    · rw [ownImports_eq] at hmine
      obtain ⟨n, hn, g⟩ := mineAndSign_ok hd hmine
      exact absurd g.size (not_le.mpr (hsize n hn))

end

/-! ## A body that was mined before -/

/-- A channel description without `id` and `sig`. -/
def unsigned : Members Str :=
  [("actor".toList, .str ("ed25519:".toList ++ hex Ed25519.zeroPublic)),
    ("created".toList, .num (Binary64.ofNat53 0 Binary64.zero_fits)),
    ("type".toList, .str "channel".toList), ("v".toList, .num one)]

/-- The same with an identifier left in it. -/
def identified : Members Str := ("id".toList, .str []) :: unsigned

theorem unsigned_shape (ms : Members Str)
    (h : ∀ k ∈ schemaNames, k ≠ "ext".toList → ms.lookup k = unsigned.lookup k)
    (hext : Optional ms "ext".toList fun v => ∃ ms, v = .obj ms) : Shape (filled ms) := by
  have hlook : ∀ k ∈ schemaNames, k ≠ "ext".toList → k ≠ "nonce".toList →
      (filled ms).lookup k = unsigned.lookup k := fun k hk hne hne' => by
    rw [filled, lookup_setItem, if_neg hne', h k hk hne]
  have hnonce : (filled ms).lookup "nonce".toList = some (.str ['0']) := by
    rw [filled, lookup_setItem, if_pos rfl, h _ (by decide) (by decide)]
    rfl
  have absent : ∀ k ∈ schemaNames, k ≠ "ext".toList → k ≠ "nonce".toList →
      unsigned.lookup k = none → Absent (filled ms) k := fun k hk hne hne' hnone =>
    (hlook k hk hne hne').trans hnone
  refine ⟨hlook _ (by decide) (by decide) (by decide),
    ⟨_, hlook _ (by decide) (by decide) (by decide), _, rfl, rfl⟩,
    ⟨_, hlook _ (by decide) (by decide) (by decide), _, rfl, ?_, ?_, ?_⟩,
    ⟨_, hnonce, 0, by decide, rfl⟩, ?_,
    .inr ⟨hlook _ (by decide) (by decide) (by decide),
      absent _ (by decide) (by decide) (by decide) rfl,
      absent _ (by decide) (by decide) (by decide) rfl,
      absent _ (by decide) (by decide) (by decide) rfl, ?_⟩⟩
  · exact Binary64.isInteger_ofNat53 _
  · exact (Binary64.toInt_ofNat53 (n := 0) (by decide)).ge
  · rw [Binary64.toInt_ofNat53]
    decide
  · intro v hv
    rw [filled_lookup ms (by decide)] at hv
    exact hext v hv
  · intro v hv
    cases hv.symm.trans (absent "descriptor".toList (by decide) (by decide) (by decide) rfl)

theorem unsigned_checked : checkSchema (filled unsigned) = .ok () :=
  checkSchema_ok.mpr ⟨by decide, unsigned_shape unsigned (fun _ _ _ => rfl) nofun⟩

theorem identified_lookup {k : Str} (h : k ∈ schemaNames) :
    identified.lookup k = unsigned.lookup k := by
  have hne : k ≠ "id".toList := by
    rintro rfl
    exact absurd h (by decide)
  rw [identified, List.lookup_cons, beq_eq_false_iff_ne.mpr hne]

theorem identified_checked : checkSchema (filled identified) = .ok () :=
  checkSchema_ok.mpr ⟨by decide, unsigned_shape identified (fun _ hk _ => identified_lookup hk) nofun⟩

theorem last_first (a b c : Str × Json Str) : [a, b, c].Perm [c, a, b] :=
  .trans (.cons a (.swap c b [])) (.swap c a [b])

/-- The candidate of the nonce 0 of a description with one member more, named
between `created` and `nonce`. -/
theorem text_headed {k : Str} (w : Json Str)
    (hsorted : [Rfc8785.units "actor".toList, Rfc8785.units "created".toList, Rfc8785.units k,
      Rfc8785.units "nonce".toList, Rfc8785.units "type".toList,
      Rfc8785.units "v".toList].Pairwise (· < ·)) :
    Rfc8785.text (.obj (candidate ((k, w) :: unsigned) 0)) =
      "\x7b\"actor\":\"ed25519:".toList ++ hex Ed25519.zeroPublic ++
        "\",\"created\":0,".toList ++ Rfc8785.member (k, Rfc8785.text w) ++
        ",\"nonce\":\"0\",\"type\":\"channel\",\"v\":1\x7d".toList := by
  have hk : k ≠ "nonce".toList := by
    rintro rfl
    simp at hsorted
  have hperm : (candidate ((k, w) :: unsigned) 0).Perm
      [("actor".toList, .str ("ed25519:".toList ++ hex Ed25519.zeroPublic)),
        ("created".toList, .num (Binary64.ofNat53 0 Binary64.zero_fits)), (k, w),
        ("nonce".toList, .str ['0']), ("type".toList, .str "channel".toList),
        ("v".toList, .num one)] := by
    have hbare : (((k, w) :: unsigned).filter fun m => m.1 ≠ "nonce".toList) = (k, w) :: unsigned :=
      List.filter_cons_of_pos (a := (k, w)) (decide_eq_true hk)
    rw [candidate, hbare]
    exact .trans (.swap _ _ _) (.cons _ (.trans (.swap _ _ _)
      (.cons _ (.cons _ (last_first _ _ _)))))
  have hnodup : (candidate ((k, w) :: unsigned) 0 |>.map Prod.fst).Nodup := by
    refine (hperm.map Prod.fst).nodup_iff.mpr ?_
    have hdistinct := hsorted.imp fun h => ne_of_lt h
    exact List.Nodup.of_map Rfc8785.units hdistinct
  refine (text_perm hperm hnodup).trans ((text_members _ ?_).trans ?_)
  · exact hsorted
  simp only [List.map_cons, List.map_nil, Rfc8785.text, ecmaString_zero_one.1, ecmaString_zero_one.2,
    (plain_key _).quote]
  generalize Rfc8785.member (k, Rfc8785.text w) = t
  simp [Rfc8785.member, Rfc8785.quote, Rfc8785.escape]

theorem hashed_identified : (hashed identified 0).length ≤ 1048576 := by
  rw [hashed, Rfc8785.bytes, identified, text_headed _ (by decide)]
  simp only [Unicode.utf8_append, List.length_append, (plain_hex _).length_utf8, hex_length]
  decide

/-- The key of thirty-two zeros is a private key of both. -/
theorem zeroKey_of {ms : Members Str}
    (h : ms.lookup "actor".toList = unsigned.lookup "actor".toList) :
    KeyOf Ed25519.zeroSha512 Ed25519.zeroKey ms :=
  ⟨rfl, _, Ed25519.zeroKey_public, h⟩

theorem zeroKey_accepted : AcceptsSigned Ed25519.zeroSha512 Ed25519.zeroKey := by
  intro pub d sig hpub hd hsig
  rw [Ed25519.publicFromPrivate_eq] at hpub
  rw [← Except.ok.inj hpub]
  exact (Ed25519.signed_verifies_iff rfl hd hsig).mpr (Ed25519.zeroKey_scalar d)

/-- **A body with an identifier in it** is mined to an envelope that the
validator rejects. -/
theorem not_minesValid_identified :
    checkSchema (filled identified) = .ok () ∧
      KeyOf Ed25519.zeroSha512 Ed25519.zeroKey identified ∧
      AcceptsSigned Ed25519.zeroSha512 Ed25519.zeroKey ∧
      ¬ MinesValid Ed25519.zeroSha512 Ed25519.zeroKey identified := by
  have hkey : KeyOf Ed25519.zeroSha512 Ed25519.zeroKey identified :=
    zeroKey_of (identified_lookup (by decide))
  refine ⟨identified_checked, hkey, zeroKey_accepted, fun h => ?_⟩
  have hd : Distinct (.obj identified) := ⟨by decide, trivial, trivial, trivial, trivial, trivial,
    trivial, trivial, trivial, trivial, trivial, trivial⟩
  obtain ⟨hid, -⟩ := clean_of_minesValid hkey hd identified_checked h (Nat.zero_le _)
    hashed_identified
  cases hid

/-- A body with neither. -/
theorem minesValid_unsigned : MinesValid Ed25519.zeroSha512 Ed25519.zeroKey unsigned := by
  have hd : Distinct (.obj unsigned) := ⟨by decide, trivial, trivial, trivial, trivial, trivial,
    trivial, trivial, trivial, trivial⟩
  have clean : ∀ {s : Str}, (∀ c ∈ s, c.toNat < 0x80) → Clean s := fun h => Ascii.clean h
  exact (minesValid_iff (zeroKey_of rfl) zeroKey_accepted hd unsigned_checked).mpr
    (.inl ⟨rfl, rfl, by decide, clean (by decide), (plain_key _).clean, clean (by decide),
      trivial, clean (by decide), clean (by decide), clean (by decide), trivial, trivial⟩)

end SwarmPointer.Protocol
