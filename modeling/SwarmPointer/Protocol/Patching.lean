import SwarmPointer.Jcs.Markers
import SwarmPointer.Protocol.Mining
import SwarmPointer.Python.AgentA

/-!
# Protocol — patching the nonce into the bytes

The miner of the agent writes the digits of the nonce where the bytes
`"nonce":"` occur first. That is the member it means exactly when no member
inside `ext` brings them earlier.

The template of one width is the candidate of its least nonce (`hashed_eq`,
`placeholder_eq`), so with the marker in the right place every turn of the
patching loop is a turn of the plain one (`mineRange_iff`, `mineWidths_iff`).
The patching miner also validates what it returns, which the plain one does
not: noncharacters and a signature with `r = 0` make it raise. Both loops are
run from the least nonce, and a hash that marks one candidate shows that none
of the three conditions can be left out.
-/

namespace SwarmPointer.Protocol

open Except Json Jcs JsonInput Python Python.JsonInput Python.Protocol Python.AgentA Search

/-! ## The template -/

/-- What is mined, without a nonce. -/
abbrev bare (u : Members Str) : Members Str := u.filter fun m => m.1 ≠ "nonce".toList

/-- The bytes up to the nonce. -/
def front (u : Members Str) : Bytes :=
  Unicode.utf8 (lead (bare u) "nonce".toList) ++ AgentA.marker

/-- The bytes behind it. -/
def back (u : Members Str) : Bytes := Unicode.utf8 ('"' :: rear (bare u) "nonce".toList)

theorem not_mem_bare (u : Members Str) : "nonce".toList ∉ (bare u).map Prod.fst := by
  intro h
  obtain ⟨m, hm, heq⟩ := List.mem_map.mp h
  exact of_decide_eq_true (List.mem_filter.mp hm).2 heq

theorem nonce_letters : Letters "nonce".toList := ⟨by decide, by decide⟩

theorem marker_utf8 : AgentA.marker = Unicode.utf8 (Jcs.marker "nonce".toList) := rfl

theorem digits_alphanum (n : Nat) : ∀ c ∈ Nat.toDigits 10 n, c.isAlphanum = true := fun c hc => by
  rw [Char.isAlphanum, Nat.isDigit_of_mem_toDigits (by decide) (by decide) hc, Bool.or_true]

/-- **The candidates differ in the digits of the nonce only.** -/
theorem hashed_eq {u : Members Str} (hd : Distinct (.obj u)) (n : Nat) :
    hashed u n = front u ++ Unicode.utf8 (Nat.toDigits 10 n) ++ back u := by
  have hnodup : ((bare u).map Prod.fst).Nodup := (List.filter_sublist.map Prod.fst).nodup hd.1
  have hmember : Rfc8785.member ("nonce".toList, Rfc8785.text (.str (Nat.toDigits 10 n))) =
      Jcs.marker "nonce".toList ++ (Nat.toDigits 10 n ++ ['"']) := by
    rw [Rfc8785.member, Rfc8785.text, Rfc8785.quote, Rfc8785.quote,
      flatMap_letters nonce_letters.2, flatMap_alphanum (digits_alphanum n)]
    rfl
  rw [hashed, candidate, Rfc8785.bytes, text_place hnodup (not_mem_bare u), hmember, front, back,
    marker_utf8]
  simp only [Unicode.utf8_append, Unicode.utf8_cons, Unicode.utf8_nil, List.append_assoc,
    List.append_nil]

/-! ## The digits -/

theorem utf8_digits_length (n : Nat) :
    (Unicode.utf8 (Nat.toDigits 10 n)).length = (Nat.toDigits 10 n).length := by
  have key : ∀ s : Str, (∀ c ∈ s, c.toNat < 0x80) → (Unicode.utf8 s).length = s.length := by
    intro s hs
    induction s with
    | nil => rfl
    | cons c s ih =>
        rw [Unicode.utf8_cons, Unicode.utf8EncodeChar_ascii (hs c (List.mem_cons_self ..)),
          List.length_append, ih fun d hd => hs d (List.mem_cons_of_mem _ hd), List.length_singleton,
          List.length_cons, Nat.add_comm]
  exact key _ fun c hc =>
    JsonInput.isDigit_ascii (Nat.isDigit_of_mem_toDigits (by decide) (by decide) hc)

/-- How many digits a number of the range has. -/
theorem digits_length {width n : Nat} (hw : 1 ≤ width) (hlo : lowest width ≤ n)
    (hhi : n < 10 ^ width) : (Nat.toDigits 10 n).length = width := by
  have hle : (Nat.toDigits 10 n).length ≤ width :=
    (Nat.length_toDigits_le_iff (by decide) hw).mpr hhi
  have hpos : 0 < (Nat.toDigits 10 n).length := Nat.length_toDigits_pos
  by_cases h1 : width = 1
  · omega
  · rw [lowest, if_neg h1] at hlo
    have hgt : ¬ (Nat.toDigits 10 n).length ≤ width - 1 := fun h =>
      absurd ((Nat.length_toDigits_le_iff (by decide) (by omega)).mp h) (not_lt.mpr hlo)
    omega

theorem nonceDigits_eq {width n : Nat} (h : (Nat.toDigits 10 n).length = width) :
    nonceDigits width n = Nat.toDigits 10 n := by
  rw [nonceDigits, List.leftpad, h, Nat.sub_self]
  split <;> rfl

/-- The placeholder is the least number with so many digits. -/
theorem placeholder_eq (width : Nat) :
    placeholder width = Nat.toDigits 10 (lowest width) := by
  have hpow : ∀ k, Nat.toDigits 10 (10 ^ k) = '1' :: List.replicate k '0' := by
    intro k
    induction k with
    | zero => rfl
    | succ k ih =>
        have happend := Nat.toDigits_append_toDigits (b := 10) (n := 10 ^ k) (d := 0) (by decide)
          (Nat.pos_of_ne_zero (by positivity)) (by decide)
        rw [Nat.pow_succ, Nat.mul_comm, ← Nat.add_zero (10 * 10 ^ k), ← happend, ih,
          List.replicate_succ']
        rfl
  rw [placeholder, lowest]
  split
  · rfl
  · rw [hpow]

/-! ## The place of the nonce -/

theorem patch_eq (x d d' y : Bytes) : patch (x ++ d ++ y) x.length d.length d' = x ++ d' ++ y := by
  have htake : (x ++ d ++ y).take x.length = x := by rw [List.append_assoc, List.take_left]
  have hdrop : (x ++ d ++ y).drop (x.length + d.length) = y := by
    rw [← List.length_append, List.drop_left]
  rw [patch, htake, hdrop]

/-- A part of a list, with what is around it. -/
theorem exists_split {l : Bytes} {off width : Nat} (h : off + width ≤ l.length) :
    ∃ x d y, l = x ++ d ++ y ∧ x.length = off ∧ d.length = width := by
  refine ⟨l.take off, (l.drop off).take width, (l.drop off).drop width, ?_, ?_, ?_⟩
  · rw [List.append_assoc, List.take_append_drop, List.take_append_drop]
  · rw [List.length_take]
    omega
  · rw [List.length_take, List.length_drop]
    omega

/-- **Without an earlier marker the nonce is found.** -/
theorem offset_front {u : Members Str} (hd : Distinct (.obj u))
    (h : ∀ m ∈ bare u, Rfc8785.units m.1 < Rfc8785.units "nonce".toList →
      ¬ ('"' :: "nonce".toList <:+ '"' :: m.1) ∧ ¬ Marked "nonce".toList m.2) (n : Nat) :
    offset (hashed u n) = .ok (front u).length := by
  have hascii : ∀ c ∈ Jcs.marker "nonce".toList, c.toNat < 0x80 := by decide
  have htext : hashed u n = Unicode.utf8 (lead (bare u) "nonce".toList) ++ AgentA.marker ++
      (Unicode.utf8 (Nat.toDigits 10 n) ++ back u) := by
    rw [hashed_eq hd, front, List.append_assoc]
  have hfind : find AgentA.marker (hashed u n) =
      some (Unicode.utf8 (lead (bare u) "nonce".toList)).length := by
    rw [htext]
    refine find_first fun c d heq => ?_
    by_contra hlt
    -- an earlier occurrence begins in what stands before the nonce
    have hstring : Unicode.utf8 (lead (bare u) "nonce".toList ++ (Jcs.marker "nonce".toList ++
        (Nat.toDigits 10 n ++ '"' :: rear (bare u) "nonce".toList))) =
          c ++ Unicode.utf8 (Jcs.marker "nonce".toList) ++ d := by
      rw [Unicode.utf8_append, Unicode.utf8_append, Unicode.utf8_append, ← marker_utf8, ← heq, back,
        List.append_assoc]
    obtain ⟨c', d', hsplit, rfl⟩ := Unicode.ascii_occurrence (by decide) hascii hstring
    have hwithin : Within (Jcs.marker "nonce".toList) (lead (bare u) "nonce".toList)
        (Jcs.marker "nonce".toList ++
          (Nat.toDigits 10 n ++ '"' :: rear (bare u) "nonce".toList)) := by
      refine ⟨c', d', hsplit, ?_⟩
      by_contra hle
      rw [List.append_assoc] at hsplit
      rcases List.append_eq_append_iff.mp hsplit with ⟨q, rfl, -⟩ | ⟨q, hq, -⟩
      · rw [Unicode.utf8_append, List.length_append] at hlt
        omega
      · rw [hq, List.length_append] at hle
        obtain rfl : q = [] := List.eq_nil_of_length_eq_zero (by omega)
        rw [hq, List.append_nil] at hlt
        exact hlt (le_refl _)
    obtain ⟨m, hm, hlt', hmark⟩ := within_lead nonce_letters hwithin
    rcases hmark with ⟨hname, -⟩ | hmark
    · exact (h m hm hlt').1 hname
    · exact (h m hm hlt').2 hmark
  rw [offset, hfind, front, List.length_append]

/-- **An earlier marker is found instead.** -/
theorem offset_early {u : Members Str} (hd : Distinct (.obj u)) {k : Str} {v : Json Str}
    (hm : (k, v) ∈ bare u) (hlt : Rfc8785.units k < Rfc8785.units "nonce".toList)
    (hmark : Marked "nonce".toList v) (n : Nat) :
    ∃ off, offset (hashed u n) = .ok off ∧ off < (front u).length := by
  obtain ⟨p, q, hpq⟩ := (infix_marked nonce_letters hmark).trans (infix_lead hm hlt)
  have htext : hashed u n = Unicode.utf8 p ++ AgentA.marker ++
      (Unicode.utf8 q ++ (AgentA.marker ++ (Unicode.utf8 (Nat.toDigits 10 n) ++ back u))) := by
    rw [hashed_eq hd, front, ← hpq, Unicode.utf8_append, Unicode.utf8_append, marker_utf8]
    simp only [List.append_assoc]
  obtain ⟨i, hi, hfind⟩ := find_le (p := AgentA.marker) (a := Unicode.utf8 p)
    (b := Unicode.utf8 q ++ (AgentA.marker ++ (Unicode.utf8 (Nat.toDigits 10 n) ++ back u)))
  refine ⟨i + AgentA.marker.length, by rw [offset, htext, hfind], ?_⟩
  have hmarker : 0 < AgentA.marker.length := by decide
  rw [front, ← hpq, Unicode.utf8_append, Unicode.utf8_append, ← marker_utf8, List.length_append,
    List.length_append, List.length_append]
  omega

/-! ## Where the marker can be -/

theorem not_marked_str (s : Str) : ¬ Marked "nonce".toList (.str s) := nofun

theorem not_marked_sha256Id {v : Json Str} (h : IsSha256Id v) : ¬ Marked "nonce".toList v := by
  obtain ⟨bs, -, rfl⟩ := h
  exact not_marked_str _

theorem not_marked_arr {vs : List (Json Str)} (h : ∀ v ∈ vs, ¬ Marked "nonce".toList v) :
    ¬ Marked "nonce".toList (.arr vs) := by
  intro hmark
  cases hmark with
  | element hv hmark => exact h _ hv hmark

/-- A reference object has `hash` and `locators` only. -/
theorem not_marked_ref {v : Json Str} (h : IsRef v) (hd : Distinct v) :
    ¬ Marked "nonce".toList v := by
  obtain ⟨ms, rfl, hnames, ⟨w, hw, hid⟩, l, hl, ls, rfl, -, hls⟩ := h
  have hlook : ∀ m ∈ ms, ms.lookup m.1 = some m.2 := fun m hm => (lookup_eq_some hd.1).mpr hm
  intro hmark
  cases hmark with
  | @here k s _ hm hk =>
      have hclosed := hnames _ hm
      rcases hclosed with rfl | rfl <;> exact absurd hk (by decide)
  | @member k v _ hm hmark =>
      rcases hnames _ hm with hk | hk
      · have heq : v = w := Option.some.inj ((hlook _ hm).symm.trans (by rw [hk]; exact hw))
        exact not_marked_sha256Id hid (heq ▸ hmark)
      · have heq : v = .arr ls := Option.some.inj ((hlook _ hm).symm.trans (by rw [hk]; exact hl))
        refine not_marked_arr (fun v hv => ?_) (heq ▸ hmark)
        obtain ⟨s, rfl, -⟩ := hls v hv
        exact not_marked_str s

theorem not_marked_parents {v : Json Str} (h : AreParents v) : ¬ Marked "nonce".toList v := by
  obtain ⟨ps, rfl, -, hps⟩ := h
  exact not_marked_arr fun v hv => not_marked_sha256Id (hps v hv)

/-- **Only `ext` can have the marker in it.** -/
theorem marked_ext {u : Members Str} (hd : Distinct (.obj u)) (hs : checkSchema (filled u) = .ok ())
    (hid : Absent u "id".toList) (hsig : Absent u "sig".toList) {m : Str × Json Str}
    (hm : m ∈ bare u) (hmark : Marked "nonce".toList m.2) : m.1 = "ext".toList := by
  obtain ⟨hcore, hshape⟩ := checkSchema_ok.mp hs
  obtain ⟨hmu, hne⟩ := List.mem_filter.mp hm
  have hne' : m.1 ≠ "nonce".toList := of_decide_eq_true hne
  have hlook : (filled u).lookup m.1 = some m.2 := by
    rw [filled_lookup u hne', lookup_eq_some hd.1]
    exact hmu
  have hdv : Distinct m.2 := distinct_lookup hd ((lookup_eq_some hd.1).mpr hmu)
  have value : ∀ {k : Str} {w : Json Str}, m.1 = k → (filled u).lookup k = some w → m.2 = w :=
    fun hk hw => Option.some.inj (hlook.symm.trans (hk ▸ hw))
  have absent : ∀ {k : Str}, m.1 = k → Absent (filled u) k → False := by
    intro k hk hnone
    rw [← hk, Absent, hlook] at hnone
    cases hnone
  have optional : ∀ {k : Str} {p : Json Str → Prop}, m.1 = k → Optional (filled u) k p → p m.2 :=
    fun hk h => h m.2 (hk ▸ hlook)
  have has : ∀ {k : Str} {p : Json Str → Prop}, m.1 = k → Has (filled u) k p → p m.2 := by
    rintro k p hk ⟨w, hw, hp⟩
    rwa [value hk hw]
  have hname : m.1 ∈ schemaNames := by
    rcases CORE_iff.mp (hcore m (mem_setItem_of hmu hne')) with h | h | h
    · exact h
    · exact absurd (List.mem_map_of_mem hmu) (h ▸ lookup_eq_none.mp hid)
    · exact absurd (List.mem_map_of_mem hmu) (h ▸ lookup_eq_none.mp hsig)
  simp only [schemaNames, List.mem_cons, List.not_mem_nil, or_false] at hname
  -- of the ten names only `ext` may hold an object with a member `nonce`
  rcases hname with h | h | h | h | h | h | h | h | h | h
  · rw [value h hshape.version] at hmark
    cases hmark
  · rcases hshape.kind with hk | hk
    · rw [value h hk.1] at hmark
      cases hmark
    · rw [value h hk.1] at hmark
      cases hmark
  · obtain ⟨key, -, hkey⟩ := has h hshape.actor
    rw [hkey] at hmark
    cases hmark
  · obtain ⟨x, hx, -⟩ := has h hshape.created
    rw [hx] at hmark
    cases hmark
  · exact absurd h hne'
  · rcases hshape.kind with hk | hk
    · exact absurd hmark (not_marked_sha256Id (has h hk.2.2.1))
    · exact (absent h hk.2.1).elim
  · rcases hshape.kind with hk | hk
    · exact absurd hmark (not_marked_ref (has h hk.2.2.2.1) hdv)
    · exact (absent h hk.2.2.2.1).elim
  · rcases hshape.kind with hk | hk
    · exact absurd hmark (not_marked_parents (optional h hk.2.2.2.2))
    · exact (absent h hk.2.2.1).elim
  · rcases hshape.kind with hk | hk
    · exact (absent h hk.2.1).elim
    · exact absurd hmark (not_marked_ref (optional h hk.2.2.2.2) hdv)
  · exact h

/-- No name of the schema but the nonce's own ends the way the marker does. -/
theorem name_not_marker {u : Members Str} (hs : checkSchema (filled u) = .ok ())
    {m : Str × Json Str} (hm : m ∈ bare u) : ¬ ('"' :: "nonce".toList <:+ '"' :: m.1) := by
  obtain ⟨hmu, hne⟩ := List.mem_filter.mp hm
  have hne' : m.1 ≠ "nonce".toList := of_decide_eq_true hne
  have key : ∀ k ∈ CORE, k ≠ "nonce".toList → ¬ ('"' :: "nonce".toList <:+ '"' :: k) := by decide
  exact key _ ((checkSchema_ok.mp hs).1 m (mem_setItem_of hmu hne')) hne'

/-! ## What a patch pays for -/

theorem lenLocators_congr {u w : Members Str} {k : Str} (h : u.lookup k = w.lookup k) :
    lenLocators u k = lenLocators w k := by
  rw [lenLocators, lenLocators, getItem, getItem, h]

theorem workUnits_congr {u w : Members Str} (h : ∀ k, k ≠ "nonce".toList → u.lookup k = w.lookup k)
    (n : Nat) : workUnits u n = workUnits w n := by
  have hparents : lenParents u = lenParents w := by
    rw [lenParents, lenParents, contains, contains, getItem, getItem, h _ (by decide)]
  have hdescriptor : lenDescriptor u = lenDescriptor w := by
    rw [lenDescriptor, lenDescriptor, contains, contains, lenLocators_congr (h _ (by decide)),
      h _ (by decide)]
  have hcounts : ∀ t, workCounts u t = workCounts w t := by
    intro t
    unfold workCounts
    rw [lenLocators_congr (h "ref".toList (by decide)), hparents, hdescriptor]
  have htype : getItem u "type".toList = getItem w "type".toList := by
    rw [getItem, getItem, h _ (by decide)]
  rw [workUnits, workUnits, htype]
  simp only [hcounts]

theorem units_candidate (u : Members Str) (n m k : Nat) :
    units (candidate u n) k = units (candidate u m) k := by
  simp only [units, typeIs, candidate_lookup u _ (k := "type".toList) (by decide),
    candidate_lookup u _ (k := "ref".toList) (by decide),
    candidate_lookup u _ (k := "parents".toList) (by decide),
    candidate_lookup u _ (k := "descriptor".toList) (by decide)]

theorem workUnits_bare {u : Members Str} (hs : Shape (filled u)) {size : Nat}
    (hsize : size ≤ 2 ^ 53) (n : Nat) : workUnits (bare u) size = .ok (units (candidate u n) size) := by
  have hlook : ∀ k, k ≠ "nonce".toList → (bare u).lookup k = (candidate u 0).lookup k :=
    fun k hk => (lookup_drop u hk).trans (candidate_lookup u 0 hk).symm
  rw [workUnits_congr hlook, workUnits_eq (candidate_shape hs (Nat.zero_le _)) hsize,
    units_candidate u 0 n]

theorem setItem_bare (u : Members Str) (n : Nat) :
    setItem (bare u) "nonce".toList (.str (Nat.toDigits 10 n)) = candidate u n := by
  rw [setItem, if_neg (not_mem_bare u), candidate]

/-! ## The loops -/

section
variable {sha256 : Bytes → Digest} {verifies : Bytes → Bytes → Bytes → Bool}
  {sign : Bytes → Bytes → Py Bytes} {u : Members Str} {key : Bytes}

/-- What is found is signed, and validating it finds nothing. -/
theorem sealed_eq (hs : checkSchema (filled u) = .ok ()) (hid : Absent u "id".toList)
    (hsig : Absent u "sig".toList) (hclean : CleanAll (.obj u)) (hkey : SignsFor verifies sign key u)
    {n : Nat} (hn : n ≤ 2 ^ 64 - 1) (hsize : (hashed u n).length ≤ 1048576)
    (hwork : Pays u n (sha256 (hashed u n))) :
    AgentA.sealed (pythonImports sha256 (fun a s d => .ok (verifies a s d)) sign) (bare u) key
      (Nat.toDigits 10 n) (sha256 (hashed u n)).1 =
    sign key (sha256 (hashed u n)).1 >>= fun sig =>
      .ok (envelope (candidate u n) (sha256 (hashed u n)) sig) := by
  rw [AgentA.sealed]
  dsimp only
  rw [setItem_bare]
  change (sign key (sha256 (hashed u n)).1 >>= fun sig => _) = _
  cases hsign : sign key (sha256 (hashed u n)).1 with
  | error e => rfl
  | ok sig =>
      obtain ⟨rec, hcanon, hvalid, hrec, -⟩ := gives_validates hs hid hsig hclean hn hkey
        ⟨hsize, hwork, sig, hsign, rfl⟩
      rw [ok_bind, ok_bind]
      refine bind_eq_ok_iff.mpr ⟨_, hcanon, bind_eq_ok_iff.mpr ⟨rec, hvalid, ?_⟩⟩
      have hsame : ¬ rec.id ≠ "sha256:".toList ++ hex (sha256 (hashed u n)).1 := not_not.mpr hrec
      rw [raiseIf, if_neg hsame]
      rfl

/-- The bodies for which every turn of both loops is a candidate. -/
structure Minable (verifies : Bytes → Bytes → Bytes → Bool) (sign : Bytes → Bytes → Py Bytes)
    (key : Bytes) (u : Members Str) : Prop where
  distinct : Distinct (.obj u)
  schema : checkSchema (filled u) = .ok ()
  noId : Absent u "id".toList
  noSig : Absent u "sig".toList
  clean : CleanAll (.obj u)
  signs : SignsFor verifies sign key u
  size : ∀ n ≤ 2 ^ 64 - 1, (hashed u n).length ≤ 1048576

/-- **The turns at one width** are turns of the plain loop. -/
theorem mineRange_iff (sha256 : Bytes → Digest) (h : Minable verifies sign key u)
    {width size target : Nat} (hsize : size = (front u).length + width + (back u).length)
    (htarget : targetForUnits (units (candidate u 0) size) = .ok target) (env : Members Str)
    (turns rest : Nat) {n : Nat} {d : Bytes} (hd : d.length = width)
    (hturns : ∀ m, n ≤ m → m < n + turns → m ≤ 2 ^ 64 - 1 ∧ (Nat.toDigits 10 m).length = width) :
    mineLoop (pythonImports sha256 (fun a s d => .ok (verifies a s d)) sign) (bare u) key
        (turns + rest) n = .ok env ↔
      mineRange (pythonImports sha256 (fun a s d => .ok (verifies a s d)) sign) (bare u) key
          (front u).length width target turns n (front u ++ d ++ back u) = .ok (some env) ∨
        (mineRange (pythonImports sha256 (fun a s d => .ok (verifies a s d)) sign) (bare u) key
            (front u).length width target turns n (front u ++ d ++ back u) = .ok none ∧
          mineLoop (pythonImports sha256 (fun a s d => .ok (verifies a s d)) sign) (bare u) key
            rest (n + turns) = .ok env) := by
  induction turns generalizing n d with
  | zero =>
      rw [Nat.zero_add, Nat.add_zero, mineRange]
      simp
  | succ turns ih =>
      obtain ⟨hn, hlen⟩ := hturns n (le_refl n) (by omega)
      -- the buffer after the patch is the text the plain loop hashes
      have hbuf : patch (front u ++ d ++ back u) (front u).length width
          (Unicode.utf8 (nonceDigits width n)) = hashed u n := by
        rw [nonceDigits_eq hlen, ← hd, patch_eq, hashed_eq h.distinct]
      have hlength : (hashed u n).length = size := by
        rw [hashed_eq h.distinct, List.length_append, List.length_append, utf8_digits_length, hlen,
          hsize]
      have hunits : units (candidate u 0) size = units (candidate u n) (hashed u n).length := by
        rw [hlength, units_candidate u 0 n]
      have hpos := units_pos (candidate u n) (hashed u n).length
      have hmax : target = Protocol.target (units (candidate u n) (hashed u n).length) := by
        rw [hunits, targetForUnits_eq hpos] at htarget
        exact (Except.ok.inj htarget).symm
      have hnext := ih (n := n + 1) (d := Unicode.utf8 (Nat.toDigits 10 n))
        (by rw [utf8_digits_length, hlen]) fun m hlo hhi => hturns m (by omega) (by omega)
      rw [Nat.succ_add, mineLoop_succ sha256 verifies sign h.distinct (checkSchema_ok.mp h.schema).2 _ _ hn,
        if_neg (not_lt.mpr (h.size n hn)), mineRange, hbuf]
      change _ ↔ (if fromBytesBig (sha256 (hashed u n)).1 ≤ target then _ else _) = _ ∨
        (if fromBytesBig (sha256 (hashed u n)).1 ≤ target then _ else _) = _ ∧ _
      simp only [digestValue_eq, hmax, le_target hpos]
      split
      · rename_i hwork
        rw [nonceDigits_eq hlen]
        change _ ↔ (AgentA.sealed _ _ _ _ (sha256 (hashed u n)).1 >>= _) = _ ∨
          (AgentA.sealed _ _ _ _ (sha256 (hashed u n)).1 >>= _) = _ ∧ _
        rw [sealed_eq h.schema h.noId h.noSig h.clean h.signs hn (h.size n hn) hwork]
        cases sign key (sha256 (hashed u n)).1 with
        | error e => simp [error_bind]
        | ok sig => simp [ok_bind]
      · -- no work: both go on with the next nonce, whose digits are as many
        have hsum : n + (turns + 1) = n + 1 + turns := by omega
        rw [hnext, hsum, ← hashed_eq h.distinct, hmax]

theorem maxNonce_eq : MAX_NONCE = 2 ^ 64 - 1 := by decide

/-- The widths up to 20 have numbers of that many digits. -/
theorem lowest_le {width : Nat} (hw : width ≤ 20) : lowest width ≤ MAX_NONCE := by
  have key : ∀ w ≤ 20, lowest w ≤ MAX_NONCE := by decide
  exact key width hw

/-- **Width by width the nonces come in the order of the plain loop.** -/
theorem mineWidths_iff (h : Minable verifies sign key u)
    (hfind : ∀ n, offset (hashed u n) = .ok (front u).length) {env : Members Str} (widths : Nat)
    {width : Nat} (hw : width + widths = 21) (h1 : 1 ≤ width) :
    mineWidths (pythonImports sha256 (fun a s d => .ok (verifies a s d)) sign) (bare u) key widths
        width = .ok env ↔
      mineLoop (pythonImports sha256 (fun a s d => .ok (verifies a s d)) sign) (bare u) key
        (MAX_NONCE + 1 - lowest width) (lowest width) = .ok env := by
  induction widths generalizing width with
  | zero =>
      obtain rfl : width = 21 := by omega
      have hzero : MAX_NONCE + 1 - lowest 21 = 0 := by decide
      rw [hzero, mineWidths, mineLoop]
      simp
  | succ widths ih =>
      have hle : width ≤ 20 := by omega
      have hlow : lowest width ≤ 2 ^ 64 - 1 := (lowest_le hle).trans_eq maxNonce_eq
      have hlength : (Nat.toDigits 10 (lowest width)).length = width := by
        have key : ∀ w ≤ 20, 1 ≤ w → lowest w < 10 ^ w := by decide
        exact digits_length h1 (le_refl _) (key width hle h1)
      -- the numbers that are tried at this width
      have hturns : ∀ m, lowest width ≤ m →
          m < lowest width + (highest width + 1 - lowest width) →
          m ≤ 2 ^ 64 - 1 ∧ (Nat.toDigits 10 m).length = width := by
        intro m hlo hhi
        have hhigh : m ≤ highest width := by omega
        have hpow : highest width < 10 ^ width := by
          have key : ∀ w ≤ 20, 1 ≤ w → highest w < 10 ^ w := by decide
          exact key width hle h1
        have hmax : highest width ≤ 2 ^ 64 - 1 := (Nat.min_le_right _ _).trans_eq maxNonce_eq
        exact ⟨hhigh.trans hmax, digits_length h1 hlo (lt_of_le_of_lt hhigh hpow)⟩
      have htemplate : Python.Jcs.canonicalizeBytes
          (.obj (setItem (bare u) "nonce".toList (.str (placeholder width)))) =
            .ok (hashed u (lowest width)) := by
        rw [placeholder_eq, setItem_bare]
        exact canonicalizeBytes_eq (candidate_distinct h.distinct _)
      have hsize : (hashed u (lowest width)).length =
          (front u).length + width + (back u).length := by
        rw [hashed_eq h.distinct, List.length_append, List.length_append, utf8_digits_length,
          hlength]
      have hbig : (hashed u (lowest width)).length ≤ 2 ^ 53 :=
        (h.size _ hlow).trans (by decide)
      have htarget := targetForUnits_eq
        (units_pos (candidate u 0) (hashed u (lowest width)).length)
      have hrange := mineRange_iff sha256 h hsize htarget env
        (highest width + 1 - lowest width) (MAX_NONCE + 1 - lowest (width + 1))
        (n := lowest width) (d := Unicode.utf8 (Nat.toDigits 10 (lowest width)))
        (by rw [utf8_digits_length, hlength]) hturns
      rw [← hashed_eq h.distinct] at hrange
      have hnext := @ih (width + 1) (by omega) (by omega)
      have hsplit : MAX_NONCE + 1 - lowest width =
          highest width + 1 - lowest width + (MAX_NONCE + 1 - lowest (width + 1)) := by
        have key : ∀ w ≤ 20, 1 ≤ w → MAX_NONCE + 1 - lowest w =
            highest w + 1 - lowest w + (MAX_NONCE + 1 - lowest (w + 1)) := by decide
        exact key width hle h1
      have hstart : mineLoop (pythonImports sha256 (fun a s d => .ok (verifies a s d)) sign)
          (bare u) key (MAX_NONCE + 1 - lowest (width + 1))
            (lowest width + (highest width + 1 - lowest width)) = .ok env ↔
          mineLoop (pythonImports sha256 (fun a s d => .ok (verifies a s d)) sign)
            (bare u) key (MAX_NONCE + 1 - lowest (width + 1)) (lowest (width + 1)) = .ok env := by
        by_cases h20 : width = 20
        · have hzero : MAX_NONCE + 1 - lowest (20 + 1) = 0 := by decide
          rw [h20, hzero, mineLoop, mineLoop]
        · have key : ∀ w ≤ 19, 1 ≤ w → lowest w + (highest w + 1 - lowest w) = lowest (w + 1) := by
            decide
          rw [key width (by omega) h1]
      rw [hsplit, hrange, hstart, ← hnext, mineWidths, if_neg (not_lt.mpr (lowest_le hle))]
      change (Python.Jcs.canonicalizeBytes _ >>= fun template => _) = _ ↔ _
      rw [htemplate, ok_bind, hfind, ok_bind,
        workUnits_bare (checkSchema_ok.mp h.schema).2 hbig 0, ok_bind, htarget, ok_bind]
      cases mineRange (pythonImports sha256 (fun a s d => .ok (verifies a s d)) sign) (bare u) key
          (front u).length width (Protocol.target (units (candidate u 0)
            (hashed u (lowest width)).length)) (highest width + 1 - lowest width) (lowest width)
          (hashed u (lowest width)) with
      | error e => simp [error_bind]
      | ok found => cases found <;> simp [ok_bind]

/-! ## What the patching loop returns -/

/-- What is returned has been signed and validated. -/
theorem sealed_ok {I : Imports} {base : Members Str} {digits : Str} {digest : Bytes}
    {env : Members Str} (h : AgentA.sealed I base key digits digest = .ok env) :
    ∃ sig data rec, I.sign key digest = .ok sig ∧
      env = setItem (setItem (setItem base "nonce".toList (.str digits)) "id".toList
        (.str ("sha256:".toList ++ hex digest))) "sig".toList (.str (hex sig)) ∧
      I.canonicalizeBytes (.obj env) = .ok data ∧ validateBytes I data = .ok rec := by
  rw [AgentA.sealed] at h
  obtain ⟨sig, hsig, h⟩ := bind_eq_ok_iff.mp h
  obtain ⟨data, hdata, h⟩ := bind_eq_ok_iff.mp h
  obtain ⟨rec, hrec, h⟩ := bind_eq_ok_iff.mp h
  obtain ⟨-, -, h⟩ := bind_eq_ok_iff.mp h
  obtain rfl := Except.ok.inj h
  exact ⟨sig, data, rec, hsig, rfl, hdata, hrec⟩

/-- Wherever the digits are patched in, what is found is sealed. -/
theorem mineRange_ok {I : Imports} {base : Members Str} {width target : Nat} {x y : Bytes}
    {env : Members Str} {turns n : Nat} {d : Bytes} (hd : d.length = width)
    (hturns : ∀ m, n ≤ m → m < n + turns → (Nat.toDigits 10 m).length = width)
    (h : mineRange I base key x.length width target turns n (x ++ d ++ y) = .ok (some env)) :
    ∃ m, (Nat.toDigits 10 m).length = width ∧
      AgentA.sealed I base key (Nat.toDigits 10 m)
        (I.sha256 (x ++ Unicode.utf8 (Nat.toDigits 10 m) ++ y)).1 = .ok env := by
  induction turns generalizing n d with
  | zero => cases h
  | succ turns ih =>
      have hlen := hturns n (le_refl n) (by omega)
      rw [mineRange, nonceDigits_eq hlen] at h
      rw [← hd, patch_eq] at h
      split at h
      · obtain ⟨env', hseal, henv⟩ := bind_eq_ok_iff.mp h
        obtain rfl := Option.some.inj (Except.ok.inj henv)
        exact ⟨n, hlen, hseal⟩
      · refine ih (n := n + 1) (d := Unicode.utf8 (Nat.toDigits 10 n))
          (by rw [utf8_digits_length, hlen]) (fun m hlo hhi => hturns m (by omega) (by omega)) ?_
        rw [← hd]
        exact h

/-- The marker is found in front of the nonce or before that. -/
theorem offset_le (hd : Distinct (.obj u)) (n : Nat) :
    ∃ off, offset (hashed u n) = .ok off ∧ off ≤ (front u).length := by
  have htext : hashed u n = Unicode.utf8 (lead (bare u) "nonce".toList) ++ AgentA.marker ++
      (Unicode.utf8 (Nat.toDigits 10 n) ++ back u) := by
    rw [hashed_eq hd, front, List.append_assoc]
  obtain ⟨i, hi, hfind⟩ := find_le (p := AgentA.marker)
    (a := Unicode.utf8 (lead (bare u) "nonce".toList))
    (b := Unicode.utf8 (Nat.toDigits 10 n) ++ back u)
  refine ⟨i + AgentA.marker.length, by rw [offset, htext, hfind], ?_⟩
  rw [front, List.length_append]
  omega

/-- **What `mine` returns** is sealed with the digits and the hash of some
patched template. -/
theorem mineWidths_ok (hd : Distinct (.obj u)) {env : Members Str} {widths width : Nat}
    (hw : width + widths = 21) (h1 : 1 ≤ width)
    (h : mineWidths (pythonImports sha256 (fun a s d => .ok (verifies a s d)) sign) (bare u) key
      widths width = .ok env) :
    ∃ w x d y m, hashed u (lowest w) = x ++ d ++ y ∧ d.length = w ∧
      offset (hashed u (lowest w)) = .ok x.length ∧ (Nat.toDigits 10 m).length = w ∧
      AgentA.sealed (pythonImports sha256 (fun a s d => .ok (verifies a s d)) sign) (bare u) key
        (Nat.toDigits 10 m) (sha256 (x ++ Unicode.utf8 (Nat.toDigits 10 m) ++ y)).1 = .ok env := by
  induction widths generalizing width with
  | zero => cases h
  | succ widths ih =>
      have hle : width ≤ 20 := by omega
      have hlength : (Nat.toDigits 10 (lowest width)).length = width := by
        have key : ∀ w ≤ 20, 1 ≤ w → lowest w < 10 ^ w := by decide
        exact digits_length h1 (le_refl _) (key width hle h1)
      have hturns : ∀ m, lowest width ≤ m →
          m < lowest width + (highest width + 1 - lowest width) →
          (Nat.toDigits 10 m).length = width := by
        intro m hlo hhi
        have key : ∀ w ≤ 20, 1 ≤ w → highest w < 10 ^ w := by decide
        have hpow := key width hle h1
        exact digits_length h1 hlo (by omega)
      -- one width: the template, the place of its digits, and the range of nonces
      rw [mineWidths, if_neg (not_lt.mpr (lowest_le hle))] at h
      obtain ⟨template, htemplate, h⟩ := bind_eq_ok_iff.mp h
      rw [placeholder_eq, setItem_bare] at htemplate
      obtain rfl : hashed u (lowest width) = template :=
        Except.ok.inj ((canonicalizeBytes_eq (candidate_distinct hd _)).symm.trans htemplate)
      obtain ⟨off, hoff, hfront⟩ := offset_le hd (lowest width)
      rw [hoff, ok_bind] at h
      obtain ⟨units, -, h⟩ := bind_eq_ok_iff.mp h
      obtain ⟨target, -, h⟩ := bind_eq_ok_iff.mp h
      obtain ⟨found, hfound, h⟩ := bind_eq_ok_iff.mp h
      cases found with
      | none => exact ih (by omega) (by omega) h
      | some env' =>
          obtain rfl := Except.ok.inj h
          have hlong : off + width ≤ (hashed u (lowest width)).length := by
            rw [hashed_eq hd, List.length_append, List.length_append, utf8_digits_length, hlength]
            omega
          obtain ⟨x, d, y, hsplit, rfl, hmid⟩ := exists_split hlong
          rw [hsplit] at hfound
          obtain ⟨m, hm, hseal⟩ := mineRange_ok hmid hturns hfound
          exact ⟨width, x, d, y, m, hsplit, hmid, hoff, hm, hseal⟩

/-! ## When the two miners agree -/

/-- The miner of the agent returns what `mine_and_sign` returns. -/
def MinesAlike (sha512 : Bytes → Bytes) (key : Bytes) (u : Members Str) : Prop :=
  ∀ (sha256 : Bytes → Digest) (env : Members Str),
    AgentA.mine (ownImports sha256 sha512) u key = .ok env ↔
      mineAndSign (ownImports sha256 sha512) u key 0 = .ok env

/-- No object in `ext` has a member with a string value whose name is `nonce`
or ends in `"nonce`. -/
def Unmarked (u : Members Str) : Prop :=
  Optional u "ext".toList fun v => ¬ Marked "nonce".toList v

/-- The number `r` of `sign` is nonzero for every digest that pays. -/
def Signable (sha512 : Bytes → Bytes) (key : Bytes) (u : Members Str) : Prop :=
  ∀ n ≤ 2 ^ 64 - 1, ∀ d, Pays u n d → Ed25519.signScalar sha512 key d.1 % Ed25519Spp.L ≠ 0

theorem mine_eq {I : Imports} : AgentA.mine I u key = mineWidths I (bare u) key 20 1 := rfl

/-- The miner of the agent validates what it returns, so its signatures have to
be accepted. -/
theorem Signable.signsFor {sha512 : Bytes → Bytes} (h : Signable sha512 key u)
    (hkey : KeyOf sha512 key u) :
    SignsFor (accepts sha512) (Ed25519Spp.sign sha512) key u := by
  refine hkey.signsFor fun n hn d hpays pub sig hpub hsig => ?_
  rw [Ed25519.publicFromPrivate_eq] at hpub
  rw [← Except.ok.inj hpub]
  exact (Ed25519.signed_verifies_iff hkey.length d.2 hsig).mpr (h n hn d hpays)

/-- Without the marker and without noncharacters they agree. -/
theorem minesAlike_of {sha512 : Bytes → Bytes} (hkey : KeyOf sha512 key u) (hd : Distinct (.obj u))
    (hs : checkSchema (filled u) = .ok ()) (hid : Absent u "id".toList)
    (hsig : Absent u "sig".toList) (hsize : ∀ n ≤ 2 ^ 64 - 1, (hashed u n).length ≤ 1048576)
    (hclean : CleanAll (.obj u)) (hext : Unmarked u) (hsign : Signable sha512 key u) :
    MinesAlike sha512 key u := by
  intro sha256 env
  have h : Minable (accepts sha512) (Ed25519Spp.sign sha512) key u :=
    ⟨hd, hs, hid, hsig, hclean, hsign.signsFor hkey, hsize⟩
  have hfind : ∀ n, offset (hashed u n) = .ok (front u).length := by
    refine offset_front hd fun m hm _ => ⟨name_not_marker hs hm, fun hmark => ?_⟩
    have hk := marked_ext hd hs hid hsig hm hmark
    exact hext m.2 ((lookup_eq_some hd.1).mpr (hk ▸ List.mem_of_mem_filter hm)) hmark
  have hzero : lowest 1 = 0 := rfl
  rw [ownImports_eq, mine_eq, mineWidths_iff h hfind 20 rfl (le_refl 1), hzero, mineAndSign]
  change _ ↔ (checkSchema (filled u) >>= fun _ => _) = _
  rw [hs, ok_bind]

/-! ## A hash that marks one candidate -/

theorem hashed_inj (hd : Distinct (.obj u)) {m n : Nat} (h : hashed u m = hashed u n) : m = n := by
  rw [hashed_eq hd, hashed_eq hd] at h
  have hdigits := List.append_cancel_left (List.append_cancel_right h)
  rw [← Nat.ofDigitChars_ten_toDigits (n := m), Unicode.utf8_inj hdigits,
    Nat.ofDigitChars_ten_toDigits]

/-- The candidates before the marked one do not pay. -/
theorem mineLoop_marking (hd : Distinct (.obj u)) (hs : checkSchema (filled u) = .ok ())
    (hsize : ∀ n ≤ 2 ^ 64 - 1, (hashed u n).length ≤ 1048576) {sig : Bytes} {n : Nat} {d : Digest}
    (hn : n ≤ 2 ^ 64 - 1) (hpays : Pays u n d) (hsig : sign key d.1 = .ok sig) (k : Nat) {m : Nat}
    (hm : m + k = n) :
    mineLoop (pythonImports (marking (hashed u n) d) (fun a s d => .ok (verifies a s d)) sign)
      (bare u) key (MAX_NONCE + 1 - m) m = .ok (envelope (candidate u n) d sig) := by
  induction k generalizing m with
  | zero =>
      obtain rfl : m = n := hm
      have hmined : mineAndSign (pythonImports (marking (hashed u m) d)
          (fun a s d => .ok (verifies a s d)) sign) u key m = .ok (envelope (candidate u m) d sig) :=
        mineAndSign_marking hd hs hn (hsize m hn) hpays hsig
      obtain ⟨_, -, hloop⟩ := bind_eq_ok_iff.mp hmined
      exact hloop
  | succ k ih =>
      have hmax : MAX_NONCE + 1 - m = MAX_NONCE + 1 - (m + 1) + 1 := by
        have hmax := maxNonce_eq
        omega
      have hm' : m ≤ 2 ^ 64 - 1 := by omega
      have hne : hashed u m ≠ hashed u n := fun h => by
        have heq := hashed_inj hd h
        omega
      have hmark : marking (hashed u n) d (hashed u m) = ones := if_neg hne
      rw [hmax, mineLoop_succ _ verifies sign hd (checkSchema_ok.mp hs).2 key _ hm',
        if_neg (not_lt.mpr (hsize m hm')), hmark]
      exact (if_neg (not_pays_ones u m)).trans (ih (by omega))

/-- The plain miner finds the marked candidate, the patching miner what it
makes of it. -/
theorem mine_marking {sha512 : Bytes → Bytes} (hkey : KeyOf sha512 key u) (hd : Distinct (.obj u))
    (hs : checkSchema (filled u) = .ok ())
    (hsize : ∀ n ≤ 2 ^ 64 - 1, (hashed u n).length ≤ 1048576) (h : MinesAlike sha512 key u)
    {n : Nat} (hn : n ≤ 2 ^ 64 - 1) {d : Digest} (hpays : Pays u n d) :
    ∃ sig, Ed25519Spp.sign sha512 key d.1 = .ok sig ∧
      AgentA.mine (ownImports (marking (hashed u n) d) sha512) u key =
        .ok (envelope (candidate u n) d sig) := by
  obtain ⟨sig, hsig, -⟩ := exists_sig sha512 hkey.length d.1
  refine ⟨sig, hsig, (h _ _).mpr ?_⟩
  rw [ownImports_eq, mineAndSign]
  exact bind_eq_ok_iff.mpr ⟨(), hs, mineLoop_marking hd hs hsize hn hpays hsig n (Nat.zero_add n)⟩

/-- What the patching miner returns has been validated. -/
theorem accepted_of_mine {sha512 : Bytes → Bytes} (hd : Distinct (.obj u)) {env : Members Str}
    (h : AgentA.mine (ownImports sha256 sha512) u key = .ok env) :
    ∃ data rec, Python.Jcs.canonicalizeBytes (.obj env) = .ok data ∧
      validateBytes (pythonImports sha256 (fun a s d => .ok (accepts sha512 a s d))
        (Ed25519Spp.sign sha512)) data = .ok rec := by
  rw [ownImports_eq] at h
  obtain ⟨w, x, d, y, m, -, -, -, -, hseal⟩ := mineWidths_ok hd rfl (le_refl 1) h
  obtain ⟨sig, data, rec, -, -, hdata, hvalid⟩ := sealed_ok hseal
  exact ⟨data, rec, hdata, hvalid⟩

/-- Where they agree there are no noncharacters. -/
theorem clean_of_minesAlike {sha512 : Bytes → Bytes} (hkey : KeyOf sha512 key u)
    (hd : Distinct (.obj u)) (hs : checkSchema (filled u) = .ok ())
    (hsize : ∀ n ≤ 2 ^ 64 - 1, (hashed u n).length ≤ 1048576) (h : MinesAlike sha512 key u) :
    CleanAll (.obj u) := by
  have hpays := pays_zeros u 0
  obtain ⟨sig, -, hmined⟩ := mine_marking hkey hd hs hsize h (Nat.zero_le _) hpays
  obtain ⟨data, rec, hdata, hvalid⟩ := accepted_of_mine hd hmined
  exact (clean_of_marking hd hs hpays hdata hvalid).2.2

/-- Where they agree every digest that pays is signed with a nonzero `r`. -/
theorem signable_of_minesAlike {sha512 : Bytes → Bytes} (hkey : KeyOf sha512 key u)
    (hd : Distinct (.obj u)) (hs : checkSchema (filled u) = .ok ())
    (hid : Absent u "id".toList) (hsig : Absent u "sig".toList)
    (hsize : ∀ n ≤ 2 ^ 64 - 1, (hashed u n).length ≤ 1048576) (h : MinesAlike sha512 key u) :
    Signable sha512 key u := by
  intro n hn d hpays
  obtain ⟨sig, hsign, hmined⟩ := mine_marking hkey hd hs hsize h hn hpays
  obtain ⟨data, rec, hdata, hvalid⟩ := accepted_of_mine hd hmined
  obtain ⟨-, hv⟩ := valid_of_accepted (candidate_distinct hd n) hdata hvalid
  obtain ⟨pub, sig', hsig', -, ⟨v, hv', -, rfl⟩, haccepts⟩ := hv.signature
  -- the digest is the one that pays, the signature the one that was made for it
  have hident := hv.identity
  rw [string_dropSigns (s := idText d)
    (by rw [envelope_lookup, if_neg (by decide), if_pos rfl])] at hident
  have hdigest := idText_inj (Json.str.inj (Option.some.inj hident))
  rw [string_dropSigns (s := hex sig) (by rw [envelope_lookup, if_pos rfl])] at hsig'
  obtain rfl := hex_inj (Json.str.inj (Option.some.inj hsig'))
  -- and the key is the public key
  rw [body_read, body_candidate hid hsig] at hv'
  obtain ⟨pub', hpub, hactor⟩ := hkey.actor
  rw [string_dropSigns ((candidate_lookup u n (by decide)).trans hactor)] at hv'
  obtain rfl := hex_inj (List.append_cancel_left (Json.str.inj (Option.some.inj hv')))
  rw [← hdigest, accepts_iff] at haccepts
  rw [Ed25519.publicFromPrivate_eq] at hpub
  rw [← Except.ok.inj hpub] at haccepts
  exact (Ed25519.signed_verifies_iff hkey.length d.2 hsign).mp haccepts

/-- Where they agree the marker is not in `ext`. -/
theorem unmarked_of_minesAlike {sha512 : Bytes → Bytes} (hkey : KeyOf sha512 key u)
    (hd : Distinct (.obj u)) (hs : checkSchema (filled u) = .ok ())
    (hsize : ∀ n ≤ 2 ^ 64 - 1, (hashed u n).length ≤ 1048576) (h : MinesAlike sha512 key u) :
    Unmarked u := by
  intro v hv hmark
  have hmem : ("ext".toList, v) ∈ bare u :=
    List.mem_filter.mpr ⟨(lookup_eq_some hd.1).mp hv,
      decide_eq_true (show "ext".toList ≠ "nonce".toList by decide)⟩
  obtain ⟨sig, -, hmined⟩ := mine_marking hkey hd hs hsize h (n := 1) (by decide) (pays_zeros u 1)
  rw [ownImports_eq] at hmined
  obtain ⟨w, x, d, y, m, hsplit, hlen, hoff, hm, hseal⟩ := mineWidths_ok hd rfl (le_refl 1) hmined
  obtain ⟨sig', data, rec, -, henv, -, -⟩ := sealed_ok hseal
  -- the nonce that was mined is 1
  have hnonce : (envelope (candidate u 1) zeros sig).lookup "nonce".toList =
      some (.str (Nat.toDigits 10 m)) := by
    rw [henv, lookup_setItem, if_neg (by decide), lookup_setItem, if_neg (by decide),
      lookup_setItem, if_pos rfl]
  have hident : (envelope (candidate u 1) zeros sig).lookup "id".toList =
      some (.str (idText (marking (hashed u 1) zeros
        (x ++ Unicode.utf8 (Nat.toDigits 10 m) ++ y)))) := by
    rw [henv, lookup_setItem, if_neg (by decide), lookup_setItem, if_pos rfl]
    rfl
  rw [envelope_lookup, if_neg (by decide), if_neg (by decide), candidate_nonce] at hnonce
  rw [envelope_lookup, if_neg (by decide), if_pos rfl] at hident
  have hdigits : Nat.toDigits 10 m = ['1'] := (Json.str.inj (Option.some.inj hnonce)).symm
  rw [hdigits] at hm hident
  obtain rfl : w = 1 := hm.symm
  -- so the template for one digit, patched, is the candidate 1
  have hbytes : x ++ Unicode.utf8 ['1'] ++ y = hashed u 1 := by
    have htext := Json.str.inj (Option.some.inj hident)
    by_contra hne
    have hones : marking (hashed u 1) zeros (x ++ Unicode.utf8 ['1'] ++ y) = ones := if_neg hne
    rw [hones] at htext
    exact absurd htext (by decide)
  obtain ⟨off, hearly, hlt⟩ := offset_early hd hmem (by decide) hmark (lowest 1)
  obtain rfl : x.length = off := Except.ok.inj (hoff.symm.trans hearly)
  -- and yet the digit of the nonce has not changed
  have hzero : (hashed u 0)[(front u).length]? = some 48 := by
    rw [hashed_eq hd, List.append_assoc, List.getElem?_append_right (le_refl _), Nat.sub_self]
    rfl
  have hone : (hashed u 1)[(front u).length]? = some 49 := by
    rw [hashed_eq hd, List.append_assoc, List.getElem?_append_right (le_refl _), Nat.sub_self]
    rfl
  have hsplit' : hashed u 0 = x ++ d ++ y := hsplit
  have hbehind : ∀ e : Bytes, e.length = 1 →
      (x ++ e ++ y)[(front u).length]? = y[(front u).length - (x.length + 1)]? := by
    intro e he
    rw [List.getElem?_append_right (by rw [List.length_append, he]; omega), List.length_append, he]
  rw [hsplit', hbehind d hlen] at hzero
  rw [← hbytes, hbehind (Unicode.utf8 ['1']) rfl, hzero] at hone
  exact absurd hone (by decide)

/-- **The patching miner agrees with the plain one exactly when `ext` does not
bring the marker earlier, nothing has noncharacters and no digest that pays is
signed with `r = 0`.** -/
theorem minesAlike_iff {sha512 : Bytes → Bytes} (hkey : KeyOf sha512 key u)
    (hd : Distinct (.obj u)) (hs : checkSchema (filled u) = .ok ())
    (hid : Absent u "id".toList) (hsig : Absent u "sig".toList)
    (hsize : ∀ n ≤ 2 ^ 64 - 1, (hashed u n).length ≤ 1048576) :
    MinesAlike sha512 key u ↔ CleanAll (.obj u) ∧ Unmarked u ∧ Signable sha512 key u := by
  constructor
  · intro h
    exact ⟨clean_of_minesAlike hkey hd hs hsize h, unmarked_of_minesAlike hkey hd hs hsize h,
      signable_of_minesAlike hkey hd hs hid hsig hsize h⟩
  · rintro ⟨hclean, hext, hsign⟩
    exact minesAlike_of hkey hd hs hid hsig hsize hclean hext hsign

theorem hashed_length_le (hd : Distinct (.obj u)) {n : Nat} (hn : n ≤ 2 ^ 64 - 1) :
    (hashed u n).length ≤ (hashed u 0).length + 19 := by
  have hdigits : (Nat.toDigits 10 n).length ≤ 20 :=
    (Nat.length_toDigits_le_iff (by decide) (by decide)).mpr (lt_of_le_of_lt hn (by decide))
  have hzero : (Nat.toDigits 10 0).length = 1 := rfl
  rw [hashed_eq hd, hashed_eq hd]
  simp only [List.length_append, utf8_digits_length, hzero]
  omega

end

/-! ## A nonce inside `ext` -/

/-- A channel description with a `nonce` in its `ext`. -/
def echoing : Members Str :=
  ("ext".toList, .obj [("nonce".toList, .str ['0'])]) :: unsigned

theorem echoing_lookup {k : Str} (h : k ≠ "ext".toList) : echoing.lookup k = unsigned.lookup k := by
  rw [echoing, List.lookup_cons, beq_eq_false_iff_ne.mpr h]

theorem echoing_checked : checkSchema (filled echoing) = .ok () := by
  refine checkSchema_ok.mpr ⟨by decide, unsigned_shape echoing (fun _ _ => echoing_lookup) ?_⟩
  intro v hv
  exact ⟨_, (Option.some.inj hv).symm⟩

theorem unsigned_distinct : Distinct (.obj unsigned) :=
  ⟨by decide, trivial, trivial, trivial, trivial, trivial, trivial, trivial, trivial, trivial⟩

theorem echoing_distinct : Distinct (.obj echoing) :=
  ⟨by decide, trivial, ⟨by decide, trivial, trivial, trivial⟩, trivial, trivial, trivial, trivial,
    trivial, trivial, trivial, trivial, trivial⟩

theorem hashed_echoing : (hashed echoing 0).length ≤ 1000 := by
  rw [hashed, Rfc8785.bytes, echoing, text_headed _ (by decide)]
  simp only [Unicode.utf8_append, List.length_append, (plain_hex _).length_utf8, hex_length]
  decide

theorem hashed_unsigned : (hashed unsigned 0).length ≤ 1000 := by
  have hperm : (candidate unsigned 0).Perm
      [("actor".toList, .str ("ed25519:".toList ++ hex Ed25519.zeroPublic)),
        ("created".toList, .num (Binary64.ofNat53 0 Binary64.zero_fits)),
        ("nonce".toList, .str ['0']), ("type".toList, .str "channel".toList),
        ("v".toList, .num one)] := .cons _ (.cons _ (last_first _ _ _))
  rw [hashed, Rfc8785.bytes, text_perm hperm (by decide)]
  show (Rfc8785.bytes (.obj _)).length ≤ 1000
  rw [length_bytes_obj (List.cons_ne_nil _ _) (by decide)]
  simp only [List.map_cons, List.map_nil, length_bytes_key, length_bytes_zero_one.1,
    length_bytes_zero_one.2]
  decide

/-- **With a `nonce` in `ext` the miners differ.** -/
theorem echoing_differs :
    checkSchema (filled echoing) = .ok () ∧ Absent echoing "nonce".toList ∧
      Absent echoing "id".toList ∧ Absent echoing "sig".toList ∧
      (∀ n ≤ 2 ^ 64 - 1, (hashed echoing n).length ≤ 1048576) ∧
      KeyOf Ed25519.zeroSha512 Ed25519.zeroKey echoing ∧
      Signable Ed25519.zeroSha512 Ed25519.zeroKey echoing ∧
      ¬ MinesAlike Ed25519.zeroSha512 Ed25519.zeroKey echoing := by
  have hsize : ∀ n ≤ 2 ^ 64 - 1, (hashed echoing n).length ≤ 1048576 := fun n hn => by
    have hle := hashed_length_le echoing_distinct hn
    have hzero := hashed_echoing
    omega
  have hkey : KeyOf Ed25519.zeroSha512 Ed25519.zeroKey echoing :=
    zeroKey_of (echoing_lookup (by decide))
  refine ⟨echoing_checked, rfl, rfl, rfl, hsize, hkey,
    fun _ _ d _ => Ed25519.zeroKey_scalar d.1, fun h => ?_⟩
  have hunmarked := unmarked_of_minesAlike hkey echoing_distinct echoing_checked hsize h
  exact hunmarked _ rfl (.here (List.mem_cons_self ..) (List.suffix_refl _))

/-- A description without `ext`. -/
theorem minesAlike_unsigned : MinesAlike Ed25519.zeroSha512 Ed25519.zeroKey unsigned := by
  have hsize : ∀ n ≤ 2 ^ 64 - 1, (hashed unsigned n).length ≤ 1048576 := fun n hn => by
    have hle := hashed_length_le unsigned_distinct hn
    have hzero := hashed_unsigned
    omega
  have clean : ∀ {s : Str}, (∀ c ∈ s, c.toNat < 0x80) → Clean s := fun h => Ascii.clean h
  exact (minesAlike_iff (zeroKey_of rfl) unsigned_distinct unsigned_checked rfl rfl hsize).mpr
    ⟨⟨by decide, clean (by decide), (plain_key _).clean, clean (by decide), trivial,
      clean (by decide), clean (by decide), clean (by decide), trivial, trivial⟩, nofun,
      fun _ _ d _ => Ed25519.zeroKey_scalar d.1⟩

end SwarmPointer.Protocol
