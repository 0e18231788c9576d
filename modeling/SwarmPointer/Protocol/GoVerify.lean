import SwarmPointer.Ed25519.GoVerify
import SwarmPointer.Protocol.GoIdent
import SwarmPointer.Protocol.Verdict

/-!
# Protocol — the Go verifier is the Python verifier

`Verify` on every byte string: it never panics, and its status, identifier,
units, target and canonical body are those of `validate_bytes`.

The proof follows the stages of the pipeline. At each stage either both stop or
both go on with the same intermediate values, which `Verdict.worked` and its
like collect. The work test compares 32-byte targets as byte strings in Go and
as integers in Python; the padding of the target is exact because a target is
below `2^256`.

With the libraries' own signature checks in place of a shared predicate the two
verifiers differ on the assertions whose actor or `R` is the signed spelling of
the identity, and the last section has one.
-/

namespace SwarmPointer.Protocol

open Except Go Go.Ident Go.Verify JsonInput Unicode
open Json (Members)

/-! ## Steps -/

/-- An early return of `INVALID`. -/
def Refused (e : Stop Verdict) : Prop := ∃ vd, e = .err vd ∧ vd.status = .invalid

theorem failIf_ok {bad : Bool} {vd : Verdict} {s : Go.Verify.Stage} {r : Go.Ident.Reason} {x : Unit} :
    failIf bad vd s r = .ok x ↔ bad = false := by
  cases bad with
  | true => constructor <;> intro h <;> cases h
  | false => exact ⟨fun _ => rfl, fun _ => rfl⟩

theorem raises_fail {α : Type} {vd : Verdict} {s : Go.Verify.Stage} {r : Go.Ident.Reason} :
    Raises Refused (Go.Verify.fail vd s r : Step α) := .error ⟨_, rfl, rfl⟩

theorem raises_failIf {bad : Bool} {vd : Verdict} {s : Go.Verify.Stage} {r : Go.Ident.Reason} :
    Raises Refused (failIf bad vd s r) := by
  cases bad with
  | true => exact raises_fail
  | false => exact .pure ()

theorem failOn_ok {vd : Verdict} {s : Go.Verify.Stage} {p : Pass} {x : Unit} :
    failOn vd s p = .ok x ↔ p = .ok () := by
  cases p with
  | ok y => exact ⟨fun _ => rfl, fun _ => rfl⟩
  | error e =>
      cases e with
      | err r => constructor <;> intro h <;> cases h
      | panic => constructor <;> intro h <;> cases h

theorem raises_failOn {vd : Verdict} {s : Go.Verify.Stage} {p : Pass} (h : Raises Returned p) :
    Raises Refused (failOn vd s p) := by
  cases p with
  | ok y => exact .pure ()
  | error e =>
      obtain ⟨r, rfl⟩ := h e rfl
      exact raises_fail

/-! ## The fields -/

/-- **The tests of `created`.** -/
theorem created_iff (x : Binary64) :
    (!isBinary64Integer x || less x Binary64.zero || less maxCreated x) = false ↔
      IsCreated (.num x) := by
  have hzero : Binary64.zero.mag = 0 * Binary64.one := rfl
  have hmax : maxCreated.mag = 9007199254740991 * Binary64.one := rfl
  have hzneg : Binary64.zero.neg = false := rfl
  have hmneg : maxCreated.neg = false := rfl
  have hone := Binary64.one_pos
  simp only [IsCreated, Json.num.injEq, exists_eq_left', isBinary64Integer, Bool.or_eq_false_iff,
    Bool.not_eq_false', and_assoc]
  refine and_congr_right fun hint => ?_
  rw [Binary64.isInteger, beq_iff_eq] at hint
  obtain ⟨k, hk⟩ := Nat.dvd_of_mod_eq_zero hint
  rw [Nat.mul_comm] at hk
  have hpos : k * Binary64.one = 0 ↔ k = 0 := by simp [hone.ne']
  have hle : 9007199254740991 * Binary64.one < k * Binary64.one ↔ 9007199254740991 < k :=
    Nat.mul_lt_mul_right hone
  have hdiv : k * Binary64.one / Binary64.one = k := Nat.mul_div_cancel _ hone
  simp only [less, Binary64.toInt, hzero, hmax, hzneg, hmneg, hk, hdiv, Nat.zero_mul,
    decide_eq_false_iff_not, Bool.false_eq_true, if_false]
  generalize Binary64.one = o at *
  generalize hm : k * o = m at *
  generalize hM : 9007199254740991 * o = M at *
  cases x.neg with
  | true =>
      simp only [if_true]
      omega
  | false =>
      simp only [Bool.false_eq_true, if_false]
      omega

/-- What the passes over the fields accept. -/
structure Fields (u : Members Str) (t : Str) : Prop where
  kinds : Kinds u
  kind : PlainKind u t
  actor : Has u "actor".toList fun v => ∃ key, Tagged "ed25519:".toList v key
  nonce : Has u "nonce".toList IsNonce
  created : Has u "created".toList IsCreated

theorem deref_get {u : Members Str} {k : Str} (hk : ∀ c ∈ k, c.toNat < 0x80) {v : Json Str}
    (h : u.lookup k = some v) {E : Type} :
    (deref (get (some (.obj (goMembers u))) k) : Except (Stop E) (Json Bytes)) = .ok (tree v) := by
  rw [deref_eq_ok, get_members hk, h, Option.map_some]

theorem checkFields_ok {u : Members Str} (hd : Jcs.Distinct (.obj u)) {t : Str} {vd : Verdict}
    {a : Bytes} : checkFields vd (goMembers u) (utf8 t) = .ok a ↔
      Fields u t ∧ ∃ v, u.lookup "actor".toList = some v ∧ a = str (tree v) := by
  rw [checkFields]
  simp only [bind_eq_ok_iff, failOn_ok, failIf_ok, exists_const]
  constructor
  · rintro ⟨hschema, hids, w, hw, hactor, n, hn, hnonce, c, hc, hcreated, ha⟩
    obtain ⟨hkinds, hkind⟩ := (passes_ok hd).mp ⟨hschema, hids⟩
    obtain ⟨v, hv, -⟩ := hkinds.actor
    obtain ⟨n', hn', -⟩ := hkinds.nonce
    obtain ⟨c', hc', x, rfl⟩ := hkinds.created
    rw [deref_get (by decide) hv] at hw
    rw [deref_get (by decide) hn'] at hn
    rw [deref_get (by decide) hc'] at hc
    obtain rfl := Except.ok.inj hw
    obtain rfl := Except.ok.inj hn
    obtain rfl := Except.ok.inj hc
    rw [Bool.not_eq_false'] at hactor hnonce
    refine ⟨⟨hkinds, hkind, ⟨v, hv, (isActorID_iff v).mp hactor⟩,
      ⟨n', hn', (isNonce_iff n').mp hnonce⟩, ⟨_, hc', (created_iff x).mp hcreated⟩⟩, v, hv, ?_⟩
    exact (Except.ok.inj ha).symm
  · rintro ⟨⟨hkinds, hkind, ⟨v', hv', hactor⟩, ⟨n, hn, hnonce⟩, ⟨c, hc, hcreated⟩⟩, v, hv, rfl⟩
    obtain rfl := Option.some.inj (hv'.symm.trans hv)
    obtain ⟨c', hc', x, rfl⟩ := hkinds.created
    obtain rfl := Option.some.inj (hc'.symm.trans hc)
    obtain ⟨hschema, hids⟩ := (passes_ok (x := ()) (y := ()) hd).mpr ⟨hkinds, hkind⟩
    refine ⟨hschema, hids, _, deref_get (by decide) hv, ?_, _, deref_get (by decide) hn, ?_, _,
      deref_get (by decide) hc, (created_iff x).mpr hcreated, rfl⟩
    · rw [Bool.not_eq_false']
      exact (isActorID_iff v').mpr hactor
    · rw [Bool.not_eq_false']
      exact (isNonce_iff n).mpr hnonce

theorem raises_checkFields {u : Members Str} (hd : Jcs.Distinct (.obj u)) {t : Str} (vd : Verdict) :
    Raises Refused (checkFields vd (goMembers u) (utf8 t)) := by
  rw [checkFields]
  refine (raises_failOn (raises_validateSchema _ _)).bind fun _ hschema => ?_
  rw [failOn_ok] at hschema
  obtain ⟨hkinds, -⟩ := (validateSchema_ok hd).mp hschema
  obtain ⟨a, ha, -⟩ := hkinds.actor
  obtain ⟨n, hn, -⟩ := hkinds.nonce
  obtain ⟨c, hc, -⟩ := hkinds.created
  refine (raises_failOn (raises_validateIdentifiers _ _)).bind fun _ _ => ?_
  rw [deref_get (by decide) ha, deref_get (by decide) hn, deref_get (by decide) hc, ok_bind]
  refine raises_failIf.bind fun _ _ => ?_
  rw [ok_bind]
  refine raises_failIf.bind fun _ _ => ?_
  rw [ok_bind]
  exact raises_failIf.bind fun _ _ => .pure _

/-! ## The maxima -/

/-- The locators of a reference. -/
def locatorList (v : Option (Json Str)) : List (Json Str) :=
  match member v "locators".toList with
  | none => []
  | some l => elements l

theorem locatorCount_eq (v : Option (Json Str)) : locatorCount v = (locatorList v).length := by
  cases v with
  | none => rfl
  | some v =>
      cases v with
      | obj ms =>
          rw [locatorCount, locatorList, member]
          cases ms.lookup "locators".toList with
          | none => rfl
          | some l => cases l <;> rfl
      | _ => rfl

theorem locatorsOf_eq (u : Members Str) {k : Str} (hk : ∀ c ∈ k, c.toNat < 0x80) :
    locatorsOf (some (.obj (goMembers u))) k =
      (locatorList (u.lookup k)).map fun l => str (tree l) := by
  rw [locatorsOf, get_members hk, get_tree _ (by decide), locatorList]
  cases member (u.lookup k) "locators".toList with
  | none => rfl
  | some l =>
      rw [Option.map_some]
      dsimp only
      rw [arr_eq, List.map_map]
      rfl

/-- The reference whose locators count. -/
def refName (t : Str) : Str := if t = "pointer".toList then "ref".toList else "descriptor".toList

/-- The number of parents that count. -/
def goParentCount (u : Members Str) (t : Str) : Nat :=
  if t = "pointer".toList then arrayLength (u.lookup "parents".toList) else 0

theorem structuralCounts_eq (u : Members Str) {t : Str}
    (ht : t = "pointer".toList ∨ t = "channel".toList) :
    structuralCounts (goMembers u) (utf8 t) =
      (locatorCount (u.lookup (refName t)), goParentCount u t,
        (locatorList (u.lookup (refName t))).map fun l => str (tree l)) := by
  have hparents : ((get (some (.obj (goMembers u))) "parents".toList).map fun p =>
      (arr p).length).getD 0 = arrayLength (u.lookup "parents".toList) := by
    rw [get_members (by decide)]
    cases u.lookup "parents".toList with
    | none => rfl
    | some p =>
        rw [Option.map_some, Option.map_some, Option.getD_some, arr_eq, List.length_map]
        cases p <;> rfl
  have hne : ¬ utf8 "channel".toList = lit "pointer".toList := by
    rw [utf8_eq_lit (by decide)]
    decide
  rw [structuralCounts, locatorsOf_eq u (by decide), locatorsOf_eq u (by decide), locatorCount_eq,
    hparents]
  rcases ht with rfl | rfl
  · rw [if_pos (Jcs.lit_eq_utf8 (by decide)).symm]
    simp only [List.length_map]
    rfl
  · rw [if_neg hne, if_pos (Jcs.lit_eq_utf8 (by decide)).symm]
    simp only [List.length_map]
    rfl

/-- The maxima of §5. -/
structure WithinMaxima (u : Members Str) (t : Str) (n : Nat) : Prop where
  size : n ≤ 1048576
  locators : locatorCount (u.lookup (refName t)) ≤ 256
  locator : ∀ l ∈ locatorList (u.lookup (refName t)), (str (tree l)).length ≤ 8192
  parents : goParentCount u t ≤ 1024

theorem checkMaxima_ok {u : Members Str} {t : Str} (ht : t = "pointer".toList ∨ t = "channel".toList)
    {vd : Verdict} {jcs : Bytes} {x : Unit} :
    checkMaxima vd jcs (structuralCounts (goMembers u) (utf8 t)) = .ok x ↔
      WithinMaxima u t jcs.length := by
  rw [structuralCounts_eq u ht, checkMaxima]
  simp only [bind_eq_ok_iff, failIf_ok, exists_const, decide_eq_false_iff_not, List.any_eq_false,
    List.mem_map, forall_exists_index, and_imp, forall_apply_eq_imp_iff₂, decide_eq_true_eq,
    maxCanonicalBody, maxLocatorCount, maxLocatorBytes, maxParentCount, gt_iff_lt, Nat.not_lt]
  exact ⟨fun ⟨h1, h2, h3, h4⟩ => ⟨h1, h2, h3, h4⟩, fun ⟨h1, h2, h3, h4⟩ => ⟨h1, h2, h3, h4⟩⟩

theorem raises_checkMaxima {vd : Verdict} {jcs : Bytes} {counts : Nat × Nat × List Bytes} :
    Raises Refused (checkMaxima vd jcs counts) :=
  raises_failIf.bind fun _ _ => raises_failIf.bind fun _ _ => raises_failIf.bind fun _ _ =>
    raises_failIf

/-- A reference within the maxima. -/
theorem isRef_iff {v : Json Str} : IsRef v ↔ PlainRef v ∧ locatorCount (some v) ≤ 256 ∧
    ∀ l ∈ locatorList (some v), (str (tree l)).length ≤ 8192 := by
  constructor
  · rintro ⟨ms, rfl, hclosed, hhash, l, hl, ls, rfl, hcount, hlocs⟩
    have hlist : locatorList (some (.obj ms)) = ls := by
      rw [locatorList, member, hl]
      rfl
    refine ⟨⟨ms, rfl, hclosed, hhash, _, hl, ls, rfl, fun l hl => ?_⟩, ?_, ?_⟩
    · obtain ⟨s, hs, -⟩ := hlocs l hl
      exact ⟨s, hs⟩
    · rw [locatorCount_eq, hlist]
      exact hcount
    · rw [hlist]
      intro l hl
      obtain ⟨s, rfl, hs⟩ := hlocs l hl
      exact hs
  · rintro ⟨⟨ms, rfl, hclosed, hhash, l, hl, ls, rfl, hstr⟩, hcount, hlocs⟩
    have hlist : locatorList (some (.obj ms)) = ls := by
      rw [locatorList, member, hl]
      rfl
    rw [locatorCount_eq, hlist] at hcount
    rw [hlist] at hlocs
    refine ⟨ms, rfl, hclosed, hhash, _, hl, ls, rfl, hcount, fun l hl => ?_⟩
    obtain ⟨s, rfl⟩ := hstr l hl
    exact ⟨s, rfl, hlocs _ hl⟩

theorem areParents_iff {v : Json Str} :
    AreParents v ↔ AreIds v ∧ arrayLength (some v) ≤ 1024 := by
  constructor
  · rintro ⟨ps, rfl, hlen, h⟩
    exact ⟨⟨ps, rfl, h⟩, hlen⟩
  · rintro ⟨⟨ps, rfl, h⟩, hlen⟩
    exact ⟨ps, rfl, hlen, h⟩

/-- **The passes and the maxima are the schema.** -/
theorem schema_iff {u : Members Str} {t : Str} (ht : u.lookup "type".toList = some (.str t))
    (hv : u.lookup "v".toList = some (.num one)) {n : Nat} :
    Fields u t ∧ WithinMaxima u t n ↔ Schema u ∧ n ≤ 1048576 := by
  have hpar : ∀ {p : Option (Json Str)}, (∀ v, p = some v → AreIds v) →
      (arrayLength p ≤ 1024 ↔ ∀ v, p = some v → AreParents v) := by
    intro p hp
    cases p with
    | none => simp [arrayLength]
    | some v =>
        simp only [Option.some.injEq, forall_eq', areParents_iff]
        exact ⟨fun h => ⟨hp v rfl, h⟩, And.right⟩
  constructor
  · rintro ⟨⟨hkinds, hkind, hactor, hnonce, hcreated⟩, ⟨hsize, hcount, hlocs, hparents⟩⟩
    refine ⟨⟨⟨hv, hactor, hcreated, hnonce, hkinds.ext, ?_⟩, hkinds.closed⟩, hsize⟩
    -- the counts are those of the reference, whose name depends on the type
    rcases hkind with ⟨rfl, hdesc, hchannel, ⟨r, hr, href⟩, hids⟩ | ⟨rfl, hch, hpar', habs, hdesc⟩
    · have hname : refName "pointer".toList = "ref".toList := rfl
      rw [hname, hr] at hcount hlocs
      exact .inl ⟨ht, hdesc, hchannel, ⟨r, hr, isRef_iff.mpr ⟨href, hcount, hlocs⟩⟩,
        (hpar hids).mp hparents⟩
    · have hname : refName "channel".toList = "descriptor".toList := rfl
      rw [hname] at hcount hlocs
      refine .inr ⟨ht, hch, hpar', habs, fun d hd => ?_⟩
      rw [hd] at hcount hlocs
      exact isRef_iff.mpr ⟨hdesc d hd, hcount, hlocs⟩
  · rintro ⟨hs, hsize⟩
    obtain ⟨a, ha, key, hkey⟩ := hs.actor
    obtain ⟨c, hc, hcreated⟩ := hs.created
    obtain ⟨n', hn', hnonce⟩ := hs.nonce
    -- what has the right spelling has the right kind
    have hkinds : Kinds u :=
      { closed := hs.closed
        version := ⟨_, hv, one, rfl⟩
        type := ⟨_, ht, t, rfl⟩
        actor := ⟨a, ha, _, hkey.2⟩
        created := by
          obtain ⟨x, hx, -⟩ := hcreated
          exact ⟨c, hc, x, hx⟩
        nonce := by
          obtain ⟨m, -, hm⟩ := hnonce
          exact ⟨n', hn', _, hm⟩
        ext := hs.ext }
    have hfields : PlainKind u t → Fields u t := fun hkind =>
      ⟨hkinds, hkind, ⟨a, ha, key, hkey⟩, ⟨n', hn', hnonce⟩, ⟨c, hc, hcreated⟩⟩
    rcases hs.kind with ⟨ht', hdesc, hchannel, ⟨r, hr, href⟩, hparents⟩ |
      ⟨ht', hch, hpar', habs, hdesc⟩
    · obtain rfl := Json.str.inj (Option.some.inj (ht.symm.trans ht'))
      obtain ⟨hplain, hcount, hlocs⟩ := isRef_iff.mp href
      have hids : Optional u "parents".toList AreIds :=
        fun p hp => (areParents_iff.mp (hparents p hp)).1
      have hname : refName "pointer".toList = "ref".toList := rfl
      refine ⟨hfields (.inl ⟨rfl, hdesc, hchannel, ⟨r, hr, hplain⟩, hids⟩), hsize, ?_, ?_,
        (hpar hids).mpr hparents⟩
      · rw [hname, hr]
        exact hcount
      · rw [hname, hr]
        exact hlocs
    · obtain rfl := Json.str.inj (Option.some.inj (ht.symm.trans ht'))
      have hname : refName "channel".toList = "descriptor".toList := rfl
      refine ⟨hfields (.inr ⟨rfl, hch, hpar', habs, fun d hd => (isRef_iff.mp (hdesc d hd)).1⟩),
        hsize, ?_, ?_, Nat.zero_le _⟩
      · rw [hname]
        cases hd : u.lookup "descriptor".toList with
        | none => exact Nat.zero_le _
        | some d => exact (isRef_iff.mp (hdesc d hd)).2.1
      · rw [hname]
        cases hd : u.lookup "descriptor".toList with
        | none => exact fun l hl => by cases hl
        | some d => exact (isRef_iff.mp (hdesc d hd)).2.2

/-! ## The work -/

/-- The value of big-endian bytes. -/
theorem fromBytesLittle_ofNat {ds : List Nat} (h : ∀ d ∈ ds, d < 256) :
    Python.fromBytesLittle (ds.map UInt8.ofNat) = Nat.ofDigits 256 ds := by
  induction ds with
  | nil => rfl
  | cons d ds ih =>
      have hd : d < 256 := h d (List.mem_cons_self ..)
      rw [List.map_cons, Python.fromBytesLittle, ih fun e he => h e (List.mem_cons_of_mem _ he),
        UInt8.toNat_ofNat_of_lt' hd, Nat.ofDigits_cons]

theorem fromBytesBig_bigBytes (n : Nat) : Python.fromBytesBig (bigBytes n) = n := by
  rw [Python.fromBytesBig, bigBytes, List.reverse_reverse,
    fromBytesLittle_ofNat fun d hd => Nat.digits_lt_base (by decide) hd, Nat.ofDigits_digits]

/-- **The target fits its 32 bytes**, so the padding never panics. -/
theorem leftPad32_bigBytes {n : Nat} (h : n ≤ 2 ^ 256 - 1) :
    ∃ b, leftPad32 (bigBytes n) = .ok b ∧ b.length = 32 ∧ Python.fromBytesBig b = n := by
  have hlen : (bigBytes n).length ≤ 32 := by
    rw [bigBytes, List.length_reverse, List.length_map,
      Nat.digits_length_le_iff (by decide)]
    omega
  refine ⟨_, if_neg (Nat.not_lt.mpr hlen), ?_, ?_⟩
  · rw [List.length_append, List.length_replicate]
    omega
  · have hzeros : ∀ k, Python.fromBytesLittle (List.replicate k 0) = 0 := by
      intro k
      induction k with
      | zero => rfl
      | succ k ih => rw [List.replicate_succ, Python.fromBytesLittle, ih]; rfl
    rw [Python.fromBytesBig, List.reverse_append, Python.fromBytesLittle_append,
      List.reverse_replicate, hzeros, Nat.mul_zero, Nat.add_zero]
    exact fromBytesBig_bigBytes n

/-- One more digit behind a padded numeral. -/
theorem leftpad_digit {k v d : Nat} (hk : 0 < k) (hd : d < 16) :
    (Nat.toDigits 16 (16 * v + d)).leftpad (k + 1) '0' =
      (Nat.toDigits 16 v).leftpad k '0' ++ [hexDigit d] := by
  have hchar : ∀ n < 16, Nat.digitChar n = hexDigit n := by decide
  rcases Nat.eq_zero_or_pos v with rfl | hv
  · obtain ⟨k, rfl⟩ : ∃ j, k = j + 1 := ⟨k - 1, by omega⟩
    rw [Nat.mul_zero, Nat.zero_add, Nat.toDigits_of_lt_base hd,
      Nat.toDigits_of_lt_base (by decide), hchar d hd, List.leftpad, List.leftpad]
    simp only [List.length_singleton, Nat.add_sub_cancel, List.replicate_succ']
    rfl
  · rw [← Nat.toDigits_append_toDigits (by decide) hv hd, Nat.toDigits_of_lt_base hd, hchar d hd,
      List.leftpad, List.leftpad, List.length_append, List.length_singleton,
      Nat.add_sub_add_right, List.append_assoc]

theorem fromBytesBig_snoc (bs : Bytes) (b : UInt8) :
    Python.fromBytesBig (bs ++ [b]) = 256 * Python.fromBytesBig bs + b.toNat := by
  rw [Python.fromBytesBig, List.reverse_append, List.reverse_singleton, List.singleton_append,
    Python.fromBytesLittle, Python.fromBytesBig, Nat.add_comm]

/-- **The hexadecimal text of bytes is the padded numeral of their value.** -/
theorem hex_eq_leftpad {bs : Bytes} (h : bs ≠ []) :
    hex bs = (Nat.toDigits 16 (Python.fromBytesBig bs)).leftpad (2 * bs.length) '0' := by
  have step : ∀ (b : UInt8) (v k : Nat), 0 < k →
      (Nat.toDigits 16 (256 * v + b.toNat)).leftpad (k + 2) '0' =
        (Nat.toDigits 16 v).leftpad k '0' ++ [hexDigit (b.toNat / 16), hexDigit (b.toNat % 16)] := by
    intro b v k hk
    have hb := b.toNat_lt
    have hsplit : 256 * v + b.toNat = 16 * (16 * v + b.toNat / 16) + b.toNat % 16 := by omega
    rw [hsplit, leftpad_digit (Nat.succ_pos k) (Nat.mod_lt _ (by decide)),
      leftpad_digit hk (by omega), List.append_assoc]
    rfl
  induction bs using List.reverseRecOn with
  | nil => exact absurd rfl h
  | append_singleton bs b ih =>
      have hsnoc : hex (bs ++ [b]) = hex bs ++ [hexDigit (b.toNat / 16), hexDigit (b.toNat % 16)] := by
        simp [hex]
      have hlen : 2 * (bs ++ [b]).length = 2 * bs.length + 2 := by
        rw [List.length_append, List.length_singleton]
        omega
      rw [hsnoc, fromBytesBig_snoc, hlen]
      by_cases hbs : bs = []
      · subst hbs
        have hb := b.toNat_lt
        have hone := leftpad_digit (k := 1) (v := b.toNat / 16) (d := b.toNat % 16) Nat.one_pos
          (Nat.mod_lt _ (by decide))
        have hchar : ∀ n < 16, Nat.digitChar n = hexDigit n := by decide
        have hzero : Python.fromBytesBig [] = 0 := rfl
        rw [Nat.div_add_mod, Nat.toDigits_of_lt_base (by omega : b.toNat / 16 < 16),
          hchar _ (by omega)] at hone
        rw [hzero, Nat.mul_zero, Nat.zero_add]
        exact hone.symm
      · have hpos := List.length_pos_of_ne_nil hbs
        rw [step b _ _ (by omega), ih hbs]

theorem lit_hex (bs : Bytes) : lit (hex bs) = utf8 (hex bs) :=
  Jcs.lit_eq_utf8 fun _ hc =>
    Nat.lt_of_le_of_lt (lowerHex_le (List.all_eq_true.mp (hex_lower bs) _ hc)) (by decide)

theorem lit_idText (d : Digest) : lit (idText d) = utf8 (idText d) := by
  have hsplit : lit (idText d) = lit "sha256:".toList ++ lit (hex d.1) := List.map_append ..
  rw [hsplit, lit_hex, Jcs.lit_eq_utf8 (by decide), ← utf8_append]
  rfl

/-- What `Verify` has worked out once the work is paid for. -/
def Verdict.worked (vd : Verdict) (d : Digest) (n : Nat) (target : Bytes) : Verdict :=
  { vd with
    d := d.1, units := some n, wRequired := n * workUnit, target := target,
    hHex := lit (hex d.1), powPass := true }

/-- The units in the order `Verify` adds them. -/
theorem goUnits_eq {u : Members Str} {t : Str} (ht : u.lookup "type".toList = some (.str t))
    (hkind : t = "pointer".toList ∨ t = "channel".toList) (n : Nat) :
    1 + (n + 1023) / 1024 + locatorCount (u.lookup (refName t)) + goParentCount u t +
      (if utf8 t = lit "channel".toList then channelDescriptionCost else 0) = units u n := by
  have hne : ¬ utf8 "pointer".toList = lit "channel".toList := by
    rw [utf8_eq_lit (by decide)]
    decide
  rw [units, typeIs, ht]
  rcases hkind with rfl | rfl
  · rw [if_neg hne]
    simp only [decide_true, if_true, refName, goParentCount]
    omega
  · rw [if_pos (Jcs.lit_eq_utf8 (by decide)).symm]
    have hne' : ¬ "channel".toList = "pointer".toList := by decide
    simp only [hne', decide_false, Bool.false_eq_true, if_false, refName, goParentCount,
      channelDescriptionCost]
    omega

theorem checkWork_eq_go {u : Members Str} {t : Str} (ht : u.lookup "type".toList = some (.str t))
    (hkind : t = "pointer".toList ∨ t = "channel".toList) (vd : Verdict) (d : Digest)
    (hd : vd.d = d.1) (jcs : Bytes) :
    ∃ b, b.length = 32 ∧ Python.fromBytesBig b = target (units u jcs.length) ∧
      ((digestValue d * units u jcs.length * 65536 ≤ 2 ^ 256 - 1 ∧
          Go.Verify.checkWork vd (utf8 t) jcs (structuralCounts (goMembers u) (utf8 t)) =
            .ok (Verdict.worked vd d (units u jcs.length) b)) ∨
        (¬ digestValue d * units u jcs.length * 65536 ≤ 2 ^ 256 - 1 ∧
          ∃ e, Refused e ∧
            Go.Verify.checkWork vd (utf8 t) jcs (structuralCounts (goMembers u) (utf8 t)) =
              .error e)) := by
  have hpos := units_pos u jcs.length
  have hbig : bigMax = 2 ^ 256 - 1 := by decide
  have hdiv : bigDiv bigMax (units u jcs.length * workUnit) = .ok (target (units u jcs.length)) := by
    have hne : ¬ units u jcs.length * workUnit = 0 := by
      rw [workUnit]
      omega
    rw [bigDiv, if_neg hne, hbig]
    rfl
  have hle : target (units u jcs.length) ≤ 2 ^ 256 - 1 := Nat.div_le_self _ _
  obtain ⟨b, hpad, hlen, hvalue⟩ := leftPad32_bigBytes hle
  refine ⟨b, hlen, hvalue, ?_⟩
  rw [← le_target hpos, Go.Verify.checkWork, structuralCounts_eq u hkind]
  dsimp only
  rw [goUnits_eq ht hkind, hdiv, ok_bind, hpad, ok_bind, hd, digestValue_eq]
  by_cases h : digestValue d ≤ target (units u jcs.length)
  · refine .inl ⟨h, ?_⟩
    rw [decide_eq_true h]
    rfl
  · refine .inr ⟨h, ?_⟩
    rw [decide_eq_false h]
    exact ⟨_, And.comm.mp ⟨rfl, _, rfl, rfl⟩⟩

/-! ## The identifier and the signature -/

theorem isSHA256ID_idText (d : Digest) : isSHA256ID (utf8 (idText d)) = true :=
  (isSHA256ID_iff (.str (idText d))).mpr ⟨d.1, d.2, rfl⟩

theorem checkID_ok {obj : Members Str} {vd : Verdict} {d : Digest}
    (hid : vd.idComputed = lit (idText d)) {x : Unit} :
    checkID vd (some (.obj (goMembers obj))) = .ok x ↔
      obj.lookup "id".toList = some (.str (idText d)) := by
  rw [checkID, get_members (by decide), hid, lit_idText]
  cases obj.lookup "id".toList with
  | none => constructor <;> intro h <;> cases h
  | some v =>
      cases v with
      | str s =>
          have htree : (some (Json.str s)).map tree = some (.str (utf8 s)) := rfl
          rw [htree]
          simp only [bind_eq_ok_iff, failIf_ok, exists_const, Bool.not_eq_false',
            decide_eq_false_iff_not, not_not, Option.some.injEq, Json.str.injEq]
          constructor
          · exact fun h => utf8_inj h.2
          · rintro rfl
            exact ⟨isSHA256ID_idText d, rfl⟩
      | _ => constructor <;> intro h <;> cases h

theorem raises_checkID {vd : Verdict} {root : Option (Json Bytes)} :
    Raises Refused (checkID vd root) := by
  rw [checkID]
  split
  · exact raises_failIf.bind fun _ _ => raises_failIf
  · exact raises_fail

/-- **`hex.DecodeString` undoes the text of bytes.** -/
theorem decodeHex_hex (bs : Bytes) : decodeHex (utf8 (hex bs)) = bs := by
  have hascii : ∀ n < 16, (hexDigit n).toNat < 0x80 := by decide
  have hishex : ∀ n < 16, Value.isHex (UInt8.ofNat (hexDigit n).toNat) = true := by decide
  have hval : ∀ n < 16, Value.hexVal (UInt8.ofNat (hexDigit n).toNat) = n := by decide
  induction bs with
  | nil => rfl
  | cons b bs ih =>
      have hb := b.toNat_lt
      have hhi : b.toNat / 16 < 16 := by omega
      have hlo : b.toNat % 16 < 16 := Nat.mod_lt _ (by decide)
      rw [hex_cons, utf8_cons_ascii (hascii _ hhi), utf8_cons_ascii (hascii _ hlo), decodeHex,
        hishex _ hhi, hishex _ hlo, hval _ hhi, hval _ hlo, ih, Nat.div_add_mod,
        UInt8.ofNat_toNat]
      rfl

theorem sliceFrom_actor (key : Bytes) :
    (sliceFrom (utf8 ("ed25519:".toList ++ hex key)) 8 : Step Bytes) = .ok (utf8 (hex key)) := by
  have hlen : (utf8 "ed25519:".toList).length = 8 := by decide
  rw [utf8_append, sliceFrom, List.length_append, hlen, if_neg (by omega), ← hlen,
    List.drop_left]

theorem checkSignature_ok_go {sppVerify : Bytes → Bytes → Bytes → Bool} {obj : Members Str}
    {vd vd' : Verdict} {d key : Bytes} (hd : vd.d = d) :
    Go.Verify.checkSignature sppVerify vd (some (.obj (goMembers obj)))
        (utf8 ("ed25519:".toList ++ hex key)) = .ok vd' ↔
      (∃ sig, obj.lookup "sig".toList = some (.str (hex sig)) ∧ sig.length = 64 ∧
        sppVerify key sig d = true) ∧ vd' = { vd with sigPass := some true } := by
  rw [Go.Verify.checkSignature, get_members (by decide)]
  cases obj.lookup "sig".toList with
  | none => exact ⟨fun h => (by cases h), fun ⟨⟨_, h, _⟩, _⟩ => (by cases h)⟩
  | some v =>
      cases v with
      | str s =>
          have htree : (some (Json.str s)).map tree = some (.str (utf8 s)) := rfl
          rw [htree]
          simp only [bind_eq_ok_iff, failIf_ok, exists_const, Bool.not_eq_false', isSigHex_iff,
            sliceFrom_actor, Except.ok.injEq, exists_eq_left', Option.some.injEq, Json.str.injEq]
          constructor
          · rintro ⟨⟨sig, hlen, rfl⟩, hver, rfl⟩
            rw [decodeHex_hex, decodeHex_hex, hd] at hver
            refine ⟨⟨sig, rfl, hlen, hver⟩, ?_⟩
            rw [decodeHex_hex, decodeHex_hex, hd, hver]
          · rintro ⟨⟨sig, rfl, hlen, hver⟩, rfl⟩
            rw [decodeHex_hex, decodeHex_hex, hd, hver]
            exact ⟨⟨sig, hlen, rfl⟩, rfl, rfl⟩
      | _ => exact ⟨fun h => (by cases h), fun ⟨⟨_, h, _⟩, _⟩ => (by cases h)⟩

theorem raises_checkSignature_go {sppVerify : Bytes → Bytes → Bytes → Bool} {vd : Verdict}
    {root : Option (Json Bytes)} (key : Bytes) :
    Raises Refused (Go.Verify.checkSignature sppVerify vd root
      (utf8 ("ed25519:".toList ++ hex key))) := by
  rw [Go.Verify.checkSignature]
  split
  · refine raises_failIf.bind fun _ _ => ?_
    rw [sliceFrom_actor, ok_bind]
    exact raises_failIf.bind fun _ _ => .pure _
  · exact raises_fail

/-! ## The pipeline -/

/-- An early return of `UNSUPPORTED`. -/
def Unsupported (e : Stop Verdict) : Prop := ∃ vd, e = .err vd ∧ vd.status = .unsupported

theorem classify_ok {obj : Members Str} {vd : Verdict} {typ : Bytes} :
    classify vd (some (.obj (goMembers obj))) = .ok typ ↔
      obj.lookup "v".toList = some (.num one) ∧ ∃ t, obj.lookup "type".toList = some (.str t) ∧
        (t = "pointer".toList ∨ t = "channel".toList) ∧ typ = utf8 t := by
  have htype : ∀ typ, (((get (some (.obj (goMembers obj))) "type".toList).map str).getD [] = typ ∧
      (typ = lit "channel".toList ∨ typ = lit "pointer".toList)) ↔
      ∃ t, obj.lookup "type".toList = some (.str t) ∧
        (t = "pointer".toList ∨ t = "channel".toList) ∧ typ = utf8 t := by
    intro typ
    rw [get_members (by decide)]
    -- a type that is missing or no string is read as the empty text
    have hempty : ¬ (([] : Bytes) = lit "channel".toList ∨ ([] : Bytes) = lit "pointer".toList) := by
      decide
    constructor
    · rintro ⟨rfl, h⟩
      cases ht : obj.lookup "type".toList with
      | none =>
          rw [ht] at h
          exact absurd h hempty
      | some v =>
          rw [ht] at h
          cases v with
          | str t =>
              have htree : (((some (Json.str t)).map tree).map str).getD [] = utf8 t := rfl
              rw [htree] at h ⊢
              rw [utf8_eq_lit (by decide), utf8_eq_lit (by decide)] at h
              exact ⟨t, rfl, h.symm, rfl⟩
          | _ => exact absurd h hempty
    · rintro ⟨t, ht, hkind, rfl⟩
      rw [ht, utf8_eq_lit (by decide), utf8_eq_lit (by decide)]
      exact ⟨rfl, hkind.symm⟩
  rw [classify, get_members (by decide)]
  cases obj.lookup "v".toList with
  | none => exact ⟨fun h => (by cases h), fun ⟨h, _⟩ => (by cases h)⟩
  | some v =>
      cases v with
      | num x =>
          have htree : (some (Json.num x)).map tree = some (.num x) := rfl
          rw [htree, Option.some_inj, Json.num.injEq]
          dsimp only
          by_cases hx : x = one
          · rw [if_neg fun h : x ≠ oneFloat => h hx]
            simp only [bind_eq_ok_iff, failIf_ok, exists_const, decide_eq_false_iff_not, not_and_or,
              not_not, Except.ok.injEq, hx, true_and]
            rw [← htype typ]
            constructor
            · rintro ⟨h, rfl⟩
              exact ⟨rfl, h⟩
            · rintro ⟨rfl, h⟩
              exact ⟨h, rfl⟩
          · rw [if_pos (show x ≠ oneFloat from hx)]
            exact ⟨fun h => (by cases h), fun h => absurd h.1 hx⟩
      | _ => exact ⟨fun h => (by cases h), fun ⟨h, _⟩ => (by cases h)⟩

theorem raises_classify {obj : Members Str} (h : ¬ OtherVersion obj) (vd : Verdict) :
    Raises Refused (classify vd (some (.obj (goMembers obj)))) := by
  rw [classify, get_members (by decide)]
  cases hv : obj.lookup "v".toList with
  | none => exact raises_fail
  | some v =>
      cases v with
      | num x =>
          have htree : (some (Json.num x)).map tree = some (.num x) := rfl
          rw [htree]
          dsimp only
          by_cases hx : x = one
          · rw [if_neg fun h : x ≠ oneFloat => h hx]
            exact raises_failIf.bind fun _ _ => .pure _
          · exact absurd ⟨_, hv, x, rfl, hx⟩ h
      | _ => exact raises_fail

theorem classify_other {obj : Members Str} (h : OtherVersion obj) (vd : Verdict) :
    ∃ e, Unsupported e ∧ classify vd (some (.obj (goMembers obj))) = .error e := by
  obtain ⟨v, hv, x, rfl, hx⟩ := h
  have htree : (some (Json.num x)).map tree = some (.num x) := rfl
  rw [classify, get_members (by decide), hv, htree]
  dsimp only
  rw [if_pos (show x ≠ oneFloat from hx)]
  exact ⟨_, ⟨_, rfl, rfl⟩, rfl⟩

theorem bodyOf_goMembers (obj : Members Str) : bodyOf (goMembers obj) = goMembers (body obj) := by
  have hkey : ∀ k : Str, (utf8 k ≠ lit "id".toList ∧ utf8 k ≠ lit "sig".toList) ↔
      k ∉ ["id".toList, "sig".toList] := by
    intro k
    rw [List.mem_pair, not_or, ne_eq, ne_eq, utf8_eq_lit (by decide), utf8_eq_lit (by decide)]
  rw [bodyOf, goMembers, goMembers, body, List.filter_map]
  refine congrArg _ (List.filter_congr fun m _ => ?_)
  simp only [Function.comp_apply, hkey]

/-- The verdict on a valid assertion. -/
structure Accepted (sha256 : Bytes → Digest) (obj : Members Str) (vd : Verdict) : Prop where
  status : vd.status = .valid
  idComputed : vd.idComputed = utf8 (idText (digest Rfc8785.bytes sha256 obj))
  units : vd.units = some (unitsOf Rfc8785.bytes obj)
  target : Python.fromBytesBig vd.target = target (unitsOf Rfc8785.bytes obj)
  targetLength : vd.target.length = 32
  jcs : vd.jcs = some (Rfc8785.bytes (.obj (body obj)))

section
variable {sha256 : Bytes → Digest} {sppVerify : Bytes → Bytes → Bytes → Bool} {obj : Members Str}

/-- The verdict once the body is canonical, and once it is hashed. -/
def canonVerdict (obj : Members Str) : Verdict :=
  { Verdict.zero with jcs := some (Rfc8785.bytes (.obj (body obj))) }

def hashVerdict (sha256 : Bytes → Digest) (obj : Members Str) : Verdict :=
  { canonVerdict obj with
    d := (digest Rfc8785.bytes sha256 obj).1,
    idComputed := lit (idText (digest Rfc8785.bytes sha256 obj)) }

/-- The pipeline with its canonicaliser run. -/
theorem pipeline_eq (sha256 : Bytes → Digest) (sppVerify : Bytes → Bytes → Bytes → Bool)
    (obj : Members Str) : pipeline sha256 sppVerify (goMembers obj) = (do
      let typ ← classify Verdict.zero (some (.obj (goMembers obj)))
      let actor ← checkFields Verdict.zero (goMembers (body obj)) typ
      checkMaxima (canonVerdict obj) (Rfc8785.bytes (.obj (body obj)))
        (structuralCounts (goMembers (body obj)) typ)
      checkID (hashVerdict sha256 obj) (some (.obj (goMembers obj)))
      let vd ← Go.Verify.checkWork (hashVerdict sha256 obj) typ (Rfc8785.bytes (.obj (body obj)))
        (structuralCounts (goMembers (body obj)) typ)
      let vd ← Go.Verify.checkSignature sppVerify vd (some (.obj (goMembers obj))) actor
      .ok { vd with status := .valid }) := by
  have hcanon : Go.Jcs.canonicalize (.obj (goMembers (body obj))) =
      some (Rfc8785.bytes (.obj (body obj))) := by
    rw [← tree_obj]
    exact Jcs.goCanonicalize_eq _
  rw [pipeline, bodyOf_goMembers]
  dsimp only
  rw [hcanon]
  rfl

/-- The text of an actor that passed its check. -/
theorem actor_text {u : Members Str} {t : Str} (h : Fields u t) {a : Json Str}
    (ha : u.lookup "actor".toList = some a) :
    ∃ key, Tagged "ed25519:".toList a key ∧
      str (tree a) = utf8 ("ed25519:".toList ++ hex key) := by
  obtain ⟨a', ha', key, hkey⟩ := h.actor
  obtain rfl := Option.some.inj (ha.symm.trans ha')
  refine ⟨key, hkey, ?_⟩
  rw [hkey.2]
  rfl

theorem lookup_type {u : Members Str} (h : IsPointer u ∨ IsChannel u) :
    ∃ t, u.lookup "type".toList = some (.str t) ∧
      (t = "pointer".toList ∨ t = "channel".toList) := by
  rcases h with h | h
  · exact ⟨_, h.1, .inl rfl⟩
  · exact ⟨_, h.1, .inr rfl⟩

theorem pipeline_ok (hd : Jcs.Distinct (.obj obj)) {vd : Verdict}
    (h : pipeline sha256 sppVerify (goMembers obj) = .ok vd) :
    Valid Rfc8785.bytes sha256 (fun a s d => sppVerify a s d = true) obj ∧
      Accepted sha256 obj vd := by
  rw [pipeline_eq, bind_eq_ok_iff] at h
  obtain ⟨_, htyp, h⟩ := h
  obtain ⟨hv, t, ht, hkind, rfl⟩ := classify_ok.mp htyp
  have hv' : (body obj).lookup "v".toList = some (.num one) := by
    rwa [lookup_body (by decide) (by decide)]
  have ht' : (body obj).lookup "type".toList = some (.str t) := by
    rwa [lookup_body (by decide) (by decide)]
  obtain ⟨actor, hfields, h⟩ := bind_eq_ok_iff.mp h
  obtain ⟨_, hmax, h⟩ := bind_eq_ok_iff.mp h
  obtain ⟨_, hid, h⟩ := bind_eq_ok_iff.mp h
  obtain ⟨vd₁, hwork, h⟩ := bind_eq_ok_iff.mp h
  obtain ⟨vd₂, hsig, h⟩ := bind_eq_ok_iff.mp h
  obtain ⟨hshape, a, ha, rfl⟩ := (checkFields_ok (distinct_body hd)).mp hfields
  obtain ⟨hschema, hsize⟩ := (schema_iff ht' hv').mp
    ⟨hshape, (checkMaxima_ok hkind).mp hmax⟩
  rw [checkID_ok rfl] at hid
  obtain ⟨b, hlen, hvalue, ⟨hle, hok⟩ | ⟨-, e, -, herr⟩⟩ :=
    checkWork_eq_go ht' hkind (hashVerdict sha256 obj) (digest Rfc8785.bytes sha256 obj) rfl
      (Rfc8785.bytes (.obj (body obj)))
  · obtain rfl := Except.ok.inj (hok.symm.trans hwork)
    obtain ⟨key, hkey, hactor⟩ := actor_text hshape ha
    rw [hactor] at hsig
    obtain ⟨⟨sig, hs, hslen, hver⟩, rfl⟩ :=
      (checkSignature_ok_go (d := (digest Rfc8785.bytes sha256 obj).1) rfl).mp hsig
    refine ⟨⟨hschema, hsize, hid, hle, key, sig, hs, hslen, ⟨a, ha, hkey⟩, hver⟩, ?_⟩
    rw [← Except.ok.inj h]
    exact ⟨rfl, lit_idText _, rfl, hvalue, hlen, rfl⟩
  · rw [herr] at hwork
    cases hwork

theorem pipeline_valid (hd : Jcs.Distinct (.obj obj))
    (h : Valid Rfc8785.bytes sha256 (fun a s d => sppVerify a s d = true) obj) :
    ∃ vd, pipeline sha256 sppVerify (goMembers obj) = .ok vd := by
  obtain ⟨t, ht', hkind⟩ := lookup_type h.schema.kind
  have hv' := h.schema.version
  have hv := valid_version h
  have ht : obj.lookup "type".toList = some (.str t) := by
    rwa [← lookup_body (k := "type".toList) (by decide) (by decide)]
  obtain ⟨hfields, hwithin⟩ := (schema_iff ht' hv').mpr ⟨h.schema, h.size⟩
  obtain ⟨key, sig, hs, hslen, ⟨a, ha, hkey⟩, hver⟩ := h.signature
  have hactor : str (tree a) = utf8 ("ed25519:".toList ++ hex key) := by
    rw [hkey.2]
    rfl
  obtain ⟨b, -, -, ⟨-, hok⟩ | ⟨hno, -⟩⟩ :=
    checkWork_eq_go ht' hkind (hashVerdict sha256 obj) (digest Rfc8785.bytes sha256 obj) rfl
      (Rfc8785.bytes (.obj (body obj)))
  · refine ⟨{ Verdict.worked (hashVerdict sha256 obj) (digest Rfc8785.bytes sha256 obj)
        (unitsOf Rfc8785.bytes obj) b with sigPass := some true, status := .valid }, ?_⟩
    rw [pipeline_eq, classify_ok.mpr ⟨hv, t, ht, hkind, rfl⟩, ok_bind,
      (checkFields_ok (distinct_body hd)).mpr ⟨hfields, a, ha, rfl⟩, ok_bind,
      (checkMaxima_ok (x := ()) hkind).mpr hwithin, ok_bind,
      (checkID_ok (x := ()) rfl).mpr h.identity, ok_bind, hok, ok_bind, hactor,
      (checkSignature_ok_go (d := (digest Rfc8785.bytes sha256 obj).1) rfl).mpr
        ⟨⟨sig, hs, hslen, hver⟩, rfl⟩, ok_bind]
    rfl
  · exact absurd h.work hno

theorem raises_pipeline (hd : Jcs.Distinct (.obj obj)) (hother : ¬ OtherVersion obj) :
    Raises Refused (pipeline sha256 sppVerify (goMembers obj)) := by
  rw [pipeline_eq]
  refine (raises_classify hother _).bind fun typ htyp => ?_
  obtain ⟨hv, t, ht, hkind, rfl⟩ := classify_ok.mp htyp
  have ht' : (body obj).lookup "type".toList = some (.str t) := by
    rwa [lookup_body (by decide) (by decide)]
  refine (raises_checkFields (distinct_body hd) _).bind fun actor hfields => ?_
  obtain ⟨hshape, a, ha, rfl⟩ := (checkFields_ok (distinct_body hd)).mp hfields
  obtain ⟨key, -, hactor⟩ := actor_text hshape ha
  refine raises_checkMaxima.bind fun _ _ => raises_checkID.bind fun _ _ => ?_
  refine Raises.bind ?_ fun vd _ => ?_
  · obtain ⟨b, -, -, ⟨-, hok⟩ | ⟨-, e, he, herr⟩⟩ :=
      checkWork_eq_go ht' hkind (hashVerdict sha256 obj) (digest Rfc8785.bytes sha256 obj) rfl
        (Rfc8785.bytes (.obj (body obj)))
    · rw [hok]
      exact .pure _
    · rw [herr]
      exact .error he
  · rw [hactor]
    exact (raises_checkSignature_go key).bind fun _ _ => .pure _

/-- **The pipeline on every parsed object** of this version: `VALID` with its
record on the valid assertions, `INVALID` on all others. -/
theorem pipeline_cases (sha256 : Bytes → Digest) (sppVerify : Bytes → Bytes → Bytes → Bool)
    {obj : Members Str} (hd : Jcs.Distinct (.obj obj)) (hother : ¬ OtherVersion obj) :
    (Valid Rfc8785.bytes sha256 (fun a s d => sppVerify a s d = true) obj ∧
      ∃ vd, pipeline sha256 sppVerify (goMembers obj) = .ok vd ∧ Accepted sha256 obj vd) ∨
    (¬ Valid Rfc8785.bytes sha256 (fun a s d => sppVerify a s d = true) obj ∧
      ∃ vd, pipeline sha256 sppVerify (goMembers obj) = .error (.err vd) ∧
        vd.status = .invalid) := by
  cases hp : pipeline sha256 sppVerify (goMembers obj) with
  | ok vd =>
      obtain ⟨hvalid, hacc⟩ := pipeline_ok hd hp
      exact .inl ⟨hvalid, vd, rfl, hacc⟩
  | error e =>
      obtain ⟨vd, rfl, hvd⟩ := raises_pipeline hd hother e hp
      refine .inr ⟨fun hvalid => ?_, vd, rfl, hvd⟩
      obtain ⟨vd', hok⟩ := pipeline_valid hd hvalid
      rw [hp] at hok
      cases hok

end

/-! ## The verdict on bytes -/

/-- **The three outcomes of the Go verifier**, which does not panic. -/
theorem verify_cases (sha256 : Bytes → Digest) (sppVerify : Bytes → Bytes → Bytes → Bool)
    (data : Bytes) : ∃ vd, verify sha256 sppVerify data = some vd ∧
      ((∃ obj, Section6 data obj ∧ OtherVersion obj ∧ vd.status = .unsupported) ∨
        (∃ obj, Section6 data obj ∧
          Valid Rfc8785.bytes sha256 (fun a s d => sppVerify a s d = true) obj ∧
          Accepted sha256 obj vd) ∨
        (∀ obj, Section6 data obj → ¬ OtherVersion obj ∧
          ¬ Valid Rfc8785.bytes sha256 (fun a s d => sppVerify a s d = true) obj) ∧
          vd.status = .invalid) := by
  rcases parsers_cases data with ⟨obj, hpy, hgo⟩ | ⟨r, e, hpy, hgo⟩
  · have hsix := parseObject_exact.mp hpy
    have hd := (parseObject_ijson hpy).distinct
    rw [tree_obj] at hgo
    rw [verify, hgo]
    dsimp only
    by_cases hother : OtherVersion obj
    · obtain ⟨e, ⟨vd, rfl, hvd⟩, hcl⟩ := classify_other hother Verdict.zero
      have hp : pipeline sha256 sppVerify (goMembers obj) = .error (.err vd) := by
        rw [pipeline_eq, hcl]
        rfl
      rw [hp]
      exact ⟨vd, rfl, .inl ⟨obj, hsix, hother, hvd⟩⟩
    rcases pipeline_cases sha256 sppVerify hd hother with ⟨hvalid, vd, hp, hacc⟩ |
      ⟨hvalid, vd, hp, hvd⟩
    · rw [hp]
      exact ⟨vd, rfl, .inr (.inl ⟨obj, hsix, hvalid, hacc⟩)⟩
    · rw [hp]
      refine ⟨vd, rfl, .inr (.inr ⟨fun obj' hsix' => ?_, hvd⟩)⟩
      obtain rfl := hsix.unique hsix'
      exact ⟨hother, hvalid⟩
  · rw [verify, hgo]
    refine ⟨_, rfl, .inr (.inr ⟨fun obj hsix => ?_, rfl⟩)⟩
    have hok := parseObject_exact.mpr hsix
    rw [hpy] at hok
    cases hok

/-- The text of the target in the record. -/
theorem lit_target {sha256 : Bytes → Digest} {obj : Members Str} {vd : Verdict}
    (h : Accepted sha256 obj vd) :
    lit (hex vd.target) = utf8 (recordOf Rfc8785.text sha256 obj).target_hex := by
  have hne : vd.target ≠ [] := by
    intro hnil
    have hlen := h.targetLength
    rw [hnil] at hlen
    cases hlen
  rw [lit_hex, hex_eq_leftpad hne, h.target, h.targetLength]
  rfl

/-- **The Go verifier and the Python verifier agree on every byte string**: both
accept, with one identifier, one number of units, one target and one canonical
body, or both report another version, or both reject. `Verify` does not panic. -/
theorem verify_validateBytes (sha256 : Bytes → Digest)
    (sppVerify : Bytes → Bytes → Bytes → Bool) (sign : Bytes → Bytes → Python.Py Bytes)
    (data : Bytes) :
    ∃ vd, verify sha256 sppVerify data = some vd ∧
      ((vd.status = .valid ∧ ∃ rec, Python.Protocol.validateBytes
            (pythonImports sha256 (fun a s d => .ok (sppVerify a s d)) sign) data = .ok rec ∧
          vd.idComputed = utf8 rec.id ∧ vd.units = some rec.units ∧
          lit (hex vd.target) = utf8 rec.target_hex ∧ vd.jcs = some (utf8 rec.jcs)) ∨
        (vd.status = .unsupported ∧ ∃ s r, Python.Protocol.validateBytes
            (pythonImports sha256 (fun a s d => .ok (sppVerify a s d)) sign) data =
          .error (.unsupportedError s r)) ∨
        (vd.status = .invalid ∧ ∃ s r, Python.Protocol.validateBytes
            (pythonImports sha256 (fun a s d => .ok (sppVerify a s d)) sign) data =
          .error (.sppError s r))) := by
  have hI : Returns (pythonImports sha256 (fun a s d => .ok (sppVerify a s d)) sign) Rfc8785.text
      sppVerify := returns_python fun _ _ _ => rfl
  obtain ⟨vd, hverify, h⟩ := verify_cases sha256 sppVerify data
  refine ⟨vd, hverify, ?_⟩
  rcases h with ⟨obj, hsix, hother, hvd⟩ | ⟨obj, hsix, hvalid, hacc⟩ | ⟨hno, hvd⟩
  · refine .inr (.inl ⟨hvd, .version, .unknownV, ?_⟩)
    rw [validateBytes_ok_of (parseObject_exact.mpr hsix)]
    exact validateObject_other hother
  · exact .inl ⟨hacc.status, _, validateBytes_valid hI hsix hvalid, hacc.idComputed, hacc.units,
      lit_target hacc, hacc.jcs⟩
  · refine .inr (.inr ⟨hvd, ?_⟩)
    rcases validateBytes_cases hI data with ⟨obj, hsix, ho, -⟩ | ⟨obj, hsix, hv, -⟩ | ⟨-, s, r, h⟩
    · exact absurd ho (hno obj hsix).1
    · exact absurd hv (hno obj hsix).2
    · exact ⟨s, r, h⟩

/-! ## Each with its own signature check -/

open Ed25519 (Lawful SppEd25519 LooseEd25519 signedIdent goVerify_iff loose_iff loose_of_spp)
open Go.Ed25519 (Edwards25519 sppEd25519Verify)
open Python.Ed25519Spp (verifySppEd25519_1)

/-- The key of the actor or the first half of the signature is the signed
spelling of the identity. -/
def SignsAsIdentity (obj : Members Str) : Prop :=
  obj.lookup "actor".toList = some (.str ("ed25519:".toList ++ hex signedIdent)) ∨
    ∃ s, obj.lookup "sig".toList = some (.str (hex (signedIdent ++ s)))

theorem Valid.imp {sha256 : Bytes → Digest} {R R' : Bytes → Bytes → Bytes → Prop}
    {obj : Members Str} (h : Valid Rfc8785.bytes sha256 R obj)
    (hR : ∀ a s d, R a s d → R' a s d) : Valid Rfc8785.bytes sha256 R' obj := by
  obtain ⟨key, sig, hs, hlen, hkey, hver⟩ := h.signature
  exact ⟨h.schema, h.size, h.identity, h.work, key, sig, hs, hlen, hkey, hR _ _ _ hver⟩

theorem valid_loose_iff {sha256 : Bytes → Digest} {sha512 : Bytes → Bytes} {obj : Members Str} :
    Valid Rfc8785.bytes sha256 (LooseEd25519 sha512) obj ↔
      Valid Rfc8785.bytes sha256 (SppEd25519 sha512) obj ∨
        SignsAsIdentity obj ∧ Valid Rfc8785.bytes sha256 (LooseEd25519 sha512) obj := by
  constructor
  · intro h
    obtain ⟨key, sig, hs, hlen, hkey, hver⟩ := h.signature
    rcases loose_iff.mp hver with hspp | ⟨hsigned, -⟩
    · exact .inl ⟨h.schema, h.size, h.identity, h.work, key, sig, hs, hlen, hkey, hspp⟩
    · refine .inr ⟨?_, h⟩
      rcases hsigned with rfl | hhalf
      · obtain ⟨v, hv, -, rfl⟩ := hkey
        rw [lookup_body (by decide) (by decide)] at hv
        exact .inl hv
      · refine .inr ⟨sig.drop 32, ?_⟩
        rw [← hhalf, List.take_append_drop]
        exact hs
  · rintro (h | ⟨-, h⟩)
    · exact h.imp fun _ _ _ => loose_of_spp
    · exact h

/-- The Python verifier with its own signature check. -/
theorem validateBytes_loose {sha256 : Bytes → Digest} {sha512 : Bytes → Bytes}
    {sign : Bytes → Bytes → Python.Py Bytes} {data : Bytes} :
    (∃ rec, Python.Protocol.validateBytes
        (pythonImports sha256 (verifySppEd25519_1 sha512) sign) data = .ok rec) ↔
      ∃ obj, Section6 data obj ∧ Valid Rfc8785.bytes sha256 (LooseEd25519 sha512) obj := by
  have hI : Returns (pythonImports sha256 (verifySppEd25519_1 sha512) sign) Rfc8785.text
      fun a s d => decide (verifySppEd25519_1 sha512 a s d = .ok true) := by
    refine returns_python fun a s d => ?_
    obtain ⟨b, hb⟩ : ∃ b, verifySppEd25519_1 sha512 a s d = .ok b := Ed25519.verify_returns a s d
    rw [hb]
    cases b <;> rfl
  have hloose : (fun a s d => decide (verifySppEd25519_1 sha512 a s d = .ok true) = true) =
      LooseEd25519 sha512 := by
    funext a s d
    rw [decide_eq_true_eq]
    exact propext (Ed25519.verify_iff a s d)
  constructor
  · rintro ⟨rec, hrec⟩
    rcases validateBytes_cases hI data with ⟨_, _, _, h⟩ | ⟨obj, hsix, hv, _⟩ | ⟨_, s, r, h⟩
    · rw [h] at hrec
      cases hrec
    · rw [hloose] at hv
      exact ⟨obj, hsix, hv⟩
    · rw [h] at hrec
      cases hrec
  · rintro ⟨obj, hsix, hv⟩
    rw [← hloose] at hv
    exact ⟨_, validateBytes_valid hI hsix hv⟩

/-- **The two verifiers with their own signature checks.** The Go verifier
accepts exactly the valid assertions of §8A; the Python verifier accepts these
and the ones signed as the identity. -/
theorem verify_differs {Pt Sc : Type} {E : Edwards25519 Pt Sc} {Stands : Pt → Ed25519.Point → Prop}
    {value : Sc → Nat} (hE : Lawful E Stands value) {sha512 : Bytes → Bytes}
    (hsha : ∀ m, (sha512 m).length = 64) (sha256 : Bytes → Digest)
    (sign : Bytes → Bytes → Python.Py Bytes) (data : Bytes) :
    ∃ vd, verify sha256 (sppEd25519Verify E sha512) data = some vd ∧
      (vd.status = .valid ↔ ∃ obj, Section6 data obj ∧
        Valid Rfc8785.bytes sha256 (SppEd25519 sha512) obj) ∧
      ((∃ rec, Python.Protocol.validateBytes
          (pythonImports sha256 (verifySppEd25519_1 sha512) sign) data = .ok rec) ↔
        vd.status = .valid ∨ ∃ obj, Section6 data obj ∧ SignsAsIdentity obj ∧
          Valid Rfc8785.bytes sha256 (LooseEd25519 sha512) obj) := by
  have hgo : (fun a s d => sppEd25519Verify E sha512 a s d = true) = SppEd25519 sha512 := by
    funext a s d
    exact propext (goVerify_iff hE hsha a s d)
  obtain ⟨vd, hverify, h⟩ := verify_cases sha256 (sppEd25519Verify E sha512) data
  rw [hgo] at h
  have hstatus : vd.status = .valid ↔ ∃ obj, Section6 data obj ∧
      Valid Rfc8785.bytes sha256 (SppEd25519 sha512) obj := by
    rcases h with ⟨obj, hsix, hother, hvd⟩ | ⟨obj, hsix, hvalid, hacc⟩ | ⟨hno, hvd⟩
    · constructor
      · intro hv
        rw [hvd] at hv
        cases hv
      · rintro ⟨obj', hsix', hvalid⟩
        obtain rfl := hsix.unique hsix'
        exact absurd hother (not_otherVersion (valid_version hvalid))
    · exact ⟨fun _ => ⟨obj, hsix, hvalid⟩, fun _ => hacc.status⟩
    · constructor
      · intro hv
        rw [hvd] at hv
        cases hv
      · rintro ⟨obj, hsix, hvalid⟩
        exact absurd hvalid (hno obj hsix).2
  refine ⟨vd, hverify, hstatus, ?_⟩
  rw [hstatus, validateBytes_loose]
  constructor
  · rintro ⟨obj, hsix, hvalid⟩
    rcases valid_loose_iff.mp hvalid with h | h
    · exact .inl ⟨obj, hsix, h⟩
    · exact .inr ⟨obj, hsix, h⟩
  · rintro (⟨obj, hsix, h⟩ | ⟨obj, hsix, -, h⟩)
    · exact ⟨obj, hsix, h.imp fun _ _ _ => loose_of_spp⟩
    · exact ⟨obj, hsix, h⟩

/-! ## An assertion that nobody signed -/

/-- The SHA-256 of the body of `unowned`. -/
def unownedDigest : Digest :=
  ⟨[0, 0, 8, 15, 182, 187, 230, 235, 141, 225, 247, 230, 204, 177, 15, 17, 28, 211, 18, 254, 46,
    212, 193, 29, 173, 3, 209, 183, 139, 216, 195, 248], rfl⟩

/-- A channel description whose actor and whose `R` are the signed spelling of
the identity. -/
def unowned : Members Str :=
  [("actor".toList, .str ("ed25519:".toList ++ hex signedIdent)),
    ("created".toList, .num (Binary64.ofNat53 0 Binary64.zero_fits)),
    ("id".toList, .str (idText unownedDigest)),
    ("nonce".toList, .str "815573".toList),
    ("sig".toList, .str (hex (signedIdent ++ List.replicate 32 0x00))),
    ("type".toList, .str "channel".toList),
    ("v".toList, .num one)]

theorem unowned_section6 : Section6 (Rfc8785.bytes (.obj unowned)) unowned := by
  have clean : ∀ {s : Str}, (∀ c ∈ s, c.toNat < 0x80) → Clean s := fun h => Ascii.clean h
  obtain ⟨hzero, hone⟩ := notNegZero_zero_one
  have hijson : Ijson (.obj unowned) :=
    ⟨by decide, clean (by decide), (plain_key _).clean, clean (by decide), hzero,
      clean (by decide), (plain_idText _).clean, clean (by decide), clean (by decide),
      clean (by decide), (plain_hex _).clean, clean (by decide), clean (by decide),
      clean (by decide), hone, trivial⟩
  have hsorted : Jcs.sorted (.obj unowned) = .obj unowned :=
    Jcs.sorted_listed (by decide) (by
      simp only [unowned, List.forall_mem_cons]
      simp [Jcs.sorted])
  refine parseObject_exact.mp (parseObject_eq_ok.mpr ?_)
  rw [parseUtf8_bytes hijson, hsorted]

theorem unowned_units : size Rfc8785.bytes unowned = 136 ∧ unitsOf Rfc8785.bytes unowned = 18 := by
  have hbody : body unowned =
      [("actor".toList, .str ("ed25519:".toList ++ hex signedIdent)),
        ("created".toList, .num (Binary64.ofNat53 0 Binary64.zero_fits)),
        ("nonce".toList, .str "815573".toList), ("type".toList, .str "channel".toList),
        ("v".toList, .num one)] := rfl
  have hsize : size Rfc8785.bytes unowned = 136 := by
    rw [size, hbody, length_bytes_obj (List.cons_ne_nil _ _) (by decide)]
    simp only [List.map_cons, List.map_nil, length_bytes_key, length_bytes_zero_one.1,
      length_bytes_zero_one.2]
    decide
  refine ⟨hsize, ?_⟩
  rw [unitsOf, hsize, units]
  rfl

/-- It is valid but for the spelling of the identity. -/
theorem unowned_valid (sha512 : Bytes → Bytes) :
    Valid Rfc8785.bytes (fun _ => unownedDigest) (LooseEd25519 sha512) unowned where
  schema := by
    refine ⟨⟨rfl, ⟨_, rfl, signedIdent, rfl, rfl⟩, ⟨_, rfl, _, rfl, ?_, ?_, ?_⟩,
      ⟨_, rfl, 815573, by decide, rfl⟩, nofun, .inr ⟨rfl, rfl, rfl, rfl, nofun⟩⟩, by decide⟩
    · exact Binary64.isInteger_ofNat53 _
    · exact (Binary64.toInt_ofNat53 (n := 0) (by decide)).ge
    · rw [Binary64.toInt_ofNat53]
      decide
  size := by
    rw [unowned_units.1]
    decide
  identity := rfl
  work := by
    have hdigest : digest Rfc8785.bytes (fun _ => unownedDigest) unowned = unownedDigest := rfl
    rw [hdigest, unowned_units.2]
    decide
  signature := ⟨signedIdent, signedIdent ++ List.replicate 32 0x00, rfl, rfl,
    ⟨_, rfl, rfl, rfl⟩, Ed25519.loose_signedIdent sha512 unownedDigest.2⟩

/-- The Python verifier accepts it, the Go verifier does not. -/
theorem verify_differs_unowned : ∃ vd rec,
    verify (fun _ => unownedDigest) (sppEd25519Verify Ed25519.affinePoints fun _ =>
      List.replicate 64 0x00) (Rfc8785.bytes (.obj unowned)) = some vd ∧
    vd.status ≠ .valid ∧
    Python.Protocol.validateBytes (pythonImports (fun _ => unownedDigest)
      (verifySppEd25519_1 fun _ => List.replicate 64 0x00) fun _ _ => .ok [])
        (Rfc8785.bytes (.obj unowned)) = .ok rec := by
  have hsha : ∀ m : Bytes, ((fun _ => List.replicate 64 0x00 : Bytes → Bytes) m).length = 64 :=
    fun _ => rfl
  obtain ⟨vd, hverify, hstatus, hpython⟩ := verify_differs Ed25519.affinePoints_lawful hsha
    (fun _ => unownedDigest) (fun _ _ => .ok []) (Rfc8785.bytes (.obj unowned))
  obtain ⟨rec, hrec⟩ := hpython.mpr (.inr ⟨unowned, unowned_section6, .inl rfl, unowned_valid _⟩)
  refine ⟨vd, rec, hverify, fun hv => ?_, hrec⟩
  obtain ⟨obj, hsix, hvalid⟩ := hstatus.mp hv
  obtain rfl := hsix.unique unowned_section6
  -- the key of its actor is no encoding of a point that §8A admits
  obtain ⟨key, sig, -, -, ⟨v, hv, -, rfl⟩, hspp⟩ := hvalid.signature
  have hkey : hex signedIdent = hex key :=
    List.append_cancel_left (Json.str.inj (Option.some.inj hv))
  rw [← hex_inj hkey] at hspp
  exact Ed25519.not_spp_signedIdent _ _ _ hspp

end SwarmPointer.Protocol
