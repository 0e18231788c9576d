import SwarmPointer.Ed25519.Verify
import SwarmPointer.JsonInput.RoundTrip
import SwarmPointer.Protocol.Validate

/-!
# Protocol — the verdict on bytes

`validate_bytes` from the byte string on: which of its three outcomes it has,
and that with the real canonicaliser and the real signature check it has no
other.

The three outcomes exclude each other, so each of them is characterised by its
own condition: another version is recognised before the schema is looked at,
and whatever is neither valid nor of another version is an `SppError`.

The last section has the lengths of texts made of hexadecimal digits, for the
assertions that are written out elsewhere.
-/

namespace SwarmPointer.Protocol

open Except Jcs Json JsonInput Python Python.JsonInput Python.Protocol

/-- `protocol.py` with its own canonicaliser. -/
def pythonImports (sha256 : Bytes → Digest) (verify : Bytes → Bytes → Bytes → Py Bool)
    (sign : Bytes → Bytes → Py Bytes) : Imports where
  canonicalize := Python.Jcs.canonicalize
  canonicalizeBytes := Python.Jcs.canonicalizeBytes
  sha256 := sha256
  verify := verify
  sign := sign

section
variable {sha256 : Bytes → Digest} {sign : Bytes → Bytes → Py Bytes}

theorem returns_python {verify : Bytes → Bytes → Bytes → Py Bool}
    {verifies : Bytes → Bytes → Bytes → Bool} (h : ∀ a s d, verify a s d = .ok (verifies a s d)) :
    Returns (pythonImports sha256 verify sign) Rfc8785.text verifies where
  canonicalize _ hv := canonicalize_eq hv
  canonicalizeBytes _ hv := canonicalizeBytes_eq hv
  verify := h

theorem validateBytes_ok_of {I : Imports} {data : Bytes} {obj : Members Str}
    (h : parseObject data = .ok obj) : validateBytes I data = validateObject I obj := by
  rw [validateBytes, h]

theorem validateBytes_error_of {I : Imports} {data : Bytes} {r : JsonReason}
    (h : parseObject data = .error (.jsonInputError r)) :
    validateBytes I data = .error (.sppError .jsonInput (.json r)) := by
  rw [validateBytes, h]

/-- A text of a valid object is accepted. -/
theorem validateBytes_valid {I : Imports} {text : Json Str → Str}
    {verifies : Bytes → Bytes → Bytes → Bool} (hI : Returns I text verifies) {data : Bytes}
    {obj : Members Str} (hsix : Section6 data obj)
    (hv : Valid (fun v => Unicode.utf8 (text v)) I.sha256 (fun a s d => verifies a s d = true) obj) :
    validateBytes I data = .ok (recordOf text I.sha256 obj) := by
  have hp := parseObject_exact.mpr hsix
  rw [validateBytes_ok_of hp]
  exact (validateObject_ok hI (parseObject_ijson hp).distinct).mpr ⟨hv, rfl⟩

/-- **The three outcomes**: another version, a valid assertion with its record,
or an `SppError` for everything else. -/
theorem validateBytes_cases {I : Imports} {text : Json Str → Str}
    {verifies : Bytes → Bytes → Bytes → Bool} (hI : Returns I text verifies) (data : Bytes) :
    (∃ obj, Section6 data obj ∧ OtherVersion obj ∧
      validateBytes I data = .error (.unsupportedError .version .unknownV)) ∨
    (∃ obj, Section6 data obj ∧
      Valid (fun v => Unicode.utf8 (text v)) I.sha256 (fun a s d => verifies a s d = true) obj ∧
      validateBytes I data = .ok (recordOf text I.sha256 obj)) ∨
    (∀ obj, Section6 data obj → ¬ OtherVersion obj ∧
      ¬ Valid (fun v => Unicode.utf8 (text v)) I.sha256 (fun a s d => verifies a s d = true) obj) ∧
      ∃ s r, validateBytes I data = .error (.sppError s r) := by
  rcases parseObject_returns data with ⟨obj, hp⟩ | ⟨r, hp⟩
  · have hd := (parseObject_ijson hp).distinct
    have hsix := parseObject_exact.mp hp
    rw [validateBytes_ok_of hp]
    by_cases hother : OtherVersion obj
    · exact .inl ⟨obj, hsix, hother, validateObject_other hother⟩
    · cases hval : validateObject I obj with
      | ok rec =>
          obtain ⟨hv, rfl⟩ := (validateObject_ok hI hd).mp hval
          exact .inr (.inl ⟨obj, hsix, hv, rfl⟩)
      | error e =>
          obtain ⟨s, r, rfl⟩ := raises_validateObject hI hd hother e hval
          refine .inr (.inr ⟨fun obj' hsix' => ?_, s, r, rfl⟩)
          obtain rfl := Except.ok.inj (hp.symm.trans (parseObject_exact.mpr hsix'))
          refine ⟨hother, fun hv => ?_⟩
          rw [← validateBytes_ok_of hp, validateBytes_valid hI hsix hv] at hval
          cases hval
  · rw [validateBytes_error_of hp]
    refine .inr (.inr ⟨fun obj hsix => ?_, _, _, rfl⟩)
    have hok := parseObject_exact.mpr hsix
    rw [hp] at hok
    cases hok

end

/-- **The classification of `validate_bytes` is exact.** -/
theorem validateBytes_exact (sha256 : Bytes → Digest) (verifies : Bytes → Bytes → Bytes → Bool)
    (sign : Bytes → Bytes → Py Bytes) (data : Bytes) :
    ((∃ s r, validateBytes (pythonImports sha256 (fun a s d => .ok (verifies a s d)) sign) data =
        .error (.unsupportedError s r)) ↔ ∃ obj, Section6 data obj ∧ OtherVersion obj) ∧
    ((∃ rec, validateBytes (pythonImports sha256 (fun a s d => .ok (verifies a s d)) sign) data =
        .ok rec) ↔ ∃ obj, Section6 data obj ∧
          Valid Rfc8785.bytes sha256 (fun a s d => verifies a s d = true) obj) ∧
    ((∃ obj, Section6 data obj ∧ OtherVersion obj) ∨
      (∃ obj, Section6 data obj ∧
        Valid Rfc8785.bytes sha256 (fun a s d => verifies a s d = true) obj) ∨
      ∃ s r, validateBytes (pythonImports sha256 (fun a s d => .ok (verifies a s d)) sign) data =
        .error (.sppError s r)) := by
  have hI : Returns (pythonImports sha256 (fun a s d => .ok (verifies a s d)) sign) Rfc8785.text
      verifies := returns_python fun _ _ _ => rfl
  rcases validateBytes_cases hI data with ⟨obj, hsix, ho, h⟩ | ⟨obj, hsix, hv, h⟩ | ⟨hno, s, r, h⟩
  · refine ⟨⟨fun _ => ⟨obj, hsix, ho⟩, fun _ => ⟨_, _, h⟩⟩, ⟨?_, ?_⟩, .inl ⟨obj, hsix, ho⟩⟩
    · rintro ⟨rec, hrec⟩
      rw [h] at hrec
      cases hrec
    · rintro ⟨obj', hsix', hv⟩
      obtain rfl := hsix.unique hsix'
      exact absurd ho (not_otherVersion (valid_version hv))
  · refine ⟨⟨?_, ?_⟩, ⟨fun _ => ⟨obj, hsix, hv⟩, fun _ => ⟨_, h⟩⟩,
      .inr (.inl ⟨obj, hsix, hv⟩)⟩
    · rintro ⟨s, r, herr⟩
      rw [h] at herr
      cases herr
    · rintro ⟨obj', hsix', ho⟩
      obtain rfl := hsix.unique hsix'
      exact absurd ho (not_otherVersion (valid_version hv))
  · refine ⟨⟨?_, ?_⟩, ⟨?_, ?_⟩, .inr (.inr ⟨s, r, h⟩)⟩
    · rintro ⟨s', r', herr⟩
      rw [h] at herr
      cases herr
    · rintro ⟨obj, hsix, ho⟩
      exact absurd ho (hno obj hsix).1
    · rintro ⟨rec, hrec⟩
      rw [h] at hrec
      cases hrec
    · rintro ⟨obj, hsix, hv⟩
      exact absurd hv (hno obj hsix).2

/-- **No internal failure leaves `validate_bytes`**: with the real parser,
canonicaliser and signature check it returns a record or raises `SppError` or
`UnsupportedError`. -/
theorem validateBytes_total (sha256 : Bytes → Digest) (sha512 : Bytes → Bytes)
    (sign : Bytes → Bytes → Py Bytes) (data : Bytes) :
    (∃ rec, validateBytes (pythonImports sha256 (Ed25519Spp.verifySppEd25519_1 sha512) sign) data =
        .ok rec) ∨
      ∃ s r, validateBytes (pythonImports sha256 (Ed25519Spp.verifySppEd25519_1 sha512) sign)
          data = .error (.sppError s r) ∨
        validateBytes (pythonImports sha256 (Ed25519Spp.verifySppEd25519_1 sha512) sign) data =
          .error (.unsupportedError s r) := by
  have hI : Returns (pythonImports sha256 (Ed25519Spp.verifySppEd25519_1 sha512) sign)
      Rfc8785.text fun a s d =>
        decide (Ed25519Spp.verifySppEd25519_1 sha512 a s d = .ok true) := by
    refine returns_python fun a s d => ?_
    obtain ⟨b, hb⟩ : ∃ b, Ed25519Spp.verifySppEd25519_1 sha512 a s d = .ok b :=
      Ed25519.verify_returns a s d
    rw [hb]
    cases b <;> rfl
  rcases validateBytes_cases hI data with ⟨_, _, _, h⟩ | ⟨_, _, _, h⟩ | ⟨_, s, r, h⟩
  · exact .inr ⟨_, _, .inr h⟩
  · exact .inl ⟨_, h⟩
  · exact .inr ⟨s, r, .inl h⟩

/-! ## Keys, identifiers and signatures as text -/

/-- ASCII text that is written as it is. -/
structure Plain (s : Str) : Prop where
  ascii : ∀ c ∈ s, c.toNat < 0x80
  escape : ∀ c ∈ s, Rfc8785.escape c = [c]

section
variable {s t : Str}

theorem Plain.append (hs : Plain s) (ht : Plain t) : Plain (s ++ t) :=
  ⟨fun c hc => (List.mem_append.mp hc).elim (hs.ascii c) (ht.ascii c),
    fun c hc => (List.mem_append.mp hc).elim (hs.escape c) (ht.escape c)⟩

theorem Plain.clean (hs : Plain s) : Clean s := Ascii.clean hs.ascii

theorem Plain.quote (hs : Plain s) : Rfc8785.quote s = '"' :: (s ++ ['"']) := by
  have hself : s.flatMap Rfc8785.escape = s.flatMap fun c => [c] := List.flatMap_congr hs.escape
  rw [Rfc8785.quote, hself, List.flatMap_singleton', List.cons_append]

theorem Plain.length_utf8 (hs : Plain s) : (Unicode.utf8 s).length = s.length := by
  rw [Unicode.utf8_ascii hs.ascii, List.length_map]

end

theorem plain_hex (bs : Bytes) : Plain (hex bs) := by
  have key : ∀ n < 16, Rfc8785.escape (hexDigit n) = [hexDigit n] := by decide
  refine ⟨fun c hc => ?_, fun c hc => ?_⟩
  · exact Nat.lt_of_le_of_lt (lowerHex_le (List.all_eq_true.mp (hex_lower bs) c hc)) (by decide)
  · obtain ⟨n, hn, rfl⟩ := exists_hexDigit (List.all_eq_true.mp (hex_lower bs) c hc)
    exact key n hn

theorem plain_key (bs : Bytes) : Plain ("ed25519:".toList ++ hex bs) :=
  Plain.append ⟨by decide, by decide⟩ (plain_hex bs)

theorem plain_idText (d : Digest) : Plain (idText d) :=
  Plain.append ⟨by decide, by decide⟩ (plain_hex d.1)

/-- The length of an object whose members are listed in order. -/
theorem length_bytes_obj {ms : Members Str} (hne : ms ≠ [])
    (h : (ms.map fun m => Rfc8785.units m.1).Pairwise (· < ·)) :
    (Rfc8785.bytes (.obj ms)).length = 1 + (ms.map fun m =>
      (Rfc8785.bytes (.str m.1)).length + (Rfc8785.bytes m.2).length + 2).sum := by
  have hone : ∀ c ∈ ['{', '}', ',', ':'], (Unicode.utf8 [c]).length = 1 := by decide
  have hmember : ∀ m : Str × Json Str, (Unicode.utf8 (Rfc8785.member (m.1, Rfc8785.text m.2))).length =
      (Rfc8785.bytes (.str m.1)).length + (Rfc8785.bytes m.2).length + 1 := by
    intro m
    have hsplit : Rfc8785.member (m.1, Rfc8785.text m.2) =
        Rfc8785.text (.str m.1) ++ ([':'] ++ Rfc8785.text m.2) := by rw [Rfc8785.text]; rfl
    rw [hsplit, Unicode.utf8_append, Unicode.utf8_append, List.length_append, List.length_append,
      hone ':' (by decide), Rfc8785.bytes, Rfc8785.bytes]
    omega
  have hmembers : ∀ ms : Members Str, ms ≠ [] → (Unicode.utf8 ([','].intercalate
      (ms.map fun m => Rfc8785.member (m.1, Rfc8785.text m.2)))).length + 1 = (ms.map fun m =>
        (Rfc8785.bytes (.str m.1)).length + (Rfc8785.bytes m.2).length + 2).sum := by
    intro ms
    induction ms with
    | nil => exact fun h => absurd rfl h
    | cons m ms ih =>
        intro _
        cases ms with
        | nil =>
            rw [List.map_singleton, List.map_singleton, List.intercalate_singleton, hmember,
              List.sum_singleton]
        | cons m' ms =>
            have hrest := ih (List.cons_ne_nil _ _)
            rw [List.map_cons] at hrest
            rw [List.map_cons, List.map_cons, List.intercalate_cons_cons, Unicode.utf8_append,
              Unicode.utf8_append, List.length_append, List.length_append, hmember,
              hone ',' (by decide), List.map_cons, List.sum_cons, ← hrest]
            omega
  have hcons : ∀ s : Str, '{' :: s ++ ['}'] = ['{'] ++ (s ++ ['}']) := fun _ => rfl
  rw [Rfc8785.bytes, text_members ms h, hcons, Unicode.utf8_append, Unicode.utf8_append,
    List.length_append, List.length_append, hone '{' (by decide), hone '}' (by decide),
    hmembers ms hne]

theorem Plain.length_bytes {s : Str} (hs : Plain s) :
    (Rfc8785.bytes (.str s)).length = s.length + 2 := by
  have hone : (Unicode.utf8 ['"']).length = 1 := by decide
  have hcons : '"' :: (s ++ ['"']) = ['"'] ++ (s ++ ['"']) := rfl
  rw [Rfc8785.bytes, Rfc8785.text, hs.quote, hcons, Unicode.utf8_append, Unicode.utf8_append,
    List.length_append, List.length_append, hone, hs.length_utf8]
  omega

theorem length_bytes_key (bs : Bytes) :
    (Rfc8785.bytes (.str ("ed25519:".toList ++ hex bs))).length = 2 * bs.length + 10 := by
  have htag : "ed25519:".toList.length = 8 := by decide
  rw [(plain_key bs).length_bytes, List.length_append, hex_length, htag]
  omega

theorem length_bytes_idText (d : Digest) : (Rfc8785.bytes (.str (idText d))).length = 73 := by
  have htag : "sha256:".toList.length = 7 := by decide
  have hsplit : (idText d).length = "sha256:".toList.length + (hex d.1).length :=
    List.length_append
  rw [(plain_idText d).length_bytes, hsplit, hex_length, d.2, htag]

theorem length_bytes_hex (bs : Bytes) :
    (Rfc8785.bytes (.str (hex bs))).length = 2 * bs.length + 2 := by
  rw [(plain_hex bs).length_bytes, hex_length]

/-- The two numbers of an assertion without a date. -/
theorem ecmaString_zero_one :
    Decimal.ecmaString (Binary64.ofNat53 0 Binary64.zero_fits) = ['0'] ∧
      Decimal.ecmaString one = ['1'] := by
  have hone : one = Binary64.ofNat53 1 Binary64.one_fits := rfl
  have h0 := ecmaString_ofNat53 (n := 0) (by decide)
  have h1 := ecmaString_ofNat53 (n := 1) (by decide)
  exact ⟨h0, hone ▸ h1⟩

theorem length_bytes_zero_one :
    (Rfc8785.bytes (.num (Binary64.ofNat53 0 Binary64.zero_fits))).length = 1 ∧
      (Rfc8785.bytes (.num one)).length = 1 := by
  rw [Rfc8785.bytes, Rfc8785.text, ecmaString_zero_one.1, Rfc8785.bytes, Rfc8785.text,
    ecmaString_zero_one.2]
  decide

theorem notNegZero_zero_one :
    NotNegZero (Binary64.ofNat53 0 Binary64.zero_fits) ∧ NotNegZero one :=
  ⟨fun h => Bool.noConfusion h.1, fun h => Bool.noConfusion h.1⟩

end SwarmPointer.Protocol
