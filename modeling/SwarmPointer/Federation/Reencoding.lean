import SwarmPointer.JsonInput.HostCodec
import SwarmPointer.Protocol.Order
import SwarmPointer.Relay.Admission

/-!
# Federation — re-encoding preserves assertions

A client that loads the canonical bytes of an assertion with the host's JSON
codec and dumps what it loaded has the same assertion, spelled differently at
most.

This is what the federation worker does with the envelopes it fetches: they are
parsed by `json.loads` and submitted as `json.dumps` writes them, with the
canonical bytes never seen on the way. Numbers may come out in another spelling
(`1e21` as a float, an integer in full), so the result compares what an
assertion is known by: identifier, units, signature and canonical bytes.
-/

namespace SwarmPointer.Federation

open Except Jcs Json JsonInput Protocol Python Python.HostJson Python.JsonInput Python.Protocol
open Relay

section
variable {sha256 : Bytes → Digest} {verify : Bytes → Bytes → Bytes → Py Bool}
  {sign : Bytes → Bytes → Py Bytes}

theorem validateBytes_accepts {I : Imports} {data : Bytes} {rec : Record}
    (h : validateBytes I data = .ok rec) :
    ∃ obj, parseObject data = .ok obj ∧ validateObject I obj = .ok rec := by
  rcases parseObject_returns data with ⟨obj, hp⟩ | ⟨r, hp⟩
  · exact ⟨obj, hp, (validateBytes_ok_of hp).symm.trans h⟩
  · rw [validateBytes_error_of hp] at h
    cases h

/-- What is dumped from an accepted text is accepted with the same record. -/
theorem validateBytes_reencode {data : Bytes} {rec : Record}
    (h : validateBytes (pythonImports sha256 verify sign) data = .ok rec) :
    ∃ hv raw, loadsUtf8 data = .ok hv ∧ encode (dumps hv) = some raw ∧
      validateBytes (pythonImports sha256 verify sign) raw = .ok rec ∧
      parseObject raw = parseObject data := by
  obtain ⟨obj, hp, hval⟩ := validateBytes_accepts h
  obtain ⟨hv, raw, hload, henc, hparse⟩ := reencode (parseObject_eq_ok.mp hp)
  have hraw : parseObject raw = .ok obj := parseObject_eq_ok.mpr hparse
  exact ⟨hv, raw, hload, henc, (validateBytes_ok_of hraw).trans hval, hraw.trans hp.symm⟩

/-- The canonical bytes of an accepted text, which a relay stores and serves,
are accepted with the same record and are their own canonical bytes. -/
theorem validateBytes_canonicalBytes {data : Bytes} {rec : Record}
    (h : validateBytes (pythonImports sha256 verify sign) data = .ok rec) :
    ∃ obj b, parseObject data = .ok obj ∧ Python.Jcs.canonicalizeBytes (.obj obj) = .ok b ∧
      validateBytes (pythonImports sha256 verify sign) b = .ok rec ∧
      parseObject b = .ok (ordered obj) ∧
      Python.Jcs.canonicalizeBytes (.obj (ordered obj)) = .ok b := by
  obtain ⟨obj, hp, hval⟩ := validateBytes_accepts h
  have hij := parseObject_ijson hp
  have hb : parseObject (Rfc8785.bytes (.obj obj)) = .ok (ordered obj) := by
    rw [parseObject_eq_ok, parseUtf8_bytes hij, sorted_obj]
  refine ⟨obj, _, hp, canonicalizeBytes_eq hij.distinct, ?_, hb, ?_⟩
  · rw [validateBytes_ok_of hb, validateObject_ordered hij.distinct, hval]
  · rw [← sorted_obj, canonicalizeBytes_sorted hij.distinct, canonicalizeBytes_eq hij.distinct]

/-- **Re-encoding by the host's JSON codec preserves assertions.** The
canonical bytes of an accepted text are loaded, and what is dumped from them
is accepted with the same identifier, units and signature and has the same
canonical bytes. -/
theorem reencoding_preserves {data : Bytes} {rec : Record}
    (h : validateBytes (pythonImports sha256 verify sign) data = .ok rec) :
    ∃ obj b hv s, parseObject data = .ok obj ∧
      Python.Jcs.canonicalizeBytes (.obj obj) = .ok b ∧
      loadsUtf8 b = .ok hv ∧ encode (dumps hv) = some s ∧
      (∃ rec', validateBytes (pythonImports sha256 verify sign) s = .ok rec' ∧
        rec'.id = rec.id ∧ rec'.units = rec.units ∧ rec'.sig = rec.sig) ∧
      ∃ obj', parseObject s = .ok obj' ∧ Python.Jcs.canonicalizeBytes (.obj obj') = .ok b := by
  obtain ⟨obj, b, hp, hb, hval, hparse, hback⟩ := validateBytes_canonicalBytes h
  obtain ⟨hv, s, hload, henc, hs, hsame⟩ := validateBytes_reencode hval
  exact ⟨obj, b, hv, s, hp, hb, hload, henc, ⟨rec, hs, rfl, rfl, rfl⟩,
    ordered obj, hsame.trans hparse, hback⟩

end

/-- A channel description. -/
theorem reencoding_preserves_description :
    ∃ obj b hv s, parseObject (Rfc8785.bytes (.obj description)) = .ok obj ∧
      Python.Jcs.canonicalizeBytes (.obj obj) = .ok b ∧
      loadsUtf8 b = .ok hv ∧ encode (dumps hv) = some s ∧
      ∃ obj', parseObject s = .ok obj' ∧ Python.Jcs.canonicalizeBytes (.obj obj') = .ok b := by
  have hI : Returns (pythonImports someHash (fun _ _ _ => .ok true) fun _ _ => .ok [])
      Rfc8785.text fun _ _ _ => true := returns_python fun _ _ _ => rfl
  have h : validateBytes (pythonImports someHash (fun _ _ _ => .ok true) fun _ _ => .ok [])
      (Rfc8785.bytes (.obj description)) = .ok _ :=
    validateBytes_valid hI description_section6 description_valid
  obtain ⟨obj, b, hv, s, hp, hb, hload, henc, -, hback⟩ := reencoding_preserves h
  exact ⟨obj, b, hv, s, hp, hb, hload, henc, hback⟩

end SwarmPointer.Federation
