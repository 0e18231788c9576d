import SwarmPointer.JsonInput.RoundTrip
import SwarmPointer.Python.Server
import SwarmPointer.Relay.Cursor

/-!
# Relay — list bodies are JSON

A list body is assembled from finished texts. It is the text of a derivation
of an object with the members `items` and `next`.

`dumps` escapes what is not ASCII and the canonicaliser does not, but
identifiers and cursors are printable ASCII, where the two agree. The envelopes
go into the body as bytes, without being parsed, so the derivation of the body
is put together from theirs.
-/

namespace SwarmPointer.Relay

open Jcs JsonGrammar JsonInput Python Python.JsonInput Python.Server Python.Store

/-! ## ASCII strings -/

/-- No character beyond the printable ones of ASCII. -/
abbrev Printable (s : Str) : Prop := ∀ c ∈ s, c.toNat ≤ 0x7E

theorem dumpsChar_eq {c : Char} (h : c.toNat ≤ 0x7E) : dumpsChar c = Rfc8785.escape c := by
  have key : ∀ n ≤ 0x7E, dumpsChar (Char.ofNat n) = Rfc8785.escape (Char.ofNat n) := by
    decide +kernel
  rw [← Char.ofNat_toNat c]
  exact key _ h

/-- On ASCII text `json.dumps` writes what the canonicaliser writes. -/
theorem dumps_eq {s : Str} (h : Printable s) : dumps s = Rfc8785.quote s := by
  have hmap : s.flatMap dumpsChar = s.flatMap Rfc8785.escape :=
    List.flatMap_congr fun c hc => dumpsChar_eq (h c hc)
  rw [dumps, hmap]
  rfl

theorem printable_clean {s : Str} (h : Printable s) : Clean s :=
  Ascii.clean fun c hc => Nat.lt_succ_of_le ((h c hc).trans (by decide))

theorem digitVal_ascii {c : Char} (h : (Base64.digitVal c).isSome = true) : c.toNat ≤ 0x7E := by
  have le_of : ∀ {d : Char}, c ≤ d → d.toNat ≤ 0x7E → c.toNat ≤ 0x7E := fun hc hd =>
    le_trans (show c.toNat ≤ _ from hc) hd
  rw [Base64.digitVal] at h
  split at h
  · rename_i hc
    exact le_of hc.2 (by decide)
  split at h
  · rename_i hc
    exact le_of hc.2 (by decide)
  split at h
  · rename_i hc
    exact le_of hc.2 (by decide)
  split at h
  · rename_i hc
    rw [hc]
    decide
  split at h
  · rename_i hc
    rw [hc]
    decide
  · cases h

theorem encodeCursor_printable (n : Nat) : Printable (encodeCursor n) := fun c hc =>
  digitVal_ascii ((Base64.strip_encode (Unicode.utf8 (Nat.toDigits 10 n))).1 c hc)

/-! ## Derivations without white space -/

/-- The elements of an array that is not empty. -/
def elementsOf (t : Phrase Empty) : List (Phrase Empty) → Elements Empty
  | [] => .one .none t .none
  | u :: us => .cons .none t .none (elementsOf u us)

def arrayOf : List (Phrase Empty) → Phrase Empty
  | [] => .arrEmpty .none
  | t :: ts => .arr (elementsOf t ts)

def itemsName : List Piece :=
  [.raw 'i' (by decide), .raw 't' (by decide), .raw 'e' (by decide), .raw 'm' (by decide),
    .raw 's' (by decide)]

def nextName : List Piece :=
  [.raw 'n' (by decide), .raw 'e' (by decide), .raw 'x' (by decide), .raw 't' (by decide)]

/-- The object of a list body. -/
def pageOf (items : List (Phrase Empty)) (next : Phrase Empty) : Phrase Empty :=
  .obj (.cons .none itemsName .none .none (arrayOf items) .none
    (.one .none nextName .none .none next .none))

theorem elementsOf_text (t : Phrase Empty) (ts : List (Phrase Empty)) :
    (elementsOf t ts).text Empty.elim = [','].intercalate ((t :: ts).map plain) := by
  induction ts generalizing t with
  | nil => simp [elementsOf, Elements.text, Ws.none, plain, List.intercalate]
  | cons u us ih =>
      rw [elementsOf, Elements.text, ih u, List.map_cons, List.map_cons, List.map_cons,
        List.intercalate_cons_cons]
      simp [Ws.none, plain]

theorem arrayOf_text (ts : List (Phrase Empty)) :
    plain (arrayOf ts) = '[' :: [','].intercalate (ts.map plain) ++ [']'] := by
  cases ts with
  | nil => rfl
  | cons t ts => rw [arrayOf, plain, Phrase.text, elementsOf_text]; rfl

theorem pageOf_text (items : List (Phrase Empty)) (next : Phrase Empty) :
    plain (pageOf items next) = "\x7b\"items\":".toList ++ plain (arrayOf items) ++
      ",\"next\":".toList ++ plain next ++ "\x7d".toList := by
  simp [pageOf, plain, Phrase.text, Members.text, Ws.none, stringText, piecesText, itemsName,
    nextName, Piece.text]

theorem readElements_elementsOf {t : Phrase Empty} {ts : List (Phrase Empty)} {v : Json Str}
    {vs : List (Json Str)} (ht : JsonInput.read t = some v) (h : List.Forall₂ (fun t v => JsonInput.read t = some v) ts vs) :
    readElements (elementsOf t ts) = some (v :: vs) := by
  induction h generalizing t v with
  | nil => rw [elementsOf, readElements, ht]; rfl
  | cons hu _ ih => rw [elementsOf, readElements, ht, ih hu]; rfl

theorem read_arrayOf {ts : List (Phrase Empty)} {vs : List (Json Str)}
    (h : List.Forall₂ (fun t v => JsonInput.read t = some v) ts vs) : JsonInput.read (arrayOf ts) = some (.arr vs) := by
  cases h with
  | nil => rfl
  | cons ht hts => rw [arrayOf, JsonInput.read, readElements_elementsOf ht hts]; rfl

/-- The value of a list body. -/
def pageValue (items : List (Json Str)) (next : Json Str) : Json Str :=
  .obj [("items".toList, .arr items), ("next".toList, next)]

theorem read_pageOf {ts : List (Phrase Empty)} {vs : List (Json Str)} {next : Phrase Empty}
    {n : Json Str} (h : List.Forall₂ (fun t v => JsonInput.read t = some v) ts vs)
    (hnext : JsonInput.read next = some n) : JsonInput.read (pageOf ts next) = some (pageValue vs n) := by
  have hi : readString itemsName = some "items".toList := by rfl
  have hn : readString nextName = some "next".toList := by rfl
  rw [pageOf, JsonInput.read, readMembers, readMembers, hi, hn, read_arrayOf h, hnext]
  rfl

/-! ## The bytes of a list body -/

theorem utf8_intercalate (sep : Str) (ts : List Str) :
    Unicode.utf8 (sep.intercalate ts) = (Unicode.utf8 sep).intercalate (ts.map Unicode.utf8) := by
  induction ts with
  | nil => rfl
  | cons t ts ih =>
      cases ts with
      | nil => simp
      | cons u ts =>
          rw [List.intercalate_cons_cons, Unicode.utf8_append, Unicode.utf8_append, ih,
            List.map_cons, List.map_cons, List.map_cons, List.intercalate_cons_cons]

/-- The text of `next`. -/
theorem exists_next {nxt : Option Str} (h : ∀ token ∈ nxt, Printable token) :
    ∃ t : Phrase Empty, nextJson nxt = Unicode.utf8 (plain t) ∧
      JsonInput.read t = some (nxt.elim .null .str) := by
  cases nxt with
  | none => exact ⟨.null, rfl, rfl⟩
  | some token =>
      obtain ⟨ps, htext, hread⟩ := exists_string token
      refine ⟨.str ps, ?_, ?_⟩
      · rw [nextJson, dumps_eq (h token rfl), ← htext]
        rfl
      · rw [JsonInput.read, (hread token).mpr ⟨printable_clean (h token rfl), rfl⟩]
        rfl

theorem listBody_eq {items : Bytes} {nxt : Option Str} {ts : List (Phrase Empty)}
    {next : Phrase Empty} (hitems : items = Unicode.utf8 (plain (arrayOf ts)))
    (hnext : nextJson nxt = Unicode.utf8 (plain next)) :
    listBody items nxt = Unicode.utf8 (plain (pageOf ts next)) := by
  rw [listBody, hitems, hnext, pageOf_text]
  simp only [Unicode.utf8_append]

theorem map_bytes (vs : List (Json Str)) :
    (vs.map Rfc8785.text).map Unicode.utf8 = vs.map Rfc8785.bytes := by
  rw [List.map_map]
  rfl

/-- Texts of values, joined. -/
theorem exists_items {vs : List (Json Str)} (h : ∀ v ∈ vs, Ijson v) :
    ∃ ts : List (Phrase Empty),
      blobList (vs.map Rfc8785.bytes) = Unicode.utf8 (plain (arrayOf ts)) ∧
      ts.map plain = vs.map Rfc8785.text ∧
      List.Forall₂ (fun t v => JsonInput.read t = some v) ts (vs.map Jcs.sorted) := by
  have hts : ∃ ts : List (Phrase Empty), ts.map plain = vs.map Rfc8785.text ∧
      List.Forall₂ (fun t v => JsonInput.read t = some v) ts (vs.map Jcs.sorted) := by
    induction vs with
    | nil => exact ⟨[], rfl, .nil⟩
    | cons v vs ih =>
        obtain ⟨ts, htexts, hreads⟩ := ih fun v hv => h v (List.mem_cons_of_mem _ hv)
        obtain ⟨t, htext, hread⟩ := exists_phrase_of (h v (List.mem_cons_self ..))
        exact ⟨t :: ts, by rw [List.map_cons, List.map_cons, htext, htexts], .cons hread hreads⟩
  obtain ⟨ts, htexts, hreads⟩ := hts
  refine ⟨ts, ?_, htexts, hreads⟩
  rw [arrayOf_text, htexts, ← List.singleton_append, Unicode.utf8_append, Unicode.utf8_append,
    utf8_intercalate, map_bytes, blobList]

theorem map_quote {ids : List Str} (h : ∀ s ∈ ids, Printable s) :
    ids.map dumps = (ids.map Json.str).map Rfc8785.text := by
  rw [List.map_map]
  exact List.map_congr_left fun s hs => dumps_eq (h s hs)

/-- Strings as `json.dumps` writes a list of them. -/
theorem idList_eq {ids : List Str} (h : ∀ s ∈ ids, Printable s) :
    idList ids = blobList ((ids.map Json.str).map Rfc8785.bytes) := by
  rw [idList, map_quote h, blobList, ← map_bytes, ← List.singleton_append, Unicode.utf8_append,
    Unicode.utf8_append, utf8_intercalate]

/-- **A list body parses** to its items in order and its `next`. -/
theorem parseUtf8_listBody {vs : List (Json Str)} (h : ∀ v ∈ vs, Ijson v) {nxt : Option Str}
    (hnext : ∀ token ∈ nxt, Printable token) :
    parseUtf8 (listBody (blobList (vs.map Rfc8785.bytes)) nxt) =
      .ok (pageValue (vs.map Jcs.sorted) (nxt.elim .null .str)) := by
  obtain ⟨ts, hitems, -, hreads⟩ := exists_items h
  obtain ⟨t, htext, hread⟩ := exists_next hnext
  rw [listBody_eq hitems htext]
  exact parseUtf8_plain (read_pageOf hreads hread)

end SwarmPointer.Relay
