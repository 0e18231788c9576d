import SwarmPointer.Jcs.Canonical
import SwarmPointer.Jcs.Sorted
import SwarmPointer.JsonInput.Layout
import SwarmPointer.JsonInput.Parse
import SwarmPointer.Lib.Raises

/-!
# JSON input — parsing undoes canonicalisation

The canonical text of a value is the text of a derivation without white
space, and reading that derivation gives the value with its members sorted.

`Section6` is what the rest of the development knows of the parser: a byte
string that is the UTF-8 of an admissible document for an object. `Ijson` is
what the parser promises of its values, and exactly the values with this
property are written and read back. For values of other origin the theorem has
a version in which the negative zeros, which are printed as `0`, are dropped.
-/

namespace SwarmPointer.JsonInput

open Json JsonGrammar Python Python.JsonInput Jcs

/-- What the parser delivers: numbers other than negative zero, no
noncharacters, distinct names. -/
def Ijson (v : Json Str) : Prop := v.All NotNegZero Clean

theorem readString_clean {ps : List Piece} {s : Str} (h : readString ps = some s) : Clean s := by
  obtain ⟨⟨cs, hdec, hcs⟩, hs⟩ := readString_eq_some.mp h
  rwa [Option.some.inj (hdec.symm.trans hs)] at hcs

theorem readNumber_notNegZero {x : Number} {y : Binary64} (h : readNumber x = some y) :
    NotNegZero y := by
  obtain ⟨⟨y', hy', hz⟩, hy⟩ := readNumber_eq_some.mp h
  obtain rfl := Option.some.inj (hy'.symm.trans hy)
  rintro ⟨hn, hm⟩
  rw [numberValue_neg hy] at hn
  exact hz hn hm

mutual

/-- **Every value read is an I-JSON value.** -/
theorem read_ijson {L : Type} {t : Phrase L} {v : Json Str} (h : read t = some v) : Ijson v := by
  match t with
  | .null =>
      obtain rfl := Option.some.inj h
      trivial
  | .bool b =>
      obtain rfl := Option.some.inj h
      trivial
  | .num x =>
      rw [read, Option.map_eq_some_iff] at h
      obtain ⟨y, hy, rfl⟩ := h
      exact readNumber_notNegZero hy
  | .str s =>
      rw [read, Option.map_eq_some_iff] at h
      obtain ⟨cs, hcs, rfl⟩ := h
      exact readString_clean hcs
  | .ext l => cases h
  | .arrEmpty w =>
      obtain rfl := Option.some.inj h
      trivial
  | .arr es =>
      rw [read, Option.map_eq_some_iff] at h
      obtain ⟨vs, hvs, rfl⟩ := h
      exact readElements_ijson hvs
  | .objEmpty w =>
      obtain rfl := Option.some.inj h
      exact ⟨List.nodup_nil, trivial⟩
  | .obj ms =>
      rw [read, Option.map_eq_some_iff] at h
      obtain ⟨vs, hvs, rfl⟩ := h
      obtain ⟨hvs, hn⟩ := Option.filter_eq_some_iff.mp hvs
      exact ⟨of_decide_eq_true hn, readMembers_ijson hvs⟩

theorem readElements_ijson {L : Type} {es : Elements L} {vs : List (Json Str)}
    (h : readElements es = some vs) : AllList NotNegZero Clean vs := by
  match es with
  | .one w t w' =>
      rw [readElements, Option.map_eq_some_iff] at h
      obtain ⟨v, hv, rfl⟩ := h
      exact ⟨read_ijson hv, trivial⟩
  | .cons w t w' es =>
      rw [readElements, Option.bind_eq_some_iff] at h
      obtain ⟨v, hv, h⟩ := h
      obtain ⟨vs, hvs, rfl⟩ := Option.map_eq_some_iff.mp h
      exact ⟨read_ijson hv, readElements_ijson hvs⟩

theorem readMembers_ijson {L : Type} {ms : JsonGrammar.Members L} {vs : Json.Members Str}
    (h : readMembers ms = some vs) : AllMembers NotNegZero Clean vs := by
  match ms with
  | .one w k w₁ w₂ t w' =>
      rw [readMembers, Option.bind_eq_some_iff] at h
      obtain ⟨k', hk, h⟩ := h
      obtain ⟨v, hv, rfl⟩ := Option.map_eq_some_iff.mp h
      exact ⟨readString_clean hk, read_ijson hv, trivial⟩
  | .cons w k w₁ w₂ t w' ms =>
      rw [readMembers, Option.bind_eq_some_iff] at h
      obtain ⟨k', hk, h⟩ := h
      obtain ⟨v, hv, h⟩ := Option.bind_eq_some_iff.mp h
      obtain ⟨vs, hvs, rfl⟩ := Option.map_eq_some_iff.mp h
      exact ⟨readString_clean hk, read_ijson hv, readMembers_ijson hvs⟩

end

/-- **Every value `parse_utf8` returns is an I-JSON value.** -/
theorem parseUtf8_ijson {data : Bytes} {v : Json Str} (h : parseUtf8 data = .ok v) : Ijson v := by
  obtain ⟨w, t, w', -, hread⟩ := parseUtf8_sound h
  exact read_ijson hread

theorem Ijson.distinct {v : Json Str} (h : Ijson v) : Distinct v :=
  All.imp (fun _ _ => trivial) (fun _ _ => trivial) h

/-! ## Objects -/

/-- `data` is a text of §6 for the object with members `obj`. -/
def Section6 (data : Bytes) (obj : Json.Members Str) : Prop :=
  ∃ w t w', data = Unicode.utf8 (document w t w') ∧ Admissible t ∧ value t = some (.obj obj)

theorem parseObject_eq_ok {data : Bytes} {obj : Json.Members Str} :
    parseObject data = .ok obj ↔ parseUtf8 data = .ok (.obj obj) := by
  rw [parseObject, Except.bind_eq_ok_iff]
  constructor
  · rintro ⟨v, hv, h⟩
    cases v with
    | obj ms =>
        obtain rfl := Except.ok.inj h
        exact hv
    | _ => cases h
  · exact fun h => ⟨_, h, rfl⟩

/-- **`parse_object` accepts exactly the texts of objects.** -/
theorem parseObject_exact {data : Bytes} {obj : Json.Members Str} :
    parseObject data = .ok obj ↔ Section6 data obj :=
  parseObject_eq_ok.trans parseUtf8_eq_ok

theorem Section6.unique {data : Bytes} {obj obj' : Json.Members Str} (h : Section6 data obj)
    (h' : Section6 data obj') : obj = obj' :=
  Except.ok.inj ((parseObject_exact.mpr h).symm.trans (parseObject_exact.mpr h'))

theorem parseObject_returns (data : Bytes) :
    (∃ obj, parseObject data = .ok obj) ∨ ∃ r, parseObject data = .error (.jsonInputError r) := by
  rw [parseObject]
  rcases parseUtf8_returns data with ⟨v, h⟩ | ⟨r, h⟩
  · rw [h]
    cases v with
    | obj ms => exact .inl ⟨ms, rfl⟩
    | _ => exact .inr ⟨_, rfl⟩
  · rw [h]
    exact .inr ⟨r, rfl⟩

theorem parseObject_ijson {data : Bytes} {obj : Json.Members Str}
    (h : parseObject data = .ok obj) : Ijson (.obj obj) :=
  parseUtf8_ijson (parseObject_eq_ok.mp h)

/-! ## Strings -/

/-- The piece a character is escaped as. -/
theorem exists_piece (c : Char) : ∃ p : Piece, p.text = Rfc8785.escape c ∧
    ∀ ps, decode (p :: ps) = (decode ps).map (c :: ·) := by
  have short : ∀ e : Short, Rfc8785.escape e.char = ['\\', e.letter] → c = e.char →
      ∃ p : Piece, p.text = Rfc8785.escape c ∧ ∀ ps, decode (p :: ps) = (decode ps).map (c :: ·) := by
    rintro e he rfl
    exact ⟨.short e, he.symm, fun ps => rfl⟩
  by_cases h1 : c = '"'
  · exact short .quote rfl h1
  by_cases h2 : c = '\\'
  · exact short .backslash rfl h2
  by_cases h3 : c = '\x08'
  · exact short .b rfl h3
  by_cases h4 : c = '\x0c'
  · exact short .f rfl h4
  by_cases h5 : c = '\n'
  · exact short .n rfl h5
  by_cases h6 : c = '\x0d'
  · exact short .r rfl h6
  by_cases h7 : c = '\t'
  · exact short .t rfl h7
  by_cases h8 : c.toNat < 0x20
  · -- the remaining controls are `\u00xx`
    have hhi := hexVal_hexDigit (n := c.toNat / 16) (by omega)
    have hlo := hexVal_hexDigit (n := c.toNat % 16) (by omega)
    have h0 : (hexVal '0').isSome = true := by decide
    refine ⟨.unicode ⟨'0', h0⟩ ⟨'0', h0⟩ ⟨hexDigit (c.toNat / 16), by rw [hhi]; rfl⟩
      ⟨hexDigit (c.toNat % 16), by rw [hlo]; rfl⟩, ?_, fun ps => ?_⟩
    · rw [Rfc8785.escape, if_neg h1, if_neg h2, if_neg h3, if_neg h4, if_neg h5, if_neg h6,
        if_neg h7, if_pos h8]
      rfl
    · have hcode : hexCode ⟨'0', h0⟩ ⟨'0', h0⟩ ⟨hexDigit (c.toNat / 16), by rw [hhi]; rfl⟩
          ⟨hexDigit (c.toNat % 16), by rw [hlo]; rfl⟩ = c.toNat := by
        have hz : HexDigit.val ⟨'0', h0⟩ = 0 := rfl
        rw [hexCode, hz]
        simp only [HexDigit.val, hhi, hlo, Option.get_some]
        omega
      have hhigh : ¬ isHighCode c.toNat = true := by
        simp only [isHighCode, Bool.and_eq_true, decide_eq_true_eq]
        omega
      have hlow : ¬ isLowCode c.toNat = true := by
        simp only [isLowCode, Bool.and_eq_true, decide_eq_true_eq]
        omega
      rw [decode_bmp (by rwa [hcode]) (by rwa [hcode]), hcode, Char.ofNat_toNat]
  · refine ⟨.raw c ⟨by omega, h1, h2⟩, ?_, fun ps => rfl⟩
    rw [Rfc8785.escape, if_neg h1, if_neg h2, if_neg h3, if_neg h4, if_neg h5, if_neg h6,
      if_neg h7, if_neg h8]
    rfl

theorem exists_pieces (s : Str) :
    ∃ ps : List Piece, piecesText ps = s.flatMap Rfc8785.escape ∧ decode ps = some s := by
  induction s with
  | nil => exact ⟨[], rfl, rfl⟩
  | cons c s ih =>
      obtain ⟨ps, htext, hdec⟩ := ih
      obtain ⟨p, hp, hpdec⟩ := exists_piece c
      refine ⟨p :: ps, ?_, ?_⟩
      · rw [piecesText_cons, hp, htext, List.flatMap_cons]
      · rw [hpdec, hdec]
        rfl

/-- **A quoted string is a string of the grammar**, which reads back unless it
has a noncharacter. -/
theorem exists_string (s : Str) :
    ∃ ps, stringText ps = Rfc8785.quote s ∧ ∀ t, readString ps = some t ↔ Clean s ∧ t = s := by
  obtain ⟨ps, htext, hdec⟩ := exists_pieces s
  refine ⟨ps, ?_, fun t => ?_⟩
  · rw [stringText, htext]
    rfl
  · rw [readString_eq_some, StringOk]
    constructor
    · rintro ⟨⟨cs, hcs, hclean⟩, ht⟩
      obtain rfl := Option.some.inj (hdec.symm.trans hcs)
      exact ⟨hclean, Option.some.inj (ht.symm.trans hdec)⟩
    · rintro ⟨hclean, rfl⟩
      exact ⟨⟨t, hdec, hclean⟩, hdec⟩

/-! ## Values -/

/-- The double that the canonical text of `x` denotes: `-0` is printed as `0`. -/
def dropSign (x : Binary64) : Binary64 := if x.mag = 0 then { x with neg := false } else x

mutual

/-- A value with its negative zeros replaced. -/
def dropSigns {S : Type} : Json S → Json S
  | .null => .null
  | .bool b => .bool b
  | .num x => .num (dropSign x)
  | .str s => .str s
  | .arr vs => .arr (dropSignsList vs)
  | .obj ms => .obj (dropSignsMembers ms)

def dropSignsList {S : Type} : List (Json S) → List (Json S)
  | [] => []
  | v :: vs => dropSigns v :: dropSignsList vs

def dropSignsMembers {S : Type} : Json.Members S → Json.Members S
  | [] => []
  | (k, v) :: ms => (k, dropSigns v) :: dropSignsMembers ms

end

theorem dropSignsList_eq {S : Type} (vs : List (Json S)) : dropSignsList vs = vs.map dropSigns := by
  induction vs with
  | nil => rfl
  | cons v vs ih => rw [dropSignsList, ih, List.map_cons]

theorem dropSignsMembers_eq {S : Type} (ms : Json.Members S) :
    dropSignsMembers ms = ms.map fun m => (m.1, dropSigns m.2) := by
  induction ms with
  | nil => rfl
  | cons m ms ih => rw [dropSignsMembers, ih, List.map_cons]

theorem dropSign_notNegZero (x : Binary64) : NotNegZero (dropSign x) := by
  rintro ⟨hn, hm⟩
  rw [dropSign] at hn hm
  split at hn
  · cases hn
  · rename_i h
    rw [if_neg h] at hm
    exact h hm

theorem dropSign_eq {x : Binary64} (h : NotNegZero x) : dropSign x = x := by
  rw [dropSign]
  split
  · rename_i hm
    have hn : x.neg = false := Bool.eq_false_iff.mpr fun hn => h ⟨hn, hm⟩
    cases x
    subst hn
    rfl
  · rfl

theorem ecmaString_dropSign (x : Binary64) : Decimal.ecmaString (dropSign x) = Decimal.ecmaString x := by
  rw [dropSign]
  split
  · rename_i h
    rw [Decimal.ecmaString, Decimal.ecmaString, if_pos h, if_pos h]
  · rfl

theorem dropSigns_eq {v : Json Str} (h : Ijson v) : dropSigns v = v := by
  induction v using Json.induct with
  | hnum x => rw [dropSigns, dropSign_eq h]
  | harr vs ih =>
      have h' := allList_iff.mp (show AllList NotNegZero Clean vs from h)
      rw [dropSigns, dropSignsList_eq, List.map_congr_left fun v hv => ih v hv (h' v hv), List.map_id']
  | hobj ms ih =>
      obtain ⟨-, hm⟩ : (ms.map Prod.fst).Nodup ∧ AllMembers NotNegZero Clean ms := h
      have h' := allMembers_iff.mp hm
      have hmap : ∀ m ∈ ms, (m.1, dropSigns m.2) = m := fun m hm => by
        rw [ih m hm (h' m hm).2]
      rw [dropSigns, dropSignsMembers_eq, List.map_congr_left hmap, List.map_id']
  | _ => simp only [dropSigns]

/-- No noncharacter anywhere, distinct names. -/
abbrev CleanAll (v : Json Str) : Prop := v.All (fun _ => True) Clean

theorem exists_elements {ext : Empty → Str} {vs : List (Json Str)} {f : Json Str → Str}
    {P : Json Str → Prop} {g : Json Str → Json Str} (hne : vs ≠ [])
    (h : ∀ v ∈ vs, ∃ t : Phrase Empty, t.text ext = f v ∧ ∀ w, read t = some w ↔ P v ∧ w = g v) :
    ∃ es : Elements Empty, es.text ext = [','].intercalate (vs.map f) ∧
      ∀ ws, readElements es = some ws ↔ (∀ v ∈ vs, P v) ∧ ws = vs.map g := by
  induction vs with
  | nil => exact absurd rfl hne
  | cons v vs ih =>
      obtain ⟨t, htext, hread⟩ := h v (List.mem_cons_self ..)
      cases vs with
      | nil =>
          refine ⟨.one .none t .none, ?_, fun ws => ?_⟩
          · simp [Elements.text, Ws.none, htext, List.intercalate]
          · simp [readElements, hread, eq_comm]
      | cons v' vs =>
          obtain ⟨es, hes, hreads⟩ := ih (List.cons_ne_nil _ _)
            fun v hv => h v (List.mem_cons_of_mem _ hv)
          refine ⟨.cons .none t .none es, ?_, fun ws => ?_⟩
          · have hcomma : [','].intercalate ((v :: v' :: vs).map f) =
                f v ++ ',' :: [','].intercalate ((v' :: vs).map f) := by
              simp [intercalate_cons]
            rw [hcomma, ← hes]
            simp [Elements.text, Ws.none, htext]
          · rw [List.forall_mem_cons, List.map_cons, readElements, Option.bind_eq_some_iff]
            simp only [hread, Option.map_eq_some_iff, hreads]
            constructor
            · rintro ⟨w, ⟨hv, rfl⟩, ws, ⟨hvs, rfl⟩, rfl⟩
              exact ⟨⟨hv, hvs⟩, rfl⟩
            · rintro ⟨⟨hv, hvs⟩, rfl⟩
              exact ⟨_, ⟨hv, rfl⟩, _, ⟨hvs, rfl⟩, rfl⟩

theorem exists_members {ext : Empty → Str} {ms : Json.Members Str} {f : Json Str → Str}
    {P : Json Str → Prop} {g : Json Str → Json Str} (hne : ms ≠ [])
    (h : ∀ m ∈ ms, ∃ t : Phrase Empty, t.text ext = f m.2 ∧
      ∀ w, read t = some w ↔ P m.2 ∧ w = g m.2) :
    ∃ ts : JsonGrammar.Members Empty,
      ts.text ext = [','].intercalate (ms.map fun m => Rfc8785.member (m.1, f m.2)) ∧
      ∀ ws, readMembers ts = some ws ↔
        (∀ m ∈ ms, Clean m.1 ∧ P m.2) ∧ ws = ms.map fun m => (m.1, g m.2) := by
  induction ms with
  | nil => exact absurd rfl hne
  | cons m ms ih =>
      obtain ⟨t, htext, hread⟩ := h m (List.mem_cons_self ..)
      obtain ⟨k, hk, hkread⟩ := exists_string m.1
      cases ms with
      | nil =>
          refine ⟨.one .none k .none .none t .none, ?_, fun ws => ?_⟩
          · simp [JsonGrammar.Members.text, Ws.none, htext, hk, Rfc8785.member, List.intercalate]
          · rw [List.forall_mem_singleton, List.map_singleton, readMembers, Option.bind_eq_some_iff]
            simp only [hkread, Option.map_eq_some_iff, hread]
            constructor
            · rintro ⟨k', ⟨hk, rfl⟩, w, ⟨hm, rfl⟩, rfl⟩
              exact ⟨⟨hk, hm⟩, rfl⟩
            · rintro ⟨⟨hk, hm⟩, rfl⟩
              exact ⟨_, ⟨hk, rfl⟩, _, ⟨hm, rfl⟩, rfl⟩
      | cons m' ms =>
          obtain ⟨ts, hts, hreads⟩ := ih (List.cons_ne_nil _ _)
            fun m hm => h m (List.mem_cons_of_mem _ hm)
          refine ⟨.cons .none k .none .none t .none ts, ?_, fun ws => ?_⟩
          · have hcomma : [','].intercalate
                  ((m :: m' :: ms).map fun m => Rfc8785.member (m.1, f m.2)) =
                Rfc8785.member (m.1, f m.2) ++ ',' :: [','].intercalate
                  ((m' :: ms).map fun m => Rfc8785.member (m.1, f m.2)) := by
              simp [intercalate_cons]
            rw [hcomma, ← hts]
            simp [JsonGrammar.Members.text, Ws.none, htext, hk, Rfc8785.member]
          · rw [List.forall_mem_cons, List.map_cons, readMembers, Option.bind_eq_some_iff]
            simp only [hkread, Option.bind_eq_some_iff, Option.map_eq_some_iff, hread, hreads]
            constructor
            · rintro ⟨k', ⟨hk, rfl⟩, w, ⟨hm, rfl⟩, ws, ⟨hms, rfl⟩, rfl⟩
              exact ⟨⟨⟨hk, hm⟩, hms⟩, rfl⟩
            · rintro ⟨⟨⟨hk, hm⟩, hms⟩, rfl⟩
              exact ⟨_, ⟨hk, rfl⟩, _, ⟨hm, rfl⟩, _, ⟨hms, rfl⟩, rfl⟩

/-- **The canonical text of a value is a derivation.** It reads back, the
members sorted and negative zeros replaced, unless a string has a noncharacter
or two members one name. -/
theorem exists_phrase (v : Json Str) :
    ∃ t : Phrase Empty, plain t = Rfc8785.text v ∧
      ∀ w, read t = some w ↔ CleanAll v ∧ w = sorted (dropSigns v) := by
  induction v using Json.induct with
  | hnull => exact ⟨.null, rfl, fun w => by simp [read, All, dropSigns, sorted, eq_comm]⟩
  | hbool b =>
      refine ⟨.bool b, by cases b <;> rfl, fun w => ?_⟩
      simp [read, All, dropSigns, sorted, eq_comm]
  -- negative zero is written without its sign
  | hnum x =>
      obtain ⟨n, htext, hread⟩ := exists_number (dropSign_notNegZero x)
      refine ⟨.num n, htext.trans (ecmaString_dropSign x), fun w => ?_⟩
      rw [read, hread]
      simp [All, dropSigns, sorted, eq_comm]
  | hstr s =>
      obtain ⟨ps, htext, hread⟩ := exists_string s
      refine ⟨.str ps, htext, fun w => ?_⟩
      rw [read, Option.map_eq_some_iff]
      simp only [hread]
      constructor
      · rintro ⟨t, ⟨hclean, rfl⟩, rfl⟩
        exact ⟨hclean, by simp only [dropSigns, sorted]⟩
      · rintro ⟨hclean, rfl⟩
        exact ⟨s, ⟨hclean, rfl⟩, by simp only [dropSigns, sorted]⟩
  | harr vs ih =>
      have hall : CleanAll (.arr vs) ↔ ∀ v ∈ vs, CleanAll v := allList_iff
      rw [Rfc8785.text, Rfc8785.textList_eq, hall, dropSigns, dropSignsList_eq, sorted,
        sortedList_eq, List.map_map]
      by_cases hne : vs = []
      · subst hne
        exact ⟨.arrEmpty .none, rfl, fun w => by simp [read, eq_comm]⟩
      · obtain ⟨es, htext, hread⟩ := exists_elements hne ih
        refine ⟨.arr es, ?_, fun w => ?_⟩
        · rw [plain, Phrase.text, htext]
          rfl
        · rw [read, Option.map_eq_some_iff]
          simp only [hread]
          constructor
          · rintro ⟨ws, ⟨hvs, rfl⟩, rfl⟩
            exact ⟨hvs, rfl⟩
          · rintro ⟨hvs, rfl⟩
            exact ⟨_, ⟨hvs, rfl⟩, rfl⟩
  | hobj ms ih =>
      have hperm := Rfc8785.sortByName_perm ms
      have hmem : ∀ m ∈ Rfc8785.sortByName ms, m ∈ ms := fun m hm => hperm.mem_iff.mp hm
      have hall : CleanAll (.obj ms) ↔ (ms.map Prod.fst).Nodup ∧
          ∀ m ∈ Rfc8785.sortByName ms, Clean m.1 ∧ CleanAll m.2 := by
        have hms : CleanAll (.obj ms) ↔
            (ms.map Prod.fst).Nodup ∧ AllMembers (fun _ => True) Clean ms := Iff.rfl
        rw [hms, allMembers_iff]
        exact and_congr_right fun _ => forall_congr' fun m => imp_congr_left hperm.mem_iff.symm
      rw [Rfc8785.text, Rfc8785.textMembers_eq, Rfc8785.sortByName_map, List.map_map, hall,
        dropSigns, dropSignsMembers_eq, sorted, sortedMembers_eq, Rfc8785.sortByName_map,
        Rfc8785.sortByName_map, List.map_map]
      by_cases hne : Rfc8785.sortByName ms = []
      · have hnil : ms = [] := by
          rw [← List.perm_nil, ← hne]
          exact hperm.symm
        subst hnil
        exact ⟨.objEmpty .none, rfl, fun w => by simp [read, hne, eq_comm]⟩
      · obtain ⟨ts, htext, hread⟩ := exists_members (P := CleanAll)
          (g := fun v => sorted (dropSigns v)) hne fun m hm => ih m (hmem m hm)
        refine ⟨.obj ts, ?_, fun w => ?_⟩
        · rw [plain, Phrase.text, htext]
          rfl
        · -- sorting moves the names and leaves them as distinct as they were
          have hnames : (((Rfc8785.sortByName ms).map fun m =>
              (m.1, sorted (dropSigns m.2))).map Prod.fst).Nodup ↔ (ms.map Prod.fst).Nodup := by
            rw [List.map_map]
            exact (hperm.map Prod.fst).nodup_iff
          rw [read, Option.map_eq_some_iff]
          simp only [Option.filter_eq_some_iff, hread, decide_eq_true_eq]
          constructor
          · rintro ⟨ws, ⟨⟨hms, rfl⟩, hn⟩, rfl⟩
            exact ⟨⟨hnames.mp hn, hms⟩, rfl⟩
          · rintro ⟨⟨hn, hms⟩, rfl⟩
            exact ⟨_, ⟨⟨hms, rfl⟩, hnames.mpr hn⟩, rfl⟩

theorem Ijson.clean {v : Json Str} (h : Ijson v) : CleanAll v :=
  All.imp (fun _ _ => trivial) (fun _ hs => hs) h

/-- The phrase of an I-JSON value reads back as the value with its members sorted. -/
theorem exists_phrase_of {v : Json Str} (h : Ijson v) :
    ∃ t : Phrase Empty, plain t = Rfc8785.text v ∧ read t = some (sorted v) := by
  obtain ⟨t, htext, hread⟩ := exists_phrase v
  exact ⟨t, htext, (hread _).mpr ⟨h.clean, by rw [dropSigns_eq h]⟩⟩

/-- `parse_utf8` on the text of a derivation. -/
theorem parseUtf8_plain {t : Phrase Empty} {v : Json Str} (h : read t = some v) :
    parseUtf8 (Unicode.utf8 (plain t)) = .ok v := by
  rcases parseUtf8_text foreign_empty Ws.none t Ws.none with ⟨v', hread', hp⟩ | ⟨hnone, -⟩
  · rw [h] at hread'
    rw [Option.some.inj hread', ← hp]
    simp [Ws.none]
  · rw [h] at hnone
    cases hnone

/-- `parse_utf8` on canonical bytes. -/
theorem parseUtf8_canonical {v w : Json Str} :
    parseUtf8 (Rfc8785.bytes v) = .ok w ↔ CleanAll v ∧ w = sorted (dropSigns v) := by
  obtain ⟨t, htext, hread⟩ := exists_phrase v
  rw [← hread, Rfc8785.bytes, ← htext]
  rcases parseUtf8_text foreign_empty Ws.none t Ws.none with ⟨v', hread', hp⟩ | ⟨hnone, r, hp⟩
  · have hp' : parseUtf8 (Unicode.utf8 (plain t)) = .ok v' := by
      rw [← hp]
      simp [Ws.none]
    rw [hp', hread']
    exact ⟨fun h => congrArg some (Except.ok.inj h), fun h => congrArg Except.ok (Option.some.inj h)⟩
  · have hp' : parseUtf8 (Unicode.utf8 (plain t)) = .error (.jsonInputError r) := by
      rw [← hp]
      simp [Ws.none]
    rw [hp', hnone]
    exact ⟨nofun, nofun⟩

theorem parseUtf8_bytes {v : Json Str} (h : Ijson v) :
    parseUtf8 (Rfc8785.bytes v) = .ok (sorted v) :=
  parseUtf8_canonical.mpr ⟨h.clean, by rw [dropSigns_eq h]⟩

/-- **Parsing undoes canonicalisation.** For every value `parse_utf8` returns,
its canonical bytes are accepted, give the value back up to the order of
members and are the canonical bytes of the result; a value with the same
canonical bytes is the same value. -/
theorem parse_canonicalize {data : Bytes} {v : Json Str} (h : parseUtf8 data = .ok v) :
    (∃ bs v', Jcs.canonicalizeBytes v = .ok bs ∧ parseUtf8 bs = .ok v' ∧ v.Same v' ∧
        Jcs.canonicalizeBytes v' = .ok bs) ∧
      ∀ data' w, parseUtf8 data' = .ok w →
        Jcs.canonicalizeBytes w = Jcs.canonicalizeBytes v → v.Same w := by
  have hv := parseUtf8_ijson h
  have hbytes : ∀ {w : Json Str}, Ijson w → Jcs.canonicalizeBytes w = .ok (Rfc8785.bytes w) :=
    fun hw => canonicalizeBytes_eq hw.distinct
  constructor
  · refine ⟨Rfc8785.bytes v, sorted v, hbytes hv, parseUtf8_bytes hv, same_sorted v, ?_⟩
    have hs : Ijson (sorted v) := sorted_all hv
    rw [hbytes hs, Rfc8785.bytes, Rfc8785.bytes, text_sorted hv.distinct]
  · intro data' w h' heq
    have hw := parseUtf8_ijson h'
    rw [hbytes hw, hbytes hv] at heq
    have hback := parseUtf8_bytes hw
    rw [Except.ok.inj heq, parseUtf8_bytes hv] at hback
    exact (same_iff hv.distinct).mpr (Except.ok.inj hback)

/-! ## A nested text -/

/-- `{"b":[1E2, "\n\u20ac\ud83d\ude00"],"a":{"\"":null}}`. -/
def nestedText : Str :=
  "\x7b\"b\":[1E2, \"\\n\\u20ac\\ud83d\\ude00\"],\"a\":\x7b\"\\\"\":null\x7d\x7d".toList

/-- Its value, the members in the order of the text. -/
def nestedValue : Json Str :=
  .obj [(['b'], .arr [.num (Binary64.ofNat53 100 (by decide)), .str ['\n', '€', '😀']]),
    (['a'], .obj [(['"'], .null)])]

/-- `1E2`. -/
def hundred : Number where
  neg := false
  int := ⟨['1'], by decide⟩
  lead := by decide
  frac := none
  exp := some ⟨true, .none, ⟨['2'], by decide⟩⟩

/-- A line feed, the euro sign and a surrogate pair, each of them escaped. -/
def escapes : List Piece :=
  [.short .n, .unicode ⟨'2', by decide⟩ ⟨'0', by decide⟩ ⟨'a', by decide⟩ ⟨'c', by decide⟩,
    .unicode ⟨'d', by decide⟩ ⟨'8', by decide⟩ ⟨'3', by decide⟩ ⟨'d', by decide⟩,
    .unicode ⟨'d', by decide⟩ ⟨'e', by decide⟩ ⟨'0', by decide⟩ ⟨'0', by decide⟩]

/-- How the text derives from the grammar. -/
def nestedPhrase : Phrase Empty :=
  .obj (.cons .none [.raw 'b' (by decide)] .none .none
    (.arr (.cons .none (.num hundred) .none (.one ⟨[' '], by decide⟩ (.str escapes) .none))) .none
    (.one .none [.raw 'a' (by decide)] .none .none
      (.obj (.one .none [.short .quote] .none .none .null .none)) .none))

theorem read_nestedPhrase : read nestedPhrase = some nestedValue := by
  have hnumber : readNumber hundred = some (Binary64.ofNat53 100 (by decide)) := by decide +kernel
  have hstring : readString escapes = some ['\n', '€', '😀'] := by decide
  have hb : readString [.raw 'b' (by decide)] = some ['b'] := by decide
  have ha : readString [.raw 'a' (by decide)] = some ['a'] := by decide
  have hquote : readString [.short .quote] = some ['"'] := by decide
  simp only [nestedPhrase, nestedValue, read, readElements, readMembers, hnumber, hstring, hb, ha,
    hquote, Option.map_some, Option.bind_some]
  rfl

theorem parse_canonicalize_nested :
    parseUtf8 (Unicode.utf8 nestedText) = .ok nestedValue ∧
      (∃ bs v', Jcs.canonicalizeBytes nestedValue = .ok bs ∧ parseUtf8 bs = .ok v' ∧
        nestedValue.Same v' ∧ Jcs.canonicalizeBytes v' = .ok bs) ∧
      ∀ data' w, parseUtf8 data' = .ok w →
        Jcs.canonicalizeBytes w = Jcs.canonicalizeBytes nestedValue → nestedValue.Same w := by
  have htext : nestedText = document .none nestedPhrase .none := by decide
  obtain ⟨hadmissible, hvalue⟩ := read_eq_some.mp read_nestedPhrase
  have h : parseUtf8 (Unicode.utf8 nestedText) = .ok nestedValue :=
    parseUtf8_eq_ok.mpr ⟨.none, nestedPhrase, .none, by rw [htext], hadmissible, hvalue⟩
  exact ⟨h, parse_canonicalize h⟩

end SwarmPointer.JsonInput
