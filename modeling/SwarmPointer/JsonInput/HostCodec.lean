import SwarmPointer.JsonInput.RoundTrip
import SwarmPointer.Python.HostJson

/-!
# JSON input — what the host's codec preserves

What `json.dumps` writes is the text of a derivation, and `strict` is what §6
reads from it. A text that §6 accepts comes back from the host's codec with
the same value; without repeated names and `-0` the codec turns no text into
one of another value.

The codec and the parser disagree on purpose about repeated names, integers
beyond the doubles, lone surrogates and constants. `strict` names the values
about which they agree, `Regular` the texts. What the codec writes can be
outside §6 only when it had to write something §6 has no value for.
-/

namespace SwarmPointer.JsonInput

open Json JsonGrammar Python Python.JsonInput Python.HostJson Decimal Jcs

/-! ## What §6 reads from a dump -/

def strictStr (s : PyStr) : Option Str := (chars s).filter fun cs => cs.all fun c => ¬ Noncharacter c

/-- The double of an integer token. -/
def strictInt (z : Int) : Option Binary64 :=
  (toBinary64 (decide (z < 0)) ⟨z.natAbs, 0⟩).filter fun y => z < 0 → y.mag ≠ 0

mutual

/-- What §6 reads from the text `dumps` writes, none when it rejects it. -/
def strict : Value → Option (Json Str)
  | .none => some .null
  | .bool b => some (.bool b)
  | .int z => (strictInt z).map .num
  | .float (.finite x) => if x.neg = true ∧ x.mag = 0 then none else some (.num x)
  | .float _ => none
  | .str s => (strictStr s).map .str
  | .list vs => (strictList vs).map .arr
  | .dict ms => ((strictPairs ms).filter fun ms => (ms.map Prod.fst).Nodup).map .obj

def strictList : List Value → Option (List (Json Str))
  | [] => some []
  | v :: vs => (strict v).bind fun w => (strictList vs).map (w :: ·)

def strictPairs : List (PyStr × Value) → Option (Json.Members Str)
  | [] => some []
  | (k, v) :: ms =>
      (strictStr k).bind fun k => (strict v).bind fun w => (strictPairs ms).map ((k, w) :: ·)

end

/-! ## Code points -/

theorem chars_ofStr (s : Str) : chars (ofStr s) = some s := by
  induction s with
  | nil => rfl
  | cons c s ih =>
      show (chars (ofStr s)).map (c :: ·) = some (c :: s)
      rw [ih]
      rfl

theorem ofStr_append (s t : Str) : ofStr (s ++ t) = ofStr s ++ ofStr t := List.map_append

/-- A `str` is text, or has a surrogate. -/
theorem chars_cases (s : PyStr) :
    (∃ cs, s = ofStr cs ∧ chars s = some cs) ∨ (∃ n, .surrogate n ∈ s) ∧ chars s = none := by
  induction s with
  | nil => exact .inl ⟨[], rfl, rfl⟩
  | cons p s ih =>
      cases p with
      | scalar c =>
          rcases ih with ⟨cs, rfl, h⟩ | ⟨⟨n, hn⟩, h⟩
          · exact .inl ⟨c :: cs, rfl, by rw [chars, h]; rfl⟩
          · exact .inr ⟨⟨n, List.mem_cons_of_mem _ hn⟩, by rw [chars, h]; rfl⟩
      | surrogate n => exact .inr ⟨⟨n, List.mem_cons_self ..⟩, rfl⟩

theorem chars_surrogate {s : PyStr} {n : Fin 2048} (h : .surrogate n ∈ s) : chars s = none := by
  rcases chars_cases s with ⟨cs, rfl, -⟩ | ⟨-, hnone⟩
  · obtain ⟨c, -, hc⟩ := List.mem_map.mp h
    cases hc
  · exact hnone

/-! ## Numbers -/

/-- The token `int.__repr__` writes. -/
theorem exists_int (z : Int) : ∃ n : Number, n.text = HostJson.intText z ∧ n.neg = decide (z < 0) ∧
    n.decimal = ⟨z.natAbs, 0⟩ := by
  have hlead : (natDigits z.natAbs).1 = ['0'] ∨ (natDigits z.natAbs).1.head? ≠ some '0' := by
    rcases Nat.eq_zero_or_pos z.natAbs with h | h
    · rw [h]
      exact .inl rfl
    · exact .inr (natDigits_head h)
  refine ⟨⟨decide (z < 0), natDigits z.natAbs, hlead, none, none⟩, ?_, rfl, ?_⟩
  · simp [Number.text, HostJson.intText, fracText, expText, natDigits]
  · simp [Number.decimal, digitsValue_natDigits]

/-- Digits padded to an integer, with a zero behind the point. -/
theorem spells_pointZero (neg : Bool) {ds : Digits} (hlead : ds.1.head? ≠ some '0') (j : Nat) :
    ∃ x, Spells x neg ds.1 (ds.1.length + j) (ds.1 ++ List.replicate j '0' ++ ['.', '0']) := by
  have hpad : (zeroPad ds j).1.head? ≠ some '0' := by
    rw [zeroPad, List.head?_append_of_ne_nil _ ds.2.1]
    exact hlead
  refine ⟨⟨neg, zeroPad ds j, .inr hpad, some .zero, none⟩, rfl, ?_, ?_⟩
  · simp [Number.text, signText, fracText, expText, zeroPad]
  · have hs := same_mul_pow (digitsValue ds.1) (-1) (j + 1)
    have hval : digitsValue ((zeroPad ds j).1 ++ ['0']) = digitsValue ds.1 * 10 ^ (j + 1) := by
      have hzeros : (zeroPad ds j).1 ++ ['0'] = ds.1 ++ List.replicate (j + 1) '0' := by
        rw [zeroPad, List.append_assoc, ← List.replicate_succ']
      rw [hzeros, digitsValue_zeros]
    have hdec : (⟨neg, zeroPad ds j, .inr hpad, some .zero, none⟩ : Number).decimal =
        ⟨digitsValue ds.1 * 10 ^ (j + 1), -1⟩ := by
      rw [← hval]
      rfl
    have hexp : (ds.1.length : Int) + j - ds.1.length = -1 + (j + 1 : Nat) := by push_cast; ring
    rw [hdec, hexp]
    exact hs

/-- The exponent `repr` writes. -/
theorem exists_reprExponent (k : Int) :
    ∃ e : Exponent, e.text = 'e' :: reprExponent k ∧ e.value = k := by
  have hsign : ∀ (ds : Digits), digitsValue ds.1 = k.natAbs →
      ∃ e : Exponent, e.text = 'e' :: (if k < 0 then '-' else '+') :: ds.1 ∧ e.value = k := by
    intro ds hds
    by_cases hk : k < 0
    · refine ⟨⟨false, .minus, ds⟩, by rw [if_pos hk]; rfl, ?_⟩
      simp only [Exponent.value, hds]
      omega
    · refine ⟨⟨false, .plus, ds⟩, by rw [if_neg hk]; rfl, ?_⟩
      simp only [Exponent.value, hds]
      omega
  rw [reprExponent]
  by_cases h : k.natAbs < 10
  · -- one digit: a zero in front
    rw [if_pos h]
    refine hsign (zeroLead 1 (natDigits k.natAbs)) ?_
    rw [zeroLead, digitsValue_leading, digitsValue_natDigits]
  · rw [if_neg h]
    exact hsign (natDigits k.natAbs) (digitsValue_natDigits _)

/-- **The layout of `repr` is a number token with the value of its digits.** -/
theorem exists_reprLayout (neg : Bool) {ds : Digits} (hlead : ds.1.head? ≠ some '0') (n : Int) :
    ∃ x, Spells x neg ds.1 n (reprLayout ds.1 n) := by
  rw [reprLayout]
  split
  · obtain ⟨e, he, hval⟩ := exists_reprExponent (n - 1)
    rw [← he]
    exact spells_scientific neg hlead n hval
  split
  · obtain ⟨j, rfl⟩ : ∃ j : Nat, n = -j := ⟨(-n).toNat, by omega⟩
    rw [neg_neg, Int.toNat_natCast]
    exact spells_leading neg ds j
  split
  · obtain ⟨k, rfl⟩ : ∃ k : Nat, n = k := ⟨n.toNat, by omega⟩
    exact spells_point neg hlead (by omega) (by omega)
  · obtain ⟨j, hj⟩ : ∃ j : Nat, n = ds.1.length + j := ⟨(n - ds.1.length).toNat, by omega⟩
    have hpad : (n - ds.1.length).toNat = j := by omega
    rw [hpad, hj]
    exact spells_pointZero neg hlead j

/-- **The text of a float is a token that reads back**, unless it is negative zero. -/
theorem exists_float (x : Binary64) : ∃ n : Number, n.text = reprNumber x ∧
    readNumber n = if x.neg = true ∧ x.mag = 0 then none else some x := by
  rw [reprNumber]
  by_cases hz : x.mag = 0
  · rw [if_pos hz]
    have hval := (numberValue_zero (n := ⟨x.neg, .zero, .inl rfl,
      some .zero, none⟩) rfl).mpr ⟨rfl, hz⟩
    refine ⟨⟨x.neg, .zero, .inl rfl, some .zero, none⟩, ?_, ?_⟩
    · simp [Number.text, fracText, expText]
    · rw [readNumber, hval]
      by_cases hneg : x.neg = true
      · rw [if_pos ⟨hneg, hz⟩]
        exact Option.filter_eq_none_iff.mpr fun y hy hp => by
          obtain rfl := Option.some.inj hy
          exact of_decide_eq_true hp hneg hz
      · rw [if_neg fun h => hneg h.1]
        exact Option.filter_eq_some_iff.mpr ⟨rfl, decide_eq_true fun h => absurd h hneg⟩
  · have hnz : ¬ (x.neg = true ∧ x.mag = 0) := fun h => hz h.2
    rw [if_neg hz, if_neg hnz]
    obtain ⟨n, hn⟩ := exists_reprLayout x.neg (shortestDigits_lead hz) (shortest x.mag).point
    have hval := numberValue_spells hn
    exact ⟨n, hn.2.1, readNumber_eq_some.mpr ⟨⟨x, hval, fun _ => hz⟩, hval⟩⟩

/-! ## Strings -/

theorem escapePoint_ofStr (s : Str) :
    (ofStr s).flatMap escapePoint = ofStr (s.flatMap Rfc8785.escape) := by
  induction s with
  | nil => rfl
  | cons c s ih =>
      show ofStr (Rfc8785.escape c) ++ (ofStr s).flatMap escapePoint = _
      rw [ih, ← ofStr_append]
      rfl

theorem quote_ofStr (s : Str) : HostJson.quote (ofStr s) = ofStr (Rfc8785.quote s) := by
  rw [HostJson.quote, escapePoint_ofStr, Rfc8785.quote]
  simp [ofStr]

/-- A dumped string is a string of the grammar, or has a surrogate. -/
theorem quote_cases (s : PyStr) :
    (∃ ps, HostJson.quote s = ofStr (stringText ps) ∧ readString ps = strictStr s) ∨
      (∃ n, .surrogate n ∈ HostJson.quote s) ∧ strictStr s = none := by
  rcases chars_cases s with ⟨cs, rfl, h⟩ | ⟨⟨n, hn⟩, h⟩
  · obtain ⟨ps, htext, hread⟩ := exists_string cs
    refine .inl ⟨ps, by rw [quote_ofStr, htext], ?_⟩
    ext t
    rw [hread, strictStr, h, Option.filter_eq_some_iff]
    constructor
    · rintro ⟨hclean, rfl⟩
      exact ⟨rfl, by simpa [Clean] using hclean⟩
    · rintro ⟨ht, hclean⟩
      obtain rfl := Option.some.inj ht
      exact ⟨by simpa [Clean] using hclean, rfl⟩
  · refine .inr ⟨⟨n, ?_⟩, by rw [strictStr, h]; rfl⟩
    have hmem : CodePoint.surrogate n ∈ s.flatMap escapePoint :=
      List.mem_flatMap.mpr ⟨_, hn, List.mem_singleton_self _⟩
    exact List.mem_cons_of_mem _ (List.mem_append_left _ hmem)

/-! ## Values -/

/-- Induction over a host value with the hypothesis for every element and member. -/
theorem value_induct {motive : Value → Prop} (hnone : motive .none) (hbool : ∀ b, motive (.bool b))
    (hint : ∀ z, motive (.int z)) (hfloat : ∀ x, motive (.float x)) (hstr : ∀ s, motive (.str s))
    (hlist : ∀ vs, (∀ v ∈ vs, motive v) → motive (.list vs))
    (hdict : ∀ ms : List (PyStr × Value), (∀ m ∈ ms, motive m.2) → motive (.dict ms))
    (v : Value) : motive v := by
  refine @Value.rec motive (fun vs => ∀ v ∈ vs, motive v) (fun ms => ∀ m ∈ ms, motive m.2)
    (fun m => motive m.2) hnone hbool hint hfloat hstr hlist hdict ?_ ?_ ?_ ?_ ?_ v
  · intro v hv
    cases hv
  · intro v vs ih ihs w hw
    rcases List.mem_cons.mp hw with rfl | hw
    · exact ih
    · exact ihs w hw
  · intro m hm
    cases hm
  · intro m ms ih ihs w hw
    rcases List.mem_cons.mp hw with rfl | hw
    · exact ih
    · exact ihs w hw
  · intro _ _ ih
    exact ih

/-- The dump of `v` is a text from which §6 reads `strict v`. -/
def Spelled (v : Value) : Prop :=
  ∃ t : Phrase Constant, HostJson.dumps v = ofStr (t.text Constant.text) ∧ read t = strict v

/-- The dump of `v` does not encode. -/
def Broken (v : Value) : Prop := (∃ n, .surrogate n ∈ HostJson.dumps v) ∧ strict v = none

theorem mem_intercalate {α : Type} {sep x : List α} {ts : List (List α)} {a : α} (hx : x ∈ ts)
    (ha : a ∈ x) : a ∈ sep.intercalate ts := by
  induction ts with
  | nil => cases hx
  | cons t ts ih =>
      cases ts with
      | nil =>
          rw [List.mem_singleton] at hx
          rw [← hx]
          simpa [List.intercalate] using ha
      | cons u ts =>
          have hstep : sep.intercalate (t :: u :: ts) = t ++ (sep ++ sep.intercalate (u :: ts)) := by
            simp [List.intercalate]
          rw [hstep, List.mem_append, List.mem_append]
          rcases List.mem_cons.mp hx with rfl | hx
          · exact .inl ha
          · exact .inr (.inr (ih hx))

theorem dumpsList_eq (vs : List Value) : dumpsList vs = vs.map HostJson.dumps := by
  induction vs with
  | nil => rfl
  | cons v vs ih => rw [dumpsList, ih, List.map_cons]

theorem dumpsPairs_eq (ms : List (PyStr × Value)) :
    dumpsPairs ms = ms.map fun m => HostJson.quote m.1 ++ .scalar ':' :: HostJson.dumps m.2 := by
  induction ms with
  | nil => rfl
  | cons m ms ih => rw [dumpsPairs, ih, List.map_cons]

theorem strictList_none {vs : List Value} {v : Value} (hv : v ∈ vs) (h : strict v = none) :
    strictList vs = none := by
  induction vs with
  | nil => cases hv
  | cons w vs ih =>
      rw [strictList]
      rcases List.mem_cons.mp hv with rfl | hv
      · rw [h]
        rfl
      · rw [ih hv]
        cases strict w <;> rfl

theorem strictPairs_none {ms : List (PyStr × Value)} {m : PyStr × Value} (hm : m ∈ ms)
    (h : strictStr m.1 = none ∨ strict m.2 = none) : strictPairs ms = none := by
  induction ms with
  | nil => cases hm
  | cons n ms ih =>
      rw [strictPairs]
      rcases List.mem_cons.mp hm with rfl | hm
      · rcases h with h | h
        · rw [h]
          rfl
        · rw [h]
          cases strictStr m.1 <;> rfl
      · rw [ih hm]
        cases strictStr n.1 <;> cases strict n.2 <;> rfl

theorem exists_items {vs : List Value} (hne : vs ≠ []) (h : ∀ v ∈ vs, Spelled v) :
    ∃ es : Elements Constant,
      [.scalar ','].intercalate (dumpsList vs) = ofStr (es.text Constant.text) ∧
        readElements es = strictList vs := by
  induction vs with
  | nil => exact absurd rfl hne
  | cons v vs ih =>
      obtain ⟨t, htext, hread⟩ := h v (List.mem_cons_self ..)
      cases vs with
      | nil =>
          refine ⟨.one .none t .none, ?_, ?_⟩
          · simp [dumpsList, htext, Elements.text, Ws.none, List.intercalate]
          · rw [readElements, hread, strictList, strictList]
            cases strict v <;> rfl
      | cons v' vs =>
          obtain ⟨es, hes, hreads⟩ := ih (List.cons_ne_nil _ _)
            fun v hv => h v (List.mem_cons_of_mem _ hv)
          refine ⟨.cons .none t .none es, ?_, ?_⟩
          · have hstep : [CodePoint.scalar ','].intercalate (dumpsList (v :: v' :: vs)) =
                HostJson.dumps v ++ .scalar ',' :: [.scalar ','].intercalate (dumpsList (v' :: vs)) := by
              simp [dumpsList, List.intercalate]
            rw [hstep, hes, htext]
            simp [Elements.text, Ws.none, ofStr]
          · rw [readElements, hread, hreads]
            rfl

theorem exists_pairs {ms : List (PyStr × Value)} (hne : ms ≠ [])
    (h : ∀ m ∈ ms, (∃ ps, HostJson.quote m.1 = ofStr (stringText ps) ∧
      readString ps = strictStr m.1) ∧ Spelled m.2) :
    ∃ ts : JsonGrammar.Members Constant,
      [.scalar ','].intercalate (dumpsPairs ms) = ofStr (ts.text Constant.text) ∧
        readMembers ts = strictPairs ms := by
  induction ms with
  | nil => exact absurd rfl hne
  | cons m ms ih =>
      obtain ⟨k, v⟩ := m
      obtain ⟨⟨ps, hk, hkread⟩, t, htext, hread⟩ := h (k, v) (List.mem_cons_self ..)
      cases ms with
      | nil =>
          refine ⟨.one .none ps .none .none t .none, ?_, ?_⟩
          · simp [dumpsPairs, hk, htext, JsonGrammar.Members.text, Ws.none, List.intercalate, ofStr]
          · rw [readMembers, hkread, hread, strictPairs, strictPairs]
            cases strictStr k <;> cases strict v <;> rfl
      | cons m' ms =>
          obtain ⟨ts, hts, hreads⟩ := ih (List.cons_ne_nil _ _)
            fun m hm => h m (List.mem_cons_of_mem _ hm)
          refine ⟨.cons .none ps .none .none t .none ts, ?_, ?_⟩
          · have hstep : [CodePoint.scalar ','].intercalate (dumpsPairs ((k, v) :: m' :: ms)) =
                HostJson.quote k ++ .scalar ':' :: (HostJson.dumps v ++
                  .scalar ',' :: [.scalar ','].intercalate (dumpsPairs (m' :: ms))) := by
              simp [dumpsPairs, List.intercalate]
            rw [hstep, hts, hk, htext]
            simp [JsonGrammar.Members.text, Ws.none, ofStr]
          · rw [readMembers, hkread, hread, hreads]
            rfl

/-- **What `dumps` writes is the text of a derivation from which §6 reads
`strict v`**, or it has a surrogate. -/
theorem dumps_cases (v : Value) : Spelled v ∨ Broken v := by
  induction v using value_induct with
  | hnone => exact .inl ⟨.null, rfl, rfl⟩
  | hbool b => exact .inl ⟨.bool b, by cases b <;> rfl, rfl⟩
  | hint z =>
      obtain ⟨n, htext, hneg, hdec⟩ := exists_int z
      refine .inl ⟨.num n, by rw [HostJson.dumps, ← htext]; rfl, ?_⟩
      rw [read, strict, readNumber, strictInt, numberValue_eq, hneg, hdec]
      simp only [decide_eq_true_eq]
  | hfloat x =>
      cases x with
      | finite x =>
          obtain ⟨n, htext, hread⟩ := exists_float x
          refine .inl ⟨.num n, by rw [HostJson.dumps, floatText, ← htext]; rfl, ?_⟩
          rw [read, strict, hread]
          split <;> rfl
      | inf neg =>
          cases neg with
          | true => exact .inl ⟨.ext .negInfinity, rfl, rfl⟩
          | false => exact .inl ⟨.ext .infinity, rfl, rfl⟩
      | nan => exact .inl ⟨.ext .nan, rfl, rfl⟩
  | hstr s =>
      rcases quote_cases s with ⟨ps, htext, hread⟩ | ⟨hn, hnone⟩
      · exact .inl ⟨.str ps, htext, by rw [read, strict, hread]⟩
      · exact .inr ⟨hn, by rw [strict, hnone]; rfl⟩
  | hlist vs ih =>
      by_cases hall : ∀ v ∈ vs, Spelled v
      · by_cases hne : vs = []
        · subst hne
          exact .inl ⟨.arrEmpty .none, rfl, rfl⟩
        · obtain ⟨es, htext, hread⟩ := exists_items hne hall
          refine .inl ⟨.arr es, ?_, by rw [read, strict, hread]⟩
          rw [HostJson.dumps, htext, Phrase.text]
          simp [ofStr]
      · push Not at hall
        obtain ⟨v, hv, hnot⟩ := hall
        obtain ⟨⟨n, hn⟩, hnone⟩ := (ih v hv).resolve_left hnot
        refine .inr ⟨⟨n, ?_⟩, by rw [strict, strictList_none hv hnone]; rfl⟩
        have hmem : CodePoint.surrogate n ∈ [CodePoint.scalar ','].intercalate (dumpsList vs) :=
          mem_intercalate (by rw [dumpsList_eq]; exact List.mem_map_of_mem hv) hn
        exact List.mem_cons_of_mem _ (List.mem_append_left _ hmem)
  | hdict ms ih =>
      by_cases hall : ∀ m ∈ ms, (∃ ps, HostJson.quote m.1 = ofStr (stringText ps) ∧
          readString ps = strictStr m.1) ∧ Spelled m.2
      · by_cases hne : ms = []
        · subst hne
          exact .inl ⟨.objEmpty .none, rfl, rfl⟩
        · obtain ⟨ts, htext, hread⟩ := exists_pairs hne hall
          refine .inl ⟨.obj ts, ?_, by rw [read, strict, hread]⟩
          rw [HostJson.dumps, htext, Phrase.text]
          simp [ofStr]
      · push Not at hall
        obtain ⟨m, hm, hnot⟩ := hall
        have hpair : (∃ n, CodePoint.surrogate n ∈ HostJson.quote m.1 ++ .scalar ':' :: HostJson.dumps m.2) ∧
            (strictStr m.1 = none ∨ strict m.2 = none) := by
          rcases quote_cases m.1 with hk | ⟨⟨n, hn⟩, hnone⟩
          · obtain ⟨⟨n, hn⟩, hnone⟩ := (ih m hm).resolve_left (hnot hk)
            exact ⟨⟨n, List.mem_append_right _ (List.mem_cons_of_mem _ hn)⟩, .inr hnone⟩
          · exact ⟨⟨n, List.mem_append_left _ hn⟩, .inl hnone⟩
        obtain ⟨⟨n, hn⟩, hnone⟩ := hpair
        refine .inr ⟨⟨n, ?_⟩, by rw [strict, strictPairs_none hm hnone]; rfl⟩
        have hmem : CodePoint.surrogate n ∈ [CodePoint.scalar ','].intercalate (dumpsPairs ms) :=
          mem_intercalate (by rw [dumpsPairs_eq]; exact List.mem_map_of_mem hm) hn
        exact List.mem_cons_of_mem _ (List.mem_append_left _ hmem)

/-! ## Parsing a dump -/

theorem foreign_constants : Foreign Constant.text where
  head l := by
    cases l
    · exact ⟨'N', _, rfl, rfl, by decide⟩
    · exact ⟨'I', _, rfl, rfl, by decide⟩
    · exact ⟨'-', _, rfl, rfl, by decide⟩
  raises l rest stack := by cases l <;> exact ⟨.invalidJson, rfl⟩

/-- **`parse_utf8` on a dump** returns `strict v`, or raises `JsonInputError`. -/
theorem parseUtf8_dumps {v : Value} {raw : Bytes} (h : encode (HostJson.dumps v) = some raw) :
    (∃ w, strict v = some w ∧ parseUtf8 raw = .ok w) ∨
      strict v = none ∧ ∃ r, parseUtf8 raw = .error (.jsonInputError r) := by
  rcases dumps_cases v with ⟨t, htext, hread⟩ | ⟨⟨n, hn⟩, -⟩
  · rw [encode, htext, chars_ofStr, Option.map_some] at h
    obtain rfl := Option.some.inj h
    have hparse := parseUtf8_text foreign_constants Ws.none t Ws.none
    simpa [Ws.none, hread] using hparse
  · rw [encode, chars_surrogate hn] at h
    cases h

/-- What §6 reads was encoded. -/
theorem strict_encodes {v : Value} {w : Json Str} (h : strict v = some w) :
    ∃ raw, encode (HostJson.dumps v) = some raw ∧ parseUtf8 raw = .ok w := by
  have henc : ∃ raw, encode (HostJson.dumps v) = some raw := by
    rcases dumps_cases v with ⟨t, htext, -⟩ | ⟨-, hnone⟩
    · exact ⟨_, by rw [encode, htext, chars_ofStr]; rfl⟩
    · rw [h] at hnone
      cases hnone
  obtain ⟨raw, hraw⟩ := henc
  rcases parseUtf8_dumps hraw with ⟨w', hw', hparse⟩ | ⟨hnone, -⟩
  · rw [h] at hw'
    obtain rfl := Option.some.inj hw'
    exact ⟨raw, hraw, hparse⟩
  · rw [h] at hnone
    cases hnone

/-! ## What the codec loses -/

mutual

/-- No object names a member twice and no number is the token `-0`. -/
def Regular : Phrase Constant → Prop
  | .null => True
  | .bool _ => True
  | .num x => x.text ≠ ['-', '0']
  | .str _ => True
  | .ext _ => True
  | .arrEmpty _ => True
  | .arr es => RegularElements es
  | .objEmpty _ => True
  | .obj ms => ((pairs ms).map Prod.fst).Nodup ∧ RegularMembers ms

def RegularElements : Elements Constant → Prop
  | .one _ t _ => Regular t
  | .cons _ t _ es => Regular t ∧ RegularElements es

def RegularMembers : JsonGrammar.Members Constant → Prop
  | .one _ _ _ _ t _ => Regular t
  | .cons _ _ _ _ t _ ms => Regular t ∧ RegularMembers ms

end

theorem chars_scalar (c : Char) (s : PyStr) : chars (.scalar c :: s) = (chars s).map (c :: ·) := rfl

theorem codePoint_surrogate {n : Nat} (h : (isHighCode n || isLowCode n) = true) (s : PyStr) :
    chars (codePoint n :: s) = none := by
  rw [codePoint, if_pos h]
  rfl

/-- The host decodes what §6 decodes, and keeps a surrogate otherwise. -/
theorem chars_scanString (ps : List Piece) : chars (scanString ps) = decode ps := by
  fun_induction decode ps with
  | case1 => rfl
  | case2 c h ps ih => rw [scanString, chars_scalar, ih]
  | case3 e ps ih => rw [scanString, chars_scalar, ih]
  | case4 a b c d hhigh a' b' c' d' ps hlow ih =>
      rw [scanString.eq_def]
      dsimp only
      rw [if_pos hhigh, if_pos hlow, chars_scalar, ih]
  | case5 a b c d hhigh a' b' c' d' ps hlow =>
      rw [scanString.eq_def]
      dsimp only
      rw [if_pos hhigh, if_neg hlow, codePoint_surrogate (by rw [hhigh]; rfl)]
  | case6 a b c d ps hhigh hno =>
      rw [scanString.eq_def]
      dsimp only
      rw [if_pos hhigh]
      split
      · exact absurd rfl (hno _ _ _ _ _)
      · rw [codePoint_surrogate (by rw [hhigh]; rfl)]
  | case7 a b c d ps hhigh hlow =>
      rw [scanString.eq_def]
      dsimp only
      rw [if_neg hhigh, codePoint_surrogate (by rw [hlow, Bool.or_true])]
  | case8 a b c d ps hhigh hlow ih =>
      rw [scanString.eq_def]
      dsimp only
      rw [if_neg hhigh, codePoint, if_neg (by simp [hhigh, hlow]), chars_scalar, ih]

theorem strictStr_scanString (ps : List Piece) : strictStr (scanString ps) = readString ps := by
  rw [strictStr, chars_scanString, readString]

theorem digitsValue_pos {ds : Digits} (h : ds.1.head? ≠ some '0') : 0 < digitsValue ds.1 := by
  obtain ⟨ds, hne, hds⟩ := ds
  cases ds with
  | nil => exact absurd rfl hne
  | cons d ds =>
      have hd : d.isDigit = true := hds d (List.mem_cons_self ..)
      have hlo : 48 ≤ d.toNat := by
        simp only [Char.isDigit, Bool.and_eq_true, decide_eq_true_eq] at hd
        exact hd.1
      have hzero : d.toNat ≠ 48 := fun heq => h (congrArg some (Char.toNat_inj.mp heq))
      have hpos : 0 < 10 ^ ds.length * (10 * 0 + (d.toNat - '0'.toNat)) :=
        Nat.mul_pos (Nat.pow_pos (by decide)) (by
          have h0 : '0'.toNat = 48 := rfl
          omega)
      rw [digitsValue, Nat.ofDigitChars_cons, Nat.ofDigitChars_eq_ofDigitChars_zero]
      omega

/-- An integer token other than `-0` keeps its value. -/
theorem strictInt_intOf {x : Number} (hfrac : x.frac = none) (hexp : x.exp = none)
    (h : x.text ≠ ['-', '0']) : strictInt (intOf x) = readNumber x := by
  obtain ⟨neg, ds, lead, frac, exp⟩ := x
  obtain rfl : frac = none := hfrac
  obtain rfl : exp = none := hexp
  have hdec : Number.decimal ⟨neg, ds, lead, none, none⟩ = ⟨digitsValue ds.1, 0⟩ := by
    simp [Number.decimal]
  have hzero : neg = true → digitsValue ds.1 ≠ 0 := by
    rintro rfl hval
    rcases lead with hds | hlead
    · exact h (by simp [Number.text, hds, fracText, expText])
    · exact absurd hval (digitsValue_pos hlead).ne'
  have hint : intOf ⟨neg, ds, lead, none, none⟩ < 0 ↔ neg = true := by
    cases neg with
    | false => simp [intOf]
    | true =>
        have hpos := Nat.pos_of_ne_zero (hzero rfl)
        simp only [intOf, if_true, iff_true]
        omega
  have habs : (intOf ⟨neg, ds, lead, none, none⟩).natAbs = digitsValue ds.1 := by
    cases neg <;> simp [intOf]
  have hneg : decide (intOf ⟨neg, ds, lead, none, none⟩ < 0) = neg :=
    Bool.eq_iff_iff.mpr (by rw [decide_eq_true_iff]; exact hint)
  rw [strictInt, readNumber, numberValue_eq, hdec, habs, hneg]
  simp only [hint]

theorem strict_floatOf (x : Number) : strict (.float (floatOf x)) = (readNumber x).map .num := by
  rw [floatOf, readNumber]
  cases hx : numberValue x with
  | none => rfl
  | some y =>
      rw [Option.elim_some, strict, numberValue_neg hx]
      by_cases hz : x.neg = true ∧ y.mag = 0
      · have hnone : (some y).filter (fun y => decide (x.neg = true → y.mag ≠ 0)) = none :=
          Option.filter_eq_none_iff.mpr fun y' hy' hp => by
            obtain rfl := Option.some.inj hy'
            exact of_decide_eq_true hp hz.1 hz.2
        rw [if_pos hz, hnone]
        rfl
      · have hsome : (some y).filter (fun y => decide (x.neg = true → y.mag ≠ 0)) = some y :=
          Option.filter_eq_some_iff.mpr ⟨rfl, decide_eq_true fun hn hm => hz ⟨hn, hm⟩⟩
        rw [if_neg hz, hsome]
        rfl

theorem strict_matchNumber {x : Number} (h : x.text ≠ ['-', '0']) :
    strict (matchNumber x) = (readNumber x).map .num := by
  rw [matchNumber]
  split
  · rename_i hx
    rw [Bool.and_eq_true, Option.isNone_iff_eq_none, Option.isNone_iff_eq_none] at hx
    rw [strict, strictInt_intOf hx.1 hx.2 h]
  · exact strict_floatOf x

/-- A `dict` of distinct names keeps its pairs. -/
theorem foldl_set {ps acc : List (PyStr × Value)} (h : ((acc ++ ps).map Prod.fst).Nodup) :
    ps.foldl (fun ms p => Multimap.set ms p.1 p.2) acc = acc ++ ps := by
  induction ps generalizing acc with
  | nil => exact (List.append_nil acc).symm
  | cons p ps ih =>
      have hnot : p.1 ∉ acc.map Prod.fst := fun hmem => by
        rw [List.map_append, List.map_cons, List.nodup_append] at h
        exact h.2.2 p.1 hmem p.1 (List.mem_cons_self ..) rfl
      have hnone : ¬ (acc.lookup p.1).isSome = true := by
        rw [Json.lookup_eq_none.mpr hnot]
        decide
      have hassoc : acc ++ [(p.1, p.2)] ++ ps = acc ++ p :: ps := by simp
      rw [List.foldl_cons, Multimap.set, if_neg hnone, ih (by rwa [hassoc]), hassoc]

theorem dictOf_eq {ps : List (PyStr × Value)} (h : (ps.map Prod.fst).Nodup) : dictOf ps = ps :=
  foldl_set h

mutual

/-- **A regular text keeps its value**: §6 reads from the dump what it reads
from the text. -/
theorem strict_value {t : Phrase Constant} (h : Regular t) :
    strict (HostJson.value t) = read t := by
  match t with
  | .null => rfl
  | .bool b => rfl
  | .num x => exact strict_matchNumber h
  | .str s => rw [HostJson.value, strict, strictStr_scanString, read]
  | .ext l => cases l <;> rfl
  | .arrEmpty w => rfl
  | .arr es => rw [HostJson.value, strict, strictList_items h, read]
  | .objEmpty w => rfl
  | .obj ms =>
      obtain ⟨hnd, hms⟩ := h
      rw [HostJson.value, strict, dictOf_eq hnd, strictPairs_pairs hms, read]

theorem strictList_items {es : Elements Constant} (h : RegularElements es) :
    strictList (items es) = readElements es := by
  match es with
  | .one w t w' =>
      rw [items, strictList, strictList, strict_value (t := t) h, readElements]
      cases read t <;> rfl
  | .cons w t w' es =>
      rw [items, strictList, strict_value h.1, strictList_items h.2, readElements]

theorem strictPairs_pairs {ms : JsonGrammar.Members Constant} (h : RegularMembers ms) :
    strictPairs (pairs ms) = readMembers ms := by
  match ms with
  | .one w k w₁ w₂ t w' =>
      rw [pairs, strictPairs, strictPairs, strictStr_scanString, strict_value (t := t) h,
        readMembers]
      cases readString k <;> cases read t <;> rfl
  | .cons w k w₁ w₂ t w' ms =>
      rw [pairs, strictPairs, strictStr_scanString, strict_value h.1, strictPairs_pairs h.2,
        readMembers]

end

/-! ## §6 texts are regular -/

theorem minusZero_value {x : Number} (h : x.text = ['-', '0']) :
    x.neg = true ∧ x.decimal.coeff = 0 := by
  obtain ⟨neg, ds, lead, frac, exp⟩ := x
  obtain ⟨d, s, hds, hd⟩ := Reader.digits_head ds
  cases neg with
  | false =>
      simp only [Number.text, hds, Bool.false_eq_true, if_false, List.nil_append,
        List.cons_append, List.cons.injEq] at h
      rw [h.1] at hd
      cases hd
  | true =>
      simp only [Number.text, hds, if_true, List.cons_append, List.nil_append,
        List.cons.injEq, List.append_eq_nil_iff, true_and] at h
      obtain ⟨rfl, ⟨rfl, hfrac⟩, -⟩ := h
      refine ⟨rfl, ?_⟩
      cases frac with
      | none =>
          simp only [Number.decimal, hds, Option.elim_none]
          decide
      | some fs => cases hfrac

theorem names_eq_pairs (ms : JsonGrammar.Members Constant) :
    names ms = ((pairs ms).map Prod.fst).map chars := by
  match ms with
  | .one w k w₁ w₂ t w' =>
      rw [names, ← chars_scanString]
      rfl
  | .cons w k w₁ w₂ t w' ms =>
      rw [names, ← chars_scanString, names_eq_pairs ms]
      rfl

mutual

/-- What §6 admits is regular. -/
theorem Admissible.regular {t : Phrase Constant} (h : Admissible t) : Regular t := by
  match t with
  | .null => trivial
  | .bool b => trivial
  | .num x =>
      intro htext
      obtain ⟨hneg, hcoeff⟩ := minusZero_value htext
      obtain ⟨y, hy, hz⟩ := h
      exact hz hneg ((numberValue_zero hcoeff).mp hy).2
  | .str s => trivial
  | .ext l => trivial
  | .arrEmpty w => trivial
  | .arr es => exact AdmissibleElements.regular h
  | .objEmpty w => trivial
  | .obj ms =>
      obtain ⟨hnd, hms⟩ := h
      rw [names_eq_pairs] at hnd
      exact ⟨hnd.of_map chars, AdmissibleMembers.regular hms⟩

theorem AdmissibleElements.regular {es : Elements Constant} (h : AdmissibleElements es) :
    RegularElements es := by
  match es with
  | .one w t w' => exact Admissible.regular (t := t) h
  | .cons w t w' es => exact ⟨Admissible.regular h.1, AdmissibleElements.regular h.2⟩

theorem AdmissibleMembers.regular {ms : JsonGrammar.Members Constant} (h : AdmissibleMembers ms) :
    RegularMembers ms := by
  match ms with
  | .one w k w₁ w₂ t w' => exact Admissible.regular h.2
  | .cons w k w₁ w₂ t w' ms => exact ⟨Admissible.regular h.2.1, AdmissibleMembers.regular h.2.2⟩

end

/-- §6 reads from the dump of a value what it reads from its text. -/
theorem strict_of_read {t : Phrase Constant} {v : Json Str} (h : read t = some v) :
    strict (HostJson.value t) = some v := by
  rw [strict_value (read_eq_some.mp h).1.regular, h]

/-! ## Byte strings -/

theorem loads_eq_ok {s : Str} {v : Value} :
    loads s = .ok v ↔ ∃ (w : Ws) (t : Phrase Constant) (w' : Ws),
      s = w.1 ++ t.text Constant.text ++ w'.1 ∧ v = HostJson.value t := by
  rw [loads]
  cases hdoc : Reader.document constants s with
  | none =>
      refine ⟨nofun, ?_⟩
      rintro ⟨w, t, w', hs, -⟩
      rw [(Reader.document_iff constants).mpr hs] at hdoc
      cases hdoc
  | some p =>
      obtain ⟨w, t, w'⟩ := p
      have hs := (Reader.document_iff constants).mp hdoc
      constructor
      · intro h
        exact ⟨w, t, w', hs, (Except.ok.inj h).symm⟩
      · rintro ⟨w₁, t₁, w₁', hs₁, rfl⟩
        obtain ⟨-, rfl, -⟩ := Reader.document_unique constants (hs.symm.trans hs₁)
        rfl

theorem loadsUtf8_eq_ok {data : Bytes} {v : Value} :
    loadsUtf8 data = .ok v ↔ ∃ (w : Ws) (t : Phrase Constant) (w' : Ws),
      data = Unicode.utf8 (w.1 ++ t.text Constant.text ++ w'.1) ∧ v = HostJson.value t := by
  rw [loadsUtf8]
  cases hdec : Unicode.decodeUtf8 data with
  | none =>
      refine ⟨nofun, ?_⟩
      rintro ⟨w, t, w', rfl, -⟩
      rw [Unicode.decodeUtf8_utf8] at hdec
      cases hdec
  | some s =>
      obtain rfl := Unicode.decodeUtf8_eq_some.mp hdec
      rw [loads_eq_ok]
      constructor
      · rintro ⟨w, t, w', rfl, hv⟩
        exact ⟨w, t, w', rfl, hv⟩
      · rintro ⟨w, t, w', hs, hv⟩
        exact ⟨w, t, w', Unicode.utf8_inj hs, hv⟩

/-- **The host's codec keeps what §6 accepts**: the text is loaded, and what is
dumped from it is accepted with the same value. -/
theorem reencode {data : Bytes} {v : Json Str} (h : parseUtf8 data = .ok v) :
    ∃ hv raw, loadsUtf8 data = .ok hv ∧ encode (HostJson.dumps hv) = some raw ∧ parseUtf8 raw = .ok v := by
  obtain ⟨w, t, w', rfl, hread⟩ := parseUtf8_sound h
  have htext : document w t w' = w.1 ++ (t.map Empty.elim).text Constant.text ++ w'.1 := by
    have hext : (fun l : Empty => Constant.text (Empty.elim l)) = Empty.elim := funext nofun
    rw [Phrase.text_map, hext]
    rfl
  have hstrict := strict_of_read ((read_map (Empty.elim : Empty → Constant) t).trans hread)
  obtain ⟨raw, hraw, hparse⟩ := strict_encodes hstrict
  exact ⟨_, raw, loadsUtf8_eq_ok.mpr ⟨w, _, w', by rw [htext], rfl⟩, hraw, hparse⟩

end SwarmPointer.JsonInput
