import SwarmPointer.Jcs.Sorted
import SwarmPointer.Jcs.Numbers
import SwarmPointer.Lib.Search

/-!
# Canonical JSON — where a member can be found by its bytes

The text `"name":"` occurs in a canonical text exactly when an object in the
value has a member with a string value whose name is `name` or ends in
`"name`: the quotation mark of an escape can begin it as well.

A text is searched at the byte level by a program that knows nothing of JSON,
so the occurrences of the marker have to be told apart by what surrounds them.
They are found by recursion on the value: an occurrence that begins in a value
ends in it, because what follows a value is a comma or a closing bracket
(`Ends`). The last
section says where the marker of a new member comes among the texts of the
members before it in name order and after it.
-/

namespace SwarmPointer.Jcs

open Json Rfc8785 Search

/-- `"name":"`. -/
def marker (name : Str) : Str := '"' :: name ++ ['"', ':', '"']

/-- Letters, at least one. -/
def Letters (name : Str) : Prop := name ≠ [] ∧ ∀ c ∈ name, c.isAlpha = true

/-! ## Escapes -/

/-- An escape begins with a backslash, or it is the character. -/
theorem escape_cases (c : Char) : (∃ s, escape c = '\\' :: s) ∨ escape c = [c] := by
  simp only [escape]
  split_ifs <;> first | exact .inl ⟨_, rfl⟩ | exact .inr rfl

/-- Only one escape has a quotation mark. -/
theorem quote_mem_escape {c : Char} (h : '"' ∈ escape c) : escape c = ['\\', '"'] ∧ c = '"' := by
  by_cases hq : c = '"'
  · rw [hq]
    exact ⟨rfl, rfl⟩
  · have hhex : ∀ n < 16, hexDigit n ≠ '"' := by decide
    simp only [escape, if_neg hq] at h
    split_ifs at h with h1 h2 h3 h4 h5 h6 h7
    all_goals try exact absurd h (by decide)
    · simp only [List.mem_cons, List.not_mem_nil, or_false] at h
      rcases h with h | h | h | h | h | h
      · exact absurd h (by decide)
      · exact absurd h (by decide)
      · exact absurd h (by decide)
      · exact absurd h (by decide)
      · exact absurd h.symm (hhex _ (by omega))
      · exact absurd h.symm (hhex _ (by omega))
    · exact absurd (List.mem_singleton.mp h).symm hq

theorem alphanum_ne {c d : Char} (h : c.isAlphanum = true) (hd : d.isAlphanum = false) : c ≠ d := by
  rintro rfl
  rw [h] at hd
  cases hd

/-- Letters and digits are not escaped. -/
theorem escape_alphanum {c : Char} (h : c.isAlphanum = true) : escape c = [c] := by
  have hcontrol : ¬ c.toNat < 0x20 := by
    have key : ∀ n < 0x20, (Char.ofNat n).isAlphanum = false := by decide
    intro hlt
    have hfalse := key _ hlt
    rw [Char.ofNat_toNat, h] at hfalse
    cases hfalse
  rw [escape, if_neg (alphanum_ne h rfl), if_neg (alphanum_ne h rfl), if_neg (alphanum_ne h rfl),
    if_neg (alphanum_ne h rfl), if_neg (alphanum_ne h rfl), if_neg (alphanum_ne h rfl),
    if_neg (alphanum_ne h rfl), if_neg hcontrol]

theorem flatMap_alphanum {s : Str} (h : ∀ c ∈ s, c.isAlphanum = true) : s.flatMap escape = s := by
  induction s with
  | nil => rfl
  | cons c s ih =>
      rw [List.flatMap_cons, escape_alphanum (h c (List.mem_cons_self ..)),
        ih fun d hd => h d (List.mem_cons_of_mem _ hd)]
      rfl

theorem flatMap_letters {s : Str} (h : ∀ c ∈ s, c.isAlpha = true) : s.flatMap escape = s :=
  flatMap_alphanum fun c hc => by rw [Char.isAlphanum, h c hc, Bool.true_or]

/-- Letters are written for themselves only. -/
theorem eq_letters {s name : Str} (hname : ∀ c ∈ name, c.isAlpha = true)
    (h : s.flatMap escape = name) : s = name := by
  induction s generalizing name with
  | nil => exact h
  | cons c s ih =>
      rw [List.flatMap_cons] at h
      rcases escape_cases c with ⟨t, hc⟩ | hc
      · rw [hc] at h
        have hslash := hname '\\' (h ▸ List.mem_cons_self ..)
        exact absurd hslash (by decide)
      · rw [hc] at h
        subst h
        exact congrArg (c :: ·) (ih (fun d hd => hname d (List.mem_cons_of_mem _ hd)) rfl)

/-- Every quotation mark in escaped text follows a backslash. -/
theorem before_quote {s p r : Str} {x : Char} (h : s.flatMap escape = p ++ x :: '"' :: r) :
    x = '\\' := by
  induction s generalizing p with
  | nil => cases p <;> cases h
  | cons c s ih =>
      rw [List.flatMap_cons] at h
      rcases List.append_eq_append_iff.mp h with ⟨q, rfl, hs⟩ | ⟨q, hc, hs⟩
      · exact ih hs
      · rcases q with - | ⟨y, - | ⟨z, q⟩⟩
        · exact ih (p := []) hs.symm
        · -- the mark would begin the rest
          obtain ⟨rfl, hrest⟩ := List.cons.inj hs
          cases s with
          | nil => cases hrest
          | cons d s =>
              rw [List.flatMap_cons] at hrest
              rcases escape_cases d with ⟨t, hd⟩ | hd
              · rw [hd] at hrest
                exact absurd (List.cons.inj hrest).1 (by decide)
              · rw [hd] at hrest
                have hmark : '"' = d := (List.cons.inj hrest).1
                rw [← hmark] at hd
                exact absurd hd (by decide)
        · obtain ⟨rfl, hrest⟩ := List.cons.inj hs
          obtain ⟨rfl, -⟩ := List.cons.inj hrest
          have hmem : '"' ∈ escape c := hc ▸ by simp
          obtain ⟨hesc, -⟩ := quote_mem_escape hmem
          rw [hesc] at hc
          cases p with
          | nil => exact (List.cons.inj hc).1.symm
          | cons a p =>
              have hlen := congrArg List.length hc
              simp at hlen
              omega

/-- A quotation mark and letters at the end of escaped text are those of the text. -/
theorem suffix_of_escaped {s name p : Str} (hname : ∀ c ∈ name, c.isAlpha = true)
    (h : s.flatMap escape = p ++ '"' :: name) : '"' :: name <:+ s := by
  induction s generalizing p with
  | nil => cases p <;> cases h
  | cons c s ih =>
      rw [List.flatMap_cons] at h
      rcases List.append_eq_append_iff.mp h with ⟨q, rfl, hs⟩ | ⟨q, hc, hs⟩
      · exact (ih hs).trans (List.suffix_cons c s)
      · rcases q with - | ⟨y, q⟩
        · exact (ih (p := []) hs.symm).trans (List.suffix_cons c s)
        · obtain ⟨rfl, hrest⟩ := List.cons.inj hs
          have hmem : '"' ∈ escape c := hc ▸ by simp
          obtain ⟨hesc, rfl⟩ := quote_mem_escape hmem
          have hq : q = [] := by
            rw [hesc] at hc
            cases p with
            | nil => exact absurd (List.cons.inj hc).1 (by decide)
            | cons a p =>
                have hlen := congrArg List.length hc
                simp at hlen
                exact List.eq_nil_of_length_eq_zero (by omega)
          subst hq
          rw [eq_letters hname hrest.symm]

/-! ## Occurrences -/

/-- What can follow a value. -/
def Ends (r : Str) : Prop := ∀ c, r.head? = some c → c ∈ [',', ']', '\x7d']

theorem ends_cons {c : Char} (r : Str) (h : c ∈ [',', ']', '\x7d']) : Ends (c :: r) := by
  intro d hd
  rwa [← Option.some.inj hd]

/-- **An occurrence that begins in a string** is its name up to the closing
quotation mark, and a string value follows. -/
theorem within_quote {name s r : Str} (hname : Letters name)
    (hr : ∀ c, r.head? = some c → c.isAlpha = false) (h : Within (marker name) (quote s) r) :
    '"' :: name <:+ '"' :: s ∧ ∃ r', r = ':' :: '"' :: r' := by
  obtain ⟨a, b, heq, hlen⟩ := h
  have heq' : ('"' :: s.flatMap escape) ++ '"' :: r =
      a ++ ('"' :: (name ++ '"' :: ':' :: '"' :: b)) := by
    simpa [quote, marker] using heq
  have hlen' : a.length ≤ ('"' :: s.flatMap escape).length := by
    simp [quote] at hlen ⊢
    omega
  -- the closing quotation mark begins none
  have hinside : ∃ x, '"' :: s.flatMap escape = a ++ x ∧
      '"' :: (name ++ '"' :: ':' :: '"' :: b) = x ++ '"' :: r := by
    rcases List.append_eq_append_iff.mp heq' with ⟨c, rfl, hrest⟩ | ⟨c, hc, hrest⟩
    · rw [List.length_append] at hlen'
      obtain rfl : c = [] := List.eq_nil_of_length_eq_zero (by omega)
      exact ⟨[], by simp, by simpa using hrest.symm⟩
    · exact ⟨c, hc, hrest⟩
  obtain ⟨x, hx, hrest⟩ := hinside
  cases x with
  | nil =>
      obtain ⟨-, hr'⟩ := List.cons.inj hrest
      obtain ⟨l, ls, rfl⟩ := List.exists_cons_of_ne_nil hname.1
      have hl := hname.2 l (List.mem_cons_self ..)
      rw [hr l (by rw [← hr']; rfl)] at hl
      cases hl
  | cons y x =>
      obtain ⟨rfl, htail⟩ := List.cons.inj hrest
      have hname' : x = name → '"' :: name <:+ '"' :: s := by
        rintro rfl
        cases a with
        | nil =>
            rw [eq_letters hname.2 (List.cons.inj hx).2]
        | cons z a =>
            exact (suffix_of_escaped hname.2 (List.cons.inj hx).2).trans (List.suffix_cons _ s)
      rcases List.append_eq_append_iff.mp htail with ⟨z, rfl, hz⟩ | ⟨z, rfl, hz⟩
      · cases z with
        | nil =>
            obtain ⟨-, hr'⟩ := List.cons.inj hz
            exact ⟨hname' (List.append_nil _), b, hr'.symm⟩
        | cons w z =>
            -- a quotation mark after a letter
            obtain ⟨rfl, -⟩ := List.cons.inj hz
            obtain ⟨ls, l, rfl⟩ : ∃ ls l, name = ls ++ [l] :=
              ⟨_, _, (List.dropLast_append_getLast hname.1).symm⟩
            have hl := hname.2 l (by simp)
            have hslash : l = '\\' := by
              cases a with
              | nil => exact before_quote (p := ls) (r := z) (by simpa using (List.cons.inj hx).2)
              | cons v a =>
                  exact before_quote (p := a ++ '"' :: ls) (r := z)
                    (by simpa using (List.cons.inj hx).2)
            rw [hslash] at hl
            exact absurd hl (by decide)
      · cases z with
        | nil =>
            obtain ⟨-, hr'⟩ := List.cons.inj hz
            exact ⟨hname' (List.append_nil _).symm, b, hr'⟩
        | cons w z =>
            obtain ⟨rfl, -⟩ := List.cons.inj hz
            exact absurd (hname.2 '"' (by simp)) (by decide)

/-! ## Values -/

/-- An object in the value has a member with a string value whose name is
`name` or ends in `"name`. -/
inductive Marked (name : Str) : Json Str → Prop
  | here {k s : Str} {ms : Members Str} (hm : (k, .str s) ∈ ms) (hk : '"' :: name <:+ '"' :: k) :
      Marked name (.obj ms)
  | member {k : Str} {v : Json Str} {ms : Members Str} (hm : (k, v) ∈ ms) (h : Marked name v) :
      Marked name (.obj ms)
  | element {v : Json Str} {vs : List (Json Str)} (hv : v ∈ vs) (h : Marked name v) :
      Marked name (.arr vs)

theorem ends_not_alpha {r : Str} (hr : Ends r) : ∀ c, r.head? = some c → c.isAlpha = false := by
  have key : ∀ c ∈ [',', ']', '\x7d'], c.isAlpha = false := by decide
  exact fun c hc => key c (hr c hc)

theorem quote_not_mem_number (x : Binary64) : '"' ∉ Decimal.ecmaString x := by
  intro h
  rcases ecmaString_chars x '"' h with h | h <;> exact absurd h (by decide)

/-- Only a string begins with a quotation mark. -/
theorem text_quote {v : Json Str} {r r' : Str} (hr : Ends r) (h : text v ++ r = '"' :: r') :
    ∃ s, v = .str s := by
  cases v with
  | str s => exact ⟨s, rfl⟩
  | null => exact absurd (List.cons.inj h).1 (by decide)
  | bool b => cases b <;> exact absurd (List.cons.inj h).1 (by decide)
  | arr vs =>
      rw [text] at h
      exact absurd (List.cons.inj h).1 (by decide)
  | obj ms =>
      rw [text] at h
      exact absurd (List.cons.inj h).1 (by decide)
  | num x =>
      rw [text] at h
      cases hx : Decimal.ecmaString x with
      | nil =>
          rw [hx] at h
          have hmem := hr '"' (by rw [show r = '"' :: r' from h]; rfl)
          exact absurd hmem (by decide)
      | cons c cs =>
          rw [hx] at h
          have hmem := quote_not_mem_number x
          rw [hx, (List.cons.inj h).1] at hmem
          exact absurd (List.mem_cons_self ..) hmem

theorem within_cons {name t r : Str} {c : Char} (hc : c ≠ '"') (h : Within (marker name) (c :: t) r) :
    Within (marker name) t r := by
  rcases Within.append (t := [c]) h with h | h
  · exact absurd h (not_within_of_not_mem fun hmem => hc (List.mem_singleton.mp hmem).symm)
  · exact h

/-- In texts with commas between, an occurrence begins in one of them. -/
theorem within_intercalate {name : Str} {ts : List Str} {r : Str} (hr : Ends r)
    (h : Within (marker name) ([','].intercalate ts) r) :
    ∃ t ∈ ts, ∃ r', Ends r' ∧ Within (marker name) t r' := by
  induction ts with
  | nil => exact absurd h (not_within_nil _ r)
  | cons t ts ih =>
      cases ts with
      | nil =>
          rw [List.intercalate_singleton] at h
          exact ⟨t, List.mem_cons_self .., r, hr, h⟩
      | cons u ts =>
          rw [List.intercalate_cons_cons, List.append_assoc] at h
          rcases h.append with h | h
          · exact ⟨t, List.mem_cons_self .., _, ends_cons _ (by decide), h⟩
          · obtain ⟨w, hw, r', hr', h⟩ := ih (within_cons (by decide) h)
            exact ⟨w, List.mem_cons_of_mem _ hw, r', hr', h⟩

/-- A member is marked by its name or by its value. -/
theorem within_member {name k : Str} {v : Json Str} {r : Str} (hname : Letters name) (hr : Ends r)
    (ih : ∀ r, Ends r → Within (marker name) (text v) r → Marked name v)
    (h : Within (marker name) (member (k, text v)) r) :
    ('"' :: name <:+ '"' :: k ∧ ∃ s, v = .str s) ∨ Marked name v := by
  rcases Within.append (t := quote k) (u := ':' :: text v) h with h | h
  · obtain ⟨hk, r', hrest⟩ := within_quote hname (fun c hc => by
      rw [← Option.some.inj hc]
      decide) h
    exact .inl ⟨hk, text_quote hr (List.cons.inj hrest).2⟩
  · exact .inr (ih r hr (within_cons (by decide) h))

/-- A bracket before and one behind. -/
theorem within_brackets {name t r : Str} {c d : Char} (hc : c ≠ '"') (hd : d ≠ '"')
    (h : Within (marker name) (c :: t ++ [d]) r) : Within (marker name) t (d :: r) := by
  rcases Within.append (t := t) (u := [d]) (within_cons hc h) with h | h
  · exact h
  · exact absurd (within_cons hd h) (not_within_nil _ r)

/-- **Where the marker occurs there is such a member.** -/
theorem within_text {name : Str} (hname : Letters name) (v : Json Str) :
    ∀ r, Ends r → Within (marker name) (text v) r → Marked name v := by
  have hplain : ∀ {t r : Str}, '"' ∉ t → ¬ Within (marker name) t r :=
    fun ht => not_within_of_not_mem ht
  induction v using Json.induct with
  | hnull => exact fun r _ h => absurd h (hplain (by decide))
  | hbool b => cases b <;> exact fun r _ h => absurd h (hplain (by decide))
  | hnum x => exact fun r _ h => absurd h (hplain (quote_not_mem_number x))
  | hstr s =>
      intro r hr h
      obtain ⟨-, r', rfl⟩ := within_quote hname (ends_not_alpha hr) h
      exact absurd (hr ':' rfl) (by decide)
  | harr vs ih =>
      intro r hr h
      rw [text, textList_eq] at h
      obtain ⟨t, ht, r', hr', h⟩ := within_intercalate (ends_cons r (by decide))
        (within_brackets (by decide) (by decide) h)
      obtain ⟨v, hv, rfl⟩ := List.mem_map.mp ht
      exact .element hv (ih v hv r' hr' h)
  | hobj ms ih =>
      intro r hr h
      rw [text, textMembers_eq, sortByName_map] at h
      obtain ⟨t, ht, r', hr', h⟩ := within_intercalate (ends_cons r (by decide))
        (within_brackets (by decide) (by decide) h)
      obtain ⟨m, hm', rfl⟩ := List.mem_map.mp ht
      obtain ⟨⟨k, v⟩, hm, rfl⟩ := List.mem_map.mp hm'
      have hmem : (k, v) ∈ ms := (sortByName_perm ms).mem_iff.mp hm
      rcases within_member hname hr' (ih _ hmem) h with ⟨hk, s, rfl⟩ | hv
      · exact .here hmem hk
      · exact .member hmem hv

theorem infix_intercalate {t : Str} {ts : List Str} (h : t ∈ ts) : t <:+: [','].intercalate ts := by
  induction ts with
  | nil => cases h
  | cons u ts ih =>
      cases ts with
      | nil =>
          rw [List.intercalate_singleton, List.mem_singleton.mp h]
      | cons w ts =>
          rw [List.intercalate_cons_cons]
          rcases List.mem_cons.mp h with rfl | h
          · exact ⟨[], [','] ++ [','].intercalate (w :: ts), (List.append_assoc _ _ _).symm⟩
          · exact (ih h).trans ⟨_, [], List.append_nil _⟩

theorem infix_member {k : Str} {v : Json Str} {ms : Members Str} (h : (k, v) ∈ ms) :
    member (k, text v) <:+: text (.obj ms) := by
  have hmem : member (k, text v) ∈ (sortByName (textMembers ms)).map member := by
    rw [textMembers_eq, sortByName_map]
    exact List.mem_map_of_mem (List.mem_map.mpr ⟨(k, v), (sortByName_perm ms).mem_iff.mpr h, rfl⟩)
  rw [text]
  exact (infix_intercalate hmem).trans ⟨['\x7b'], ['\x7d'], rfl⟩

/-- **Such a member makes the marker occur.** -/
theorem infix_marked {name : Str} (hname : Letters name) {v : Json Str} (h : Marked name v) :
    marker name <:+: text v := by
  induction h with
  | @here k s ms hm hk =>
      refine List.IsInfix.trans ?_ (infix_member hm)
      have hstr : member (k, text (.str s)) =
          ('"' :: k.flatMap escape) ++ '"' :: ':' :: '"' :: (s.flatMap escape ++ ['"']) := by
        simp [member, text, quote]
      have hsuffix : '"' :: name <:+ '"' :: k.flatMap escape := by
        rcases List.suffix_cons_iff.mp hk with heq | ⟨p, rfl⟩
        · rw [← (List.cons.inj heq).2, flatMap_letters hname.2]
        · refine ⟨'"' :: p.flatMap escape ++ ['\\'], ?_⟩
          rw [List.flatMap_append, List.flatMap_cons, flatMap_letters hname.2]
          simp [escape]
      obtain ⟨p, hp⟩ := hsuffix
      refine ⟨p, s.flatMap escape ++ ['"'], ?_⟩
      rw [hstr, ← hp]
      simp [marker]
  | @member k v ms hm _ ih =>
      refine ih.trans (List.IsInfix.trans ?_ (infix_member hm))
      exact ⟨quote k ++ [':'], [], by simp [member]⟩
  | @element v vs hv _ ih =>
      refine ih.trans ?_
      rw [text, textList_eq]
      exact (infix_intercalate (List.mem_map_of_mem hv)).trans ⟨['['], [']'], rfl⟩


/-! ## The place of a member -/

/-- The texts of the members named before `k`. -/
def earlier (ms : Members Str) (k : Str) : List Str :=
  ((sortByName (textMembers ms)).filter fun m => units m.1 < units k).map member

/-- The texts of the members named behind `k`. -/
def later (ms : Members Str) (k : Str) : List Str :=
  ((sortByName (textMembers ms)).filter fun m => units k < units m.1).map member

/-- What stands before the member `k`. -/
def lead (ms : Members Str) (k : Str) : Str := '\x7b' :: (earlier ms k).flatMap (· ++ [','])

/-- What stands behind it. -/
def rear (ms : Members Str) (k : Str) : Str := (later ms k).flatMap (',' :: ·) ++ ['\x7d']

theorem intercalate_split (ts ts' : List Str) (t : Str) :
    [','].intercalate (ts ++ t :: ts') = ts.flatMap (· ++ [',']) ++ t ++ ts'.flatMap (',' :: ·) := by
  have hafter : ∀ (us : List Str) (t : Str),
      [','].intercalate (t :: us) = t ++ us.flatMap (',' :: ·) := by
    intro us
    induction us with
    | nil => exact fun t => List.intercalate_singleton.trans (List.append_nil t).symm
    | cons u us ih =>
        intro t
        rw [List.intercalate_cons_cons, ih u, List.flatMap_cons]
        simp
  induction ts with
  | nil => exact hafter ts' t
  | cons u ts ih =>
      have hne : ts ++ t :: ts' ≠ [] := by simp
      obtain ⟨w, ws, hw⟩ := List.exists_cons_of_ne_nil hne
      rw [List.cons_append, hw, List.intercalate_cons_cons, ← hw, ih, List.flatMap_cons]
      simp

/-- **An object with one member more** has it between those that are named
before and those that are named behind it. -/
theorem text_place {ms : Members Str} {k : Str} {v : Json Str} (h : (ms.map Prod.fst).Nodup)
    (hk : k ∉ ms.map Prod.fst) :
    text (.obj (ms ++ [(k, v)])) = lead ms k ++ member (k, text v) ++ rear ms k := by
  have hnames : ((textMembers ms).map Prod.fst) = ms.map Prod.fst := by
    rw [textMembers_eq, List.map_map]
    rfl
  have hstrict : (sortByName (textMembers ms)).Pairwise fun a b => units a.1 < units b.1 :=
    sortByName_strict (by rwa [hnames])
  have hne : ∀ m ∈ sortByName (textMembers ms), units m.1 ≠ units k := by
    intro m hm heq
    have hmem := List.mem_map_of_mem (f := Prod.fst) ((sortByName_perm _).mem_iff.mp hm)
    rw [hnames, units_inj heq] at hmem
    exact hk hmem
  have hbehind : ((sortByName (textMembers ms)).filter fun m => ¬ units m.1 < units k) =
      (sortByName (textMembers ms)).filter fun m => units k < units m.1 := by
    refine List.filter_congr fun m hm => ?_
    rw [decide_eq_decide, not_lt]
    exact ⟨fun hle => lt_of_le_of_ne hle (hne m hm).symm, le_of_lt⟩
  have hsorted : (sortByName (textMembers ms)).filter (fun m => units m.1 < units k) ++
      (k, text v) :: (sortByName (textMembers ms)).filter (fun m => units k < units m.1) =
        sortByName (textMembers (ms ++ [(k, v)])) := by
    apply eq_sortByName
    · rw [textMembers_eq (ms ++ _), List.map_append, ← textMembers_eq]
      refine List.perm_middle.trans ?_
      refine .trans (.cons _ ?_) (List.perm_append_singleton _ _).symm
      rw [← hbehind]
      refine .trans ?_ (sortByName_perm (textMembers ms))
      simpa only [decide_not] using
        List.filter_append_perm (fun m : Str × Str => decide (units m.1 < units k)) _
    · rw [List.pairwise_append]
      refine ⟨hstrict.filter _, List.pairwise_cons.mpr ⟨?_, hstrict.filter _⟩, ?_⟩
      · intro m hm
        exact of_decide_eq_true (List.mem_filter.mp hm).2
      · intro a ha b hb
        have hak := of_decide_eq_true (List.mem_filter.mp ha).2
        rcases List.mem_cons.mp hb with rfl | hb
        · exact hak
        · exact hak.trans (of_decide_eq_true (List.mem_filter.mp hb).2)
  rw [text, ← hsorted, List.map_append, List.map_cons, intercalate_split]
  simp [lead, rear, earlier, later]

theorem mem_earlier {ms : Members Str} {k : Str} {t : Str} :
    t ∈ earlier ms k ↔ ∃ m ∈ ms, units m.1 < units k ∧ member (m.1, text m.2) = t := by
  rw [earlier, textMembers_eq, List.mem_map]
  constructor
  · rintro ⟨m', hm', rfl⟩
    obtain ⟨hsorted, hlt⟩ := List.mem_filter.mp hm'
    obtain ⟨m, hm, rfl⟩ := List.mem_map.mp ((sortByName_perm _).mem_iff.mp hsorted)
    exact ⟨m, hm, of_decide_eq_true hlt, rfl⟩
  · rintro ⟨m, hm, hlt, rfl⟩
    exact ⟨(m.1, text m.2), List.mem_filter.mpr
      ⟨(sortByName_perm _).mem_iff.mpr (List.mem_map_of_mem hm), decide_eq_true hlt⟩, rfl⟩

/-- An occurrence that begins before the member `k` comes from a member named
before it. -/
theorem within_lead {name k r : Str} {ms : Members Str} (hname : Letters name)
    (h : Within (marker name) (lead ms k) r) :
    ∃ m ∈ ms, units m.1 < units k ∧
      (('"' :: name <:+ '"' :: m.1 ∧ ∃ s, m.2 = .str s) ∨ Marked name m.2) := by
  have hparts : ∀ ts : List Str, Within (marker name) (ts.flatMap (· ++ [','])) r →
      ∃ t ∈ ts, ∃ r', Ends r' ∧ Within (marker name) t r' := by
    intro ts
    induction ts with
    | nil => exact fun h => absurd h (not_within_nil _ r)
    | cons t ts ih =>
        intro h
        rw [List.flatMap_cons, List.append_assoc] at h
        rcases h.append with h | h
        · exact ⟨t, List.mem_cons_self .., _, ends_cons _ (by decide), h⟩
        · obtain ⟨t', ht', h⟩ := ih (within_cons (by decide) h)
          exact ⟨t', List.mem_cons_of_mem _ ht', h⟩
  obtain ⟨t, ht, r', hr', h⟩ := hparts _ (within_cons (by decide) h)
  obtain ⟨⟨j, v⟩, hm, hlt, rfl⟩ := mem_earlier.mp ht
  exact ⟨(j, v), hm, hlt, within_member hname hr' (within_text hname v) h⟩

/-- What stands before the member `k` has every member named before it. -/
theorem infix_lead {ms : Members Str} {k j : Str} {v : Json Str} (hm : (j, v) ∈ ms)
    (hlt : units j < units k) : text v <:+: lead ms k := by
  have hmem : member (j, text v) ∈ earlier ms k := mem_earlier.mpr ⟨(j, v), hm, hlt, rfl⟩
  have hflat : ∀ ts : List Str, member (j, text v) ∈ ts →
      member (j, text v) <:+: ts.flatMap (· ++ [',']) := by
    intro ts h
    obtain ⟨as, bs, rfl⟩ := List.append_of_mem h
    rw [List.flatMap_append, List.flatMap_cons]
    exact ⟨as.flatMap (· ++ [',']), [','] ++ bs.flatMap (· ++ [',']), by simp⟩
  refine List.IsInfix.trans ?_ ((hflat _ hmem).trans ⟨['\x7b'], [], List.append_nil _⟩)
  exact ⟨quote j ++ [':'], [], by simp [member]⟩

end SwarmPointer.Jcs
