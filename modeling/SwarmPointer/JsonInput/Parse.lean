import SwarmPointer.JsonInput.Machine

/-!
# JSON input — the parser accepts exactly the §6 language

Every turn either ends the loop or shortens the remaining text in a
well-formed state, so the loop ends and raises nothing but `JsonInputError`.
A run that returns leaves a derivation of what it consumed. With what the
machine does on derivations this makes acceptance exact.

Two invariants carry it. `Fits` ties the phase to the top of the stack and says
that every open object but the innermost has read the name its next value
belongs to; without it the parser could index an empty stack. In the other
direction `ValueSound`, `ElementsSound` and `MembersSound` rebuild a derivation
from a run that returned, by strong induction on its number of turns.

The last section is about bytes: what `parse_utf8` adds is the decoding, the
byte order mark and the noncharacters.
-/

namespace SwarmPointer.JsonInput

open JsonGrammar FuelLoop Python Python.JsonInput

/-! ## The invariant of the loop -/

/-- Every open object has read the name its next value belongs to. -/
def Keyed (stack : List Frame) : Prop := ∀ ms, Frame.obj ms none ∉ stack

/-- The stack fits the phase. -/
def Fits (σ : State) : Prop :=
  match σ.phase with
  | .value | .colon => Keyed σ.stack
  | .key => ∃ ms key stack, σ.stack = .obj ms key :: stack ∧ Keyed stack
  | .objNext => Keyed σ.stack ∧ ∃ ms key stack, σ.stack = .obj ms key :: stack
  | .arrNext => Keyed σ.stack ∧ σ.stack ≠ []

/-- What a turn may come to when fewer than `n` characters are left after it. -/
def Fine (n : Nat) (x : Py (State ⊕ Json Str)) : Prop :=
  match x with
  | .error e => ∃ r, e = .jsonInputError r
  | .ok (.inr _) => True
  | .ok (.inl σ) => Fits σ ∧ σ.rest.length < n

theorem fine_raise (n : Nat) (r : JsonReason) : Fine n (.error (.jsonInputError r)) := ⟨r, rfl⟩

theorem Fine.mono {n m : Nat} {x : Py (State ⊕ Json Str)} (h : Fine n x) (hle : n ≤ m) :
    Fine m x := by
  match x with
  | .error _ => exact h
  | .ok (.inr _) => trivial
  | .ok (.inl _) => exact ⟨h.1, h.2.trans_le hle⟩

theorem keyed_cons_obj {ms : Json.Members Str} {k : Str} {stack : List Frame} :
    Keyed (.obj ms (some k) :: stack) ↔ Keyed stack := by
  simp [Keyed]

theorem keyed_cons_arr {items : List (Json Str)} {stack : List Frame} :
    Keyed (.arr items :: stack) ↔ Keyed stack := by
  simp [Keyed]

theorem deliver_fine {stack : List Frame} (h : Keyed stack) (i : Str) (v : Json Str) :
    Fine (i.length + 1) (deliver i v stack) := by
  match stack with
  | [] =>
      rw [deliver]
      split
      · exact fine_raise _ _
      · trivial
  | .obj ms none :: stack => exact absurd (List.mem_cons_self ..) (h ms)
  | .obj ms (some k) :: stack =>
      rw [deliver_obj]
      split
      · exact fine_raise _ _
      · exact ⟨⟨keyed_cons_obj.mpr (keyed_cons_obj.mp h), _, _, _, rfl⟩, Nat.lt_succ_self _⟩
  | .arr items :: stack =>
      exact ⟨⟨keyed_cons_arr.mpr (keyed_cons_arr.mp h), List.cons_ne_nil _ _⟩, Nat.lt_succ_self _⟩

theorem Keyed.tail {f : Frame} {stack : List Frame} (h : Keyed (f :: stack)) : Keyed stack :=
  fun ms hm => h ms (List.mem_cons_of_mem _ hm)

theorem ws_length_le (s : Str) : (ws s).length ≤ s.length :=
  (List.dropWhile_suffix inWs).length_le

theorem ws_lt {s i : Str} {c : Char} (h : ws s = c :: i) : i.length < s.length := by
  have hle := ws_length_le s
  rw [h, List.length_cons] at hle
  exact hle

theorem deliver_fine_lt {stack : List Frame} (h : Keyed stack) {i : Str} {n : Nat}
    (hi : i.length < n) (v : Json Str) : Fine n (deliver i v stack) :=
  (deliver_fine h i v).mono hi

theorem pop_fine {stack : List Frame} (h : Keyed stack) (hne : stack ≠ []) {i : Str} {n : Nat}
    (hi : i.length < n) : Fine n (pop i stack) := by
  match stack with
  | [] => exact absurd rfl hne
  | f :: stack => exact deliver_fine_lt h.tail hi f.value

theorem string_fine (s : Str) {f : Str × Str → Py (State ⊕ Json Str)} {n : Nat}
    (hf : ∀ cs rest, rest.length < s.length → Fine n (f (cs, rest))) :
    Fine n ((string [] s).bind f) := by
  rcases string_cases [] s with ⟨ps, rest, rfl⟩ | ⟨r, h⟩
  · rcases string_read ps rest with ⟨cs, -, h⟩ | ⟨-, r, h⟩
    · rw [h]
      refine hf cs rest ?_
      rw [List.length_append, List.length_cons]
      omega
    · rw [h]
      exact fine_raise _ _
  · rw [h]
    exact fine_raise _ _

theorem number_fine (s : Str) {f : Binary64 × Str → Py (State ⊕ Json Str)} {n : Nat}
    (hf : ∀ y rest, rest.length < s.length → Fine n (f (y, rest))) :
    Fine n ((number s).bind f) := by
  rcases scanNumber_cases s with ⟨x, rest, rfl, hscan⟩ | h
  · rcases number_read x hscan with ⟨y, -, h⟩ | ⟨-, r, h⟩
    · rw [h]
      refine hf y rest ?_
      obtain ⟨c, i, hx, -⟩ := number_head x
      rw [hx, List.length_append, List.length_cons]
      omega
    · rw [h]
      exact fine_raise _ _
  · have herr : number s = invalidJson := by
      rw [number, h]
      rfl
    rw [herr]
    exact fine_raise _ _

theorem valueStep_fine (s : Str) {stack : List Frame} (h : Keyed stack) :
    Fine s.length (valueStep s stack) := by
  rw [valueStep]
  split
  · exact fine_raise _ _
  · rename_i c i hws
    have hi := ws_lt hws
    have hwi := ws_length_le i
    have hdrop : ∀ k, (i.drop k).length < s.length := fun k => by
      rw [List.length_drop]
      omega
    have hdrop' : ∀ k, ((ws i).drop k).length < s.length := fun k => by
      rw [List.length_drop]
      omega
    split
    · split
      · exact deliver_fine_lt h (hdrop' 1) _
      · split
        · exact ⟨⟨[], none, stack, rfl, h⟩, hwi.trans_lt hi⟩
        · exact fine_raise _ _
    split
    · split
      · exact deliver_fine_lt h (hdrop' 1) _
      · exact ⟨keyed_cons_arr.mpr h, hwi.trans_lt hi⟩
    split
    · exact string_fine i fun cs rest hlt => deliver_fine_lt h (hlt.trans hi) _
    split
    · split
      · exact deliver_fine_lt h (hdrop 3) _
      · exact fine_raise _ _
    split
    · split
      · exact deliver_fine_lt h (hdrop 4) _
      · exact fine_raise _ _
    split
    · split
      · exact deliver_fine_lt h (hdrop 3) _
      · exact fine_raise _ _
    split
    · refine number_fine (c :: i) fun y rest hlt => deliver_fine_lt h ?_ _
      rw [List.length_cons] at hlt
      omega
    · exact fine_raise _ _

/-- **A turn keeps the invariant, shortens the text and raises only `JsonInputError`.** -/
theorem step_fine (σ : State) (h : Fits σ) : Fine σ.rest.length (step σ) := by
  obtain ⟨phase, s, stack⟩ := σ
  cases phase with
  | value => exact valueStep_fine s h
  | key =>
      obtain ⟨ms, key, stack, rfl, hk⟩ := h
      refine string_fine (s.drop 1) fun cs rest hlt => ⟨keyed_cons_obj.mpr hk, ?_⟩
      rw [List.length_drop] at hlt
      dsimp only
      omega
  | colon =>
      simp only [step, colonStep]
      split
      · rename_i hcolon
        obtain ⟨i, hi⟩ := List.head?_eq_some_iff.mp hcolon
        rw [hi]
        exact ⟨h, ws_lt hi⟩
      · exact fine_raise _ _
  | objNext =>
      obtain ⟨hk, ms, key, stack, rfl⟩ := h
      simp only [step, objNextStep]
      split
      · exact fine_raise _ _
      · rename_i c i hws
        have hi := ws_lt hws
        split
        · split
          · exact ⟨⟨ms, key, stack, rfl, hk.tail⟩, (ws_length_le i).trans_lt hi⟩
          · exact fine_raise _ _
        · split
          · exact pop_fine hk (List.cons_ne_nil _ _) hi
          · exact fine_raise _ _
  | arrNext =>
      obtain ⟨hk, hne⟩ := h
      simp only [step, arrNextStep]
      split
      · exact fine_raise _ _
      · rename_i c i hws
        have hi := ws_lt hws
        split
        · exact ⟨hk, hi⟩
        · split
          · exact pop_fine hk hne hi
          · exact fine_raise _ _

/-- **The loop ends, and raises only `JsonInputError`.** -/
theorem advance_returns {n : Nat} {x : Py (State ⊕ Json Str)} (h : Fine n x) :
    (∃ v, advance n x = some (.ok v)) ∨
      ∃ r, advance n x = some (.error (.jsonInputError r)) := by
  induction n generalizing x with
  | zero =>
      match x with
      | .error _ =>
          obtain ⟨r, rfl⟩ := h
          exact .inr ⟨r, rfl⟩
      | .ok (.inr v) => exact .inl ⟨v, rfl⟩
      | .ok (.inl σ) => exact absurd h.2 (Nat.not_lt_zero _)
  | succ n ih =>
      match x with
      | .error _ =>
          obtain ⟨r, rfl⟩ := h
          exact .inr ⟨r, rfl⟩
      | .ok (.inr v) => exact .inl ⟨v, rfl⟩
      | .ok (.inl σ) => exact ih ((step_fine σ h.1).mono (Nat.le_of_lt_succ h.2))

/-! ## A run that returns leaves a derivation -/

/-- The run ends with the value `u` within `n` turns. -/
def Ends (n : Nat) (x : Py (State ⊕ Json Str)) (u : Json Str) : Prop := advance n x = some (.ok u)

theorem Ends.step {n : Nat} {σ : State} {u : Json Str} (h : Ends n (.ok (.inl σ)) u) :
    ∃ m, n = m + 1 ∧ Ends m (step σ) u := by
  cases n with
  | zero => cases h
  | succ m => exact ⟨m, rfl, h⟩

theorem not_ends_error {n : Nat} {e : Exn} {u : Json Str} : ¬ Ends n (.error e) u := by
  rw [Ends, advance_error]
  exact nofun

/-- The text of a derivation of the grammar proper. -/
abbrev plain (t : Phrase Empty) : Str := t.text Empty.elim

/-- What `_VALUE` may do with a text after its white space: it delivers a leaf,
opens a container or raises. -/
inductive ValueOutcome (s : Str) (stack : List Frame) : Py (State ⊕ Json Str) → Prop
  | leaf (t : Phrase Empty) (rest : Str) (v : Json Str) (hs : s = plain t ++ rest)
      (hread : read t = some v) : ValueOutcome s stack (deliver rest v stack)
  | array (i : Str) (hs : s = '[' :: i) :
      ValueOutcome s stack (.ok (.inl ⟨.value, ws i, .arr [] :: stack⟩))
  | object (i : Str) (hs : s = '{' :: i) (hquote : (ws i).head? = some '"') :
      ValueOutcome s stack (.ok (.inl ⟨.key, ws i, .obj [] none :: stack⟩))
  | raises (r : JsonReason) : ValueOutcome s stack (.error (.jsonInputError r))

section
variable (i : Str) (stack : List Frame)

theorem value_object : ValueOutcome ('{' :: i) stack
    (if (ws i).head? = some '}' then deliver ((ws i).drop 1) (.obj []) stack
      else if (ws i).head? = some '"' then .ok (.inl ⟨.key, ws i, .obj [] none :: stack⟩)
      else invalidJson) := by
  split_ifs with hclose hquote
  · obtain ⟨w, hw⟩ := exists_ws i
    obtain ⟨i', hi'⟩ := List.head?_eq_some_iff.mp hclose
    refine .leaf (.objEmpty w) _ _ ?_ rfl
    rw [hi'] at hw ⊢
    rw [hw]
    simp [plain, Phrase.text]
  · exact .object i rfl hquote
  · exact .raises _

theorem value_array : ValueOutcome ('[' :: i) stack
    (if (ws i).head? = some ']' then deliver ((ws i).drop 1) (.arr []) stack
      else .ok (.inl ⟨.value, ws i, .arr [] :: stack⟩)) := by
  split_ifs with hclose
  · obtain ⟨w, hw⟩ := exists_ws i
    obtain ⟨i', hi'⟩ := List.head?_eq_some_iff.mp hclose
    refine .leaf (.arrEmpty w) _ _ ?_ rfl
    rw [hi'] at hw ⊢
    rw [hw]
    simp [plain, Phrase.text]
  · exact .array i rfl

theorem value_string : ValueOutcome ('"' :: i) stack
    (string [] i >>= fun p => deliver p.2 (.str p.1) stack) := by
  rcases string_cases [] i with ⟨ps, rest, rfl⟩ | ⟨r, h⟩
  · rcases string_read ps rest with ⟨cs, hread, h⟩ | ⟨-, r, h⟩
    · rw [h]
      refine .leaf (.str ps) rest (.str cs) ?_ ?_
      · simp [plain, Phrase.text, stringText]
      · rw [read, hread]
        rfl
    · rw [h]
      exact .raises r
  · rw [h]
    exact .raises r

/-- One of the three literals, after its first letter. -/
theorem value_literal {c : Char} {word : Str} {t : Phrase Empty} {v : Json Str} (k : Nat)
    (hword : c :: word = plain t) (hread : read t = some v) : ValueOutcome (c :: i) stack
      (if i.take k = word then deliver (i.drop k) v stack else invalidJson) := by
  split_ifs with htake
  · refine .leaf t _ v ?_ hread
    rw [← hword, List.cons_append, ← htake, List.take_append_drop]
  · exact .raises _

theorem value_number : ValueOutcome i stack
    (number i >>= fun p => deliver p.2 (.num p.1) stack) := by
  rcases scanNumber_cases i with ⟨x, rest, rfl, hscan⟩ | h
  · rcases number_read x hscan with ⟨y, hread, h⟩ | ⟨-, r, h⟩
    · rw [h]
      refine .leaf (.num x) rest (.num y) rfl ?_
      rw [read, hread]
      rfl
    · rw [h]
      exact .raises r
  · rw [number, h]
    exact .raises _

end

/-- **One turn of `_VALUE`.** -/
theorem valueStep_outcome (s : Str) (stack : List Frame) :
    ValueOutcome (ws s) stack (valueStep s stack) := by
  rw [valueStep]
  split
  · exact .raises _
  rename_i c i hws
  rw [hws]
  by_cases hobj : c = '{'
  · rw [if_pos hobj, hobj]
    exact value_object i stack
  rw [if_neg hobj]
  by_cases harr : c = '['
  · rw [if_pos harr, harr]
    exact value_array i stack
  rw [if_neg harr]
  by_cases hstr : c = '"'
  · rw [if_pos hstr, hstr]
    exact value_string i stack
  rw [if_neg hstr]
  by_cases htrue : c = 't'
  · rw [if_pos htrue, htrue]
    exact value_literal i stack 3 (t := .bool true) rfl rfl
  rw [if_neg htrue]
  by_cases hfalse : c = 'f'
  · rw [if_pos hfalse, hfalse]
    exact value_literal i stack 4 (t := .bool false) rfl rfl
  rw [if_neg hfalse]
  by_cases hnull : c = 'n'
  · rw [if_pos hnull, hnull]
    exact value_literal i stack 3 (t := .null) rfl rfl
  rw [if_neg hnull]
  split
  · exact value_number (c :: i) stack
  · exact .raises _

/-- From a state about to read a value: a value is read and delivered. -/
def ValueSound (n : Nat) : Prop :=
  ∀ (s : Str) (stack : List Frame) (u : Json Str), Ends n (.ok (.inl ⟨.value, s, stack⟩)) u →
    ∃ t rest v m, ws s = plain t ++ rest ∧ read t = some v ∧ m < n ∧
      Ends m (deliver rest v stack) u

/-- Inside an array: elements are read up to its end. -/
def ElementsSound (n : Nat) : Prop :=
  ∀ (w : Ws) (s : Str) (items : List (Json Str)) (stack : List Frame) (u : Json Str),
    Ends n (.ok (.inl ⟨.value, s, .arr items :: stack⟩)) u →
    ∃ (es : Elements Empty) (rest : Str) (vs : List (Json Str)) (m : Nat),
      w.1 ++ s = es.text Empty.elim ++ ']' :: rest ∧ readElements es = some vs ∧ m < n ∧
        Ends m (deliver rest (.arr (items ++ vs)) stack) u

/-- Inside an object: members with fresh names are read up to its end. -/
def MembersSound (n : Nat) : Prop :=
  ∀ (w : Ws) (s : Str) (acc : Json.Members Str) (key : Option Str) (stack : List Frame)
    (u : Json Str), (acc.map Prod.fst).Nodup → s.head? = some '"' →
    Ends n (.ok (.inl ⟨.key, s, .obj acc key :: stack⟩)) u →
    ∃ (ms : Members Empty) (rest : Str) (vs : Json.Members Str) (m : Nat),
      w.1 ++ s = ms.text Empty.elim ++ '}' :: rest ∧ readMembers ms = some vs ∧ Fresh acc vs ∧
        m < n ∧ Ends m (deliver rest (.obj (acc ++ vs)) stack) u

theorem arrNext_cases (s : Str) (items : List (Json Str)) (stack : List Frame) :
    (∃ (w : Ws) (i : Str), s = w.1 ++ ',' :: i) ∨ (∃ (w : Ws) (i : Str), s = w.1 ++ ']' :: i) ∨
      step ⟨.arrNext, s, .arr items :: stack⟩ = invalidJson := by
  obtain ⟨w, hw⟩ := exists_ws s
  simp only [step, arrNextStep]
  cases hws : ws s with
  | nil => exact .inr (.inr rfl)
  | cons c i =>
      rw [hws] at hw
      by_cases hcomma : c = ','
      · exact .inl ⟨w, i, hcomma ▸ hw⟩
      by_cases hclose : c = ']'
      · exact .inr (.inl ⟨w, i, hclose ▸ hw⟩)
      · exact .inr (.inr (by simp only [if_neg hcomma, if_neg hclose]))

theorem objNext_cases (s : Str) (f : Frame) (stack : List Frame) :
    (∃ (w : Ws) (i : Str), s = w.1 ++ ',' :: i ∧ (ws i).head? = some '"') ∨
      (∃ (w : Ws) (i : Str), s = w.1 ++ '}' :: i) ∨
      step ⟨.objNext, s, f :: stack⟩ = invalidJson := by
  obtain ⟨w, hw⟩ := exists_ws s
  simp only [step, objNextStep]
  cases hws : ws s with
  | nil => exact .inr (.inr rfl)
  | cons c i =>
      rw [hws] at hw
      by_cases hcomma : c = ','
      · by_cases hquote : (ws i).head? = some '"'
        · exact .inl ⟨w, i, hcomma ▸ hw, hquote⟩
        · exact .inr (.inr (by simp only [if_pos hcomma, if_neg hquote]))
      by_cases hclose : c = '}'
      · exact .inr (.inl ⟨w, i, hclose ▸ hw⟩)
      · exact .inr (.inr (by simp only [if_neg hcomma, if_neg hclose]))

theorem colon_cases (s : Str) (stack : List Frame) :
    (∃ (w : Ws) (i : Str), s = w.1 ++ ':' :: i) ∨ step ⟨.colon, s, stack⟩ = invalidJson := by
  obtain ⟨w, hw⟩ := exists_ws s
  by_cases h : (ws s).head? = some ':'
  · obtain ⟨i, hi⟩ := List.head?_eq_some_iff.mp h
    exact .inl ⟨w, i, hi ▸ hw⟩
  · exact .inr (if_neg h)

theorem value_sound {n : Nat} (helems : ∀ m < n, ElementsSound m)
    (hmems : ∀ m < n, MembersSound m) : ValueSound n := by
  intro s stack u hends
  obtain ⟨m, rfl, h⟩ := hends.step
  have hlt := Nat.lt_succ_self m
  rw [value_step rfl] at h
  have houtcome := valueStep_outcome s stack
  generalize valueStep s stack = x at h houtcome
  cases houtcome with
  | leaf t rest v hs hread => exact ⟨t, rest, v, m, hs, hread, hlt, h⟩
  | array i hs =>
      obtain ⟨w, hw⟩ := exists_ws i
      obtain ⟨es, rest, vs, k, hes, hread, hk, hend⟩ := helems m hlt w _ _ _ _ h
      rw [← hw] at hes
      refine ⟨.arr es, rest, .arr vs, k, ?_, ?_, hk.trans hlt, hend⟩
      · rw [hs, hes]
        simp [plain, Phrase.text]
      · rw [read, hread]
        rfl
  | object i hs hquote =>
      obtain ⟨w, hw⟩ := exists_ws i
      obtain ⟨ms, rest, vs, k, hms, hread, hfresh, hk, hend⟩ :=
        hmems m hlt w _ [] _ _ _ List.nodup_nil hquote h
      rw [← hw] at hms
      refine ⟨.obj ms, rest, .obj vs, k, ?_, ?_, hk.trans hlt, hend⟩
      · rw [hs, hms]
        simp [plain, Phrase.text]
      · have hnodup : (vs.map Prod.fst).Nodup := hfresh
        rw [read, hread, Option.filter_some, if_pos (decide_eq_true hnodup)]
        rfl
  | raises r => exact absurd h not_ends_error

theorem elements_sound {n : Nat} (hval : ValueSound n) (helems : ∀ m < n, ElementsSound m) :
    ElementsSound n := by
  intro w s items stack u hends
  obtain ⟨t, i, v, m, hs, hread, hm, hnext⟩ := hval s _ u hends
  obtain ⟨w₀, hw₀⟩ := exists_ws s
  rw [deliver_arr] at hnext
  obtain ⟨k, rfl, h⟩ := hnext.step
  rcases arrNext_cases i (items ++ [v]) stack with ⟨w', i', rfl⟩ | ⟨w', i', rfl⟩ | herr
  · rw [arrNext_comma] at h
    obtain ⟨es, rest, vs, l, hes, hreads, hl, hend⟩ := helems k (by omega) .none _ _ _ _ h
    refine ⟨.cons (w.append w₀) t w' es, rest, v :: vs, l, ?_, ?_, by omega, ?_⟩
    · rw [hw₀, hs, show i' = _ from hes]
      simp [Elements.text, Ws.append]
    · rw [readElements, hread, hreads]
      rfl
    · rwa [List.append_assoc] at hend
  · rw [arrNext_close] at h
    refine ⟨.one (w.append w₀) t w', i', [v], k, ?_, ?_, by omega, h⟩
    · rw [hw₀, hs]
      simp [Elements.text, Ws.append]
    · rw [readElements, hread]
      rfl
  · rw [herr] at h
    exact absurd h not_ends_error

/-- A name and its colon, up to the value. -/
theorem key_sound {n : Nat} {s : Str} {acc : Json.Members Str} {key : Option Str}
    {stack : List Frame} {u : Json Str} (hquote : s.head? = some '"')
    (hkey : Ends n (.ok (.inl ⟨.key, s, .obj acc key :: stack⟩)) u) :
    ∃ (k : List Piece) (cs : Str) (w : Ws) (i : Str), s = stringText k ++ (w.1 ++ ':' :: i) ∧ readString k = some cs ∧
      ∃ m < n, Ends m (.ok (.inl ⟨.value, i, .obj acc (some cs) :: stack⟩)) u := by
  obtain ⟨s, rfl⟩ := List.head?_eq_some_iff.mp hquote
  obtain ⟨m, rfl, h⟩ := hkey.step
  have hstep : step ⟨.key, '"' :: s, .obj acc key :: stack⟩ = (string [] s).bind fun p =>
      .ok (.inl ⟨.colon, p.2, .obj acc (some p.1) :: stack⟩) := rfl
  rw [hstep] at h
  rcases string_cases [] s with ⟨ps, rest, rfl⟩ | ⟨r, herr⟩
  · rcases string_read ps rest with ⟨cs, hread, hok⟩ | ⟨-, r, herr⟩
    · rw [hok] at h
      obtain ⟨l, rfl, hcolon⟩ := h.step
      rcases colon_cases rest (.obj acc (some cs) :: stack) with ⟨w, i, rfl⟩ | herr
      · dsimp only at hcolon
        rw [colon_step] at hcolon
        refine ⟨ps, cs, w, i, ?_, hread, l, by omega, hcolon⟩
        simp [stringText]
      · dsimp only at hcolon
        rw [herr] at hcolon
        exact absurd hcolon not_ends_error
    · rw [herr] at h
      exact absurd h not_ends_error
  · rw [herr] at h
    exact absurd h not_ends_error

theorem members_sound {n : Nat} (hval : ∀ m < n, ValueSound m) (hmems : ∀ m < n, MembersSound m) :
    MembersSound n := by
  intro w s acc key stack u hacc hquote hends
  obtain ⟨k, cs, w₁, i, hs, hk, m, hm, h⟩ := key_sound hquote hends
  obtain ⟨w₂, hw₂⟩ := exists_ws i
  obtain ⟨t, j, v, l, hi, hread, hl, hnext⟩ := hval m hm i _ u h
  rw [deliver_obj] at hnext
  split at hnext
  · exact absurd hnext not_ends_error
  rename_i hnew
  have hfresh : Fresh acc [(cs, v)] := fresh_singleton hacc hnew
  obtain ⟨l, rfl, h⟩ := hnext.step
  rcases objNext_cases j (.obj (acc ++ [(cs, v)]) (some cs)) stack with ⟨w', i', rfl, hq⟩ |
    ⟨w', i', rfl⟩ | herr
  · rw [objNext_comma w' hq] at h
    obtain ⟨w₃, hw₃⟩ := exists_ws i'
    obtain ⟨ms, rest, vs, p, hms, hreads, hfr, hp, hend⟩ :=
      hmems l (by omega) w₃ _ _ _ _ _ hfresh hq h
    rw [← hw₃] at hms
    refine ⟨.cons w k w₁ w₂ t w' ms, rest, (cs, v) :: vs, p, ?_, ?_, ?_, by omega, ?_⟩
    · rw [hs, hw₂, hi, hms]
      simp [Members.text]
    · rw [readMembers, hk, hread, hreads]
      rfl
    · exact (fresh_cons acc vs (cs, v)).mpr hfr
    · rwa [List.append_assoc] at hend
  · rw [objNext_close] at h
    refine ⟨.one w k w₁ w₂ t w', i', [(cs, v)], l, ?_, ?_, hfresh, by omega, h⟩
    · rw [hs, hw₂, hi]
      simp [Members.text]
    · rw [readMembers, hk, hread]
      rfl
  · rw [herr] at h
    exact absurd h not_ends_error

/-- **Every run that returns has a derivation behind it.** -/
theorem run_sound (n : Nat) : ValueSound n ∧ ElementsSound n ∧ MembersSound n := by
  induction n using Nat.strong_induction_on with
  | _ n ih =>
      have hval : ValueSound n :=
        value_sound (fun m hm => (ih m hm).2.1) fun m hm => (ih m hm).2.2
      exact ⟨hval, elements_sound hval fun m hm => (ih m hm).2.1,
        members_sound (fun m hm => (ih m hm).1) fun m hm => (ih m hm).2.2⟩

/-! ## Documents -/

/-- A derivation with the white space around it, as a text. -/
def document (w : Ws) (t : Phrase Empty) (w' : Ws) : Str := w.1 ++ plain t ++ w'.1

theorem parseDocument_eq {s : Str} (h : ws s ≠ []) :
    parseDocument s = (advance (s.length + 1) (.ok (.inl ⟨.value, ws s, []⟩))).getD
      (.error .assertionError) := if_neg h

/-- `parse_document` returns or raises `JsonInputError`. -/
theorem parseDocument_returns (s : Str) :
    (∃ v, parseDocument s = .ok v) ∨ ∃ r, parseDocument s = .error (.jsonInputError r) := by
  by_cases h : ws s = []
  · exact .inr ⟨_, if_pos h⟩
  · have hfine : Fine (s.length + 1) (.ok (.inl ⟨.value, ws s, []⟩)) :=
      ⟨nofun, Nat.lt_succ_of_le (ws_length_le s)⟩
    rw [parseDocument_eq h]
    rcases advance_returns hfine with ⟨v, hv⟩ | ⟨r, hr⟩
    · exact .inl ⟨v, by rw [hv]; rfl⟩
    · exact .inr ⟨r, by rw [hr]; rfl⟩

/-- **A text that is accepted is a document.** -/
theorem parseDocument_sound {s : Str} {u : Json Str} (h : parseDocument s = .ok u) :
    ∃ w t w', s = document w t w' ∧ read t = some u := by
  by_cases hs : ws s = []
  · rw [parseDocument, if_pos hs] at h
    cases h
  rw [parseDocument_eq hs] at h
  have hends : Ends (s.length + 1) (.ok (.inl ⟨.value, ws s, []⟩)) u := by
    cases hrun : advance (s.length + 1) (.ok (.inl ⟨.value, ws s, []⟩)) with
    | none =>
        rw [hrun] at h
        cases h
    | some x =>
        rw [hrun] at h
        exact hrun.trans (congrArg some h)
  obtain ⟨t, rest, v, m, htext, hread, -, hend⟩ := (run_sound _).1 _ _ _ hends
  obtain ⟨w, hw⟩ := exists_ws s
  obtain ⟨w', hw'⟩ := exists_ws rest
  rw [ws_ws] at htext
  rw [deliver] at hend
  split at hend
  · exact absurd hend not_ends_error
  · rename_i hrest
    rw [Ends, advance_done] at hend
    obtain rfl : v = u := Except.ok.inj (Option.some.inj hend)
    refine ⟨w, t, w', ?_, hread⟩
    rw [not_not.mp hrest, List.append_nil] at hw'
    rw [document, List.append_assoc, ← hw', ← htext, ← hw]

theorem advance_mono {n : Nat} {x : Py (State ⊕ Json Str)} {y : Py (Json Str)}
    (h : advance n x = some y) (m : Nat) : advance (n + m) x = some y := by
  induction n generalizing x with
  | zero =>
      match x with
      | .error _ => rwa [advance_error] at h ⊢
      | .ok (.inr _) => rwa [advance_done] at h ⊢
      | .ok (.inl _) => cases h
  | succ n ih =>
      match x with
      | .error _ => rwa [advance_error] at h ⊢
      | .ok (.inr _) => rwa [advance_done] at h ⊢
      | .ok (.inl σ) =>
          rw [Nat.succ_add]
          exact ih (x := step σ) h

/-- A run that returns agrees with where its start leads. -/
theorem leads_result {n : Nat} {x x' : Py (State ⊕ Json Str)} {y y' : Py (Json Str)}
    (hleads : Leads advance x x') (hx' : ∀ m, advance m x' = some y') (h : advance n x = some y) :
    y = y' := by
  obtain ⟨_, k, -, hk⟩ := hleads
  have hlong := advance_mono h k
  rw [Nat.add_comm, hk, hx'] at hlong
  exact (Option.some.inj hlong).symm

theorem parseDocument_leads {s : Str} {x' : Py (State ⊕ Json Str)} {y' : Py (Json Str)}
    (hs : ws s ≠ []) (hleads : Leads advance (.ok (.inl ⟨.value, ws s, []⟩)) x')
    (hx' : ∀ m, advance m x' = some y') : parseDocument s = y' := by
  have hfine : Fine (s.length + 1) (.ok (.inl ⟨.value, ws s, []⟩)) :=
    ⟨nofun, Nat.lt_succ_of_le (ws_length_le s)⟩
  rw [parseDocument_eq hs]
  rcases advance_returns hfine with ⟨v, h⟩ | ⟨r, h⟩
  · rw [h]
    exact leads_result hleads hx' h
  · rw [h]
    exact leads_result hleads hx' h

/-- **The parser on the text of a derivation**: the value read, or `JsonInputError`. -/
theorem parseDocument_text {L : Type} {ext : L → Str} (hext : Foreign ext) (w : Ws) (t : Phrase L)
    (w' : Ws) :
    (∃ v, read t = some v ∧ parseDocument (w.1 ++ t.text ext ++ w'.1) = .ok v) ∨
      read t = none ∧
        ∃ r, parseDocument (w.1 ++ t.text ext ++ w'.1) = .error (.jsonInputError r) := by
  have hws : ws (w.1 ++ t.text ext ++ w'.1) = t.text ext ++ w'.1 := by
    rw [List.append_assoc, ws_append, text_ws hext]
  have hne : ws (w.1 ++ t.text ext ++ w'.1) ≠ [] := by
    obtain ⟨c, s, ht, -⟩ := text_head hext t
    rw [hws, ht]
    exact List.cons_ne_nil _ _
  have hdone : ∀ v, deliver w'.1 v [] = .ok (.inr v) := by
    intro v
    have hnil : ws w'.1 = [] := by
      have h := ws_append w' []
      rwa [List.append_nil] at h
    rw [deliver, hnil]
    rfl
  have hout := value_outcome hext t (ws (w.1 ++ t.text ext ++ w'.1)) w'.1 []
    (by rw [ws_ws, hws, text_ws hext]) (numEnd_ws w')
  rcases hout with ⟨v, hread, h⟩ | ⟨hread, r, h⟩
  · dsimp only at h
    rw [hdone] at h
    exact .inl ⟨v, hread, parseDocument_leads hne h fun m => advance_done m v⟩
  · exact .inr ⟨hread, r, parseDocument_leads hne h fun m => advance_error m _⟩

/-! ## Noncharacters of the text -/

theorem not_noncharacter_of_lt {c : Char} (h : c.toNat < 0x80) : ¬ Noncharacter c := by
  rw [Noncharacter]
  omega

/-- Every character of the text is ASCII. -/
def Ascii (s : Str) : Prop := ∀ c ∈ s, c.toNat < 0x80

theorem ascii_append {s s' : Str} : Ascii (s ++ s') ↔ Ascii s ∧ Ascii s' := by
  simp only [Ascii, List.mem_append, or_imp, forall_and]

theorem isDigit_ascii {c : Char} (h : c.isDigit = true) : c.toNat < 0x80 := by
  simp only [Char.isDigit, ge_iff_le, Bool.and_eq_true, decide_eq_true_eq] at h
  have hle : c.toNat ≤ 57 := h.2
  omega

theorem hexVal_ascii {c : Char} (h : (hexVal c).isSome = true) : c.toNat < 0x80 := by
  rw [hexVal] at h
  split at h
  · rename_i hc
    have hle : c.toNat ≤ 57 := hc.2
    omega
  split at h
  · rename_i hc
    have hle : c.toNat ≤ 102 := hc.2
    omega
  split at h
  · rename_i hc
    have hle : c.toNat ≤ 70 := hc.2
    omega
  · cases h

theorem ws_ascii (w : Ws) : Ascii w.1 := by
  intro c hc
  have h := w.2 c hc
  simp only [isWs, Bool.or_eq_true, decide_eq_true_eq] at h
  rcases h with ((rfl | rfl) | rfl) | rfl <;> decide

theorem digits_ascii (ds : Digits) : Ascii ds.1 := fun c hc => isDigit_ascii (ds.2.2 c hc)

theorem number_ascii (x : Number) : Ascii x.text := by
  have hfrac : Ascii (fracText x.frac) := by
    cases x.frac with
    | none => exact nofun
    | some ds =>
        intro c hc
        rcases List.mem_cons.mp hc with rfl | hc
        · decide
        · exact digits_ascii ds c hc
  have hexp : Ascii (expText x.exp) := by
    cases x.exp with
    | none => exact nofun
    | some e =>
        intro c hc
        rcases List.mem_cons.mp hc with rfl | hc
        · cases e.capital <;> decide
        rcases List.mem_append.mp hc with hc | hc
        · have hsign : ∀ sign : Sign, Ascii sign.text := by
            intro sign
            cases sign <;> simp [Ascii, Sign.text]
          exact hsign _ c hc
        · exact digits_ascii _ c hc
  have hneg : Ascii (if x.neg then ['-'] else []) := by
    cases x.neg <;> simp [Ascii]
  rw [Number.text, ascii_append, ascii_append, ascii_append]
  exact ⟨⟨⟨hneg, digits_ascii x.int⟩, hfrac⟩, hexp⟩

theorem mem_piece_text {p : Piece} {c : Char} (hc : c ∈ p.text) :
    c.toNat < 0x80 ∨ ∃ h, p = .raw c h := by
  cases p with
  | raw d h =>
      obtain rfl := List.mem_singleton.mp hc
      exact .inr ⟨h, rfl⟩
  | short e =>
      refine .inl ?_
      rcases List.mem_cons.mp hc with rfl | hc
      · decide
      · rw [List.mem_singleton.mp hc]
        cases e <;> decide
  | unicode a b c' d =>
      refine .inl ?_
      simp only [Piece.text, List.mem_cons, List.not_mem_nil, or_false] at hc
      rcases hc with rfl | rfl | rfl | rfl | rfl | rfl
      · decide
      · decide
      · exact hexVal_ascii a.2
      · exact hexVal_ascii b.2
      · exact hexVal_ascii c'.2
      · exact hexVal_ascii d.2

/-- Raw characters are characters of the string. -/
theorem mem_of_raw {ps : List Piece} {cs : Str} (h : decode ps = some cs) {c : Char} {hc}
    (hmem : .raw c hc ∈ ps) : c ∈ cs := by
  induction ps using decode.induct generalizing cs with
  | case1 => cases hmem
  | case2 d hd ps ih =>
      rw [decode, Option.map_eq_some_iff] at h
      obtain ⟨cs, hcs, rfl⟩ := h
      rcases List.mem_cons.mp hmem with heq | hmem
      · cases heq
        exact List.mem_cons_self ..
      · exact List.mem_cons_of_mem _ (ih hcs hmem)
  | case3 e ps ih =>
      rw [decode, Option.map_eq_some_iff] at h
      obtain ⟨cs, hcs, rfl⟩ := h
      rcases List.mem_cons.mp hmem with heq | hmem
      · cases heq
      · exact List.mem_cons_of_mem _ (ih hcs hmem)
  | case4 a b c d hhi a' b' c' d' ps hlo ih =>
      rw [decode, if_pos hhi, if_pos hlo, Option.map_eq_some_iff] at h
      obtain ⟨cs, hcs, rfl⟩ := h
      rcases List.mem_cons.mp hmem with heq | hmem
      · cases heq
      rcases List.mem_cons.mp hmem with heq | hmem
      · cases heq
      · exact List.mem_cons_of_mem _ (ih hcs hmem)
  | case5 a b c d hhi a' b' c' d' ps hlo =>
      rw [decode, if_pos hhi, if_neg hlo] at h
      cases h
  | case6 a b c d ps hhi hps =>
      rw [decode_lone hhi hps] at h
      cases h
  | case7 a b c d ps hhi hlo =>
      rw [decode_low hhi hlo] at h
      cases h
  | case8 a b c d ps hhi hlo ih =>
      rw [decode_bmp hhi hlo, Option.map_eq_some_iff] at h
      obtain ⟨cs, hcs, rfl⟩ := h
      rcases List.mem_cons.mp hmem with heq | hmem
      · cases heq
      · exact List.mem_cons_of_mem _ (ih hcs hmem)

/-- The text of a string that is read has no noncharacters. -/
theorem stringText_clean {ps : List Piece} (h : StringOk ps) :
    ∀ c ∈ stringText ps, ¬ Noncharacter c := by
  obtain ⟨cs, hdec, hcs⟩ := h
  intro c hc
  rw [stringText, List.mem_cons, List.mem_append, piecesText, List.mem_flatMap] at hc
  rcases hc with rfl | ⟨p, hp, hc⟩ | hc
  · decide
  · rcases mem_piece_text hc with hascii | ⟨_, rfl⟩
    · exact not_noncharacter_of_lt hascii
    · exact hcs c (mem_of_raw hdec hp)
  · rw [List.mem_singleton.mp hc]
    decide

/-- No character of the text is a noncharacter. -/
def Clean (s : Str) : Prop := ∀ c ∈ s, ¬ Noncharacter c

theorem clean_append {s s' : Str} : Clean (s ++ s') ↔ Clean s ∧ Clean s' := by
  simp only [Clean, List.mem_append, or_imp, forall_and]

theorem clean_cons {c : Char} {s : Str} : Clean (c :: s) ↔ ¬ Noncharacter c ∧ Clean s := by
  simp only [Clean, List.mem_cons, forall_eq_or_imp]

theorem Ascii.clean {s : Str} (h : Ascii s) : Clean s :=
  fun c hc => not_noncharacter_of_lt (h c hc)

theorem clean_nil : Clean [] := nofun

mutual

/-- **An admissible derivation has no noncharacter in its text.** -/
theorem phrase_clean {L : Type} {ext : L → Str} (t : Phrase L) (h : Admissible t) :
    Clean (t.text ext) := by
  match t with
  | .null => exact Ascii.clean (by simp [Ascii, Phrase.text])
  | .bool true => exact Ascii.clean (by simp [Ascii, Phrase.text])
  | .bool false => exact Ascii.clean (by simp [Ascii, Phrase.text])
  | .num x => exact (number_ascii x).clean
  | .str s => exact stringText_clean h
  | .ext l => exact h.elim
  | .arrEmpty w =>
      rw [Phrase.text, clean_cons, clean_append, clean_cons]
      exact ⟨by decide, (ws_ascii w).clean, by decide, clean_nil⟩
  | .arr es =>
      rw [Phrase.text, clean_cons, clean_append, clean_cons]
      exact ⟨by decide, elements_clean es h, by decide, clean_nil⟩
  | .objEmpty w =>
      rw [Phrase.text, clean_cons, clean_append, clean_cons]
      exact ⟨by decide, (ws_ascii w).clean, by decide, clean_nil⟩
  | .obj ms =>
      rw [Phrase.text, clean_cons, clean_append, clean_cons]
      exact ⟨by decide, members_clean ms h.2, by decide, clean_nil⟩

theorem elements_clean {L : Type} {ext : L → Str} (es : Elements L) (h : AdmissibleElements es) :
    Clean (es.text ext) := by
  match es with
  | .one w t w' =>
      rw [Elements.text, clean_append, clean_append]
      exact ⟨⟨(ws_ascii w).clean, phrase_clean t h⟩, (ws_ascii w').clean⟩
  | .cons w t w' es =>
      rw [Elements.text, clean_append, clean_append, clean_append, clean_cons]
      exact ⟨⟨⟨(ws_ascii w).clean, phrase_clean t h.1⟩, (ws_ascii w').clean⟩, by decide,
        elements_clean es h.2⟩

theorem members_clean {L : Type} {ext : L → Str} (ms : Members L) (h : AdmissibleMembers ms) :
    Clean (ms.text ext) := by
  match ms with
  | .one w k w₁ w₂ t w' =>
      rw [Members.text, clean_append, clean_append, clean_append, clean_cons, clean_append,
        clean_append]
      exact ⟨⟨⟨(ws_ascii w).clean, stringText_clean h.1⟩, (ws_ascii w₁).clean⟩, by decide,
        ⟨(ws_ascii w₂).clean, phrase_clean t h.2⟩, (ws_ascii w').clean⟩
  | .cons w k w₁ w₂ t w' ms =>
      rw [Members.text, clean_append, clean_append, clean_append, clean_cons, clean_append,
        clean_append, clean_append, clean_cons]
      exact ⟨⟨⟨(ws_ascii w).clean, stringText_clean h.1⟩, (ws_ascii w₁).clean⟩, by decide,
        ⟨⟨(ws_ascii w₂).clean, phrase_clean t h.2.1⟩, (ws_ascii w').clean⟩, by decide,
        members_clean ms h.2.2⟩

end

/-! ## Byte strings -/

theorem parseUtf8_utf8 (s : Str) :
    parseUtf8 (Unicode.utf8 s) = if s.any noncharacter then .error (.jsonInputError .noncharacter)
      else parseDocument s := by
  rw [parseUtf8, Unicode.decodeUtf8_utf8]

theorem any_noncharacter {s : Str} (h : Clean s) : s.any noncharacter = false := by
  rw [List.any_eq_false]
  intro c hc
  simpa [noncharacter_eq] using h c hc

/-- **`parse_utf8` on the bytes of a derivation**: the value read, or `JsonInputError`. -/
theorem parseUtf8_text {L : Type} {ext : L → Str} (hext : Foreign ext) (w : Ws) (t : Phrase L)
    (w' : Ws) :
    (∃ v, read t = some v ∧ parseUtf8 (Unicode.utf8 (w.1 ++ t.text ext ++ w'.1)) = .ok v) ∨
      read t = none ∧
        ∃ r, parseUtf8 (Unicode.utf8 (w.1 ++ t.text ext ++ w'.1)) = .error (.jsonInputError r) := by
  rw [parseUtf8_utf8]
  rcases parseDocument_text hext w t w' with ⟨v, hread, h⟩ | ⟨hread, r, h⟩
  · have hclean : Clean (w.1 ++ t.text ext ++ w'.1) := by
      rw [clean_append, clean_append]
      exact ⟨⟨(ws_ascii w).clean, phrase_clean t (read_eq_some.mp hread).1⟩, (ws_ascii w').clean⟩
    rw [any_noncharacter hclean]
    exact .inl ⟨v, hread, h⟩
  · refine .inr ⟨hread, ?_⟩
    split
    · exact ⟨_, rfl⟩
    · exact ⟨r, h⟩

/-- `parse_utf8` returns or raises `JsonInputError`. -/
theorem parseUtf8_returns (data : Bytes) :
    (∃ v, parseUtf8 data = .ok v) ∨ ∃ r, parseUtf8 data = .error (.jsonInputError r) := by
  rw [parseUtf8]
  split
  · exact .inr ⟨_, rfl⟩
  · split
    · exact .inr ⟨_, rfl⟩
    · exact parseDocument_returns _

/-- What is accepted is the encoding of a document that is read. -/
theorem parseUtf8_sound {data : Bytes} {v : Json Str} (h : parseUtf8 data = .ok v) :
    ∃ w t w', data = Unicode.utf8 (document w t w') ∧ read t = some v := by
  cases hdec : Unicode.decodeUtf8 data with
  | none =>
      simp only [parseUtf8, hdec] at h
      cases h
  | some s =>
      simp only [parseUtf8, hdec] at h
      split at h
      · cases h
      · obtain ⟨w, t, w', rfl, hread⟩ := parseDocument_sound h
        exact ⟨w, t, w', (Unicode.decodeUtf8_eq_some.mp hdec).symm, hread⟩

theorem parseUtf8_eq_ok {data : Bytes} {v : Json Str} :
    parseUtf8 data = .ok v ↔ ∃ w t w', data = Unicode.utf8 (document w t w') ∧
      Admissible t ∧ value t = some v := by
  constructor
  · intro h
    obtain ⟨w, t, w', hdata, hread⟩ := parseUtf8_sound h
    exact ⟨w, t, w', hdata, read_eq_some.mp hread⟩
  · rintro ⟨w, t, w', rfl, hadm, hval⟩
    have hread : read t = some v := read_eq_some.mpr ⟨hadm, hval⟩
    rcases parseUtf8_text foreign_empty w t w' with ⟨v', hread', h⟩ | ⟨hnone, -⟩
    · rw [hread] at hread'
      rw [document, h, Option.some.inj hread']
    · rw [hread] at hnone
      cases hnone

/-- **Exact acceptance.** `parse_utf8` returns `v` exactly on the UTF-8 texts of
admissible derivations that denote `v`, and raises `JsonInputError` on every
other byte string. -/
theorem parseUtf8_exact (data : Bytes) :
    (∀ v, parseUtf8 data = .ok v ↔ ∃ w t w', data = Unicode.utf8 (document w t w') ∧
        Admissible t ∧ value t = some v) ∧
      ((∃ v, parseUtf8 data = .ok v) ∨ ∃ r, parseUtf8 data = .error (.jsonInputError r)) :=
  ⟨fun _ => parseUtf8_eq_ok, parseUtf8_returns data⟩

end SwarmPointer.JsonInput
