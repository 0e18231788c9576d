import SwarmPointer.JsonInput.Tokens
import SwarmPointer.Lib.FuelLoop

/-!
# JSON input — the machine on derivations

What the five-phase machine does on the text of a derivation, from any stack:
it delivers the value read, or raises when there is none. By mutual induction
on the derivation; the whole text is never looked at again.

The stack below a value is a variable in every lemma, so a nested value is the
same lemma at a longer stack and nothing has to be said about depth. `Outcome`
carries both ends at once: the turns lead to what the value is delivered to, or
to `JsonInputError`, according to whether `read` has a value. `Foreign` admits
the constants of the host's codec, which the machine must stop at.
-/

namespace SwarmPointer.JsonInput

open JsonGrammar FuelLoop Python Python.JsonInput

/-! ## Turns and outcomes -/

theorem advance_turn (n : Nat) (σ : State) :
    advance (n + 1) (.ok (.inl σ)) = advance n (step σ) := rfl

theorem advance_error (n : Nat) (e : Exn) : advance n (.error e) = some (.error e) := by
  cases n <;> rfl

theorem advance_done (n : Nat) (v : Json Str) : advance n (.ok (.inr v)) = some (.ok v) := by
  cases n <;> rfl

theorem leads_step (σ : State) : Leads advance (.ok (.inl σ)) (step σ) :=
  Leads.turn fun n => advance_turn n σ

/-- From `start` the machine goes on to `next b` when `o` is `b`, and raises
`JsonInputError` when `o` is none. -/
def Outcome {β : Type} (start : Py (State ⊕ Json Str)) (o : Option β)
    (next : β → Py (State ⊕ Json Str)) : Prop :=
  (∃ b, o = some b ∧ Leads advance start (next b)) ∨
    o = none ∧ ∃ r, Leads advance start (.error (.jsonInputError r))

namespace Outcome
variable {β γ : Type} {start start' : Py (State ⊕ Json Str)} {o : Option β}
  {next : β → Py (State ⊕ Json Str)}

theorem some {b : β} (h : Leads advance start (next b)) : Outcome start (some b) next :=
  .inl ⟨b, rfl, h⟩

theorem none {r : JsonReason} (h : Leads advance start (.error (.jsonInputError r))) :
    Outcome start none next :=
  .inr ⟨rfl, r, h⟩

theorem after (h : Leads advance start start') (ho : Outcome start' o next) :
    Outcome start o next := by
  rcases ho with ⟨b, rfl, hb⟩ | ⟨rfl, r, hr⟩
  · exact .some (h.trans hb)
  · exact .none (h.trans hr)

theorem bind {f : β → Option γ} {next' : γ → Py (State ⊕ Json Str)} (ho : Outcome start o next)
    (hf : ∀ b, o = .some b → Outcome (next b) (f b) next') : Outcome start (o.bind f) next' := by
  rcases ho with ⟨b, rfl, hb⟩ | ⟨rfl, r, hr⟩
  · exact (hf b rfl).after hb
  · exact .none hr

theorem map {f : β → γ} {next' : γ → Py (State ⊕ Json Str)} (ho : Outcome start o next)
    (hf : ∀ b, Leads advance (next b) (next' (f b))) : Outcome start (o.map f) next' := by
  rcases ho with ⟨b, rfl, hb⟩ | ⟨rfl, r, hr⟩
  · exact .some (hb.trans (hf b))
  · exact .none hr

end Outcome

/-- One turn from a state. -/
theorem Outcome.step {β : Type} {σ : State} {x : Py (State ⊕ Json Str)} {o : Option β}
    {next : β → Py (State ⊕ Json Str)} (hstep : step σ = x) (ho : Outcome x o next) :
    Outcome (.ok (.inl σ)) o next :=
  ho.after (hstep ▸ leads_step σ)

/-! ## The single turns -/

/-- Literals of a host that are no JSON: they start no value and no text
before a value ends. -/
structure Foreign {L : Type} (ext : L → Str) : Prop where
  head : ∀ l, ∃ c s, ext l = c :: s ∧ isWs c = false ∧ c ≠ ']'
  raises : ∀ l rest stack, ∃ r, valueStep (ext l ++ rest) stack = .error (.jsonInputError r)

theorem foreign_empty : Foreign (Empty.elim : Empty → Str) := ⟨nofun, nofun⟩

theorem number_head (x : Number) :
    ∃ c s, x.text = c :: s ∧ (c = '-' ∨ isDigit c = true) := by
  obtain ⟨d, s, hds, hd⟩ := digits_cons x.int
  rw [Number.text, hds]
  cases x.neg with
  | false => exact ⟨d, _, rfl, .inr hd⟩
  | true => exact ⟨'-', _, rfl, .inl rfl⟩

theorem number_head_ne {c d : Char} (h : c = '-' ∨ isDigit c = true) (hd : d ≠ '-')
    (hd' : isDigit d = false) : c ≠ d := by
  rcases h with rfl | h
  · exact hd.symm
  · exact digit_ne h hd'

theorem number_head_isWs {c : Char} (h : c = '-' ∨ isDigit c = true) : isWs c = false := by
  have h1 := number_head_ne h (d := ' ') (by decide) (by decide)
  have h2 := number_head_ne h (d := '\t') (by decide) (by decide)
  have h3 := number_head_ne h (d := '\n') (by decide) (by decide)
  have h4 := number_head_ne h (d := '\x0d') (by decide) (by decide)
  simp [isWs, h1, h2, h3, h4]

variable {L : Type} {ext : L → Str}

/-- A value starts with a character that is neither white space nor `]`. -/
theorem text_head (hext : Foreign ext) (t : Phrase L) :
    ∃ c s, t.text ext = c :: s ∧ isWs c = false ∧ c ≠ ']' := by
  match t with
  | .null => exact ⟨_, _, rfl, by decide⟩
  | .bool true => exact ⟨_, _, rfl, by decide⟩
  | .bool false => exact ⟨_, _, rfl, by decide⟩
  | .num x =>
      obtain ⟨c, s, hx, hc⟩ := number_head x
      exact ⟨c, s, hx, number_head_isWs hc, number_head_ne hc (by decide) (by decide)⟩
  | .str s => exact ⟨_, _, rfl, by decide⟩
  | .ext l => exact hext.head l
  | .arrEmpty w => exact ⟨_, _, rfl, by decide⟩
  | .arr es => exact ⟨_, _, rfl, by decide⟩
  | .objEmpty w => exact ⟨_, _, rfl, by decide⟩
  | .obj ms => exact ⟨_, _, rfl, by decide⟩

theorem text_ws (hext : Foreign ext) (t : Phrase L) (rest : Str) :
    ws (t.text ext ++ rest) = t.text ext ++ rest := by
  obtain ⟨c, s, ht, hc, -⟩ := text_head hext t
  apply ws_noWs
  intro d hd
  rw [ht] at hd
  rw [← Option.some.inj hd]
  exact hc

/-- What follows a value inside a container or at the end. -/
theorem numEnd_after (w : Ws) {c : Char} (hc : c = ',' ∨ c = ']' ∨ c = '}') (rest : Str) :
    NumEnd (w.1 ++ c :: rest) := by
  have key : ∀ d, isWs d = true ∨ d = ',' ∨ d = ']' ∨ d = '}' →
      isDigit d = false ∧ d ≠ '.' ∧ d ≠ 'e' ∧ d ≠ 'E' := by
    intro d hd
    simp only [isWs, Bool.or_eq_true, decide_eq_true_eq] at hd
    rcases hd with (((rfl | rfl) | rfl) | rfl) | rfl | rfl | rfl <;> decide
  obtain ⟨cs, hcs⟩ := w
  intro d hd
  apply key
  cases cs with
  | nil => exact .inr (Option.some.inj hd ▸ hc)
  | cons b cs =>
      refine .inl ?_
      rw [← Option.some.inj hd]
      exact hcs b (List.mem_cons_self ..)

theorem numEnd_ws (w : Ws) : NumEnd w.1 := by
  obtain ⟨cs, hcs⟩ := w
  intro d hd
  cases cs with
  | nil => cases hd
  | cons b cs =>
      have hb := hcs b (List.mem_cons_self ..)
      rw [← Option.some.inj hd]
      simp only [isWs, Bool.or_eq_true, decide_eq_true_eq] at hb
      rcases hb with ((rfl | rfl) | rfl) | rfl <;> decide

theorem ws_cons {c : Char} (hc : isWs c = false) (s : Str) : ws (c :: s) = c :: s :=
  ws_noWs fun d hd => by rw [← Option.some.inj hd]; exact hc

theorem deliver_arr (i : Str) (v : Json Str) (items : List (Json Str)) (stack : List Frame) :
    deliver i v (.arr items :: stack) =
      .ok (.inl ⟨.arrNext, i, .arr (items ++ [v]) :: stack⟩) := rfl

theorem deliver_obj (i : Str) (v : Json Str) (ms : Json.Members Str) (k : Str)
    (stack : List Frame) :
    deliver i v (.obj ms (some k) :: stack) =
      if k ∈ ms.map Prod.fst then .error (.jsonInputError .duplicateMemberName)
      else .ok (.inl ⟨.objNext, i, .obj (ms ++ [(k, v)]) (some k) :: stack⟩) := rfl

theorem arrNext_comma (w : Ws) (i : Str) (stack : List Frame) :
    step ⟨.arrNext, w.1 ++ ',' :: i, stack⟩ = .ok (.inl ⟨.value, i, stack⟩) := by
  simp only [step, arrNextStep, ws_append, ws_cons (c := ',') (by decide)]
  rfl

theorem arrNext_close (w : Ws) (i : Str) (items : List (Json Str)) (stack : List Frame) :
    step ⟨.arrNext, w.1 ++ ']' :: i, .arr items :: stack⟩ = deliver i (.arr items) stack := by
  simp only [step, arrNextStep, ws_append, ws_cons (c := ']') (by decide)]
  rfl

theorem objNext_comma (w : Ws) {i : Str} (h : (ws i).head? = some '"') (stack : List Frame) :
    step ⟨.objNext, w.1 ++ ',' :: i, stack⟩ = .ok (.inl ⟨.key, ws i, stack⟩) := by
  simp only [step, objNextStep, ws_append, ws_cons (c := ',') (by decide), if_pos h]
  rfl

theorem objNext_close (w : Ws) (i : Str) (ms : Json.Members Str) (k : Option Str)
    (stack : List Frame) :
    step ⟨.objNext, w.1 ++ '}' :: i, .obj ms k :: stack⟩ = deliver i (.obj ms) stack := by
  simp only [step, objNextStep, ws_append, ws_cons (c := '}') (by decide)]
  rfl

theorem colon_step (w : Ws) (i : Str) (stack : List Frame) :
    step ⟨.colon, w.1 ++ ':' :: i, stack⟩ = .ok (.inl ⟨.value, i, stack⟩) := by
  simp only [step, colonStep, ws_append, ws_cons (c := ':') (by decide)]
  rfl

theorem elements_head (hext : Foreign ext) (es : Elements L) (rest : Str) :
    (ws (es.text ext ++ rest)).head? ≠ some ']' := by
  have key : ∀ (w : Ws) (t : Phrase L) (rest : Str),
      (ws (w.1 ++ (t.text ext ++ rest))).head? ≠ some ']' := by
    intro w t rest
    rw [ws_append, text_ws hext]
    obtain ⟨c, s, ht, -, hc⟩ := text_head hext t
    rw [ht]
    exact fun h => hc (Option.some.inj h)
  cases es with
  | one w t w' =>
      simp only [Elements.text, List.append_assoc]
      exact key w t _
  | cons w t w' es =>
      simp only [Elements.text, List.append_assoc]
      exact key w t _

theorem members_head (ms : Members L) (rest : Str) :
    (ws (ms.text ext ++ rest)).head? = some '"' := by
  have key : ∀ (w : Ws) (k : List Piece) (rest : Str),
      (ws (w.1 ++ (stringText k ++ rest))).head? = some '"' := by
    intro w k rest
    rw [ws_append, stringText, List.cons_append, ws_cons (by decide)]
    rfl
  cases ms with
  | one w k w₁ w₂ t w' =>
      simp only [Members.text, List.append_assoc]
      exact key w k _
  | cons w k w₁ w₂ t w' ms =>
      simp only [Members.text, List.append_assoc]
      exact key w k _

/-! ## Values that end at once -/

theorem value_step {s s' : Str} (h : ws s = ws s') (stack : List Frame) :
    step ⟨.value, s, stack⟩ = valueStep s' stack := by
  simp only [step, valueStep, h]

theorem string_outcome (ps : List Piece) (rest : Str) (stack : List Frame) :
    Outcome (valueStep (stringText ps ++ rest) stack) ((readString ps).map .str)
      (fun v => deliver rest v stack) := by
  have htext : stringText ps ++ rest = '"' :: (piecesText ps ++ '"' :: rest) := by
    simp [stringText]
  have hstep : valueStep (stringText ps ++ rest) stack =
      (string [] (piecesText ps ++ '"' :: rest)).bind fun p => deliver p.2 (.str p.1) stack := by
    rw [htext, valueStep, ws_cons (by decide)]
    rfl
  rw [hstep]
  rcases string_read ps rest with ⟨cs, hread, h⟩ | ⟨hread, r, h⟩
  · rw [hread, h]
    exact .some (Leads.refl _)
  · rw [hread, h]
    exact .none (Leads.refl _)

theorem valueStep_number {c : Char} (hc : c = '-' ∨ isDigit c = true) (i : Str)
    (stack : List Frame) :
    valueStep (c :: i) stack = (number (c :: i)).bind fun p => deliver p.2 (.num p.1) stack := by
  have hne : ∀ d, d ≠ '-' → isDigit d = false → c ≠ d := fun d => number_head_ne hc
  rw [valueStep, ws_cons (number_head_isWs hc)]
  simp only [if_neg (hne '{' (by decide) (by decide)), if_neg (hne '[' (by decide) (by decide)),
    if_neg (hne '"' (by decide) (by decide)), if_neg (hne 't' (by decide) (by decide)),
    if_neg (hne 'f' (by decide) (by decide)), if_neg (hne 'n' (by decide) (by decide)),
    if_pos hc]
  rfl

theorem number_outcome {x : Number} {rest : Str} (hscan : scanNumber (x.text ++ rest) = .ok rest)
    (stack : List Frame) :
    Outcome (valueStep (x.text ++ rest) stack) ((readNumber x).map .num)
      (fun v => deliver rest v stack) := by
  obtain ⟨c, s, hx, hc⟩ := number_head x
  have hstep : valueStep (x.text ++ rest) stack =
      (number (x.text ++ rest)).bind fun p => deliver p.2 (.num p.1) stack := by
    rw [hx, List.cons_append]
    exact valueStep_number hc _ stack
  rw [hstep]
  rcases number_read x hscan with ⟨y, hread, h⟩ | ⟨hread, r, h⟩
  · rw [hread, h]
    exact .some (Leads.refl _)
  · rw [hread, h]
    exact .none (Leads.refl _)

theorem valueStep_arrEmpty (w : Ws) (rest : Str) (stack : List Frame) :
    valueStep ('[' :: (w.1 ++ ']' :: rest)) stack = deliver rest (.arr []) stack := by
  rw [valueStep, ws_cons (by decide)]
  simp only [ws_append, ws_cons (c := ']') (by decide)]
  rfl

theorem valueStep_objEmpty (w : Ws) (rest : Str) (stack : List Frame) :
    valueStep ('{' :: (w.1 ++ '}' :: rest)) stack = deliver rest (.obj []) stack := by
  rw [valueStep, ws_cons (by decide)]
  simp only [ws_append, ws_cons (c := '}') (by decide)]
  rfl

theorem valueStep_arr {i : Str} (h : (ws i).head? ≠ some ']') (stack : List Frame) :
    valueStep ('[' :: i) stack = .ok (.inl ⟨.value, ws i, .arr [] :: stack⟩) := by
  rw [valueStep, ws_cons (by decide)]
  exact if_neg h

theorem valueStep_obj {i : Str} (h : (ws i).head? = some '"') (stack : List Frame) :
    valueStep ('{' :: i) stack = .ok (.inl ⟨.key, ws i, .obj [] none :: stack⟩) := by
  have hne : (ws i).head? ≠ some '}' := by
    rw [h]
    decide
  rw [valueStep, ws_cons (by decide)]
  exact (if_neg hne).trans (if_pos h)

/-! ## Derivations -/

/-- What a value does, in any state that is about to read it. -/
def Delivers (t : Phrase L) (ext : L → Str) : Prop :=
  ∀ (s rest : Str) (stack : List Frame), ws s = ws (t.text ext ++ rest) → NumEnd rest →
    Outcome (.ok (.inl ⟨.value, s, stack⟩)) (read t) fun v => deliver rest v stack

/-- One member: its name, the colon, its value and the test for a duplicate. -/
theorem member_outcome {t : Phrase L} (ht : Delivers t ext) (w : Ws) (k : List Piece) (w₁ w₂ : Ws)
    {tail : Str} (htail : NumEnd tail) (acc : Json.Members Str) (key : Option Str)
    (stack : List Frame) :
    Outcome (.ok (.inl ⟨.key, ws (w.1 ++ (stringText k ++ (w₁.1 ++ ':' ::
        (w₂.1 ++ (t.text ext ++ tail))))), .obj acc key :: stack⟩))
      ((readString k).bind fun k => (read t).bind fun v =>
        if k ∈ acc.map Prod.fst then none else some (k, v))
      fun m => .ok (.inl ⟨.objNext, tail, .obj (acc ++ [m]) (some m.1) :: stack⟩) := by
  have htext : ∀ i, stringText k ++ i = '"' :: (piecesText k ++ '"' :: i) := by simp [stringText]
  rw [ws_append, htext, ws_cons (by decide)]
  refine .step (x := (string [] (piecesText k ++ '"' :: _)).bind _) rfl ?_
  rcases string_read k (w₁.1 ++ ':' :: (w₂.1 ++ (t.text ext ++ tail))) with
    ⟨cs, hread, h⟩ | ⟨hread, r, h⟩
  · rw [hread, h, Option.bind_some]
    refine .step (σ := ⟨.colon, _, .obj acc (some cs) :: stack⟩) (colon_step w₁ _ _) ?_
    refine (ht _ tail _ (ws_append w₂ _) htail).bind fun v hv => ?_
    rw [deliver_obj]
    split
    · exact .none (Leads.refl _)
    · exact .some (Leads.refl _)
  · rw [hread, h]
    exact .none (Leads.refl _)

/-- The members extend `acc` without repeating a name. -/
def Fresh (acc ms : Json.Members Str) : Prop := ((acc ++ ms).map Prod.fst).Nodup

instance (acc ms : Json.Members Str) : Decidable (Fresh acc ms) :=
  inferInstanceAs (Decidable (List.Nodup _))

theorem fresh_cons (acc ms : Json.Members Str) (m : Str × Json Str) :
    Fresh acc (m :: ms) ↔ Fresh (acc ++ [m]) ms := by
  rw [Fresh, Fresh, List.append_assoc, List.singleton_append]

theorem fresh_mem {acc ms : Json.Members Str} {m : Str × Json Str}
    (h : m.1 ∈ acc.map Prod.fst) : ¬ Fresh acc (m :: ms) := by
  intro hf
  rw [Fresh, List.map_append, List.map_cons, List.nodup_append] at hf
  exact hf.2.2 m.1 h m.1 (List.mem_cons_self ..) rfl

theorem fresh_singleton {acc : Json.Members Str} (hacc : (acc.map Prod.fst).Nodup)
    {m : Str × Json Str} (hm : m.1 ∉ acc.map Prod.fst) : Fresh acc [m] := by
  rw [Fresh, List.map_append, List.nodup_append]
  refine ⟨hacc, List.nodup_singleton _, ?_⟩
  rintro x hx y hy rfl
  rw [List.mem_singleton.mp hy] at hx
  exact hm hx

/-- Reading one more member in front, with the test made as it is delivered. -/
theorem filter_cons (acc : Json.Members Str) (m : Str × Json Str)
    (o : Option (Json.Members Str)) :
    (o.map (m :: ·)).filter (fun ms => Fresh acc ms) =
      (if m.1 ∈ acc.map Prod.fst then none else some m).bind fun m =>
        (o.filter fun ms => Fresh (acc ++ [m]) ms).map (m :: ·) := by
  cases o with
  | none => split <;> rfl
  | some ms =>
      by_cases hm : m.1 ∈ acc.map Prod.fst
      · have hf : ¬ Fresh acc (m :: ms) := fresh_mem hm
        simp [if_pos hm, hf]
      · simp only [if_neg hm, Option.map_some, Option.filter_some, Option.bind_some, fresh_cons]
        split <;> rfl

theorem readMembers_cons (acc : Json.Members Str) (w : Ws) (k : List Piece) (w₁ w₂ : Ws)
    (t : Phrase L) (w' : Ws) (ms : Members L) :
    (readMembers (.cons w k w₁ w₂ t w' ms)).filter (fun ms => Fresh acc ms) =
      ((readString k).bind fun k => (read t).bind fun v =>
          if k ∈ acc.map Prod.fst then none else some (k, v)).bind fun m =>
        ((readMembers ms).filter fun ms => Fresh (acc ++ [m]) ms).map (m :: ·) := by
  rw [readMembers]
  cases readString k with
  | none => rfl
  | some k =>
      cases read t with
      | none => rfl
      | some v => exact filter_cons acc (k, v) (readMembers ms)

theorem readMembers_one {acc : Json.Members Str} (hacc : (acc.map Prod.fst).Nodup) (w : Ws)
    (k : List Piece) (w₁ w₂ : Ws) (t : Phrase L) (w' : Ws) :
    (readMembers (.one w k w₁ w₂ t w')).filter (fun ms => Fresh acc ms) =
      ((readString k).bind fun k => (read t).bind fun v =>
          if k ∈ acc.map Prod.fst then none else some (k, v)).map fun m => [m] := by
  rw [readMembers]
  cases readString k with
  | none => rfl
  | some k =>
      cases read t with
      | none => rfl
      | some v =>
          simp only [Option.bind_some, Option.map_some, Option.filter_some]
          by_cases hk : k ∈ acc.map Prod.fst
          · have hf : ¬ Fresh acc [(k, v)] := fresh_mem hk
            rw [if_pos hk, if_neg (mt of_decide_eq_true hf)]
            rfl
          · have hf : Fresh acc [(k, v)] := fresh_singleton hacc hk
            rw [if_neg hk, if_pos (decide_eq_true hf)]
            rfl

mutual

/-- **The machine on a value.** -/
theorem value_outcome (hext : Foreign ext) (t : Phrase L) : Delivers t ext := by
  intro s rest stack hs hend
  rw [text_ws hext, ← text_ws hext t rest] at hs
  refine .step (value_step hs stack) ?_
  match t with
  | .null => exact .some (Leads.refl _)
  | .bool true => exact .some (Leads.refl _)
  | .bool false => exact .some (Leads.refl _)
  | .num x => exact number_outcome (scanNumber_text x hend) stack
  | .str ps => exact string_outcome ps rest stack
  | .ext l =>
      obtain ⟨r, hr⟩ := hext.raises l rest stack
      rw [Phrase.text, hr]
      exact .none (Leads.refl _)
  | .arrEmpty w =>
      simp only [Phrase.text, List.cons_append, List.append_assoc, List.nil_append]
      rw [valueStep_arrEmpty]
      exact .some (Leads.refl _)
  | .arr es =>
      simp only [Phrase.text, List.cons_append, List.append_assoc, List.nil_append]
      rw [valueStep_arr (elements_head hext es _)]
      exact (elements_outcome hext es _ rest [] stack (ws_ws _)).map fun vs => Leads.refl _
  | .objEmpty w =>
      simp only [Phrase.text, List.cons_append, List.append_assoc, List.nil_append]
      rw [valueStep_objEmpty]
      exact .some (Leads.refl _)
  | .obj ms =>
      simp only [Phrase.text, List.cons_append, List.append_assoc, List.nil_append]
      rw [valueStep_obj (members_head ms _)]
      exact (members_outcome hext ms rest [] none stack List.nodup_nil).map fun vs => Leads.refl _

/-- The machine on the elements of an array, after those in `items`. -/
theorem elements_outcome (hext : Foreign ext) (es : Elements L) (s rest : Str)
    (items : List (Json Str)) (stack : List Frame) (hs : ws s = ws (es.text ext ++ ']' :: rest)) :
    Outcome (.ok (.inl ⟨.value, s, .arr items :: stack⟩)) (readElements es)
      fun vs => deliver rest (.arr (items ++ vs)) stack := by
  match es with
  | .one w t w' =>
      simp only [Elements.text, List.append_assoc, ws_append] at hs
      refine ((value_outcome hext t) s _ _ hs (numEnd_after w' (by simp) rest)).map fun v => ?_
      rw [deliver_arr, ← arrNext_close w' rest]
      exact leads_step _
  | .cons w t w' es =>
      simp only [Elements.text, List.append_assoc, List.cons_append, ws_append] at hs
      refine ((value_outcome hext t) s _ _ hs (numEnd_after w' (by simp) _)).bind fun v _ => ?_
      rw [deliver_arr]
      refine .step (arrNext_comma w' _ _) ?_
      refine (elements_outcome hext es _ rest (items ++ [v]) stack rfl).map fun vs => ?_
      rw [List.append_assoc, List.singleton_append]
      exact Leads.refl _

/-- The machine on the members of an object, after those in `acc`. -/
theorem members_outcome (hext : Foreign ext) (ms : Members L) (rest : Str)
    (acc : Json.Members Str) (key : Option Str) (stack : List Frame)
    (hacc : (acc.map Prod.fst).Nodup) :
    Outcome (.ok (.inl ⟨.key, ws (ms.text ext ++ '}' :: rest), .obj acc key :: stack⟩))
      ((readMembers ms).filter fun ms => Fresh acc ms)
      fun ms => deliver rest (.obj (acc ++ ms)) stack := by
  match ms with
  | .one w k w₁ w₂ t w' =>
      rw [readMembers_one hacc]
      simp only [Members.text, List.append_assoc, List.cons_append]
      refine (member_outcome (value_outcome hext t) w k w₁ w₂ (numEnd_after w' (by simp) rest)
        acc key stack).map fun m => ?_
      rw [← objNext_close w' rest (acc ++ [m]) (some m.1)]
      exact leads_step _
  | .cons w k w₁ w₂ t w' ms =>
      rw [readMembers_cons]
      simp only [Members.text, List.append_assoc, List.cons_append]
      refine (member_outcome (value_outcome hext t) w k w₁ w₂ (numEnd_after w' (by simp) _)
        acc key stack).bind fun m hm => ?_
      refine .step (objNext_comma w' (members_head ms _) _) ?_
      refine (members_outcome hext ms rest (acc ++ [m]) (some m.1) stack ?_).map fun vs => ?_
      · obtain ⟨k', -, v, -, h⟩ : ∃ k', readString k = some k' ∧ ∃ v, read t = some v ∧
            (if k' ∈ acc.map Prod.fst then none else some (k', v)) = some m := by
          simpa only [Option.bind_eq_some_iff] using hm
        split at h
        · cases h
        · rename_i hk
          obtain rfl := Option.some.inj h
          exact fresh_singleton hacc hk
      · rw [List.append_assoc, List.singleton_append]
        exact Leads.refl _

end

end SwarmPointer.JsonInput
