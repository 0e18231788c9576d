import Mathlib.Data.List.Basic

/-!
# Exceptions

Inversion of sequenced computations that return or raise, and the rule that
bounds what a sequence can raise by what its parts can.

`Raises P x` says that whatever `x` raises satisfies `P`. It composes along
`>>=`, so a validator is bounded by bounding its tests, with no case analysis
of the whole. `Ensures Q x` is its other half, for what is returned. `raiseIf`
and `each` are the two shapes a test takes in the sources: a condition that
raises, and a check of every element in turn.
-/

namespace Except

variable {ε α β : Type}

theorem bind_eq_ok_iff {x : Except ε α} {f : α → Except ε β} {b : β} :
    x >>= f = .ok b ↔ ∃ a, x = .ok a ∧ f a = .ok b := by
  cases x with
  | error e => exact ⟨nofun, nofun⟩
  | ok a => exact ⟨fun h => ⟨a, rfl, h⟩, fun ⟨_, ha, h⟩ => Except.ok.inj ha ▸ h⟩

@[simp] theorem ok_bind (a : α) (f : α → Except ε β) : (.ok a : Except ε α) >>= f = f a := rfl

theorem error_bind (e : ε) (f : α → Except ε β) : (.error e : Except ε α) >>= f = .error e := rfl

theorem bind_congr_ok {x y : Except ε α} {f g : α → Except ε β} (hx : x = y)
    (h : ∀ a, x = .ok a → f a = g a) : x >>= f = y >>= g := by
  subst hx
  cases x with
  | error e => rfl
  | ok a => exact h a rfl

/-- Raise `e` when `p` holds. -/
def raiseIf (p : Prop) [Decidable p] (e : ε) : Except ε Unit := if p then .error e else .ok ()

@[simp] theorem raiseIf_eq_ok {p : Prop} [Decidable p] {e : ε} {u : Unit} :
    raiseIf p e = .ok u ↔ ¬ p := by
  rw [raiseIf]
  split
  · rename_i h
    exact ⟨nofun, fun hn => absurd h hn⟩
  · rename_i h
    exact ⟨fun _ => h, fun _ => rfl⟩

theorem raiseIf_congr {p q : Prop} [Decidable p] [Decidable q] (h : p ↔ q) (e : ε) :
    raiseIf p e = raiseIf q e := by
  simp only [raiseIf, h]

/-- Whatever `x` raises satisfies `P`. -/
def Raises (P : ε → Prop) (x : Except ε α) : Prop := ∀ e, x = .error e → P e

variable {P Q : ε → Prop}

theorem Raises.mono {x : Except ε α} (h : Raises P x) (hPQ : ∀ e, P e → Q e) : Raises Q x :=
  fun e he => hPQ e (h e he)

theorem Raises.pure (a : α) : Raises P (.ok a : Except ε α) := nofun

theorem Raises.error {e : ε} (h : P e) : Raises P (.error e : Except ε α) := by
  rintro _ ⟨⟩
  exact h

theorem Raises.raiseIf {p : Prop} [Decidable p] {e : ε} (h : p → P e) :
    Raises P (raiseIf p e) := by
  rw [Except.raiseIf]
  split
  · rename_i hp
    exact .error (h hp)
  · exact .pure ()

/-- A sequence raises what its first part does or what the rest does. -/
theorem Raises.bind {x : Except ε α} {f : α → Except ε β} (hx : Raises P x)
    (hf : ∀ a, x = .ok a → Raises P (f a)) : Raises P (x >>= f) := by
  cases x with
  | error e => exact fun e' he' => hx e' (congrArg Except.error (Except.error.inj he'))
  | ok a => exact hf a rfl

/-- Whatever `x` returns satisfies `Q`. -/
def Ensures (Q : α → Prop) (x : Except ε α) : Prop := ∀ a, x = .ok a → Q a

section
variable {Q : α → Prop} {R : β → Prop}

theorem Ensures.pure {a : α} (h : Q a) : Ensures Q (.ok a : Except ε α) := by
  intro b hb
  exact Except.ok.inj hb ▸ h

theorem Ensures.error (e : ε) : Ensures Q (.error e : Except ε α) := by
  intro a h
  cases h

/-- A sequence returns what its last part does, from what its first part ensures. -/
theorem Ensures.bind {x : Except ε α} {f : α → Except ε β} (hx : Ensures Q x)
    (hf : ∀ a, Q a → Ensures R (f a)) : Ensures R (x >>= f) := by
  intro b h
  obtain ⟨a, ha, hb⟩ := bind_eq_ok_iff.mp h
  exact hf a (hx a ha) b hb

theorem Ensures.ite {p : Prop} [Decidable p] {x y : Except ε α} (hx : Ensures Q x)
    (hy : Ensures Q y) : Ensures Q (if p then x else y) := by
  split
  · exact hx
  · exact hy

/-- A test in front makes no difference to what is returned. -/
theorem Ensures.after_test {x : Except ε Unit} {y : Except ε β} (h : Ensures R y) :
    Ensures R (x >>= fun _ => y) := by
  intro b hb
  obtain ⟨_, _, hy⟩ := bind_eq_ok_iff.mp hb
  exact h b hy

end

/-- Run `f` on every element in order. -/
def each (f : α → Except ε Unit) : List α → Except ε Unit
  | [] => .ok ()
  | a :: l => f a >>= fun _ => each f l

theorem each_eq_ok {f : α → Except ε Unit} {l : List α} {u : Unit} :
    each f l = .ok u ↔ ∀ a ∈ l, f a = .ok () := by
  induction l with
  | nil => exact ⟨fun _ => nofun, fun _ => rfl⟩
  | cons a l ih =>
      rw [each, bind_eq_ok_iff, List.forall_mem_cons, ← ih]
      exact ⟨fun ⟨_, ha, h⟩ => ⟨ha, h⟩, fun ⟨ha, h⟩ => ⟨(), ha, h⟩⟩

theorem each_map {γ : Type} {f : α → Except ε Unit} {g : γ → Except ε Unit} {s : γ → α}
    {l : List γ} (h : ∀ a ∈ l, f (s a) = g a) : each f (l.map s) = each g l := by
  induction l with
  | nil => rfl
  | cons a l ih =>
      rw [List.map_cons, each, each]
      exact bind_congr_ok (h a (List.mem_cons_self ..)) fun _ _ =>
        ih fun a ha => h a (List.mem_cons_of_mem _ ha)

theorem Raises.each {f : α → Except ε Unit} {l : List α} (h : ∀ a ∈ l, Raises P (f a)) :
    Raises P (each f l) := by
  induction l with
  | nil => exact .pure ()
  | cons a l ih =>
      rw [Except.each]
      exact (h a (List.mem_cons_self ..)).bind fun _ _ =>
        ih fun a ha => h a (List.mem_cons_of_mem _ ha)

end Except
