import Mathlib.Tactic.TypeStar

/-!
# Fuelled loops

A `while` loop of a program is modelled by recursion on a number of turns.
`Reaches run n s s'` says that at most `n` turns take the loop from `s` to
`s'` whatever fuel remains; chains of turns compose, and a chain that ends
in a halting state fixes the result for every larger amount of fuel.

`Reaches` counts the turns, for a caller that must say how much fuel is
enough; `Leads` forgets the count, for a caller that only wants to know where
the loop gets to. Neither looks inside the loop: a proof about a loop names its
turns once, each as one `Reaches.turn`, and everything after that is chains.

A loop that the program does not bound is `Runs turn`, a derivation with one
step for each turn: it has a result only if it ends. A fuelled model of it is
that loop when some measure of the state falls with every turn and the fuel is
beyond the measure, for the fuel is then never used up.
-/

namespace FuelLoop

variable {σ β : Type*} {run : Nat → σ → β}

/-- At most `n` turns lead from `s` to `s'`. -/
def Reaches (run : Nat → σ → β) (n : Nat) (s s' : σ) : Prop :=
  ∃ k ≤ n, ∀ fuel, run (k + fuel) s = run fuel s'

theorem Reaches.refl (s : σ) : Reaches run 0 s s :=
  ⟨0, Nat.le_refl 0, fun fuel => by rw [Nat.zero_add]⟩

theorem Reaches.trans {n m : Nat} {s₁ s₂ s₃ : σ} (h₁ : Reaches run n s₁ s₂)
    (h₂ : Reaches run m s₂ s₃) : Reaches run (n + m) s₁ s₃ := by
  obtain ⟨k, hk, h⟩ := h₁
  obtain ⟨l, hl, h'⟩ := h₂
  exact ⟨k + l, Nat.add_le_add hk hl, fun fuel => by rw [Nat.add_assoc, h, h']⟩

theorem Reaches.mono {n m : Nat} {s₁ s₂ : σ} (h : Reaches run n s₁ s₂) (hle : n ≤ m) :
    Reaches run m s₁ s₂ := by
  obtain ⟨k, hk, h⟩ := h
  exact ⟨k, Nat.le_trans hk hle, h⟩

theorem Reaches.turn {s₁ s₂ : σ} (h : ∀ n, run (n + 1) s₁ = run n s₂) : Reaches run 1 s₁ s₂ :=
  ⟨1, Nat.le_refl 1, fun fuel => by rw [Nat.add_comm, h]⟩

/-- A chain into a halting state gives the result, with any fuel beyond it. -/
theorem Reaches.result {n : Nat} {s s' : σ} {b : β} (h : Reaches run n s s')
    (hhalt : ∀ m, run (m + 1) s' = b) {fuel : Nat} (hfuel : n < fuel) : run fuel s = b := by
  obtain ⟨k, hk, h⟩ := h
  obtain ⟨m, rfl⟩ : ∃ m, fuel = k + (m + 1) := ⟨fuel - k - 1, by omega⟩
  rw [h, hhalt]

/-- Some number of turns leads from `s` to `s'`. -/
def Leads (run : Nat → σ → β) (s s' : σ) : Prop := ∃ n, Reaches run n s s'

theorem Leads.refl (s : σ) : Leads run s s := ⟨0, Reaches.refl s⟩

theorem Leads.trans {s₁ s₂ s₃ : σ} (h₁ : Leads run s₁ s₂) (h₂ : Leads run s₂ s₃) :
    Leads run s₁ s₃ := by
  obtain ⟨n, h₁⟩ := h₁
  obtain ⟨m, h₂⟩ := h₂
  exact ⟨n + m, h₁.trans h₂⟩

theorem Leads.turn {s₁ s₂ : σ} (h : ∀ n, run (n + 1) s₁ = run n s₂) : Leads run s₁ s₂ :=
  ⟨1, Reaches.turn h⟩

/-! ## Loops with no bound -/

section
universe u
variable {ε : Type*} {ρ σ : Type u} {turn : σ → Except ε (ρ ⊕ σ)}

/-- The loop from `s` ends with `x`: a turn raises, returns, or leads to where
the next turn starts. -/
inductive Runs (turn : σ → Except ε (ρ ⊕ σ)) : σ → Except ε ρ → Prop
  | raises {s : σ} {e : ε} (h : turn s = .error e) : Runs turn s (.error e)
  | returns {s : σ} {r : ρ} (h : turn s = .ok (.inl r)) : Runs turn s (.ok r)
  | next {s s' : σ} {x : Except ε ρ} (h : turn s = .ok (.inr s')) (hrest : Runs turn s' x) :
      Runs turn s x

/-- A loop that ends does so in one way. -/
theorem Runs.unique {s : σ} {x y : Except ε ρ} (hx : Runs turn s x) (hy : Runs turn s y) :
    x = y := by
  induction hx with
  | raises h =>
      cases hy with
      | raises h' => exact congrArg Except.error (Except.error.inj (h.symm.trans h'))
      | returns h' => cases h.symm.trans h'
      | next h' => cases h.symm.trans h'
  | returns h =>
      cases hy with
      | raises h' => cases h.symm.trans h'
      | returns h' => exact congrArg Except.ok (Sum.inl.inj (Except.ok.inj (h.symm.trans h')))
      | next h' => cases h.symm.trans h'
  | next h _ ih =>
      cases hy with
      | raises h' => cases h.symm.trans h'
      | returns h' => cases h.symm.trans h'
      | next h' hrest =>
          obtain rfl := Sum.inr.inj (Except.ok.inj (h.symm.trans h'))
          exact ih hrest

/-- **A fuelled loop whose turns shrink the state is the loop with no bound.** -/
theorem runs_iff (run : Nat → σ → Except ε ρ) (size : σ → Nat)
    (hrun : ∀ n s, run (n + 1) s = turn s >>= Sum.elim Except.ok (run n))
    (hsize : ∀ s s', turn s = .ok (.inr s') → size s' < size s) {n : Nat} {s : σ}
    (hn : size s < n) {x : Except ε ρ} : Runs turn s x ↔ x = run n s := by
  have hends : ∀ n s, size s < n → Runs turn s (run n s) := by
    intro n
    induction n with
    | zero => exact fun s h => absurd h (Nat.not_lt_zero _)
    | succ n ih =>
        intro s h
        rw [hrun]
        cases ht : turn s with
        | error e => exact .raises ht
        | ok out =>
            cases out with
            | inl r => exact .returns ht
            | inr s' =>
                have hlt := hsize s s' ht
                exact .next ht (ih s' (by omega))
  constructor
  · intro h
    exact h.unique (hends n s hn)
  · rintro rfl
    exact hends n s hn

end

end FuelLoop
