import SwarmPointer.Lib.Raises

/-!
# Computations with a log

A computation that returns or raises and keeps the lines it has logged until
then. The result of a sequence is the sequence of the results, so whatever is
known of a computation that does not log carries over; the log of a sequence
is that of its first part, followed by that of the rest where it is reached.

`Logs p x` says that the lines of `x` have the property `p`, whether `x`
returns or raises: a report that is cut short keeps the lines it has.
-/

/-- A result and the lines logged on the way. -/
structure Logged (ε L α : Type) where
  result : Except ε α
  log : List L

namespace Logged

variable {ε L α β : Type}

/-- What is logged after a result. -/
def after (r : Except ε α) (f : α → Logged ε L β) : List L :=
  match r with
  | .ok a => (f a).log
  | .error _ => []

instance : Monad (Logged ε L) where
  pure a := ⟨.ok a, []⟩
  bind m f := ⟨m.result >>= fun a => (f a).result, m.log ++ after m.result f⟩

/-- A computation that does not log. -/
def lift (x : Except ε α) : Logged ε L α := ⟨x, []⟩

/-- One line. -/
def tell (l : L) : Logged ε L Unit := ⟨.ok (), [l]⟩

@[simp] theorem result_bind (m : Logged ε L α) (f : α → Logged ε L β) :
    (m >>= f).result = m.result >>= fun a => (f a).result := rfl

theorem log_bind (m : Logged ε L α) (f : α → Logged ε L β) :
    (m >>= f).log = m.log ++ after m.result f := rfl

@[simp] theorem result_lift (x : Except ε α) : (lift x : Logged ε L α).result = x := rfl

@[simp] theorem log_lift (x : Except ε α) : (lift x : Logged ε L α).log = [] := rfl

@[simp] theorem result_tell (l : L) : (tell l : Logged ε L Unit).result = .ok () := rfl

theorem log_bind_ok {m : Logged ε L α} {a : α} (h : m.result = .ok a) (f : α → Logged ε L β) :
    (m >>= f).log = m.log ++ (f a).log := by
  rw [log_bind, h]
  rfl

theorem log_bind_error {m : Logged ε L α} {e : ε} (h : m.result = .error e)
    (f : α → Logged ε L β) : (m >>= f).log = m.log := by
  rw [log_bind, h]
  exact List.append_nil _

@[simp] theorem lift_ok_bind (a : α) (f : α → Logged ε L β) : (lift (.ok a) >>= f) = f a := rfl

/-- Every line of the log satisfies `P`. -/
def Logs (P : L → Prop) (m : Logged ε L α) : Prop := ∀ l ∈ m.log, P l

variable {P : L → Prop}

theorem Logs.lift (x : Except ε α) : Logs P (lift x : Logged ε L α) := nofun

theorem Logs.tell {l : L} (h : P l) : Logs P (tell l : Logged ε L Unit) := by
  intro l' hl
  rw [List.mem_singleton.mp hl]
  exact h

theorem Logs.bind {m : Logged ε L α} {f : α → Logged ε L β} (hm : Logs P m)
    (hf : ∀ a, m.result = .ok a → Logs P (f a)) : Logs P (m >>= f) := by
  intro l hl
  rw [log_bind] at hl
  rcases List.mem_append.mp hl with hl | hl
  · exact hm l hl
  · cases h : m.result with
    | error e =>
        rw [h] at hl
        cases hl
    | ok a =>
        rw [h] at hl
        exact hf a h l hl

end Logged
