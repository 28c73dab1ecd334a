import Mathlib.Tactic

/-!
# Computations with state and exceptions

A computation starts in a state and ends in a state with a value or with the
exception it raised. The state is kept when an exception is raised, so that
`finallyDo` and `attempt` have the meaning of `try`/`finally` and `try`/`except`
in a language with effects.
-/
namespace ExecutionEngine.Effect

def Comp (ε σ α : Type) : Type := σ → Except ε α × σ

namespace Comp

variable {ε σ α β : Type}

def ret (a : α) : Comp ε σ α := fun s => (.ok a, s)

def raise (e : ε) : Comp ε σ α := fun s => (.error e, s)

def andThen (x : Comp ε σ α) (f : α → Comp ε σ β) : Comp ε σ β := fun s =>
  match x s with
  | (.ok a, s') => f a s'
  | (.error e, s') => (.error e, s')

instance : Monad (Comp ε σ) where
  pure := ret
  bind := andThen

/-- A value or an exception that does not depend on the state. -/
def lift (r : Except ε α) : Comp ε σ α := fun s => (r, s)

/-- Read a part of the state. -/
def read (f : σ → α) : Comp ε σ α := fun s => (.ok (f s), s)

/-- Change the state. -/
def update (f : σ → σ) : Comp ε σ Unit := fun s => (.ok (), f s)

/-- Run the computation and look at its outcome. -/
def attempt (x : Comp ε σ α) : Comp ε σ (Except ε α) := fun s =>
  let (r, s') := x s
  (.ok r, s')

/-- The second computation runs in any case; an exception it raises replaces the
outcome of the first. -/
def finallyDo (x : Comp ε σ α) (fin : Comp ε σ Unit) : Comp ε σ α := fun s =>
  let (r, s') := x s
  match fin s' with
  | (.ok (), s'') => (r, s'')
  | (.error e, s'') => (.error e, s'')

/-- The computation on the second part of a larger state. -/
def onSecond {τ : Type} (x : Comp ε σ α) : Comp ε (τ × σ) α := fun s =>
  ((x s.2).1, (s.1, (x s.2).2))

@[simp] theorem pure_apply (a : α) (s : σ) : (pure a : Comp ε σ α) s = (.ok a, s) := rfl

@[simp] theorem raise_apply (e : ε) (s : σ) : (raise e : Comp ε σ α) s = (.error e, s) := rfl

@[simp] theorem lift_apply (r : Except ε α) (s : σ) : (lift r : Comp ε σ α) s = (r, s) := rfl

@[simp] theorem read_apply (f : σ → α) (s : σ) : (read f : Comp ε σ α) s = (.ok (f s), s) := rfl

@[simp] theorem update_apply (f : σ → σ) (s : σ) :
    (update f : Comp ε σ Unit) s = (.ok (), f s) := rfl

@[simp] theorem attempt_apply (x : Comp ε σ α) (s : σ) :
    x.attempt s = (.ok (x s).1, (x s).2) := rfl

theorem bind_apply (x : Comp ε σ α) (f : α → Comp ε σ β) (s : σ) :
    (x >>= f) s = match x s with
      | (.ok a, s') => f a s'
      | (.error e, s') => (.error e, s') := rfl

theorem bind_ok {x : Comp ε σ α} {s s' : σ} {a : α} (h : x s = (.ok a, s'))
    (f : α → Comp ε σ β) : (x >>= f) s = f a s' := by
  simp [bind_apply, h]

theorem bind_error {x : Comp ε σ α} {s s' : σ} {e : ε} (h : x s = (.error e, s'))
    (f : α → Comp ε σ β) : (x >>= f) s = (.error e, s') := by
  simp [bind_apply, h]

/-- What is done with the outcome leaves the state alone. -/
theorem bind_lift {x : Comp ε σ α} {s s' : σ} {r : Except ε α} (h : x s = (r, s'))
    (f : α → Except ε β) : (x >>= fun a => lift (f a)) s = (r.bind f, s') := by
  cases r with
  | error e => exact bind_error h _
  | ok a => exact bind_ok h _

@[simp] theorem lift_ok_bind (a : α) (f : α → Comp ε σ β) : (lift (.ok a) >>= f) = f a := rfl

@[simp] theorem lift_error_bind (e : ε) (f : α → Comp ε σ β) :
    (lift (.error e) >>= f) = raise e := rfl

theorem finallyDo_apply (x : Comp ε σ α) (fin : Comp ε σ Unit) (s : σ) :
    x.finallyDo fin s = match fin (x s).2 with
      | (.ok (), s'') => ((x s).1, s'')
      | (.error e, s'') => (.error e, s'') := rfl

/-- The computation does not raise from the state. -/
def Returns (x : Comp ε σ α) (s : σ) : Prop := ∃ a s', x s = (.ok a, s')

@[simp] theorem returns_pure (a : α) (s : σ) : (pure a : Comp ε σ α).Returns s := ⟨a, s, rfl⟩

@[simp] theorem not_returns_raise (e : ε) (s : σ) : ¬ (raise e : Comp ε σ α).Returns s := by
  simp [Returns]

theorem returns_bind (x : Comp ε σ α) (f : α → Comp ε σ β) (s : σ) :
    (x >>= f).Returns s ↔ ∃ a s', x s = (.ok a, s') ∧ (f a).Returns s' := by
  rcases hx : x s with ⟨e | a, s'⟩
  · simp [Returns, bind_apply, hx]
  · simp [Returns, bind_apply, hx]

theorem returns_lift_bind (r : Except ε α) (f : α → Comp ε σ β) (s : σ) :
    (lift r >>= f).Returns s ↔ ∃ a, r = .ok a ∧ (f a).Returns s := by
  simp [returns_bind]

@[simp] theorem returns_read_bind (g : σ → α) (f : α → Comp ε σ β) (s : σ) :
    (read g >>= f).Returns s ↔ (f (g s)).Returns s := by
  simp [returns_bind]

theorem returns_attempt_bind (x : Comp ε σ α) (f : Except ε α → Comp ε σ β) (s : σ) :
    (x.attempt >>= f).Returns s ↔ (f (x s).1).Returns (x s).2 := by
  simp [returns_bind]

end Comp

end ExecutionEngine.Effect
