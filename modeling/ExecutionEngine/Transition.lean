import Mathlib.Data.List.Basic
import Mathlib.Tactic

/-!
# Labelled transition systems and guarded runs

A system is an initial state and a partial step function: `none` means that the
action is not enabled. A run is a list of actions, so every state reached by an
interleaving is the end of some run. A guard is a condition on the state before
a step; a run is guarded when each of its steps meets it. The one induction rule
below covers invariants, guarded invariants and statements that also mention the
actions taken so far. A run also has outputs, those of its steps in order; by them a queue
is compared with what went in and what came out.
-/
namespace ExecutionEngine.Transition

structure System (σ α : Type*) where
  init : σ
  step : σ → α → Option σ

namespace System

variable {σ α : Type*} (M : System σ α)

/-- Execute the actions from a given state, stopping at the first disabled one. -/
def exec : σ → List α → Option σ
  | s, [] => some s
  | s, a :: as => (M.step s a).bind fun t => exec t as

/-- A run starts in the initial state. -/
def run (as : List α) : Option σ := M.exec M.init as

/-- Every step taken from `s` along the actions meets the guard. -/
def Guarded (g : σ → α → Prop) : σ → List α → Prop
  | _, [] => True
  | s, a :: as => g s a ∧ match M.step s a with
    | none => True
    | some t => Guarded g t as

instance decidableGuarded (g : σ → α → Prop) [∀ s a, Decidable (g s a)] :
    ∀ (s : σ) (as : List α), Decidable (M.Guarded g s as)
  | _, [] => isTrue trivial
  | s, a :: as =>
    have : Decidable (match M.step s a with
        | none => True
        | some t => M.Guarded g t as) :=
      match M.step s a with
      | none => isTrue trivial
      | some t => decidableGuarded g t as
    inferInstanceAs (Decidable (_ ∧ _))

@[simp] theorem exec_nil (s : σ) : M.exec s [] = some s := rfl

theorem exec_cons {s t : σ} {a : α} {as : List α} (h : M.exec s (a :: as) = some t) :
    ∃ u, M.step s a = some u ∧ M.exec u as = some t := by
  simpa [exec, Option.bind_eq_some_iff] using h

theorem exec_append {s t u : σ} {as bs : List α} (h : M.exec s as = some t)
    (h' : M.exec t bs = some u) : M.exec s (as ++ bs) = some u := by
  induction as generalizing s with
  | nil =>
    obtain rfl : s = t := by simpa using h
    exact h'
  | cons a as ih =>
    obtain ⟨v, hv, hrest⟩ := M.exec_cons h
    simpa [exec, hv] using ih hrest

theorem guarded_cons {g : σ → α → Prop} {s u : σ} {a : α} {as : List α}
    (h : M.Guarded g s (a :: as)) (hu : M.step s a = some u) :
    g s a ∧ M.Guarded g u as := by
  simpa [Guarded, hu] using h

theorem guarded_append {g : σ → α → Prop} {s t : σ} {as bs : List α} (h : M.Guarded g s as)
    (hexec : M.exec s as = some t) (h' : M.Guarded g t bs) : M.Guarded g s (as ++ bs) := by
  induction as generalizing s with
  | nil =>
    obtain rfl : s = t := by simpa using hexec
    exact h'
  | cons a as ih =>
    obtain ⟨u, hu, hrest⟩ := M.exec_cons hexec
    obtain ⟨hga, hgu⟩ := M.guarded_cons h hu
    simpa [Guarded, hu, hga] using ih hgu hrest

/-- Induction over a guarded run. `P` may relate the state to the actions that
led to it; the step hypothesis is the only place where the system is unfolded. -/
theorem history_invariant {g : σ → α → Prop} {P : List α → σ → Prop}
    (hstep : ∀ past s a t, P past s → g s a → M.step s a = some t → P (past ++ [a]) t)
    (past : List α) {as : List α} {s t : σ} (hs : P past s) (hg : M.Guarded g s as)
    (h : M.exec s as = some t) : P (past ++ as) t := by
  induction as generalizing past s with
  | nil =>
    obtain rfl : s = t := by simpa using h
    simpa using hs
  | cons a as ih =>
    obtain ⟨u, hu, hrest⟩ := M.exec_cons h
    obtain ⟨hga, hgu⟩ := M.guarded_cons hg hu
    have hnext := hstep past s a u hs hga hu
    simpa [List.append_assoc] using ih _ hnext hgu hrest

/-- A state predicate that every guarded step preserves holds at the end of
every guarded run. -/
theorem invariant {g : σ → α → Prop} {I : σ → Prop}
    (hstep : ∀ s a t, I s → g s a → M.step s a = some t → I t)
    {as : List α} {s : σ} (hinit : I M.init) (hg : M.Guarded g M.init as)
    (h : M.run as = some s) : I s :=
  M.history_invariant (P := fun _ s => I s)
    (fun _ s a t hs hga hst => hstep s a t hs hga hst) [] hinit hg h

/-- A guard on the actions alone is a condition on the list of actions. -/
theorem guarded_of_forall {g : σ → α → Prop} {as : List α}
    (h : ∀ s, ∀ a ∈ as, g s a) (s : σ) : M.Guarded g s as := by
  induction as generalizing s with
  | nil => trivial
  | cons a as ih =>
    refine ⟨h s a (by simp), ?_⟩
    cases hs : M.step s a with
    | none => trivial
    | some t => exact ih (fun s b hb => h s b (by simp [hb])) t

/-- Along a run there are at most as many actions of a kind as a measure allows that each of
them lowers and that nothing raises. -/
theorem countP_add_le {I : σ → Prop} {m : σ → ℕ} (p : α → Bool)
    (hI : ∀ s a t, I s → M.step s a = some t → I t)
    (hm : ∀ s a t, I s → M.step s a = some t → (if p a then 1 else 0) + m t ≤ m s)
    {as : List α} {s t : σ} (hs : I s) (h : M.exec s as = some t) : as.countP p + m t ≤ m s := by
  induction as generalizing s with
  | nil =>
    obtain rfl : s = t := by simpa using h
    simp
  | cons a as ih =>
    obtain ⟨u, hu, hrest⟩ := M.exec_cons h
    have hfirst := hm s a u hs hu
    have hlater := ih (hI s a u hs hu) hrest
    rw [List.countP_cons]
    omega

/-- What the steps along the actions emit, in the order of the steps. -/
def emitted {β : Type*} (out : σ → α → List β) : σ → List α → List β
  | _, [] => []
  | s, a :: as => out s a ++ (M.step s a).elim [] fun t => emitted out t as

theorem emitted_cons {β : Type*} {out : σ → α → List β} {s t : σ} {a : α} {as : List α}
    (h : M.step s a = some t) : M.emitted out s (a :: as) = out s a ++ M.emitted out t as := by
  rw [emitted, h]
  rfl

/-- A list to which every step adds at its end and from which it takes at its front: what
has been added is what has been taken, in the same order, and what is left. -/
theorem first_in_first_out {β : Type*} {I : σ → Prop} {queue : σ → List β}
    {added taken : σ → α → List β} (hI : ∀ s a t, I s → M.step s a = some t → I t)
    (hqueue : ∀ s a t, I s → M.step s a = some t → queue s ++ added s a = taken s a ++ queue t)
    {as : List α} {s t : σ} (hs : I s) (h : M.exec s as = some t) :
    queue s ++ M.emitted added s as = M.emitted taken s as ++ queue t := by
  induction as generalizing s with
  | nil =>
    obtain rfl : s = t := by simpa using h
    simp [emitted]
  | cons a as ih =>
    obtain ⟨u, hu, hrest⟩ := M.exec_cons h
    rw [M.emitted_cons hu, M.emitted_cons hu, ← List.append_assoc, hqueue s a u hs hu,
      List.append_assoc, List.append_assoc, ih (hI s a u hs hu) hrest]

end System

/-- Replacing one member of a population moves the number of members with a
property by at most one. Stated with sums on both sides, so that no truncated
subtraction occurs. -/
theorem countP_set_add {α : Type*} (p : α → Bool) {l : List α} {i : ℕ} {a : α} (b : α)
    (h : l[i]? = some a) :
    (l.set i b).countP p + (if p a then 1 else 0) = l.countP p + (if p b then 1 else 0) := by
  obtain ⟨hi, rfl⟩ := List.getElem?_eq_some_iff.mp h
  have hpos : p l[i] = true → 0 < l.countP p := fun hp =>
    List.countP_pos_iff.mpr ⟨l[i], List.getElem_mem hi, hp⟩
  rw [List.countP_set hi]
  by_cases ha : p l[i] = true
  · have hcount := hpos ha
    simp only [ha, if_true]
    split_ifs <;> omega
  · simp only [ha, Bool.false_eq_true, if_false]
    split_ifs <;> omega

end ExecutionEngine.Transition
