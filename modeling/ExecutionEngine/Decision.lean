import Mathlib.Tactic

/-!
# Tests that may raise

A test returns a Boolean or raises. `Decides` says of a test when it raises, and
what it tells when it returns. Tests are put together in the short-circuit order of
`or` and of a loop over a list, and so is what they decide: a later test raises only
where the earlier ones have let it run.
-/
namespace ExecutionEngine.Decision

variable {ε α : Type}

/-- The second test, if the first one fails. -/
def either (first second : Except ε Bool) : Except ε Bool := do
  if ← first then .ok true else second

/-- The test on one item after the other, up to the first that fails. -/
def allOf (test : α → Except ε Bool) : List α → Except ε Bool
  | [] => .ok true
  | x :: rest => do
    if ← test x then allOf test rest else .ok false

/-- The test raises in the first case, and returns otherwise whether the second holds. -/
def Decides (outcome : Except ε Bool) (raises accepts : Prop) : Prop :=
  ((∃ exc, outcome = .error exc) ∧ raises) ∨ ∃ b, outcome = .ok b ∧ ¬ raises ∧ (b = true ↔ accepts)

section
variable {outcome first second : Except ε Bool} {raises accepts raises' accepts' : Prop}

theorem decides_ok (b : Bool) : Decides (.ok b : Except ε Bool) False (b = true) :=
  .inr ⟨b, rfl, id, Iff.rfl⟩

theorem Decides.returns_iff (h : Decides outcome raises accepts) :
    (∃ b, outcome = .ok b) ↔ ¬ raises := by
  rcases h with ⟨⟨exc, rfl⟩, hraises⟩ | ⟨b, rfl, hraises, -⟩
  · simp [hraises]
  · simp [hraises]

theorem Decides.answer_iff (h : Decides outcome raises accepts) {b : Bool}
    (hb : outcome = .ok b) : b = true ↔ accepts := by
  rcases h with ⟨⟨exc, rfl⟩, -⟩ | ⟨c, rfl, -, haccepts⟩
  · cases hb
  · rw [← Except.ok.inj hb]
    exact haccepts

theorem Decides.true_iff (h : Decides outcome raises accepts) :
    outcome = .ok true ↔ ¬ raises ∧ accepts := by
  rcases h with ⟨⟨exc, rfl⟩, hraises⟩ | ⟨b, rfl, hraises, haccepts⟩
  · simp [hraises]
  · simp [hraises, haccepts]

theorem Decides.false_iff (h : Decides outcome raises accepts) :
    outcome = .ok false ↔ ¬ raises ∧ ¬ accepts := by
  rcases h with ⟨⟨exc, rfl⟩, hraises⟩ | ⟨b, rfl, hraises, haccepts⟩
  · simp [hraises]
  · rw [← haccepts]
    simp [hraises]

theorem either_decides (h : Decides first raises accepts) (h' : Decides second raises' accepts') :
    Decides (either first second) (raises ∨ ¬ accepts ∧ raises') (accepts ∨ accepts') := by
  rcases h with ⟨⟨exc, rfl⟩, hraises⟩ | ⟨b, rfl, hraises, haccepts⟩
  · exact .inl ⟨⟨exc, rfl⟩, .inl hraises⟩
  · cases b with
    | true =>
      have hyes := haccepts.mp rfl
      exact .inr ⟨true, rfl, by simp [hraises, hyes], by simp [hyes]⟩
    | false =>
      have hno : ¬ accepts := fun h => absurd (haccepts.mpr h) (by simp)
      rcases h' with ⟨⟨exc, rfl⟩, hraises'⟩ | ⟨b, rfl, hraises', haccepts'⟩
      · exact .inl ⟨⟨exc, rfl⟩, .inr ⟨hno, hraises'⟩⟩
      · exact .inr ⟨b, rfl, by simp [hraises, hraises'], by simp [haccepts', hno]⟩

end

section
variable {test : α → Except ε Bool} {raises accepts : α → Prop}

/-- The loop comes to an item that raises: all items before it are accepted. -/
def Stuck (raises accepts : α → Prop) (xs : List α) : Prop :=
  ∃ before x after, xs = before ++ x :: after ∧ (∀ y ∈ before, accepts y) ∧ raises x

theorem stuck_cons {x : α} {rest : List α} :
    Stuck raises accepts (x :: rest) ↔ raises x ∨ accepts x ∧ Stuck raises accepts rest := by
  constructor
  · rintro ⟨before, y, after, heq, hbefore, h⟩
    cases before with
    | nil =>
      obtain rfl := (List.cons.inj heq).1
      exact .inl h
    | cons z before =>
      obtain ⟨rfl, hrest⟩ := List.cons.inj heq
      exact .inr ⟨hbefore x (by simp), before, y, after, hrest,
        fun w hw => hbefore w (by simp [hw]), h⟩
  · rintro (h | ⟨haccepts, before, y, after, rfl, hbefore, h⟩)
    · exact ⟨[], x, rest, rfl, by simp, h⟩
    · refine ⟨x :: before, y, after, rfl, ?_, h⟩
      rw [List.forall_mem_cons]
      exact ⟨haccepts, hbefore⟩

theorem allOf_decides (h : ∀ x, Decides (test x) (raises x) (accepts x)) (xs : List α) :
    Decides (allOf test xs) (Stuck raises accepts xs) (∀ x ∈ xs, accepts x) := by
  induction xs with
  | nil =>
    refine .inr ⟨true, rfl, ?_, by simp⟩
    rintro ⟨before, x, after, heq, -⟩
    simp at heq
  | cons x rest ih =>
    unfold Decides
    rw [stuck_cons, List.forall_mem_cons, allOf]
    rcases h x with ⟨⟨exc, hexc⟩, hraises⟩ | ⟨b, hb, hraises, haccepts⟩
    · exact .inl ⟨⟨exc, by rw [hexc]; rfl⟩, .inl hraises⟩
    · rw [hb]
      cases b with
      | false =>
        have hno : ¬ accepts x := fun h => absurd (haccepts.mpr h) (by simp)
        exact .inr ⟨false, rfl, by simp [hraises, hno], by simp [hno]⟩
      | true =>
        have hyes := haccepts.mp rfl
        rcases ih with ⟨⟨exc, hexc⟩, hstuck⟩ | ⟨b, hb', hstuck, hall⟩
        · exact .inl ⟨⟨exc, hexc⟩, .inr ⟨hyes, hstuck⟩⟩
        · exact .inr ⟨b, hb', by simp [hraises, hstuck], by simp [hall, hyes]⟩

end

end ExecutionEngine.Decision
