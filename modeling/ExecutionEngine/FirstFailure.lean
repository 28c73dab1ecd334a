import ExecutionEngine.ComparisonOutcome
import ExecutionEngine.PipelineOutcome

/-!
# The first failing test case decides

The test cases that are run one by one are judged up to the first whose outcome is
an exception or a value that does not match. What is compared and what is shown are
computed by two functions; for a value, and for an in-place result that returns null,
the one shown is a value that was compared. The only other way out of the loop is an
exception of the comparison.
-/
namespace ExecutionEngine.FirstFailure
open Binary64 Effect Pipeline PipelineOutcome Comparison Decision

section
variable (outputsMatch : Json → Json → Except PyExc Bool)

/-- The function that returns a value has not changed an argument in place, or returns
nothing. -/
def ReturnsNull : RunValue → Prop
  | .plain _ => True
  | .inPlace value _ => value = .null

/-- The outcome of a test case is a value that matches. -/
def Passes (inPlace : Option Bool) (outcome : Except PyExc RunValue) (tc : TestCase) : Prop :=
  ∃ v, outcome = .ok v ∧ compare outputsMatch inPlace v tc = .ok true

/-- The verdict says that test case `index` has failed, and how. -/
structure Reports (outcome : Except PyExc RunValue) (index : ℕ) (tc : TestCase)
    (verdict : Verdict) : Prop where
  names : verdict.failedTestCaseIndex = some (.int index)
  raised : ∀ exc, outcome = .error exc → verdict.verdict =
    match exc with
    | .executionTimeout .. => "timeout"
    | _ => "runtime_error"
  mismatch : ∀ v, outcome = .ok v → ∃ shown,
    verdict = .wrongAnswer (.int index) shown tc.expectedOutput ∧
      outputsMatch shown tc.expectedOutput = .ok false

/-- The verdict is decided by the first test case that fails. -/
structure DecidedByFirst (inPlace : Option Bool) (runs : ℕ → Except PyExc RunValue)
    (testCases : List TestCase) (verdict : Verdict) : Prop where
  accepted_iff : (∃ outs, verdict = .accepted outs) ↔
    ∀ i tc, testCases[i]? = some tc → Passes outputsMatch inPlace (runs i) tc
  outputs : ∀ outs, verdict = .accepted outs →
    List.Forall₂ (fun out tc => outputsMatch out tc.expectedOutput = .ok true) outs testCases
  first : ∀ i tc, testCases[i]? = some tc →
    (∀ k < i, ∀ tk, testCases[k]? = some tk → Passes outputsMatch inPlace (runs k) tk) →
    ¬ Passes outputsMatch inPlace (runs i) tc → Reports outputsMatch (runs i) i tc verdict

variable {outputsMatch}

/-- The value shown is one that the comparison has looked at last. -/
theorem reported_matches {r : RunValue} (hr : ReturnsNull r) {e shown : Json} {b : Bool}
    (hmatch : resultMatches outputsMatch r e = .ok b)
    (hshown : reported outputsMatch r e = .ok shown) : outputsMatch shown e = .ok b := by
  cases r with
  | plain value =>
    obtain rfl := Except.ok.inj hshown
    exact hmatch
  | inPlace value mutated =>
    obtain rfl : value = .null := hr
    cases hnull : outputsMatch .null e with
    | error exc => simp [resultMatches, hnull, bind, Except.bind] at hmatch
    | ok c =>
      cases c with
      | true =>
        simp [resultMatches, hnull, bind, Except.bind, pure, Except.pure] at hmatch
        simp [reported, Json.isNone, hnull, bind, Except.bind, pure, Except.pure] at hshown
        rw [← hshown, hmatch, hnull]
      | false =>
        simp [resultMatches, hnull, bind, Except.bind] at hmatch
        simp [reported, Json.isNone, hnull, bind, Except.bind, pure, Except.pure] at hshown
        rw [← hshown, hmatch]

theorem ReturnsNull.applyInPlace {v : RunValue} (h : ReturnsNull v) (inPlace : Option Bool) :
    ReturnsNull (applyInPlace inPlace v) := by
  cases v with
  | plain value => trivial
  | inPlace value mutated =>
    unfold Pipeline.applyInPlace
    split_ifs
    · trivial
    · exact h

theorem reports_failure {exc : PyExc} (index : ℕ) (tc : TestCase) :
    Reports outputsMatch (.error exc) index tc (failure exc (.int index)) where
  names := by cases exc <;> rfl
  raised := by
    intro e he
    obtain rfl := Except.error.inj he
    cases exc <;> rfl
  mismatch := fun v hv => by cases hv

/-- What is known of the verdict that is reached from test case `index` on. -/
structure DecidedFrom (outputsMatch : Json → Json → Except PyExc Bool) (inPlace : Option Bool)
    (runs : ℕ → Except PyExc RunValue) (index : ℕ) (testCases : List TestCase)
    (outs : List Json) (verdict : Verdict) : Prop where
  accepted : (∀ i tc, testCases[i]? = some tc → Passes outputsMatch inPlace (runs (index + i)) tc) →
    ∃ more, verdict = .accepted (outs ++ more) ∧
      List.Forall₂ (fun out tc => outputsMatch out tc.expectedOutput = .ok true) more testCases
  first : ∀ i tc, testCases[i]? = some tc →
    (∀ k < i, ∀ tk, testCases[k]? = some tk → Passes outputsMatch inPlace (runs (index + k)) tk) →
    ¬ Passes outputsMatch inPlace (runs (index + i)) tc →
    Reports outputsMatch (runs (index + i)) (index + i) tc verdict

/-- A test case that fails decides the verdict. -/
theorem DecidedFrom.of_failure {inPlace : Option Bool} {runs : ℕ → Except PyExc RunValue}
    {index : ℕ} {tc : TestCase} {rest : List TestCase} {outs : List Json} {verdict : Verdict}
    (hfails : ¬ Passes outputsMatch inPlace (runs index) tc)
    (hreports : Reports outputsMatch (runs index) index tc verdict) :
    DecidedFrom outputsMatch inPlace runs index (tc :: rest) outs verdict where
  accepted := fun hall => absurd (hall 0 tc rfl) hfails
  first := by
    intro i ti hi hbefore _
    cases i with
    | zero =>
      obtain rfl : tc = ti := by simpa using hi
      exact hreports
    | succ i => exact absurd (hbefore 0 (Nat.succ_pos i) tc rfl) hfails

/-- A test case that passes leaves the verdict to the others. -/
theorem DecidedFrom.of_pass {inPlace : Option Bool} {runs : ℕ → Except PyExc RunValue}
    {index : ℕ} {tc : TestCase} {rest : List TestCase} {outs : List Json} {shown : Json}
    {verdict : Verdict} (hpasses : Passes outputsMatch inPlace (runs index) tc)
    (hshown : outputsMatch shown tc.expectedOutput = .ok true)
    (h : DecidedFrom outputsMatch inPlace runs (index + 1) rest (outs ++ [shown]) verdict) :
    DecidedFrom outputsMatch inPlace runs index (tc :: rest) outs verdict where
  accepted := by
    intro hall
    obtain ⟨more, hverdict, hmore⟩ := h.accepted fun i ti hi => by
      rw [show index + 1 + i = index + (i + 1) by omega]
      exact hall (i + 1) ti (by simpa using hi)
    exact ⟨shown :: more, by rw [hverdict]; simp, .cons hshown hmore⟩
  first := by
    intro i ti hi hbefore hfails
    cases i with
    | zero =>
      obtain rfl : tc = ti := by simpa using hi
      exact absurd hpasses hfails
    | succ i =>
      rw [show index + (i + 1) = index + 1 + i by omega] at hfails ⊢
      refine h.first i ti (by simpa using hi) (fun k hk tk htk => ?_) hfails
      rw [show index + 1 + k = index + (k + 1) by omega]
      exact hbefore (k + 1) (by omega) tk (by simpa using htk)

theorem runEach_decided {S : Script} (hnull : ∀ i v, S.runs i = .ok v → ReturnsNull v)
    {inPlace : Option Bool} {testCases : List TestCase} {index : ℕ} {outs : List Json}
    {verdict : Verdict}
    (h : (runEach outputsMatch S.executor inPlace index testCases outs index).1 = .ok verdict) :
    DecidedFrom outputsMatch inPlace S.runs index testCases outs verdict := by
  induction testCases generalizing index outs with
  | nil =>
    obtain rfl := Except.ok.inj h
    exact ⟨fun _ => ⟨[], by simp, .nil⟩, fun i tc hi => by simp at hi⟩
  | cons tc rest ih =>
    obtain ⟨exc, hrun, -, hstep⟩ | ⟨v, hrun, hcase⟩ :=
      runEach_cons outputsMatch S inPlace tc rest index outs
    · rw [hstep] at h
      obtain rfl := Except.ok.inj h
      refine .of_failure ?_ ?_
      · rintro ⟨v, hv, -⟩
        rw [hrun] at hv
        cases hv
      · rw [hrun]
        exact reports_failure index tc
    · have hv := (hnull index v hrun).applyInPlace inPlace
      obtain ⟨exc, -, hstep⟩ | ⟨shown, hc, hshown, hstep⟩ | ⟨shown, hc, hshown, hstep⟩ := hcase
      · rw [hstep] at h
        cases h
      · rw [hstep] at h
        exact .of_pass ⟨v, hrun, hc⟩ (reported_matches hv hc hshown) (ih h)
      · rw [hstep] at h
        obtain rfl := Except.ok.inj h
        refine .of_failure ?_ ⟨rfl, ?_, fun _ _ => ⟨shown, rfl, reported_matches hv hc hshown⟩⟩
        · rintro ⟨w, hw, hmatch⟩
          obtain rfl := Except.ok.inj (hrun.symm.trans hw)
          rw [hc] at hmatch
          cases hmatch
        · intro exc hexc
          rw [hrun] at hexc
          cases hexc

/-- A verdict reached from the start is decided by the first test case that fails. -/
theorem DecidedFrom.decidedByFirst {inPlace : Option Bool} {runs : ℕ → Except PyExc RunValue}
    {testCases : List TestCase} {verdict : Verdict}
    (h : DecidedFrom outputsMatch inPlace runs 0 testCases [] verdict) :
    DecidedByFirst outputsMatch inPlace runs testCases verdict := by
  have hshift : ∀ i, runs (0 + i) = runs i := fun i => by rw [Nat.zero_add]
  have hfirst : ∀ i tc, testCases[i]? = some tc →
      (∀ k < i, ∀ tk, testCases[k]? = some tk → Passes outputsMatch inPlace (runs k) tk) →
      ¬ Passes outputsMatch inPlace (runs i) tc →
      Reports outputsMatch (runs i) i tc verdict := by
    intro i tc hi hbefore hfails
    have hreports := h.first i tc hi (fun k hk tk htk => by rw [hshift]; exact hbefore k hk tk htk)
      (by rwa [hshift])
    rwa [Nat.zero_add] at hreports
  have hall : (∃ outs, verdict = .accepted outs) →
      ∀ i tc, testCases[i]? = some tc → Passes outputsMatch inPlace (runs i) tc := by
    rintro ⟨outs, rfl⟩ i
    induction i using Nat.strong_induction_on with
    | _ i ih =>
      intro tc hi
      by_contra hfails
      -- an accepted verdict names no test case
      have hnames := (hfirst i tc hi (fun k hk tk htk => ih k hk tk htk) hfails).names
      cases hnames
  have haccepted : (∀ i tc, testCases[i]? = some tc → Passes outputsMatch inPlace (runs i) tc) →
      ∃ more, verdict = .accepted more ∧ List.Forall₂
        (fun out tc => outputsMatch out tc.expectedOutput = .ok true) more testCases :=
    fun hpass => h.accepted fun i tc hi => by rw [hshift]; exact hpass i tc hi
  refine ⟨⟨hall, fun hpass => ?_⟩, ?_, hfirst⟩
  · obtain ⟨more, hverdict, -⟩ := haccepted hpass
    exact ⟨more, hverdict⟩
  · rintro outs hverdict
    obtain ⟨more, hmore, hmatch⟩ := haccepted (hall ⟨outs, hverdict⟩)
    obtain rfl := Verdict.accepted.inj (hverdict.symm.trans hmore)
    exact hmatch

end

section
variable (printable : CodePoint → Bool) (room : ℕ)

/-- The comparison of a result raises. -/
def ResultRaises : RunValue → Json → Prop
  | .plain value, e => CallsRaise printable room value e
  | .inPlace value mutated, e =>
    CallsRaise printable room value e ∨
      ¬ Accepts printable value e ∧ CallsRaise printable room mutated e

theorem resultMatches_returns_iff (r : RunValue) (e : Json) :
    (∃ b, resultMatches (outputsMatch printable room) r e = .ok b) ↔
      ¬ ResultRaises printable room r e := by
  cases r with
  | plain value => exact (outputsMatch_decides room value e).returns_iff
  | inPlace value mutated =>
    exact (either_decides (outputsMatch_decides room value e)
      (outputsMatch_decides room mutated e)).returns_iff

theorem toOption_eq_some {ε α : Type} {x : Except ε α} {a : α} :
    x.toOption = some a ↔ x = .ok a := by
  cases x <;> simp [Except.toOption]

theorem quiet_iff (S : Script) (inPlace : Option Bool) (testCases : List TestCase) :
    Quiet (outputsMatch printable room) inPlace (fun i => (S.runs (0 + i)).toOption) testCases ↔
    ∀ i tc v, testCases[i]? = some tc → S.runs i = .ok v →
      (∀ k < i, ∀ tk, testCases[k]? = some tk →
        Passes (outputsMatch printable room) inPlace (S.runs k) tk) →
      ¬ ResultRaises printable room (applyInPlace inPlace v) tc.expectedOutput := by
  simp only [Quiet, Nat.zero_add, toOption_eq_some, PipelineOutcome.compare, Passes,
    resultMatches_returns_iff]

/-- The test cases that are run one by one end in the verdict for the first that fails exactly
when no comparison up to there raises. -/
theorem first_failure_decides_iff (S : Script) (inPlace : Option Bool) (testCases : List TestCase)
    (hnull : ∀ i v, S.runs i = .ok v → ReturnsNull v) :
    (∃ verdict, (runEach (outputsMatch printable room) S.executor inPlace 0 testCases [] 0).1 =
        .ok verdict ∧
      DecidedByFirst (outputsMatch printable room) inPlace S.runs testCases verdict) ↔
    ∀ i tc v, testCases[i]? = some tc → S.runs i = .ok v →
      (∀ k < i, ∀ tk, testCases[k]? = some tk →
        Passes (outputsMatch printable room) inPlace (S.runs k) tk) →
      ¬ ResultRaises printable room (applyInPlace inPlace v) tc.expectedOutput := by
  rw [← quiet_iff, ← runEach_returns_iff (outputsMatch printable room) S inPlace testCases 0 []]
  constructor
  · rintro ⟨verdict, hrun, -⟩
    exact ⟨verdict, hrun⟩
  · rintro ⟨verdict, hrun⟩
    exact ⟨verdict, hrun, (runEach_decided hnull hrun).decidedByFirst⟩

/-- A script in which every run returns the same value. -/
def returning (value : Json) : Script where
  compile := .ok ()
  runs := fun _ => .ok (.plain value)
  batch := none
  cleanup := .ok ()
  runs_exception := fun _ _ h => by cases h
  batch_exception := no_batch_exception

/-- A submission that returns a value whose comparison raises is not judged. -/
theorem unjudged_of_overflows {value e : Json} (h : Overflows value e) :
    ¬ ∃ verdict, (runEach (outputsMatch printable room) (returning value).executor none 0
      [⟨[], e⟩] [] 0).1 = .ok verdict := by
  rw [runEach_returns_iff, quiet_iff]
  intro hquiet
  exact hquiet 0 ⟨[], e⟩ (.plain value) rfl rfl (by simp) (h.callsRaise room)

end

/-- One test case whose output is not the expected one. -/
theorem first_failure_decides_wrong_answer :
    ∃ verdict, (runEach (outputsMatch (fun _ => true) 1000) (returning .null).executor none 0
        [⟨[], .bool true⟩] [] 0).1 = .ok verdict ∧
      DecidedByFirst (outputsMatch (fun _ => true) 1000) none (returning .null).runs
        [⟨[], .bool true⟩] verdict := by
  refine (first_failure_decides_iff (fun _ => true) 1000 (returning .null) none
    [⟨[], .bool true⟩] ?_).mpr ?_
  · intro i v hv
    obtain rfl := Except.ok.inj hv
    trivial
  · intro i tc v hi hv _
    obtain rfl := Except.ok.inj hv
    cases i with
    | zero =>
      obtain rfl := Option.some.inj hi
      exact (resultMatches_returns_iff _ _ _ _).mp ⟨false, rfl⟩
    | succ i => cases hi

/-- One test case that expects `1.5`, and a submission that returns `10 ** 400`. -/
theorem long_integer_unjudged :
    ¬ ∃ verdict, (runEach (outputsMatch (fun _ => true) 1000) (returning (.int (10 ^ 400))).executor
        none 0 [⟨[], .float (ofDecimal false 15 (-1))⟩] [] 0).1 = .ok verdict ∧
      DecidedByFirst (outputsMatch (fun _ => true) 1000) none (returning (.int (10 ^ 400))).runs
        [⟨[], .float (ofDecimal false 15 (-1))⟩] verdict := by
  intro h
  obtain ⟨verdict, hrun, -⟩ := h
  exact unjudged_of_overflows (fun _ => true) 1000 overflows_long ⟨verdict, hrun⟩

end ExecutionEngine.FirstFailure
