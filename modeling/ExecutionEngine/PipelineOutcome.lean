import ExecutionEngine.Pipeline

/-!
# When a judged run ends in a verdict

The outcomes of the executor's methods are given by a script: one outcome for
`compile`, one for each call of `run`, one for `run_batch` and one for `cleanup`.
The pipeline is then followed to its end. It turns every outcome of `run` and
`run_batch` into a verdict, but not every outcome of `compile`, of the comparison
and of `cleanup`.
-/
namespace ExecutionEngine.PipelineOutcome
open Effect Pipeline

section
variable (outputsMatch : Json → Json → Except PyExc Bool)

/-- The value that `_reported` shows is computed from comparisons that have
already been made. -/
theorem reported_of_resultMatches {r : RunValue} {e : Json} {b : Bool}
    (h : resultMatches outputsMatch r e = .ok b) : ∃ j, reported outputsMatch r e = .ok j := by
  cases r with
  | plain value => exact ⟨value, rfl⟩
  | inPlace value mutated =>
    cases hv : outputsMatch value e with
    | error exc => simp [resultMatches, hv, bind, Except.bind] at h
    | ok c =>
      cases hn : value.isNone <;> cases c <;>
        simp [reported, hn, hv, bind, Except.bind, pure, Except.pure]

/-- The comparison of a returned value with the output expected of a test case. -/
def compare (inPlace : Option Bool) (value : RunValue) (tc : TestCase) : Except PyExc Bool :=
  resultMatches outputsMatch (applyInPlace inPlace value) tc.expectedOutput

/-- No comparison that is reached raises. The comparison of test case `i` is
reached when a value is there to compare and all test cases before it match. -/
def Quiet (inPlace : Option Bool) (values : ℕ → Option RunValue) (testCases : List TestCase) :
    Prop :=
  ∀ i tc v, testCases[i]? = some tc → values i = some v →
    (∀ k < i, ∀ tk, testCases[k]? = some tk →
      ∃ w, values k = some w ∧ compare outputsMatch inPlace w tk = .ok true) →
    ∃ b, compare outputsMatch inPlace v tc = .ok b

variable {outputsMatch}

theorem quiet_nil {inPlace : Option Bool} {values : ℕ → Option RunValue} :
    Quiet outputsMatch inPlace values [] := by
  intro i tc v htc
  simp at htc

theorem quiet_cons {inPlace : Option Bool} {values : ℕ → Option RunValue} {tc : TestCase}
    {rest : List TestCase} :
    Quiet outputsMatch inPlace values (tc :: rest) ↔
      (∀ v, values 0 = some v → ∃ b, compare outputsMatch inPlace v tc = .ok b) ∧
        (∀ v, values 0 = some v → compare outputsMatch inPlace v tc = .ok true →
          Quiet outputsMatch inPlace (fun i => values (i + 1)) rest) := by
  constructor
  · intro h
    refine ⟨fun v hv => h 0 tc v rfl hv (by simp), fun v hv hmatch i ti w hi hw hbefore => ?_⟩
    refine h (i + 1) ti w (by simpa using hi) hw fun k hk tk htk => ?_
    cases k with
    | zero =>
      obtain rfl : tc = tk := by simpa using htk
      exact ⟨v, hv, hmatch⟩
    | succ k => exact hbefore k (by omega) tk (by simpa using htk)
  · rintro ⟨hfirst, hrest⟩ i ti v hi hv hbefore
    cases i with
    | zero =>
      obtain rfl : tc = ti := by simpa using hi
      exact hfirst v hv
    | succ i =>
      obtain ⟨w, hw, hmatch⟩ := hbefore 0 (by omega) tc rfl
      refine hrest w hw hmatch i ti v (by simpa using hi) hv fun k hk tk htk => ?_
      exact hbefore (k + 1) (by omega) tk (by simpa using htk)

end

/-- The outcome of each call that the pipeline makes on its executor. Apart from
`cleanup`, which may also be cancelled, an exception is an `Exception`. -/
structure Script where
  compile : Except PyExc Unit
  runs : ℕ → Except PyExc RunValue
  batch : Option (Except PyExc (List RunValue))
  cleanup : Except PyExc Unit
  runs_exception : ∀ i e, runs i = .error e → e.isException = true
  batch_exception : ∀ e, batch = some (.error e) → e.isException = true

theorem no_batch_exception (e : PyExc)
    (h : (none : Option (Except PyExc (List RunValue))) = some (.error e)) :
    e.isException = true := by
  cases h

namespace Script

/-- The scripted executor; its state counts the calls of `run`. -/
def executor (S : Script) : Executor ℕ where
  compile := .lift S.compile
  run := fun _ n => (S.runs n, n + 1)
  runBatch := S.batch.map fun outcome _ => .lift outcome
  cleanup := .lift S.cleanup

/-- The value that is compared with the output expected of test case `i`. The
results of a batch of the wrong length are not compared. -/
def valueAt (S : Script) (testCases : List TestCase) (i : ℕ) : Option RunValue :=
  match S.batch with
  | none => (S.runs i).toOption
  | some (.ok results) => if results.length = testCases.length then results[i]? else none
  | some (.error _) => none

/-- `compile` returns or raises one of the exceptions that `execute` handles. -/
def CompileHandled (S : Script) : Prop :=
  match S.compile with
  | .ok () => True
  | .error (.compileError _) => True
  | .error (.runtimeExecution ..) => True
  | .error (.executionTimeout ..) => True
  | .error _ => False

/-- `cleanup` returns or is cancelled. -/
def CleanupHandled (S : Script) : Prop :=
  match S.cleanup with
  | .ok () => True
  | .error e => e = .cancelled

end Script

section
variable {outputsMatch : Json → Json → Except PyExc Bool}

variable (outputsMatch) in
/-- One turn of the loop: what the outcome of `run` and the comparison decide. -/
theorem runEach_cons (S : Script) (inPlace : Option Bool) (tc : TestCase) (rest : List TestCase)
    (index : ℕ) (outs : List Json) :
    (∃ exc, S.runs index = .error exc ∧ exc.isException = true ∧
      runEach outputsMatch S.executor inPlace index (tc :: rest) outs index =
        (.ok (failure exc (.int index)), index + 1)) ∨
    ∃ v, S.runs index = .ok v ∧
      ((∃ exc, compare outputsMatch inPlace v tc = .error exc ∧
        runEach outputsMatch S.executor inPlace index (tc :: rest) outs index =
          (.error exc, index + 1)) ∨
      (∃ shown, compare outputsMatch inPlace v tc = .ok true ∧
        reported outputsMatch (applyInPlace inPlace v) tc.expectedOutput = .ok shown ∧
        runEach outputsMatch S.executor inPlace index (tc :: rest) outs index =
          runEach outputsMatch S.executor inPlace (index + 1) rest (outs ++ [shown])
            (index + 1)) ∨
      ∃ shown, compare outputsMatch inPlace v tc = .ok false ∧
        reported outputsMatch (applyInPlace inPlace v) tc.expectedOutput = .ok shown ∧
        runEach outputsMatch S.executor inPlace index (tc :: rest) outs index =
          (.ok (.wrongAnswer (.int index) shown tc.expectedOutput), index + 1)) := by
  have hrun : (S.executor.run tc.input).attempt index = (.ok (S.runs index), index + 1) := rfl
  rw [runEach, Comp.bind_ok hrun]
  cases hr : S.runs index with
  | error exc =>
    have hexc := S.runs_exception index exc hr
    exact .inl ⟨exc, rfl, hexc, by simp [hexc]⟩
  | ok v =>
    refine .inr ⟨v, rfl, ?_⟩
    unfold compare
    cases hc : resultMatches outputsMatch (applyInPlace inPlace v) tc.expectedOutput with
    | error exc => exact .inl ⟨exc, rfl, by simp [hc]⟩
    | ok b =>
      obtain ⟨shown, hshown⟩ := reported_of_resultMatches outputsMatch hc
      cases b with
      | true => exact .inr (.inl ⟨shown, rfl, hshown, by simp [hc, hshown]⟩)
      | false => exact .inr (.inr ⟨shown, rfl, hshown, by simp [hc, hshown]⟩)

variable (outputsMatch) in
/-- The test cases that pass only add to the outputs shown. -/
theorem runEach_passed (S : Script) (inPlace : Option Bool) (testCases : List TestCase) (j : ℕ)
    (hpass : ∀ i < j, ∃ v tc, testCases[i]? = some tc ∧ S.runs i = .ok v ∧
      compare outputsMatch inPlace v tc = .ok true) :
    ∃ outs, runEach outputsMatch S.executor inPlace 0 testCases [] 0 =
      runEach outputsMatch S.executor inPlace j (testCases.drop j) outs j := by
  induction j with
  | zero => exact ⟨[], by simp⟩
  | succ j ih =>
    obtain ⟨outs, hrun⟩ := ih fun i hi => hpass i (by omega)
    obtain ⟨v, tc, htc, hv, hmatch⟩ := hpass j (by omega)
    have hdrop : testCases.drop j = tc :: testCases.drop (j + 1) := by
      obtain ⟨hj, rfl⟩ := List.getElem?_eq_some_iff.mp htc
      exact List.drop_eq_getElem_cons hj
    rw [hrun, hdrop]
    obtain ⟨exc, hr, -, -⟩ | ⟨w, hr, hcase⟩ :=
      runEach_cons outputsMatch S inPlace tc (testCases.drop (j + 1)) j outs
    · simp [hv] at hr
    obtain rfl : v = w := by simpa [hv] using hr
    obtain ⟨exc, hc, -⟩ | ⟨shown, -, -, hnext⟩ | ⟨shown, hc, -⟩ := hcase
    · simp [hmatch] at hc
    · exact ⟨outs ++ [shown], hnext⟩
    · simp [hmatch] at hc

variable (outputsMatch) in
theorem runEach_returns_iff (S : Script) (inPlace : Option Bool) (testCases : List TestCase)
    (index : ℕ) (outs : List Json) :
    (∃ v, (runEach outputsMatch S.executor inPlace index testCases outs index).1 = .ok v) ↔
      Quiet outputsMatch inPlace (fun i => (S.runs (index + i)).toOption) testCases := by
  induction testCases generalizing index outs with
  | nil => simp [runEach, quiet_nil]
  | cons tc rest ih =>
    rw [quiet_cons]
    obtain ⟨exc, hr, -, hrun⟩ | ⟨v, hr, hcase⟩ :=
      runEach_cons outputsMatch S inPlace tc rest index outs
    · simp [hrun, hr, Except.toOption]
    · obtain ⟨exc, hc, hrun⟩ | ⟨shown, hc, -, hrun⟩ | ⟨shown, hc, -, hrun⟩ := hcase
      · simp [hrun, hr, Except.toOption, hc]
      · have hshift : (fun i => (S.runs (index + (i + 1))).toOption) =
            fun i => (S.runs (index + 1 + i)).toOption := by
          funext i
          rw [Nat.add_assoc, Nat.add_comm 1 i]
        rw [hrun, ih, hshift]
        simp [hr, hc, Except.toOption]
      · simp [hrun, hr, Except.toOption, hc]

/-- The batch branch from test case `index` on, after the outputs `outs`. -/
def judgePairs (outputsMatch : Json → Json → Except PyExc Bool) (index : ℕ) (outs : List Json)
    (pairs : List (RunValue × TestCase)) : Except PyExc Verdict := do
  match ← firstMismatch outputsMatch index pairs with
  | some verdict => pure verdict
  | none =>
    let shown ← pairs.mapM fun p => reported outputsMatch p.1 p.2.expectedOutput
    pure (.accepted (outs ++ shown))

/-- The output shown for the first pair can be moved to those already shown. -/
theorem judgePairs_cons {index : ℕ} {outs : List Json} {p : RunValue × TestCase}
    {pairs : List (RunValue × TestCase)} {shown : Json}
    (hm : resultMatches outputsMatch p.1 p.2.expectedOutput = .ok true)
    (hshown : reported outputsMatch p.1 p.2.expectedOutput = .ok shown) :
    judgePairs outputsMatch index outs (p :: pairs) =
      judgePairs outputsMatch (index + 1) (outs ++ [shown]) pairs := by
  have hfirst : firstMismatch outputsMatch index (p :: pairs) =
      firstMismatch outputsMatch (index + 1) pairs := by
    simp [firstMismatch, hm, bind, Except.bind]
  unfold judgePairs
  rw [hfirst]
  cases firstMismatch outputsMatch (index + 1) pairs with
  | error exc => rfl
  | ok m =>
    cases m with
    | some verdict => rfl
    | none =>
      simp only [List.mapM_cons, hshown]
      cases pairs.mapM fun p => reported outputsMatch p.1 p.2.expectedOutput with
      | error exc => rfl
      | ok rest => simp [bind, Except.bind, pure, Except.pure]

/-- Comparing a list of results afterwards is the same as comparing each result
when it arrives. -/
theorem runEach_of_results (S : Script) (inPlace : Option Bool) {results : List RunValue}
    {testCases : List TestCase} (hlength : results.length = testCases.length) (index : ℕ)
    (hruns : ∀ i v, results[i]? = some v → S.runs (index + i) = .ok v) (outs : List Json) :
    (runEach outputsMatch S.executor inPlace index testCases outs index).1 =
      judgePairs outputsMatch index outs
        ((results.map (applyInPlace inPlace)).zip testCases) := by
  induction testCases generalizing results index outs with
  | nil =>
    rw [List.zip_nil_right]
    have hpairs : judgePairs outputsMatch index outs [] = .ok (.accepted (outs ++ [])) := rfl
    rw [hpairs, List.append_nil]
    rfl
  | cons tc rest ih =>
    obtain ⟨v, results, rfl⟩ : ∃ v tail, results = v :: tail :=
      List.exists_cons_of_length_eq_add_one hlength
    have hv : S.runs index = .ok v := hruns 0 v rfl
    obtain ⟨exc, hr, -, -⟩ | ⟨w, hr, hcase⟩ :=
      runEach_cons outputsMatch S inPlace tc rest index outs
    · simp [hv] at hr
    obtain rfl : v = w := by simpa [hv] using hr
    rw [List.map_cons, List.zip_cons_cons]
    obtain ⟨exc, hc, hrun⟩ | ⟨shown, hc, hshown, hrun⟩ | ⟨shown, hc, hshown, hrun⟩ := hcase <;>
      unfold compare at hc <;> rw [hrun]
    · simp [judgePairs, firstMismatch, hc, bind, Except.bind]
    · rw [judgePairs_cons hc hshown]
      refine ih (by simpa using hlength) (index + 1) (fun i w hi => ?_) _
      rw [← hruns (i + 1) w (by simpa using hi), Nat.add_assoc, Nat.add_comm 1 i]
    · simp [judgePairs, firstMismatch, hc, hshown, bind, Except.bind, pure, Except.pure]

theorem judgeBatch_eq_runEach (S : Script) (inPlace : Option Bool) {results : List RunValue}
    {testCases : List TestCase} (hlength : results.length = testCases.length)
    (hruns : ∀ i v, results[i]? = some v → S.runs i = .ok v) :
    judgeBatch outputsMatch inPlace results testCases =
      (runEach outputsMatch S.executor inPlace 0 testCases [] 0).1 := by
  rw [runEach_of_results S inPlace hlength 0 (by simpa using hruns) []]
  unfold judgeBatch
  exact if_neg (not_not.mpr hlength)

/-- The script in which the results of a batch arrive one by one. -/
def Script.deliver (S : Script) (results : List RunValue) : Script where
  compile := S.compile
  runs := fun i => match results[i]? with
    | some v => .ok v
    | none => .error (.runtimeExecution "Runtime error" none)
  batch := none
  cleanup := S.cleanup
  runs_exception := by
    intro i e h
    split at h
    · cases h
    · obtain rfl := Except.error.inj h
      rfl
  batch_exception := no_batch_exception

theorem judgeBatch_returns_iff (S : Script) (inPlace : Option Bool) {results : List RunValue}
    {testCases : List TestCase} (hlength : results.length = testCases.length) :
    (∃ v, judgeBatch outputsMatch inPlace results testCases = .ok v) ↔
      Quiet outputsMatch inPlace (fun i => results[i]?) testCases := by
  have hruns : ∀ i v, results[i]? = some v → (S.deliver results).runs i = .ok v := by
    intro i v hv
    simp [Script.deliver, hv]
  have hvalues : (fun i => ((S.deliver results).runs (0 + i)).toOption) = fun i => results[i]? := by
    funext i
    cases hi : results[i]? <;> simp [Script.deliver, hi, Except.toOption]
  rw [judgeBatch_eq_runEach (S.deliver results) inPlace hlength hruns, runEach_returns_iff, hvalues]

theorem quiet_none {inPlace : Option Bool} {testCases : List TestCase} :
    Quiet outputsMatch inPlace (fun _ => none) testCases := by
  intro i tc v _ hv
  cases hv

theorem judge_returns_iff (S : Script) (req : Request) :
    (∃ v, (judge outputsMatch S.executor req 0).1 = .ok v) ↔
      Quiet outputsMatch req.inPlace (S.valueAt req.testCases) req.testCases := by
  cases hb : S.batch with
  | none =>
    have hvalues : S.valueAt req.testCases = fun i => (S.runs (0 + i)).toOption := by
      funext i
      simp [Script.valueAt, hb]
    rw [hvalues, ← runEach_returns_iff outputsMatch S req.inPlace req.testCases 0 []]
    simp [judge, Script.executor, hb]
  | some outcome =>
    have hjudge : judge outputsMatch S.executor req =
        runAll outputsMatch (fun _ => .lift outcome) req := by
      simp [judge, Script.executor, hb]
    rw [hjudge]
    cases outcome with
    | error exc =>
      have hexc := S.batch_exception exc hb
      have hvalues : S.valueAt req.testCases = fun _ => none := by
        funext i
        simp [Script.valueAt, hb]
      simp [runAll, Comp.bind_apply, hexc, hvalues, quiet_none]
    | ok results =>
      have hrun : (runAll outputsMatch (fun _ => .lift (.ok results)) req 0).1 =
          judgeBatch outputsMatch req.inPlace results req.testCases := by
        simp [runAll, Comp.bind_apply]
      rw [hrun]
      by_cases hlength : results.length = req.testCases.length
      · have hvalues : S.valueAt req.testCases = fun i => results[i]? := by
          funext i
          simp [Script.valueAt, hb, hlength]
        rw [hvalues, judgeBatch_returns_iff S req.inPlace hlength]
      · have hvalues : S.valueAt req.testCases = fun _ => none := by
          funext i
          simp [Script.valueAt, hb, hlength]
        simp [judgeBatch, hlength, hvalues, quiet_none, pure, Except.pure]

variable (outputsMatch) in
theorem compileAndJudge_returns_iff (S : Script) (req : Request) :
    (∃ v, (compileAndJudge outputsMatch S.executor req 0).1 = .ok v) ↔
      S.CompileHandled ∧
        (S.compile = .ok () →
          Quiet outputsMatch req.inPlace (S.valueAt req.testCases) req.testCases) := by
  have hcompile : S.executor.compile.attempt 0 = (.ok S.compile, 0) := rfl
  rw [compileAndJudge, Comp.bind_ok hcompile]
  unfold Script.CompileHandled
  cases hc : S.compile with
  | ok u => simpa using judge_returns_iff S req
  | error exc => cases exc <;> simp

theorem shieldedCleanup_apply (S : Script) (n : ℕ) :
    shieldedCleanup S.executor n = match S.cleanup with
      | .ok () => (.ok (), n)
      | .error .cancelled => (.ok (), n)
      | .error exc => (.error exc, n) := by
  have hcleanup : S.executor.cleanup.attempt n = (.ok S.cleanup, n) := rfl
  rw [shieldedCleanup, Comp.bind_ok hcleanup]
  cases S.cleanup with
  | ok u => rfl
  | error exc => cases exc <;> rfl

theorem execute_of_cleanup (S : Script) (req : Request) (hcleanup : S.cleanup = .ok ()) :
    (execute outputsMatch S.executor req 0).1 =
      (compileAndJudge outputsMatch S.executor req 0).1 := by
  rw [execute, Comp.finallyDo_apply, shieldedCleanup_apply, hcleanup]

/-- A judged run returns a verdict exactly when `compile` ends in one of the
outcomes that the pipeline handles, no comparison it reaches raises, and
`cleanup` raises nothing but a cancellation. -/
theorem execute_returns_iff (outputsMatch : Json → Json → Except PyExc Bool) (S : Script)
    (req : Request) :
    (∃ v, (execute outputsMatch S.executor req 0).1 = .ok v) ↔
      S.CompileHandled ∧
        (S.compile = .ok () →
          Quiet outputsMatch req.inPlace (S.valueAt req.testCases) req.testCases) ∧
        S.CleanupHandled := by
  rw [← and_assoc, ← compileAndJudge_returns_iff outputsMatch S req]
  rw [execute, Comp.finallyDo_apply, shieldedCleanup_apply]
  unfold Script.CleanupHandled
  cases hc : S.cleanup with
  | ok u => simp
  | error exc => cases exc <;> simp

/-- Equality of integers, for the examples. -/
def sameInt : Json → Json → Except PyExc Bool
  | .int m, .int n => .ok (m == n)
  | _, _ => .ok false

/-- A request with the given expected outputs. -/
theorem length_functionName :
    1 ≤ ("f" : PyStr).length ∧ ("f" : PyStr).length ≤ 100 := by decide

def requestFor (expected : List Json) (h : 1 ≤ expected.length ∧ expected.length ≤ 20) :
    Request where
  language := .java
  sourceCode := "class Solution { int f() { return 1; } }"
  functionName := "f"
  testCases := expected.map fun e => ⟨[], e⟩
  inPlace := none
  sourceCode_length := by decide
  functionName_length := length_functionName
  testCases_length := by simpa using h

/-- The submission is accepted, and then the release of its container fails
because Redis has gone away. -/
def failingCleanup : Script where
  compile := .ok ()
  runs := fun _ => .ok (.plain (.int 1))
  batch := none
  cleanup := .error (.redisConnection "Connection closed by server.")
  runs_exception := by simp
  batch_exception := no_batch_exception

/-- The exception of `cleanup` replaces the verdict. -/
theorem execute_raises :
    ¬ ∀ (outputsMatch : Json → Json → Except PyExc Bool) (S : Script) (req : Request),
      ∃ v, (execute outputsMatch S.executor req 0).1 = .ok v := by
  intro h
  obtain ⟨v, hv⟩ := h sameInt failingCleanup (requestFor [.int 1] (by decide))
  cases hv

end

end ExecutionEngine.PipelineOutcome
