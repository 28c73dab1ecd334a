import ExecutionEngine.PipelineOutcome
import ExecutionEngine.Process

/-!
# The batch path and the one-by-one path

The same submission behaves on each test case as an outcome says: it returns a
value or it fails. Delivered one by one, each test case is a process of its own.
Delivered as a batch, one process prints a result object per test case and stops
at the first failure. The two paths differ in when they compare: one by one, a
wrong value is reported before a later failure is seen; in a batch, any failure
is reported before the first comparison.
-/
namespace ExecutionEngine.BatchPath
open Effect Pipeline Process PipelineOutcome

/-- A failure on a test case: an exception that the wrapper catches and prints, or
the death of the process. -/
inductive Crash
  | caught (message stderr : PyStr)
  | died (returncode : ℤ) (stderr : PyStr) (nonzero : returncode ≠ 0)

inductive Outcome
  | returned (value : RunValue)
  | failed (crash : Crash)

/-- The result object of a returned value. -/
def valueBlock : RunValue → Dict
  | .plain value => [("result", value)]
  | .inPlace value mutated => [("result", value), ("mutated", mutated)]

/-- The batch wrapper adds the number of the test case. -/
def numberedBlock (value : RunValue) (index : ℕ) : Dict :=
  valueBlock value ++ ([("index", .int index)] : Dict)

/-- The object printed for a caught exception. -/
def errorBlock (message : PyStr) (index : ℕ) : Dict :=
  [("error", .str message), ("failed_test_case_index", .int index)]

/-- The process that runs one test case. -/
def runOne : Outcome → SandboxRun
  | .returned value => .exited ⟨some (valueBlock value), [valueBlock value], [], 0⟩
  | .failed (.caught message stderr) =>
    .exited ⟨some (errorBlock message 0), [errorBlock message 0], stderr, 1⟩
  | .failed (.died returncode stderr _) => .exited ⟨none, [], stderr, returncode⟩

/-- The loop of the batch wrapper from test case `index` on: the objects printed,
and the error output and exit code at the end. -/
def runFrom (outcome : ℕ → Outcome) : (index count : ℕ) → List Dict × PyStr × ℤ
  | _, 0 => ([], [], 0)
  | index, count + 1 =>
    match outcome index with
    | .returned value =>
      let (blocks, rest) := runFrom outcome (index + 1) count
      (numberedBlock value index :: blocks, rest)
    | .failed (.caught message stderr) => ([errorBlock message index], stderr, 1)
    | .failed (.died returncode stderr _) => ([], stderr, returncode)

/-- The process that runs all test cases. -/
def runTogether (outcome : ℕ → Outcome) (count : ℕ) : SandboxRun :=
  let (blocks, stderr, returncode) := runFrom outcome 0 count
  .exited ⟨blocks.getLast?, blocks, stderr, returncode⟩

section
variable (str : Json → PyStr)

/-- The executor that runs one test case at a time. -/
def oneByOne (outcome : ℕ → Outcome) : Script where
  compile := .ok ()
  runs := fun i => runWrapper str (runOne (outcome i))
  batch := none
  cleanup := .ok ()
  runs_exception := fun _ _ h => runWrapper_exception h
  batch_exception := no_batch_exception

/-- The executor with `run_batch`. -/
def together (outcome : ℕ → Outcome) (count : ℕ) : Script where
  compile := .ok ()
  runs := fun i => runWrapper str (runOne (outcome i))
  batch := some (runBatchWrapper str count (runTogether outcome count))
  cleanup := .ok ()
  runs_exception := fun _ _ h => runWrapper_exception h
  batch_exception := fun _ h => runBatchWrapper_exception (Option.some.inj h)

variable {str}

theorem runWrapper_runOne_returned (value : RunValue) :
    runWrapper str (runOne (.returned value)) = .ok value := by
  cases value <;> rfl

theorem runWrapper_runOne_failed (crash : Crash) :
    ∃ message, runWrapper str (runOne (.failed crash)) =
      .error (.runtimeExecution message none) := by
  cases crash with
  | caught message stderr => exact ⟨_, rfl⟩
  | died returncode stderr nonzero => exact ⟨_, rfl⟩

theorem resultValue_numberedBlock (value : RunValue) (index : ℕ) :
    resultValue (numberedBlock value index) = value := by
  cases value <;> rfl

theorem contains_error_numberedBlock (value : RunValue) (index : ℕ) :
    (numberedBlock value index).contains "error" = false := by
  cases value <;> rfl

/-- The end of `run_batch_wrapper`, after some results have been collected. -/
def finish (str : Json → PyStr) (count : ℕ) (printed : List Dict × PyStr × ℤ)
    (results : List RunValue) : Except PyExc (List RunValue) := do
  let results ← collect str printed.2.1 printed.2.2 printed.1 results
  if printed.2.2 ≠ 0 ∨ results.length ≠ count then
    .error (.runtimeExecution (errorMessage str none printed.2.1 printed.2.2)
      (some (.int results.length)))
  else .ok results

theorem runBatchWrapper_runTogether (outcome : ℕ → Outcome) (count : ℕ) :
    runBatchWrapper str count (runTogether outcome count) =
      finish str count (runFrom outcome 0 count) [] := rfl

/-- A returned value is collected. -/
theorem finish_returned {outcome : ℕ → Outcome} {index count total : ℕ} {value : RunValue}
    (h : outcome index = .returned value) (results : List RunValue) :
    finish str total (runFrom outcome index (count + 1)) results =
      finish str total (runFrom outcome (index + 1) count) (results ++ [value]) := by
  simp only [finish, runFrom, h, collect, contains_error_numberedBlock,
    resultValue_numberedBlock]
  rfl

/-- A failure ends the batch with the number of the test case. -/
theorem finish_failed {outcome : ℕ → Outcome} {index count total : ℕ} {crash : Crash}
    (h : outcome index = .failed crash) {results : List RunValue} (hlen : results.length = index) :
    ∃ message, finish str total (runFrom outcome index (count + 1)) results =
      .error (.runtimeExecution message (some (.int index))) := by
  cases crash with
  | caught message stderr =>
    refine ⟨errorMessage str (some (errorBlock message index)) stderr 1, ?_⟩
    simp only [finish, runFrom, h]
    rfl
  | died returncode stderr nonzero =>
    refine ⟨errorMessage str none stderr returncode, ?_⟩
    simp [finish, runFrom, h, collect, nonzero, hlen, bind, Except.bind]

theorem finish_first_failure {outcome : ℕ → Outcome} {total : ℕ} {k : ℕ} {index count : ℕ}
    {crash : Crash} (hbefore : ∀ i < k, ∃ v, outcome (index + i) = .returned v)
    (hfail : outcome (index + k) = .failed crash) (hk : k < count) {results : List RunValue}
    (hlen : results.length = index) :
    ∃ message, finish str total (runFrom outcome index count) results =
      .error (.runtimeExecution message (some (.int (index + k : ℕ)))) := by
  induction k generalizing index count results with
  | zero =>
    obtain ⟨count, rfl⟩ : ∃ n, count = n + 1 := ⟨count - 1, by omega⟩
    exact finish_failed hfail hlen
  | succ k ih =>
    obtain ⟨count, rfl⟩ : ∃ n, count = n + 1 := ⟨count - 1, by omega⟩
    obtain ⟨v, hv⟩ := hbefore 0 (by omega)
    rw [Nat.add_zero] at hv
    have hshift : ∀ i, index + 1 + i = index + (i + 1) := fun i => by omega
    have hrest := @ih (index + 1) count
      (fun i hi => by rw [hshift]; exact hbefore (i + 1) (by omega))
      (by rw [hshift]; exact hfail) (by omega) (results ++ [v]) (by simp [hlen])
    rw [finish_returned hv, ← hshift k]
    exact hrest

theorem finish_all_returned {outcome : ℕ → Outcome} {total count index : ℕ}
    (hall : ∀ i < count, ∃ v, outcome (index + i) = .returned v) {results : List RunValue}
    (hlen : results.length + count = total) :
    ∃ values : List RunValue, values.length = count ∧
      (∀ i v, values[i]? = some v → outcome (index + i) = .returned v) ∧
      finish str total (runFrom outcome index count) results = .ok (results ++ values) := by
  induction count generalizing index results with
  | zero =>
    refine ⟨[], rfl, by simp, ?_⟩
    simp [finish, runFrom, collect, ← hlen, bind, Except.bind]
  | succ count ih =>
    obtain ⟨v, hv⟩ := hall 0 (by omega)
    rw [Nat.add_zero] at hv
    have hshift : ∀ i, index + 1 + i = index + (i + 1) := fun i => by omega
    obtain ⟨values, hlength, hvalues, hrun⟩ := @ih (index + 1)
      (fun i hi => by rw [hshift]; exact hall (i + 1) (by omega)) (results ++ [v])
      (by simp; omega)
    refine ⟨v :: values, by simp [hlength], fun i w hw => ?_, ?_⟩
    · cases i with
      | zero =>
        obtain rfl : v = w := by simpa using hw
        exact hv
      | succ i =>
        rw [← hshift]
        exact hvalues i w (by simpa using hw)
    · rw [finish_returned hv, hrun]
      simp

end

/-- What the two paths have to agree on: the verdict and the number of the failed
test case, or the exception that comes out of `execute`. -/
def summary (r : Except PyExc Verdict) : Except PyExc (String × Option Json) :=
  r.map fun v => (v.verdict, v.failedTestCaseIndex)

section
variable (outputsMatch : Json → Json → Except PyExc Bool) (str : Json → PyStr)

/-- `execute` with an executor that runs one test case at a time. -/
def executeOneByOne (outcome : ℕ → Outcome) (req : Request) : Except PyExc Verdict :=
  (execute outputsMatch (oneByOne str outcome).executor req 0).1

/-- `execute` with an executor that has `run_batch`. -/
def executeTogether (outcome : ℕ → Outcome) (req : Request) : Except PyExc Verdict :=
  (execute outputsMatch (together str outcome req.testCases.length).executor req 0).1

theorem executeOneByOne_eq (outcome : ℕ → Outcome) (req : Request) :
    executeOneByOne outputsMatch str outcome req =
      (runEach outputsMatch (oneByOne str outcome).executor req.inPlace 0 req.testCases [] 0).1 :=
  rfl

theorem executeTogether_eq (outcome : ℕ → Outcome) (req : Request) :
    executeTogether outputsMatch str outcome req =
      match finish str req.testCases.length (runFrom outcome 0 req.testCases.length) [] with
      | .error exc => if exc.isException then .ok (failure exc (batchIndex exc)) else .error exc
      | .ok results => judgeBatch outputsMatch req.inPlace results req.testCases := by
  rw [← runBatchWrapper_runTogether]
  unfold executeTogether
  cases hb : runBatchWrapper str req.testCases.length
      (runTogether outcome req.testCases.length) with
  | error exc =>
    have hexc := runBatchWrapper_exception hb
    simp [execute, Comp.finallyDo_apply, compileAndJudge, shieldedCleanup, judge, runAll, together,
      Script.executor, Comp.bind_apply, hb, hexc]
  | ok results =>
    simp [execute, Comp.finallyDo_apply, compileAndJudge, shieldedCleanup, judge, runAll, together,
      Script.executor, Comp.bind_apply, hb]

variable {outputsMatch str} {outcome : ℕ → Outcome} {req : Request}

/-- The first failure decides the verdict of a batch. -/
theorem executeTogether_of_failure {j : ℕ} {crash : Crash} (hj : j < req.testCases.length)
    (hfail : outcome j = .failed crash) (hbefore : ∀ i < j, ∃ v, outcome i = .returned v) :
    ∃ message, executeTogether outputsMatch str outcome req =
      .ok (.runtimeError (.int j) message) := by
  obtain ⟨message, hrun⟩ := @finish_first_failure str outcome req.testCases.length j 0 _ crash
    (by simpa using hbefore) (by simpa using hfail) hj [] rfl
  rw [Nat.zero_add] at hrun
  have hindex : batchIndex (.runtimeExecution message (some (.int j))) = .int j := by
    by_cases hzero : j = 0
    · simp [batchIndex, PyExc.failedTestCaseIndex, Json.truthy, hzero]
    · simp [batchIndex, PyExc.failedTestCaseIndex, Json.truthy, hzero]
  refine ⟨message.orElse "Runtime error", ?_⟩
  rw [executeTogether_eq, hrun]
  simp [PyExc.isException, Pipeline.failure, PyExc.message, hindex]

/-- Without a failure the two paths are the same. -/
theorem executeTogether_of_returned
    (hall : ∀ i < req.testCases.length, ∃ v, outcome i = .returned v) :
    executeTogether outputsMatch str outcome req =
      executeOneByOne outputsMatch str outcome req := by
  obtain ⟨values, hlength, hvalues, hrun⟩ := @finish_all_returned str outcome _ _ 0
    (by simpa using hall) [] (Nat.zero_add _)
  rw [executeTogether_eq, hrun, executeOneByOne_eq]
  refine judgeBatch_eq_runEach (oneByOne str outcome) req.inPlace hlength fun i v hv => ?_
  have hi : outcome i = .returned v := by simpa using hvalues i v hv
  change runWrapper str (runOne (outcome i)) = .ok v
  rw [hi, runWrapper_runOne_returned]

/-- The test case returns a value that matches. -/
def Passes (outputsMatch : Json → Json → Except PyExc Bool) (outcome : ℕ → Outcome)
    (req : Request) (i : ℕ) : Prop :=
  ∃ v tc, outcome i = .returned v ∧ req.testCases[i]? = some tc ∧
    compare outputsMatch req.inPlace v tc = .ok true

theorem runEach_at {i : ℕ} {tc : TestCase} (htc : req.testCases[i]? = some tc)
    (hpass : ∀ k < i, Passes outputsMatch outcome req k) :
    ∃ outs, executeOneByOne outputsMatch str outcome req =
      (runEach outputsMatch (oneByOne str outcome).executor req.inPlace i
        (tc :: req.testCases.drop (i + 1)) outs i).1 := by
  have hdrop : req.testCases.drop i = tc :: req.testCases.drop (i + 1) := by
    obtain ⟨hi, rfl⟩ := List.getElem?_eq_some_iff.mp htc
    exact List.drop_eq_getElem_cons hi
  obtain ⟨outs, hrun⟩ := runEach_passed outputsMatch (oneByOne str outcome) req.inPlace
    req.testCases i fun k hk => by
      obtain ⟨v, tk, hv, htk, hmatch⟩ := hpass k hk
      refine ⟨v, tk, htk, ?_, hmatch⟩
      change runWrapper str (runOne (outcome k)) = .ok v
      rw [hv, runWrapper_runOne_returned]
  exact ⟨outs, by rw [executeOneByOne_eq, hrun, hdrop]⟩

theorem executeOneByOne_of_failure {j : ℕ} {crash : Crash} (hj : j < req.testCases.length)
    (hfail : outcome j = .failed crash) (hpass : ∀ k < j, Passes outputsMatch outcome req k) :
    ∃ message, executeOneByOne outputsMatch str outcome req =
      .ok (.runtimeError (.int j) message) := by
  obtain ⟨outs, hrun⟩ := @runEach_at outputsMatch str outcome req j _
    (List.getElem?_eq_getElem hj) hpass
  obtain ⟨message, hmessage⟩ := @runWrapper_runOne_failed str crash
  have hr : (oneByOne str outcome).runs j = .error (.runtimeExecution message none) := by
    change runWrapper str (runOne (outcome j)) = _
    rw [hfail, hmessage]
  obtain ⟨exc, hexc, -, hcons⟩ | ⟨v, hv, -⟩ := runEach_cons outputsMatch (oneByOne str outcome)
    req.inPlace req.testCases[j] (req.testCases.drop (j + 1)) j outs
  · obtain rfl : PyExc.runtimeExecution message none = exc := by
      rw [hr] at hexc
      exact Except.error.inj hexc
    exact ⟨message.orElse "Runtime error", by rw [hrun, hcons]; rfl⟩
  · rw [hr] at hv
    cases hv

/-- A value that does not match is found out before any later failure. -/
theorem executeOneByOne_of_mismatch {i : ℕ} {v : RunValue} {tc : TestCase}
    (htc : req.testCases[i]? = some tc) (hv : outcome i = .returned v)
    (hmatch : compare outputsMatch req.inPlace v tc ≠ .ok true)
    (hpass : ∀ k < i, Passes outputsMatch outcome req k) :
    (∃ exc, executeOneByOne outputsMatch str outcome req = .error exc) ∨
      ∃ shown, executeOneByOne outputsMatch str outcome req =
        .ok (.wrongAnswer (.int i) shown tc.expectedOutput) := by
  obtain ⟨outs, hrun⟩ := @runEach_at outputsMatch str outcome req i tc htc hpass
  have hr : (oneByOne str outcome).runs i = .ok v := by
    change runWrapper str (runOne (outcome i)) = _
    rw [hv, runWrapper_runOne_returned]
  obtain ⟨exc, hexc, -⟩ | ⟨w, hw, hcase⟩ := runEach_cons outputsMatch (oneByOne str outcome)
    req.inPlace tc (req.testCases.drop (i + 1)) i outs
  · rw [hr] at hexc
    cases hexc
  obtain rfl : v = w := by
    rw [hr] at hw
    exact Except.ok.inj hw
  obtain ⟨exc, -, hcons⟩ | ⟨shown, hc, -⟩ | ⟨shown, -, -, hcons⟩ := hcase
  · exact .inl ⟨exc, by rw [hrun, hcons]⟩
  · exact absurd hc hmatch
  · exact .inr ⟨shown, by rw [hrun, hcons]⟩

theorem exists_first_failure {n : ℕ} (h : ¬ ∀ i < n, ∃ v, outcome i = .returned v) :
    ∃ j crash, j < n ∧ outcome j = .failed crash ∧ ∀ i < j, ∃ v, outcome i = .returned v := by
  classical
  have hex : ∃ i, i < n ∧ ∀ v, outcome i ≠ .returned v := by
    simpa using h
  obtain ⟨hj, hnot⟩ := Nat.find_spec hex
  cases hout : outcome (Nat.find hex) with
  | returned v => exact absurd hout (hnot v)
  | failed crash =>
    refine ⟨_, crash, hj, hout, fun i hi => ?_⟩
    have hmin := Nat.find_min hex hi
    simpa [show i < n by omega] using hmin

theorem first_failure_unique {j k : ℕ} {c d : Crash} (hj : outcome j = .failed c)
    (hbj : ∀ i < j, ∃ v, outcome i = .returned v) (hk : outcome k = .failed d)
    (hbk : ∀ i < k, ∃ v, outcome i = .returned v) : j = k := by
  obtain hlt | heq | hgt := Nat.lt_trichotomy j k
  · obtain ⟨v, hv⟩ := hbk j hlt
    simp [hj] at hv
  · exact heq
  · obtain ⟨v, hv⟩ := hbj k hgt
    simp [hk] at hv

/-- If the one-by-one path ends at the failure too, every test case before it passes. -/
theorem passes_of_summary {j : ℕ} {message : PyStr} (hj : j < req.testCases.length)
    (hbefore : ∀ i < j, ∃ v, outcome i = .returned v)
    (hagree : summary (.ok (.runtimeError (.int j) message)) =
      summary (executeOneByOne outputsMatch str outcome req)) (i : ℕ) (hi : i < j) :
    Passes outputsMatch outcome req i := by
  induction i using Nat.strong_induction_on with
  | _ i ih =>
    obtain ⟨v, hv⟩ := hbefore i hi
    have htc := List.getElem?_eq_getElem (l := req.testCases) (i := i) (by omega)
    refine ⟨v, _, hv, htc, ?_⟩
    by_contra hmatch
    obtain ⟨exc, hone⟩ | ⟨shown, hone⟩ := @executeOneByOne_of_mismatch outputsMatch str
      outcome req i v _ htc hv hmatch fun k hk => ih k hk (by omega)
    · simp [summary, hone, Except.map] at hagree
    · simp [summary, hone, Except.map, Verdict.verdict] at hagree

/-- The two paths agree exactly when every test case before the first failure
returns a value that matches its expected output. -/
theorem together_agrees_iff (outputsMatch : Json → Json → Except PyExc Bool) (str : Json → PyStr)
    (outcome : ℕ → Outcome) (req : Request) :
    summary (executeTogether outputsMatch str outcome req) =
        summary (executeOneByOne outputsMatch str outcome req) ↔
      ∀ j crash, j < req.testCases.length → outcome j = .failed crash →
        (∀ i < j, ∃ v, outcome i = .returned v) →
        ∀ i < j, ∀ v tc, outcome i = .returned v → req.testCases[i]? = some tc →
          compare outputsMatch req.inPlace v tc = .ok true := by
  by_cases hall : ∀ i < req.testCases.length, ∃ v, outcome i = .returned v
  · rw [executeTogether_of_returned hall]
    refine iff_of_true rfl fun j crash hj hfail => ?_
    obtain ⟨v, hv⟩ := hall j hj
    simp [hfail] at hv
  obtain ⟨j, crash, hj, hfail, hbefore⟩ := exists_first_failure hall
  obtain ⟨message, htogether⟩ :=
    @executeTogether_of_failure outputsMatch str outcome req j crash hj hfail hbefore
  rw [htogether]
  constructor
  · intro hagree j' crash' hj' hfail' hbefore' i hi v tc hv htc
    obtain rfl : j = j' := first_failure_unique hfail hbefore hfail' hbefore'
    obtain ⟨w, tc', hw, htc', hmatch⟩ := passes_of_summary hj hbefore hagree i hi
    obtain rfl : w = v := by simpa [hv] using hw.symm
    obtain rfl : tc' = tc := by simpa [htc] using htc'.symm
    exact hmatch
  · intro hmatch
    obtain ⟨message', hone⟩ := @executeOneByOne_of_failure outputsMatch str outcome req j crash hj
      hfail fun i hi => by
        obtain ⟨v, hv⟩ := hbefore i hi
        have htc := List.getElem?_eq_getElem (l := req.testCases) (i := i) (by omega)
        exact ⟨v, _, hv, htc, hmatch j crash hj hfail hbefore i hi v _ hv htc⟩
    rw [hone]
    rfl

/-- The first test case returns a wrong value and the second one crashes. -/
def wrongThenCrash : ℕ → Outcome
  | 0 => .returned (.plain (.int 2))
  | _ => .failed (.caught "/ by zero" [])

/-- One by one, the verdict is a wrong answer on test case 0; in a batch it is a
runtime error on test case 1. -/
theorem together_disagrees :
    ¬ ∀ (outputsMatch : Json → Json → Except PyExc Bool) (str : Json → PyStr)
      (outcome : ℕ → Outcome) (req : Request),
      summary (executeTogether outputsMatch str outcome req) =
        summary (executeOneByOne outputsMatch str outcome req) := by
  intro h
  have hbad := h sameInt (fun _ => []) wrongThenCrash (requestFor [.int 1, .int 1] (by decide))
  have hverdict := congrArg (Except.map Prod.fst) hbad
  exact absurd (Except.ok.inj hverdict) (by decide)

end

end ExecutionEngine.BatchPath
