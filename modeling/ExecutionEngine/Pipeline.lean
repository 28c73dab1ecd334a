import ExecutionEngine.Effect
import ExecutionEngine.Json

/-!
# The judging pipeline of `execution/pipeline.py`

`ExecutionPipeline.execute` compiles the submission with an executor, runs it on
the test cases one by one or in one batch, compares the outputs and cleans up. An
executor is given by the effects of its four methods on a state that the pipeline
does not look at. The comparison of two plain values is a parameter: what is
proved about the pipeline holds for every comparison, whatever it returns or
raises.

Metrics and tracing have no effect on the result and are left out.
-/
namespace ExecutionEngine.Pipeline
open Effect

/-- The exceptions that the engine tells apart. `other` is any further subclass of
`Exception`, by its name. `cancelled` is `asyncio.CancelledError`, which is not an
`Exception`. -/
inductive PyExc
  | compileError (message : PyStr)
  | runtimeExecution (message : PyStr) (failedTestCaseIndex : Option Json)
  | executionTimeout (message : PyStr) (failedTestCaseIndex : Option Json)
  | valueError (message : PyStr)
  | redisConnection (message : PyStr)
  | other (name : String) (message : PyStr)
  | cancelled

namespace PyExc

/-- `str(exc)` -/
def message : PyExc → PyStr
  | .compileError m => m
  | .runtimeExecution m _ => m
  | .executionTimeout m _ => m
  | .valueError m => m
  | .redisConnection m => m
  | .other _ m => m
  | .cancelled => []

/-- `except Exception` catches it. -/
def isException : PyExc → Bool
  | .cancelled => false
  | _ => true

/-- `getattr(exc, "failed_test_case_index", None)` -/
def failedTestCaseIndex : PyExc → Option Json
  | .runtimeExecution _ i => i
  | .executionTimeout _ i => i
  | _ => none

end PyExc

/-- The values of `ExecuteRequest.language`. -/
inductive Language
  | python | javascript | c | java | kotlin | go | rust | typescript | cpp | csharp
  deriving DecidableEq, Repr

structure TestCase where
  input : Dict
  expectedOutput : Json

/-- `ExecuteRequest` after validation. -/
structure Request where
  language : Language
  sourceCode : PyStr
  functionName : PyStr
  testCases : List TestCase
  inPlace : Option Bool
  sourceCode_length : 1 ≤ sourceCode.length ∧ sourceCode.length ≤ 5000
  functionName_length : 1 ≤ functionName.length ∧ functionName.length ≤ 100
  testCases_length : 1 ≤ testCases.length ∧ testCases.length ≤ 20

/-- What a run of the submission returns: a value, or an `InPlaceResult`. -/
inductive RunValue
  | plain (value : Json)
  | inPlace (value mutated : Json)

/-- The dict that `execute` returns in judge mode. -/
inductive Verdict
  | accepted (actualOutputs : List Json)
  | wrongAnswer (failedTestCaseIndex actualOutput expectedOutput : Json)
  | runtimeError (failedTestCaseIndex : Json) (errorMessage : PyStr)
  | timeout (failedTestCaseIndex : Json)
  | compilationError (errorMessage : PyStr)
  | error (errorMessage : PyStr)

/-- The entry `verdict` of the dict. -/
def Verdict.verdict : Verdict → String
  | .accepted _ => "accepted"
  | .wrongAnswer .. => "wrong_answer"
  | .runtimeError .. => "runtime_error"
  | .timeout _ => "timeout"
  | .compilationError _ => "compilation_error"
  | .error _ => "error"

/-- The entry `failed_test_case_index` of the dict, where it has one. -/
def Verdict.failedTestCaseIndex : Verdict → Option Json
  | .wrongAnswer i _ _ => some i
  | .runtimeError i _ => some i
  | .timeout i => some i
  | _ => none

/-- The methods of an executor. Only the executors of C and Java have `run_batch`. -/
structure Executor (σ : Type) where
  compile : Comp PyExc σ Unit
  run : Dict → Comp PyExc σ RunValue
  runBatch : Option (List TestCase → Comp PyExc σ (List RunValue))
  cleanup : Comp PyExc σ Unit

/-- `_failure` -/
def failure (exc : PyExc) (index : Json) : Verdict :=
  match exc with
  | .executionTimeout .. => .timeout index
  | _ => .runtimeError index (exc.message.orElse "Runtime error")

/-- `getattr(exc, "failed_test_case_index", None) or 0` -/
def batchIndex (exc : PyExc) : Json :=
  match exc.failedTestCaseIndex with
  | none => .int 0
  | some i => if i.truthy then i else .int 0

/-- `_apply_in_place` -/
def applyInPlace (inPlace : Option Bool) : RunValue → RunValue
  | .inPlace value mutated =>
    if inPlace = some false then .plain value else .inPlace value mutated
  | .plain value => .plain value

section
variable (outputsMatch : Json → Json → Except PyExc Bool)

/-- `_outputs_match` of a run: an `InPlaceResult` matches by its value or by the
mutated argument. -/
def resultMatches (actual : RunValue) (expected : Json) : Except PyExc Bool :=
  match actual with
  | .plain value => outputsMatch value expected
  | .inPlace value mutated => do
    if ← outputsMatch value expected then pure true else outputsMatch mutated expected

/-- `_reported` -/
def reported (actual : RunValue) (expected : Json) : Except PyExc Json :=
  match actual with
  | .plain value => pure value
  | .inPlace value mutated => do
    if !value.isNone then pure value
    else if ← outputsMatch value expected then pure value else pure mutated

variable {σ : Type}

/-- The loop of the branch without `run_batch`, from test case `index` on. -/
def runEach (x : Executor σ) (inPlace : Option Bool) :
    ℕ → List TestCase → List Json → Comp PyExc σ Verdict
  | _, [], actualOutputs => pure (.accepted actualOutputs)
  | index, tc :: rest, actualOutputs => do
    match ← (x.run tc.input).attempt with
    | .error exc =>
      if exc.isException then pure (failure exc (.int index)) else .raise exc
    | .ok value =>
      let result := applyInPlace inPlace value
      if ← .lift (resultMatches outputsMatch result tc.expectedOutput) then
        let shown ← .lift (reported outputsMatch result tc.expectedOutput)
        runEach x inPlace (index + 1) rest (actualOutputs ++ [shown])
      else
        let shown ← .lift (reported outputsMatch result tc.expectedOutput)
        pure (.wrongAnswer (.int index) shown tc.expectedOutput)

/-- The comparison loop of the batch branch: the first mismatch, if there is one. -/
def firstMismatch : ℕ → List (RunValue × TestCase) → Except PyExc (Option Verdict)
  | _, [] => pure none
  | index, (result, tc) :: rest => do
    if ← resultMatches outputsMatch result tc.expectedOutput then firstMismatch (index + 1) rest
    else
      let shown ← reported outputsMatch result tc.expectedOutput
      pure (some (.wrongAnswer (.int index) shown tc.expectedOutput))

/-- The batch branch after `run_batch` has returned. -/
def judgeBatch (inPlace : Option Bool) (results : List RunValue) (testCases : List TestCase) :
    Except PyExc Verdict :=
  if results.length ≠ testCases.length then
    pure (.runtimeError (.int 0) "Invalid batch output format")
  else do
    let pairs := (results.map (applyInPlace inPlace)).zip testCases
    match ← firstMismatch outputsMatch 0 pairs with
    | some verdict => pure verdict
    | none =>
      let shown ← pairs.mapM fun p => reported outputsMatch p.1 p.2.expectedOutput
      pure (.accepted shown)

/-- The branch with `run_batch`. -/
def runAll (runBatch : List TestCase → Comp PyExc σ (List RunValue)) (req : Request) :
    Comp PyExc σ Verdict := do
  match ← (runBatch req.testCases).attempt with
  | .error exc =>
    if exc.isException then pure (failure exc (batchIndex exc)) else .raise exc
  | .ok results => .lift (judgeBatch outputsMatch req.inPlace results req.testCases)

/-- What happens after a successful compilation. -/
def judge (x : Executor σ) (req : Request) : Comp PyExc σ Verdict :=
  match x.runBatch with
  | some runBatch => runAll outputsMatch runBatch req
  | none => runEach outputsMatch x req.inPlace 0 req.testCases []

/-- The body of the outer `try` of `execute`. -/
def compileAndJudge (x : Executor σ) (req : Request) : Comp PyExc σ Verdict := do
  match ← x.compile.attempt with
  | .ok () => judge outputsMatch x req
  | .error (.compileError m) => pure (.compilationError m)
  | .error (.runtimeExecution m _) => pure (.error ("Execution environment error: " ++ m))
  | .error (.executionTimeout m _) => pure (.error ("Execution environment error: " ++ m))
  | .error exc => .raise exc

/-- The `finally` part: a cancellation of the shielded cleanup is swallowed. -/
def shieldedCleanup (x : Executor σ) : Comp PyExc σ Unit := do
  match ← x.cleanup.attempt with
  | .ok () => pure ()
  | .error .cancelled => pure ()
  | .error exc => .raise exc

/-- `ExecutionPipeline.execute` in judge mode. -/
def execute (x : Executor σ) (req : Request) : Comp PyExc σ Verdict :=
  (compileAndJudge outputsMatch x req).finallyDo (shieldedCleanup x)

end

end ExecutionEngine.Pipeline
