import ExecutionEngine.Pipeline

/-!
# Running a wrapper, after `execution/process.py`

A wrapper prints JSON objects between two markers. The functions here start from
the objects that `parse_wrapper_output` and `parse_all_wrapper_outputs` find in
the output of the sandboxed process. Python's `str` of a decoded JSON value only
occurs in messages and is a parameter.
-/
namespace ExecutionEngine.Process
open Pipeline

/-- The output of a process that ended by itself. -/
structure SandboxOutput where
  /-- `parse_wrapper_output(stdout)` -/
  parsed : Option Dict
  /-- `parse_all_wrapper_outputs(stdout)` -/
  blocks : List Dict
  stderr : PyStr
  returncode : ℤ

/-- How the sandboxed process ended. -/
inductive SandboxRun
  | exited (output : SandboxOutput)
  /-- The objects are those printed before the process was killed. -/
  | timedOut (blocks : List Dict)
  | outputLimitExceeded

def maxErrorMessageChars : ℕ := 1000

/-- `_SIGNAL_MESSAGES` -/
def signalMessage : ℤ → Option PyStr
  | 134 => some "Runtime error: aborted (SIGABRT)"
  | 136 => some "Runtime error: floating point exception (SIGFPE)"
  | 137 => some "Runtime error: killed (SIGKILL), possibly out of memory"
  | 139 => some "Runtime error: segmentation fault (SIGSEGV)"
  | _ => none

/-- `_truncate` -/
def truncate (message : PyStr) : PyStr :=
  let stripped := message.strip
  if stripped.length > maxErrorMessageChars then
    PyStr.take maxErrorMessageChars stripped ++ ("..." : PyStr)
  else stripped

section
variable (str : Json → PyStr)

/-- `error_message` after the look at the result object. -/
def exitMessage (stderr : PyStr) (returncode : ℤ) : PyStr :=
  if stderr.strip.truthy then truncate stderr
  else match signalMessage returncode with
    | some message => message
    | none =>
      if returncode ≠ 0 then
        "Runtime error (exit code " ++ (toString returncode : PyStr) ++ (")" : PyStr)
      else "Invalid output format"

/-- `error_message` -/
def errorMessage (parsed : Option Dict) (stderr : PyStr) (returncode : ℤ) : PyStr :=
  match parsed.bind fun d => d.lookup "error" with
  | some error => if error.truthy then truncate (str error) else exitMessage stderr returncode
  | none => exitMessage stderr returncode

/-- `result_value` -/
def resultValue (parsed : Dict) : RunValue :=
  match parsed.lookup "mutated" with
  | some mutated => .inPlace (parsed.getD "result" .null) mutated
  | none => .plain (parsed.getD "result" .null)

/-- `run_wrapper` -/
def runWrapper : SandboxRun → Except PyExc RunValue
  | .timedOut _ => .error (.executionTimeout "Time limit exceeded" none)
  | .outputLimitExceeded => .error (.runtimeExecution "Output limit exceeded" none)
  | .exited out =>
    match out.parsed with
    | none => .error (.runtimeExecution (errorMessage str none out.stderr out.returncode) none)
    | some parsed =>
      if out.returncode ≠ 0 ∨ parsed.contains "error" ∨
          (!parsed.contains "result" ∧ !parsed.contains "mutated") then
        .error (.runtimeExecution
          (errorMessage str (some parsed) out.stderr out.returncode) none)
      else .ok (resultValue parsed)

/-- The loop of `run_batch_wrapper` over the result objects. -/
def collect (stderr : PyStr) (returncode : ℤ) :
    List Dict → List RunValue → Except PyExc (List RunValue)
  | [], results => .ok results
  | block :: rest, results =>
    if block.contains "error" then
      .error (.runtimeExecution (errorMessage str (some block) stderr returncode)
        (some (block.getD "failed_test_case_index" (.int results.length))))
    else collect stderr returncode rest (results ++ [resultValue block])

/-- `run_batch_wrapper` -/
def runBatchWrapper (count : ℕ) : SandboxRun → Except PyExc (List RunValue)
  | .timedOut blocks =>
    .error (.executionTimeout "Time limit exceeded"
      (some (.int (min (blocks.length : ℤ) (count - 1)))))
  | .outputLimitExceeded => .error (.runtimeExecution "Output limit exceeded" none)
  | .exited out => do
    let results ← collect str out.stderr out.returncode out.blocks []
    if out.returncode ≠ 0 ∨ results.length ≠ count then
      .error (.runtimeExecution (errorMessage str none out.stderr out.returncode)
        (some (.int results.length)))
    else .ok results

end

theorem runWrapper_exception {str : Json → PyStr} {run : SandboxRun} {e : PyExc}
    (h : runWrapper str run = .error e) : e.isException = true := by
  cases run with
  | timedOut blocks =>
    obtain rfl := Except.error.inj h
    rfl
  | outputLimitExceeded =>
    obtain rfl := Except.error.inj h
    rfl
  | exited out =>
    simp only [runWrapper] at h
    split at h
    · obtain rfl := Except.error.inj h
      rfl
    · split_ifs at h
      obtain rfl := Except.error.inj h
      rfl

theorem collect_exception {str : Json → PyStr} {stderr : PyStr} {returncode : ℤ}
    {blocks : List Dict} {results : List RunValue} {e : PyExc}
    (h : collect str stderr returncode blocks results = .error e) : e.isException = true := by
  induction blocks generalizing results with
  | nil => cases h
  | cons block rest ih =>
    rw [collect] at h
    split_ifs at h
    · obtain rfl := Except.error.inj h
      rfl
    · exact ih h

theorem runBatchWrapper_exception {str : Json → PyStr} {count : ℕ} {run : SandboxRun} {e : PyExc}
    (h : runBatchWrapper str count run = .error e) : e.isException = true := by
  cases run with
  | timedOut blocks =>
    obtain rfl := Except.error.inj h
    rfl
  | outputLimitExceeded =>
    obtain rfl := Except.error.inj h
    rfl
  | exited out =>
    rw [runBatchWrapper] at h
    cases hc : collect str out.stderr out.returncode out.blocks [] with
    | error exc =>
      rw [hc] at h
      obtain rfl := Except.error.inj h
      exact collect_exception hc
    | ok results =>
      rw [hc] at h
      simp only [bind, Except.bind] at h
      split_ifs at h
      obtain rfl := Except.error.inj h
      rfl

end ExecutionEngine.Process
