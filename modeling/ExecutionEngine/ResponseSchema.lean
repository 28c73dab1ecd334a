import ExecutionEngine.Fallback
import ExecutionEngine.PipelineOutcome

/-!
# The response models of `api/schemas.py`

The route does not validate what the pipeline returns, so that nothing but the
pipeline itself makes a verdict an instance of its model. Here a judged run is
followed on a host on which Docker, Redis and the file system do what they are
asked for. What is left open is the request, what the compiler writes, and what
the submission prints and how it ends.
-/
namespace ExecutionEngine.ResponseSchema
open Effect Pipeline PipelineOutcome Process SandboxHost Executors Api

/-- The type of a field, with the constraint on it. -/
inductive FieldType
  | literal (value : PyStr)
  | any
  | list
  | nonNegative
  | text (maxLength : Option ℕ)

def FieldType.accepts : FieldType → Json → Bool
  | .literal value, .str s => decide (s = value)
  | .any, _ => true
  | .list, .arr _ => true
  | .nonNegative, .int n => 0 ≤ n
  | .text none, .str _ => true
  | .text (some maxLength), .str s => s.length ≤ maxLength
  | _, _ => false

abbrev Model := List (PyStr × FieldType)

def acceptedResponse : Model := [("verdict", .literal "accepted"), ("actual_outputs", .list)]

def wrongAnswerResponse : Model :=
  [("verdict", .literal "wrong_answer"), ("failed_test_case_index", .nonNegative),
    ("actual_output", .any), ("expected_output", .any)]

def runtimeErrorResponse : Model :=
  [("verdict", .literal "runtime_error"), ("failed_test_case_index", .nonNegative),
    ("error_message", .text (some 1000))]

def compilationErrorResponse : Model :=
  [("verdict", .literal "compilation_error"), ("error_message", .text (some 1000))]

def timeoutResponse : Model :=
  [("verdict", .literal "timeout"), ("failed_test_case_index", .nonNegative)]

def errorResponse : Model := [("verdict", .literal "error"), ("error_message", .text none)]

/-- The dict has the fields of the model, with values that they accept, and no other
field. -/
def Model.validates (model : Model) (d : Dict) : Bool :=
  (d.all fun item => model.any fun field => decide (field.1 = item.1) && field.2.accepts item.2) &&
    model.all fun field => d.contains field.1

/-- An instance of one of the models of `ExecuteResponse`. -/
def conforms (d : Dict) : Bool :=
  [acceptedResponse, wrongAnswerResponse, runtimeErrorResponse, compilationErrorResponse,
    timeoutResponse, errorResponse].any fun model => model.validates d

/-- A message of at most 1000 characters. -/
def Short (message : PyStr) : Prop := message.length ≤ 1000

/-- A non-negative integer. -/
def IsIndex (j : Json) : Prop := ∃ n : ℕ, j = .int n

/-- What is left to check of a verdict, whose fields are always there. -/
def Fits : Verdict → Prop
  | .accepted _ => True
  | .wrongAnswer index _ _ => IsIndex index
  | .runtimeError index message => IsIndex index ∧ Short message
  | .timeout index => IsIndex index
  | .compilationError message => Short message
  | .error _ => True

theorem accepts_nonNegative_iff (j : Json) : FieldType.nonNegative.accepts j = true ↔ IsIndex j := by
  cases j with
  | int n =>
    simp only [FieldType.accepts, decide_eq_true_eq, IsIndex, Json.int.injEq]
    constructor
    · intro h
      exact ⟨n.toNat, by omega⟩
    · rintro ⟨k, rfl⟩
      omega
  | _ => simp [FieldType.accepts, IsIndex]

theorem accepts_literal (value s : PyStr) :
    (FieldType.literal value).accepts (.str s) = decide (s = value) := rfl

theorem accepts_any (j : Json) : FieldType.any.accepts j = true := rfl

theorem accepts_list (items : List Json) : FieldType.list.accepts (.arr items) = true := rfl

theorem accepts_text (s : PyStr) : (FieldType.text none).accepts (.str s) = true := rfl

theorem accepts_text_iff (s : PyStr) :
    (FieldType.text (some 1000)).accepts (.str s) = true ↔ Short s := by
  simp [FieldType.accepts, Short]

theorem conforms_iff (v : Verdict) : conforms (verdictDict v) = true ↔ Fits v := by
  cases v <;>
    simp +decide [conforms, Model.validates, verdictDict, Fits, Dict.contains, Dict.lookup,
      acceptedResponse, wrongAnswerResponse, runtimeErrorResponse, compilationErrorResponse,
      timeoutResponse, errorResponse, accepts_nonNegative_iff, accepts_literal, accepts_any,
      accepts_list, accepts_text, accepts_text_iff]

/-- The exception is reported as a timeout, or with a short message. -/
def Reportable (exc : PyExc) : Prop :=
  match exc with
  | .executionTimeout .. => True
  | _ => Short exc.message

theorem short_orElse_iff (message : PyStr) {default : PyStr} (h : Short default) :
    Short (message.orElse default) ↔ Short message := by
  cases message with
  | nil => exact iff_of_true h (Nat.zero_le _)
  | cons c rest => rfl

theorem fits_failure_iff (exc : PyExc) (index : Json) :
    Fits (Pipeline.failure exc index) ↔ IsIndex index ∧ Reportable exc := by
  have hdefault : Short ("Runtime error" : PyStr) := by
    unfold Short
    decide
  cases exc with
  | executionTimeout message i => simp [Pipeline.failure, Fits, Reportable]
  | _ => exact and_congr_right fun _ => short_orElse_iff _ hdefault

section
variable (outputsMatch : Json → Json → Except PyExc Bool)

/-- The run of test case `i` is reached when all test cases before it match; a reached run
that fails must be reportable. -/
def RunsFit (inPlace : Option Bool) (runs : ℕ → Except PyExc RunValue)
    (testCases : List TestCase) : Prop :=
  ∀ i < testCases.length,
    (∀ k < i, ∀ tk, testCases[k]? = some tk →
      ∃ w, runs k = .ok w ∧ compare outputsMatch inPlace w tk = .ok true) →
    ∀ e, runs i = .error e → Reportable e

variable {outputsMatch}

theorem runsFit_cons {inPlace : Option Bool} {runs : ℕ → Except PyExc RunValue} {tc : TestCase}
    {rest : List TestCase} :
    RunsFit outputsMatch inPlace runs (tc :: rest) ↔
      (∀ e, runs 0 = .error e → Reportable e) ∧
        ∀ v, runs 0 = .ok v → compare outputsMatch inPlace v tc = .ok true →
          RunsFit outputsMatch inPlace (fun i => runs (i + 1)) rest := by
  constructor
  · intro h
    refine ⟨h 0 (by simp) (by simp), fun v hv hmatch i hi hbefore => ?_⟩
    refine h (i + 1) (by simpa using hi) fun k hk tk htk => ?_
    cases k with
    | zero =>
      obtain rfl : tc = tk := by simpa using htk
      exact ⟨v, hv, hmatch⟩
    | succ k => exact hbefore k (by omega) tk (by simpa using htk)
  · rintro ⟨hfirst, hrest⟩ i hi hbefore
    cases i with
    | zero => exact hfirst
    | succ i =>
      obtain ⟨w, hw, hmatch⟩ := hbefore 0 (by omega) tc rfl
      refine hrest w hw hmatch i (by simpa using hi) fun k hk tk htk => ?_
      exact hbefore (k + 1) (by omega) tk (by simpa using htk)

variable (outputsMatch) in
theorem runEach_fits_iff (S : Script) (inPlace : Option Bool) (testCases : List TestCase)
    (index : ℕ) (outs : List Json) :
    (∀ v, (runEach outputsMatch S.executor inPlace index testCases outs index).1 = .ok v →
      Fits v) ↔ RunsFit outputsMatch inPlace (fun i => S.runs (index + i)) testCases := by
  have hindex : ∀ n : ℕ, IsIndex (.int n) := fun n => ⟨n, rfl⟩
  induction testCases generalizing index outs with
  | nil => simp [runEach, RunsFit, Fits]
  | cons tc rest ih =>
    rw [runsFit_cons]
    obtain ⟨exc, hr, -, hrun⟩ | ⟨v, hr, hcase⟩ :=
      runEach_cons outputsMatch S inPlace tc rest index outs
    · simp [hrun, hr, fits_failure_iff, hindex]
    · obtain ⟨exc, hc, hrun⟩ | ⟨shown, hc, -, hrun⟩ | ⟨shown, hc, -, hrun⟩ := hcase
      · simp [hrun, hr, hc]
      · have hshift : (fun i => S.runs (index + (i + 1))) = fun i => S.runs (index + 1 + i) := by
          funext i
          rw [Nat.add_assoc, Nat.add_comm 1 i]
        have hnext := ih (index + 1) (outs ++ [shown])
        rw [hrun]
        refine hnext.trans ?_
        rw [← hshift]
        simp [hr, hc]
      · simp [hrun, hr, hc, Fits, hindex]

theorem fits_firstMismatch {index : ℕ} {pairs : List (RunValue × TestCase)} {v : Verdict}
    (h : firstMismatch outputsMatch index pairs = .ok (some v)) : Fits v := by
  induction pairs generalizing index with
  | nil => cases h
  | cons p pairs ih =>
    obtain ⟨result, tc⟩ := p
    simp only [firstMismatch, bind, Except.bind] at h
    cases hm : resultMatches outputsMatch result tc.expectedOutput with
    | error exc =>
      rw [hm] at h
      cases h
    | ok b =>
      rw [hm] at h
      cases b with
      | true => exact ih h
      | false =>
        cases hr : reported outputsMatch result tc.expectedOutput with
        | error exc => simp [hr] at h
        | ok shown =>
          simp only [hr, Bool.false_eq_true, if_false, pure, Except.pure, Except.ok.injEq,
            Option.some.injEq] at h
          subst h
          exact ⟨index, rfl⟩

/-- A verdict on a batch that has returned always fits. -/
theorem fits_judgeBatch {inPlace : Option Bool} {results : List RunValue}
    {testCases : List TestCase} {v : Verdict}
    (h : judgeBatch outputsMatch inPlace results testCases = .ok v) : Fits v := by
  rw [judgeBatch] at h
  split_ifs at h
  · obtain rfl := Except.ok.inj h
    refine ⟨⟨0, rfl⟩, ?_⟩
    unfold Short
    decide
  · simp only [bind, Except.bind] at h
    split at h
    · cases h
    · split at h
      · rename_i hfirst
        obtain rfl := Except.ok.inj h
        exact fits_firstMismatch hfirst
      · split at h
        · cases h
        · obtain rfl := Except.ok.inj h
          trivial

variable (outputsMatch) in
/-- What the outcomes of an executor must be like for every verdict to fit. -/
def ScriptFits (S : Script) (req : Request) : Prop :=
  (∀ m, S.compile = .error (.compileError m) → Short m) ∧
    (S.compile = .ok () →
      match S.batch with
      | none => RunsFit outputsMatch req.inPlace S.runs req.testCases
      | some (.error e) => IsIndex (batchIndex e) ∧ Reportable e
      | some (.ok _) => True)

theorem judge_fits_iff (S : Script) (req : Request) :
    (∀ v, (judge outputsMatch S.executor req 0).1 = .ok v → Fits v) ↔
      match S.batch with
      | none => RunsFit outputsMatch req.inPlace S.runs req.testCases
      | some (.error e) => IsIndex (batchIndex e) ∧ Reportable e
      | some (.ok _) => True := by
  cases hb : S.batch with
  | none =>
    have heach := runEach_fits_iff outputsMatch S req.inPlace req.testCases 0 []
    simp only [Nat.zero_add] at heach
    simpa [judge, Script.executor, hb] using heach
  | some outcome =>
    have hjudge : judge outputsMatch S.executor req =
        runAll outputsMatch (fun _ => .lift outcome) req := by
      simp [judge, Script.executor, hb]
    rw [hjudge]
    cases outcome with
    | error exc =>
      have hexc := S.batch_exception exc hb
      simp [runAll, Comp.bind_apply, hexc, fits_failure_iff]
    | ok results =>
      refine iff_of_true (fun v hv => ?_) trivial
      simp only [runAll, Comp.bind_apply, Comp.attempt_apply, Comp.lift_apply] at hv
      exact fits_judgeBatch hv

theorem execute_fits_iff (S : Script) (req : Request) (hcleanup : S.cleanup = .ok ()) :
    (∀ v, (execute outputsMatch S.executor req 0).1 = .ok v → Fits v) ↔
      ScriptFits outputsMatch S req := by
  have hcompile : S.executor.compile.attempt 0 = (.ok S.compile, 0) := rfl
  rw [execute_of_cleanup S req hcleanup, compileAndJudge, Comp.bind_ok hcompile, ScriptFits,
    ← judge_fits_iff]
  cases hc : S.compile with
  | ok u => simp
  | error exc => cases exc <;> simp [Fits]

end

/-- The exit code is that of a process. -/
def CodeBounded (run : SandboxRun) : Prop :=
  ∀ out, run = .exited out → out.returncode.natAbs < 2 ^ 32

/-- What the search for result objects raises where one nests too deeply. -/
def tooDeep : PyExc := .other "RecursionError" "maximum recursion depth exceeded"

/-- What a judged run may meet on a host that works: the syntax check of Python, the
wrapper text or the exception of its generator, the compiler, which is killed when it
takes too long, the exit code of the look at `main.js`, and the runs of the submission, of
which the output may nest too deeply to be read. -/
structure Scenario where
  limits : Limits
  str : Json → PyStr
  syntaxCheck : SyntaxCheck
  wrapped : Except PyExc PyStr
  compiler : Option Completed
  lookCode : ℤ
  runs : ℕ → Except PyExc SandboxRun
  exitCodes : ∀ i run, runs i = .ok run → CodeBounded run
  unread : ∀ i e, runs i = .error e → e = tooDeep

namespace Scenario

def succeeded : Completed := ⟨0, [], []⟩

/-- The output of `docker run -d`, with the id of the container. -/
def started : Completed := ⟨0, [99, 49, 10], []⟩

/-- The answers to the commands that have no time limit. -/
def answer (S : Scenario) (cmd : List PyStr) : Completed :=
  if cmd[1]? = some ("run" : PyStr) then started
  else if cmd[3]? = some ("node" : PyStr) then S.compiler.getD succeeded
  else if cmd[3]? = some ("test" : PyStr) then ⟨S.lookCode, [], []⟩
  else succeeded

/-- The host. Its state counts the runs of the submission. -/
def host (S : Scenario) : Host ℕ where
  limits := S.limits
  environ := fun name => if name = "HOST_SANDBOX_ROOT" then some "/srv/sandbox" else none
  time := fun _ => .zero
  redis :=
    { llen := fun _ => pure 1
      setnx := fun _ _ => pure false
      delete := fun _ => pure ()
      rpush := fun _ _ => pure ()
      lpush := fun _ _ => pure ()
      brpop := fun _ _ => pure (some "t")
      blpop := fun _ _ => pure none
      rpop := fun _ => pure none
      cappedPush := fun _ _ _ => pure true
      submit := fun _ _ _ => pure () }
  mkdtemp := fun root => pure (root ++ ("/tmp1" : PyStr))
  makedirs := fun _ => pure ()
  writeFile := fun _ _ => pure ()
  rmtree := fun _ => pure ()
  communicate := fun cmd => pure (S.answer cmd)
  communicateWithin := fun cmd _ =>
    pure (if cmd[1]? = some ("run" : PyStr) then some started else S.compiler)
  killProcess := pure ()
  killContainer := fun _ _ => pure ()
  containerIsUsable := fun _ _ => pure true
  sanitize := fun _ => pure true
  runInSandbox := fun _ _ _ n => (S.runs n, n + 1)
  pyCompile := fun _ => S.syntaxCheck
  wrap := fun _ _ _ => S.wrapped
  cPrelude := []
  str := S.str
  patience := 0

def dirs : Dirs := ⟨"/sandbox/tmp1", "/srv/sandbox/tmp1"⟩

/-- The executor with its container, after `n` runs. -/
def ready (n : ℕ) : Self × ℕ := (.started "c1" dirs, n)

theorem getSandboxRoots_host (S : Scenario) :
    getSandboxRoots S.host.environ = .ok ("/sandbox", "/srv/sandbox") := rfl

theorem launch_host (S : Scenario) (l : Launch) :
    launch S.host l ("/sandbox", "/srv/sandbox") (.fresh, 0) = (.ok ("c1", dirs), ready 0) := by
  obtain ⟨image, memorySwap, cpus, workdir, hungMessage, failedMessage⟩ := l
  cases hungMessage with
  | none => rfl
  | some message => rfl

/-- The text that `compile` writes, or the exception of the generator. -/
def text (S : Scenario) (language : Language) : Except PyExc PyStr :=
  match language with
  | .cpp => filledWrapper S.host [] [] .cpp
  | .rust => filledWrapper S.host [] [] .rust
  | _ => S.wrapped

/-- What a compiler call with a time limit ends in. -/
def report (S : Scenario) (message : Completed → Except PyExc PyStr) : Except PyExc Unit :=
  match S.compiler with
  | none => .error (.compileError "Compilation timed out")
  | some proc =>
    if proc.returncode ≠ 0 then do
      let text ← message proc
      .error (.compileError text)
    else .ok ()

theorem compileInContainer_host (S : Scenario) {cmd : List PyStr}
    (hcmd : cmd[1]? = some ("exec" : PyStr)) (message : Completed → Except PyExc PyStr) :
    compileInContainer S.host cmd message (ready 0) = (S.report message, ready 0) := by
  have hwithin : S.host.communicateWithin cmd S.host.limits.compilationTimeout =
      pure S.compiler := by
    have hrun : ¬ cmd[1]? = some ("run" : PyStr) := by
      rw [hcmd]
      decide
    simp only [host, if_neg hrun]
  rw [compileInContainer, hwithin, report]
  cases S.compiler with
  | none => rfl
  | some proc =>
    refine (Comp.bind_ok (rfl : _ = (Except.ok proc, ready 0)) _).trans ?_
    by_cases hcode : proc.returncode = 0
    · simp [hcode]
    · rw [if_pos hcode]
      dsimp only
      rw [if_pos hcode]
      cases message proc <;> rfl

theorem compileWith_host (S : Scenario) (l : Launch)
    {write : PyStr → Dirs → Comp PyExc (Self × ℕ) Unit} {cmd : PyStr → List PyStr}
    (message : Completed → Except PyExc PyStr) {w : Except PyExc Unit}
    (hwrite : write "c1" dirs (ready 0) = (w, ready 0))
    (hcmd : (cmd "c1")[1]? = some ("exec" : PyStr)) :
    compileWith S.host l write cmd message (.fresh, 0) =
      (w >>= fun _ => S.report message, ready 0) := by
  rw [compileWith, getSandboxRoots_host, Comp.lift_ok_bind, Comp.bind_ok (launch_host S l)]
  dsimp only
  cases w with
  | error e => rw [Comp.bind_error hwrite]; rfl
  | ok u => rw [Comp.bind_ok hwrite, compileInContainer_host S hcmd]; rfl

/-- The message of a failed compilation. -/
def message (limits : Limits) (language : Language) (proc : Completed) : Except PyExc PyStr :=
  match language with
  | .python => .ok []
  | .javascript => .ok (((decodeReplace proc.stderr).strip.take 1000).orElse "Syntax error")
  | .typescript => do
    pure ((← tscMessage limits proc).orElse "TypeScript compilation failed")
  | .go | .kotlin | .java => strippedStderr proc
  | .c => .ok (((decodeReplace proc.stderr).strip.take 1000).orElse "Compilation failed")
  | .cpp => decode proc.stderr
  | .rust => do pure ((← decode proc.stderr).strip.take 1000)
  | .csharp => dotnetMessage proc

/-- What the compiler of the language ends in: `node --check` has no time limit, and
TypeScript looks for the file that `tsc` has to write. -/
def compilerOutcome (S : Scenario) (language : Language) : Except PyExc Unit :=
  match language with
  | .python => .ok ()
  | .javascript =>
    let check := S.compiler.getD succeeded
    if check.returncode ≠ 0 then do
      let text ← message S.limits .javascript check
      .error (.compileError text)
    else .ok ()
  | .typescript => do
    S.report (message S.limits .typescript)
    if S.lookCode ≠ 0 then .error (.compileError "Compilation failed: main.js not generated")
  | language => S.report (message S.limits language)

/-- The outcome of `compile`. -/
def compileOutcome (S : Scenario) (language : Language) : Except PyExc Unit := do
  if language = .python then checkSyntax S.host []
  let _ ← S.text language
  S.compilerOutcome language

/-- The compiled languages. -/
theorem compileWith_outcome (S : Scenario) (language : Language) (hpython : language ≠ .python)
    (hcompiler : S.compilerOutcome language = S.report (message S.limits language)) {l : Launch}
    {write : PyStr → Dirs → Comp PyExc (Self × ℕ) Unit} {cmd : PyStr → List PyStr}
    {text : Completed → Except PyExc PyStr} (htext : text = message S.limits language)
    (hwrite : write "c1" dirs (ready 0) = (S.text language >>= fun _ => .ok (), ready 0))
    (hcmd : (cmd "c1")[1]? = some ("exec" : PyStr)) :
    compileWith S.host l write cmd text (.fresh, 0) = (S.compileOutcome language, ready 0) := by
  rw [compileWith_host S l _ hwrite hcmd, compileOutcome, if_neg hpython, hcompiler, htext]
  cases S.text language <;> rfl

/-- Every executor writes a text that its generator gives, or the exception of the
generator ends `compile`. -/
theorem write_host {w : Except PyExc PyStr} {write : PyStr → Comp PyExc (Self × ℕ) Unit}
    (h : ∀ text, write text (ready 0) = (.ok (), ready 0)) :
    (Comp.lift w >>= write) (ready 0) = (w >>= fun _ => .ok (), ready 0) := by
  cases w with
  | error e => rfl
  | ok text => exact h text

/-- The outcome, and the state that a successful `compile` leaves. -/
def Ends (r : Except PyExc Unit × (Self × ℕ)) (outcome : Except PyExc Unit) : Prop :=
  r.1 = outcome ∧ (outcome = .ok () → r.2 = ready 0)

theorem ends_rfl (outcome : Except PyExc Unit) : Ends (outcome, ready 0) outcome :=
  ⟨rfl, fun _ => rfl⟩

theorem ends_error (e : PyExc) (self : Self × ℕ) : Ends (.error e, self) (.error e) :=
  ⟨rfl, fun h => by cases h⟩

section
variable (S : Scenario) (code functionName : PyStr)

theorem pythonCompile_host :
    Ends (pythonCompile S.host code functionName (.fresh, 0)) (S.compileOutcome .python) := by
  have hcheck : checkSyntax S.host code = checkSyntax S.host [] := rfl
  have hwrap : S.host.wrap .python code functionName = S.wrapped := rfl
  rw [pythonCompile, compileOutcome, if_pos rfl, hcheck, getSandboxRoots_host]
  cases checkSyntax S.host [] with
  | error e => exact ends_error e _
  | ok u =>
    rw [Comp.lift_ok_bind, Comp.lift_ok_bind, Comp.bind_ok (launch_host S pythonLaunch), hwrap]
    cases hw : S.wrapped with
    | error e =>
      have htext : S.text .python = .error e := hw
      rw [htext]
      exact ends_error e _
    | ok text =>
      have htext : S.text .python = .ok text := hw
      rw [htext]
      exact ends_rfl _

theorem javaScriptCompile_host :
    Ends (javaScriptCompile S.host code functionName (.fresh, 0))
      (S.compileOutcome .javascript) := by
  have hwrap : S.host.wrap .javascript code functionName = S.wrapped := rfl
  rw [javaScriptCompile, compileOutcome, if_neg (by decide), getSandboxRoots_host,
    Comp.lift_ok_bind, Comp.bind_ok (launch_host S javaScriptLaunch), hwrap]
  change Ends _ (S.wrapped >>= fun _ => _)
  cases S.wrapped with
  | error e => exact ends_error e _
  | ok text =>
    let check := S.compiler.getD succeeded
    let shown := ((decodeReplace check.stderr).strip.take 1000).orElse "Syntax error"
    change Ends ((if check.returncode ≠ 0 then Comp.raise (.compileError shown) else pure () :
      Comp PyExc (Self × ℕ) Unit) (ready 0))
      (if check.returncode ≠ 0 then .error (.compileError shown) else .ok ())
    split_ifs with hcode
    · exact ends_error _ _
    · exact ends_rfl _

theorem typeScriptCompile_host :
    Ends (typeScriptCompile S.host code functionName (.fresh, 0))
      (S.compileOutcome .typescript) := by
  have hwrap : S.host.wrap .typescript code functionName = S.wrapped := rfl
  have hwithin : ∀ id : PyStr, S.host.communicateWithin ["docker", "exec", id, "tsc", "main.ts",
      "--target", "ES2020", "--module", "commonjs", "--lib", "ES2020", "--skipLibCheck"]
      S.host.limits.tsCompileTimeout = pure S.compiler := fun _ => rfl
  rw [typeScriptCompile, compileOutcome, if_neg (by decide), getSandboxRoots_host,
    Comp.lift_ok_bind, Comp.bind_ok (launch_host S typeScriptLaunch), hwrap]
  change Ends _ (S.wrapped >>= fun _ => S.report (message S.limits .typescript) >>= fun _ => _)
  dsimp only
  rw [hwithin, report]
  cases S.wrapped with
  | error e => exact ends_error e _
  | ok text =>
    cases S.compiler with
    | none => exact ends_error _ _
    | some proc =>
      by_cases hcode : proc.returncode = 0
      · let gone : PyExc := .compileError "Compilation failed: main.js not generated"
        have hskip : Ends ((if S.lookCode ≠ 0 then
            cleanup S.host typeScriptLaunch.image >>= fun _ => Comp.raise gone else pure () :
              Comp PyExc (Self × ℕ) Unit) (ready 0))
            (if S.lookCode ≠ 0 then .error gone else .ok ()) := by
          split_ifs with hlook
          · exact ends_error _ _
          · exact ends_rfl _
        obtain ⟨code, stdout, stderr⟩ := proc
        obtain rfl : code = 0 := hcode
        exact hskip
      · rw [Comp.lift_ok_bind]
        refine Eq.subst (motive := fun r => Ends r _)
          (Comp.bind_ok (rfl : _ = (Except.ok (), ready 0)) _).symm ?_
        refine Eq.subst (motive := fun r => Ends r _)
          (Comp.bind_ok (rfl : _ = (Except.ok proc, ready 0)) _).symm ?_
        have hmessage : message S.limits .typescript proc =
            tscMessage S.host.limits proc >>= fun text =>
              pure (text.orElse "TypeScript compilation failed") := rfl
        simp only [ne_eq, hcode, not_false_eq_true, if_true, hmessage]
        cases tscMessage S.host.limits proc with
        | error e => exact ends_error _ _
        | ok text => exact ends_error _ _

theorem compile_host (language : Language) :
    Ends ((getExecutor S.host code functionName language).compile (.fresh, 0))
      (S.compileOutcome language) := by
  have hcompiled : ∀ {r outcome}, r = (outcome, ready 0) → Ends r outcome := by
    rintro r outcome rfl
    exact ends_rfl outcome
  cases language with
  | python => exact pythonCompile_host S code functionName
  | javascript => exact javaScriptCompile_host S code functionName
  | typescript => exact typeScriptCompile_host S code functionName
  | go =>
    apply hcompiled
    change goCompile S.host code functionName (.fresh, 0) = _
    apply compileWith_outcome S .go (by decide) rfl rfl
    · exact write_host fun _ => rfl
    · rfl
  | kotlin =>
    apply hcompiled
    change kotlinCompile S.host code functionName (.fresh, 0) = _
    apply compileWith_outcome S .kotlin (by decide) rfl rfl
    · exact write_host fun _ => rfl
    · rfl
  | java =>
    apply hcompiled
    change javaCompile S.host code functionName (.fresh, 0) = _
    apply compileWith_outcome S .java (by decide) rfl rfl
    · exact write_host fun _ => rfl
    · rfl
  | c =>
    apply hcompiled
    change cCompile S.host code functionName (.fresh, 0) = _
    apply compileWith_outcome S .c (by decide) rfl rfl
    · exact write_host fun _ => rfl
    · rfl
  | cpp =>
    apply hcompiled
    change cppCompile S.host code functionName (.fresh, 0) = _
    apply compileWith_outcome S .cpp (by decide) rfl rfl
    · exact write_host fun _ => rfl
    · rfl
  | rust =>
    apply hcompiled
    change rustCompile S.host code functionName (.fresh, 0) = _
    apply compileWith_outcome S .rust (by decide) rfl rfl
    · exact write_host fun _ => rfl
    · rfl
  | csharp =>
    apply hcompiled
    change csharpCompile S.host code functionName (.fresh, 0) = _
    apply compileWith_outcome S .csharp (by decide) rfl rfl
    · exact write_host fun _ => rfl
    · rfl

/-- The outcome of `run`. -/
def runValue (i : ℕ) : Except PyExc RunValue := (S.runs i).bind (runWrapper S.str)

/-- The outcome of `run_batch`. -/
def batchValues (count : ℕ) : Except PyExc (List RunValue) :=
  (S.runs 0).bind (runBatchWrapper S.str count)

theorem initialized_ready (n : ℕ) : initialized (ready n) = (.ok "c1", ready n) := rfl

theorem runWith_host (execCmd : PyStr → List PyStr) (payload : Json) (n : ℕ) :
    runWith S.host execCmd payload (ready n) = (S.runValue n, ready (n + 1)) := by
  have hrun : (S.host.runInSandbox (execCmd "c1") payload
      S.host.limits.executionTimeout).onSecond (ready n) = (S.runs n, ready (n + 1)) := rfl
  rw [runWith, Comp.bind_ok (initialized_ready n)]
  exact Comp.bind_lift hrun _

theorem runBatchWith_host (execCmd : PyStr → List PyStr) (payload : Json) (count : ℕ) :
    runBatchWith S.host execCmd payload count (ready 0) = (S.batchValues count, ready 1) := by
  have hrun : (S.host.runInSandbox (execCmd "c1") payload
      (max S.host.limits.executionTimeout (S.host.limits.executionTimeout * count))).onSecond
        (ready 0) = (S.runs 0, ready 1) := rfl
  rw [runBatchWith, Comp.bind_ok (initialized_ready 0)]
  exact Comp.bind_lift hrun _

theorem run_host (language : Language) (input : Dict) (n : ℕ) :
    (getExecutor S.host code functionName language).run input (ready n) =
      (S.runValue n, ready (n + 1)) := by
  cases language <;> exact runWith_host S _ _ n

theorem cleanup_host (image : PyStr) (s : Self × ℕ) : (cleanup S.host image s).1 = .ok () := by
  obtain ⟨self, n⟩ := s
  cases self with
  | fresh => rfl
  | placed dirs => rfl
  | started id dirs =>
    cases id with
    | nil => rfl
    | cons c rest => rfl

theorem shieldedCleanup_host (language : Language) (s : Self × ℕ) :
    (shieldedCleanup (getExecutor S.host code functionName language) s).1 = .ok () := by
  have hcleanup : ∃ image, (getExecutor S.host code functionName language).cleanup =
      cleanup S.host image := by
    cases language <;> exact ⟨_, rfl⟩
  obtain ⟨image, himage⟩ := hcleanup
  have hok := cleanup_host S image s
  rw [shieldedCleanup, himage, Comp.bind_apply, Comp.attempt_apply, hok]
  rfl

end

theorem runValue_exception (S : Scenario) {i : ℕ} {e : PyExc} (h : S.runValue i = .error e) :
    e.isException = true := by
  rw [runValue] at h
  cases hrun : S.runs i with
  | error exc =>
    rw [hrun] at h
    obtain rfl := Except.error.inj h
    rw [S.unread i exc hrun]
    rfl
  | ok run =>
    rw [hrun] at h
    exact runWrapper_exception h

theorem batchValues_exception (S : Scenario) {count : ℕ} {e : PyExc}
    (h : S.batchValues count = .error e) : e.isException = true := by
  rw [batchValues] at h
  cases hrun : S.runs 0 with
  | error exc =>
    rw [hrun] at h
    obtain rfl := Except.error.inj h
    rw [S.unread 0 exc hrun]
    rfl
  | ok run =>
    rw [hrun] at h
    exact runBatchWrapper_exception h

/-- The outcomes of the executor's methods. -/
def script (S : Scenario) (req : Request) : Script where
  compile := S.compileOutcome req.language
  runs := S.runValue
  batch :=
    match req.language with
    | .c | .java => some (S.batchValues req.testCases.length)
    | _ => none
  cleanup := .ok ()
  runs_exception := fun _ _ h => S.runValue_exception h
  batch_exception := by
    intro e h
    split at h
    · exact S.batchValues_exception (Option.some.inj h)
    · exact S.batchValues_exception (Option.some.inj h)
    · cases h

section
variable {outputsMatch : Json → Json → Except PyExc Bool} (S : Scenario) (req : Request)

variable (outputsMatch) in
theorem runEach_host (x : Executor (Self × ℕ)) (T : Script) (inPlace : Option Bool)
    (hrun : ∀ input n, x.run input (ready n) = (T.runs n, ready (n + 1)))
    (testCases : List TestCase) (index : ℕ) (outs : List Json) :
    (runEach outputsMatch x inPlace index testCases outs (ready index)).1 =
      (runEach outputsMatch T.executor inPlace index testCases outs index).1 := by
  induction testCases generalizing index outs with
  | nil => rfl
  | cons tc rest ih =>
    have hx : (x.run tc.input).attempt (ready index) = (.ok (T.runs index), ready (index + 1)) := by
      rw [Comp.attempt_apply, hrun]
    have hT : (T.executor.run tc.input).attempt index = (.ok (T.runs index), index + 1) := rfl
    rw [runEach, runEach, Comp.bind_ok hx, Comp.bind_ok hT]
    cases T.runs index with
    | error exc => cases h : exc.isException <;> simp [h]
    | ok value =>
      dsimp only
      cases resultMatches outputsMatch (applyInPlace inPlace value) tc.expectedOutput with
      | error exc => rfl
      | ok b =>
        rw [Comp.lift_ok_bind, Comp.lift_ok_bind]
        cases b with
        | true =>
          cases reported outputsMatch (applyInPlace inPlace value) tc.expectedOutput with
          | error exc => rfl
          | ok shown => exact ih (index + 1) (outs ++ [shown])
        | false =>
          cases reported outputsMatch (applyInPlace inPlace value) tc.expectedOutput with
          | error exc => rfl
          | ok shown => rfl

theorem batch_host :
    let x := getExecutor S.host req.sourceCode req.functionName req.language
    (x.runBatch = none ∧ (S.script req).batch = none) ∨
      ∃ f outcome, x.runBatch = some f ∧ (S.script req).batch = some outcome ∧
        f req.testCases (ready 0) = (outcome, ready 1) := by
  let outcome := S.batchValues req.testCases.length
  cases hl : req.language with
  | c => exact .inr ⟨_, outcome, rfl, by simp only [script, hl, outcome], runBatchWith_host S _ _ _⟩
  | java =>
    exact .inr ⟨_, outcome, rfl, by simp only [script, hl, outcome], runBatchWith_host S _ _ _⟩
  | _ => exact .inl ⟨rfl, by simp only [script, hl]⟩

variable (outputsMatch) in
theorem judge_host :
    (judge outputsMatch (getExecutor S.host req.sourceCode req.functionName req.language) req
      (ready 0)).1 = (judge outputsMatch (S.script req).executor req 0).1 := by
  have hrun := run_host S req.sourceCode req.functionName req.language
  have heach := runEach_host outputsMatch _ (S.script req) req.inPlace hrun req.testCases 0 []
  rcases batch_host S req with ⟨hx, hT⟩ | ⟨f, outcome, hx, hT, hf⟩
  · have hscript : (S.script req).executor.runBatch = none := by
      simp [Script.executor, hT]
    rw [judge, judge, hx, hscript]
    exact heach
  · have hscript : (S.script req).executor.runBatch = some fun _ => .lift outcome := by
      simp [Script.executor, hT]
    have hattempt : (f req.testCases).attempt (ready 0) = (.ok outcome, ready 1) := by
      rw [Comp.attempt_apply, hf]
    rw [judge, judge, hx, hscript]
    dsimp only
    rw [runAll, runAll, Comp.bind_ok hattempt]
    cases outcome with
    | error exc =>
      cases h : exc.isException <;> simp [Comp.bind_apply, h]
    | ok results => rfl

theorem compileAndJudge_host :
    (compileAndJudge outputsMatch
        (getExecutor S.host req.sourceCode req.functionName req.language) req (.fresh, 0)).1 =
      (compileAndJudge outputsMatch (S.script req).executor req 0).1 := by
  have hjudge := judge_host outputsMatch S req
  obtain ⟨hcompile, hready⟩ := compile_host S req.sourceCode req.functionName req.language
  generalize getExecutor S.host req.sourceCode req.functionName req.language = x at *
  have hT : (S.script req).executor.compile.attempt 0 = (.ok (S.compileOutcome req.language), 0) :=
    rfl
  have hx : x.compile.attempt (.fresh, 0) =
      (.ok (S.compileOutcome req.language), (x.compile (.fresh, 0)).2) := by
    rw [Comp.attempt_apply, hcompile]
  rw [compileAndJudge, compileAndJudge, Comp.bind_ok hx, Comp.bind_ok hT]
  cases hc : S.compileOutcome req.language with
  | error exc => cases exc <;> rfl
  | ok u =>
    rw [hready hc]
    exact hjudge

/-- A judged run on the host ends in what its outcomes decide. -/
theorem pipelineExecute_host :
    (pipelineExecute outputsMatch S.host req 0).1 =
      (execute outputsMatch (S.script req).executor req 0).1 := by
  have hclean := shieldedCleanup_host S req.sourceCode req.functionName req.language
    (compileAndJudge outputsMatch
      (getExecutor S.host req.sourceCode req.functionName req.language) req (.fresh, 0)).2
  rw [execute_of_cleanup (S.script req) req rfl, ← compileAndJudge_host]
  change (execute outputsMatch (getExecutor S.host req.sourceCode req.functionName req.language)
    req (.fresh, 0)).1 = _
  rw [execute, Comp.finallyDo_apply]
  split
  · rfl
  · rename_i e s' he
    rw [he] at hclean
    cases hclean

end

end Scenario

theorem short_truncate_iff (message : PyStr) : Short (truncate message) ↔ Short message.strip := by
  unfold truncate Short maxErrorMessageChars
  dsimp only
  split_ifs with h
  · refine iff_of_false ?_ (by omega)
    have hlen : (PyStr.take 1000 message.strip ++ ("..." : PyStr)).length =
        (PyStr.take 1000 message.strip).length + 3 := List.length_append
    have htake : (PyStr.take 1000 message.strip).length = min 1000 message.strip.length :=
      List.length_take
    rw [hlen, htake]
    omega
  · exact Iff.rfl

theorem length_toString_int {n : ℤ} (h : n.natAbs < 2 ^ 32) : (toString n).length ≤ 11 := by
  have hnat : ∀ m : ℕ, m < 2 ^ 32 → (toString m).length ≤ 10 := by
    intro m hm
    exact Nat.repr_length m 10 (by norm_num) (by omega)
  cases n with
  | ofNat m =>
    have hm := hnat m (by simpa using h)
    exact hm.trans (by norm_num)
  | negSucc m =>
    have hm := hnat (m + 1) (by simpa using h)
    have hneg : toString (Int.negSucc m) = "-" ++ toString (m + 1) := rfl
    rw [hneg, String.length_append]
    have hone : "-".length = 1 := rfl
    omega

theorem length_ofString (s : String) : (PyStr.ofString s).length = s.length :=
  (List.length_map _).trans String.length_toList

theorem short_exitCode {returncode : ℤ} (h : returncode.natAbs < 2 ^ 32) :
    Short ("Runtime error (exit code " ++ (toString returncode : PyStr) ++ (")" : PyStr)) := by
  have hdigits := length_toString_int h
  have happend : ∀ s t : PyStr, (s ++ t).length = s.length + t.length :=
    fun _ _ => List.length_append
  have htext : (PyStr.ofString "Runtime error (exit code ").length = 25 := by decide
  have hclose : (PyStr.ofString ")").length = 1 := by decide
  rw [Short, happend, happend, length_ofString (toString returncode), htext, hclose]
  omega

/-- The message of a process without a result object is the start of what it wrote to
stderr, or one of a few short texts. -/
theorem short_exitMessage_iff {stderr : PyStr} {returncode : ℤ}
    (h : returncode.natAbs < 2 ^ 32) :
    Short (exitMessage stderr returncode) ↔ Short stderr.strip := by
  rw [exitMessage]
  by_cases hstderr : stderr.strip.truthy = true
  · rw [if_pos hstderr]
    exact short_truncate_iff stderr
  · have hempty : Short stderr.strip := by
      have hnil : stderr.strip = [] := by
        cases hs : stderr.strip with
        | nil => rfl
        | cons c rest => simp [hs, PyStr.truthy] at hstderr
      rw [hnil]
      exact Nat.zero_le _
    rw [if_neg hstderr]
    refine iff_of_true ?_ hempty
    split
    · rename_i message hsignal
      unfold signalMessage at hsignal
      split at hsignal
      all_goals
        cases hsignal
        try (unfold Short; decide)
    · split_ifs
      · exact short_exitCode h
      · unfold Short
        decide

section
variable (str : Json → PyStr)

/-- The text that becomes the message, without blanks around it, is short: the error of
the result object, or what was written to stderr. -/
def MessageFits (parsed : Option Dict) (stderr : PyStr) : Prop :=
  match parsed.bind fun d => d.lookup "error" with
  | some error => if error.truthy then Short (str error).strip else Short stderr.strip
  | none => Short stderr.strip

variable {str}

theorem short_errorMessage_iff {parsed : Option Dict} {stderr : PyStr} {returncode : ℤ}
    (h : returncode.natAbs < 2 ^ 32) :
    Short (errorMessage str parsed stderr returncode) ↔ MessageFits str parsed stderr := by
  rw [errorMessage, MessageFits]
  cases parsed.bind fun d => d.lookup "error" with
  | none => exact short_exitMessage_iff h
  | some error =>
    dsimp only
    split_ifs
    · exact short_truncate_iff _
    · exact short_exitMessage_iff h

end

section
variable (str : Json → PyStr)

/-- The submission has printed a result and ended normally. -/
def Succeeded (out : SandboxOutput) : Prop :=
  ∃ d, out.parsed = some d ∧ out.returncode = 0 ∧ d.contains "error" = false ∧
    (d.contains "result" = true ∨ d.contains "mutated" = true)

/-- A run that fails has a short text for its message. -/
def RunFits : Except PyExc SandboxRun → Prop
  | .ok (.exited out) => ¬ Succeeded out → MessageFits str out.parsed out.stderr
  | _ => True

/-- The index that a result object gives is a non-negative integer, or one of the values
that count as false, for which 0 is reported. -/
def IndexFits (index : Json) : Prop := index.truthy = false ∨ IsIndex index

/-- In a run of all test cases, the first result object with an error decides. -/
def BatchFits (count : ℕ) : Except PyExc SandboxRun → Prop
  | .ok (.exited out) =>
    match out.blocks.zipIdx.find? fun block => block.1.contains "error" with
    | some (block, done) =>
      IndexFits (block.getD "failed_test_case_index" (.int done)) ∧
        MessageFits str (some block) out.stderr
    | none => out.returncode = 0 ∧ out.blocks.length = count ∨ MessageFits str none out.stderr
  | _ => True

variable {str}

theorem short_outputLimit : Short "Output limit exceeded" := by
  unfold Short
  decide

theorem short_tooDeep : Short "maximum recursion depth exceeded" := by
  unfold Short
  decide

theorem runFits_iff_of_ok {run : SandboxRun} (hcode : CodeBounded run) :
    (∀ e, runWrapper str run = .error e → Reportable e) ↔ RunFits str (.ok run) := by
  cases run with
  | timedOut blocks => simp [runWrapper, RunFits, Reportable]
  | outputLimitExceeded =>
    simp [runWrapper, RunFits, Reportable, PyExc.message, short_outputLimit]
  | exited out =>
    have hmessage : ∀ parsed, Short (errorMessage str parsed out.stderr out.returncode) ↔
        MessageFits str parsed out.stderr := fun _ => short_errorMessage_iff (hcode out rfl)
    cases hp : out.parsed with
    | none =>
      have hnot : ¬ Succeeded out := by
        rintro ⟨d, hd, -⟩
        rw [hp] at hd
        cases hd
      simp [runWrapper, hp, RunFits, hnot, Reportable, PyExc.message, hmessage]
    | some parsed =>
      by_cases hfail : out.returncode ≠ 0 ∨ parsed.contains "error" ∨
          (!parsed.contains "result" ∧ !parsed.contains "mutated")
      · have hnot : ¬ Succeeded out := by
          rintro ⟨d, hd, hzero, herror, hresult⟩
          obtain rfl : parsed = d := Option.some.inj (hp.symm.trans hd)
          rcases hfail with h | h | ⟨h, h'⟩
          · exact h hzero
          · rw [herror] at h
            cases h
          · simp only [Bool.not_eq_true'] at h h'
            simp [h, h'] at hresult
        have hrun : runWrapper str (.exited out) = .error (.runtimeExecution
            (errorMessage str (some parsed) out.stderr out.returncode) none) := by
          rw [runWrapper, hp]
          exact if_pos hfail
        simp [hrun, RunFits, hp, hnot, Reportable, PyExc.message, hmessage]
      · have hyes : Succeeded out := by
          simp only [not_or, not_and, not_not, Bool.not_eq_true, Bool.not_eq_true'] at hfail
          obtain ⟨hzero, herror, hresult⟩ := hfail
          refine ⟨parsed, hp, hzero, herror, ?_⟩
          by_cases h : parsed.contains "result" = true
          · exact .inl h
          · right
            simpa using hresult (by simpa using h)
        have hrun : runWrapper str (.exited out) = .ok (resultValue parsed) := by
          rw [runWrapper, hp]
          exact if_neg hfail
        simp [hrun, RunFits, hyes]

/-- The loop over the result objects stops at the first error. -/
theorem collect_eq (stderr : PyStr) (returncode : ℤ) (blocks : List Dict)
    (results : List RunValue) :
    collect str stderr returncode blocks results =
      match (blocks.zipIdx results.length).find? fun block => block.1.contains "error" with
      | some (block, done) =>
        .error (.runtimeExecution (errorMessage str (some block) stderr returncode)
          (some (block.getD "failed_test_case_index" (.int done))))
      | none => .ok (results ++ blocks.map resultValue) := by
  induction blocks generalizing results with
  | nil => simp [collect]
  | cons block rest ih =>
    rw [collect, List.zipIdx_cons]
    cases herror : block.contains "error" with
    | true => simp [herror]
    | false =>
      have hlen : (results ++ [resultValue block]).length = results.length + 1 := by simp
      rw [if_neg (by simp), ih, hlen, List.find?_cons_of_neg (by simp [herror])]
      simp

theorem indexFits_iff {exc : PyExc} {index : Json} (hexc : exc.failedTestCaseIndex = some index) :
    IsIndex (batchIndex exc) ↔ IndexFits index := by
  have hzero : IsIndex (.int 0) := ⟨0, rfl⟩
  rw [batchIndex, hexc]
  cases h : index.truthy with
  | true => simp [IndexFits, h]
  | false => simp [IndexFits, h, hzero]

variable (str) in
theorem batchFits_iff_of_ok {count : ℕ} (hcount : 1 ≤ count) {run : SandboxRun}
    (hcode : CodeBounded run) :
    (∀ e, runBatchWrapper str count run = .error e → IsIndex (batchIndex e) ∧ Reportable e) ↔
      BatchFits str count (.ok run) := by
  cases run with
  | timedOut blocks =>
    refine iff_of_true (fun e he => ?_) trivial
    obtain rfl := Except.error.inj he
    refine ⟨(indexFits_iff rfl).mpr (.inr ⟨min blocks.length (count - 1), ?_⟩), trivial⟩
    push_cast [hcount]
    rfl
  | outputLimitExceeded =>
    refine iff_of_true (fun e he => ?_) trivial
    obtain rfl := Except.error.inj he
    exact ⟨⟨0, rfl⟩, short_outputLimit⟩
  | exited out =>
    have hmessage : ∀ parsed, Short (errorMessage str parsed out.stderr out.returncode) ↔
        MessageFits str parsed out.stderr := fun _ => short_errorMessage_iff (hcode out rfl)
    rw [runBatchWrapper, collect_eq, BatchFits, List.length_nil]
    cases out.blocks.zipIdx.find? fun block => block.1.contains "error" with
    | some found =>
      obtain ⟨block, done⟩ := found
      have hexc : ∀ m, IsIndex (batchIndex (.runtimeExecution m
          (some (block.getD "failed_test_case_index" (.int done))))) ↔
            IndexFits (block.getD "failed_test_case_index" (.int done)) := fun _ => indexFits_iff rfl
      simp [bind, Except.bind, hexc, Reportable, PyExc.message, hmessage]
    | none =>
      by_cases hdone : out.returncode = 0 ∧ out.blocks.length = count
      · simp [bind, Except.bind, hdone]
      · have hfail : out.returncode ≠ 0 ∨
            (([] : List RunValue) ++ out.blocks.map resultValue).length ≠ count := by
          simp only [List.nil_append, List.length_map]
          tauto
        have hexc : ∀ m, IsIndex (batchIndex (.runtimeExecution m
            (some (.int out.blocks.length)))) := fun _ => (indexFits_iff rfl).mpr (.inr ⟨_, rfl⟩)
        simp only [bind, Except.bind, if_pos hfail]
        simp [hexc, Reportable, PyExc.message, hmessage, hdone]

end

namespace Scenario
variable (S : Scenario)

theorem runFits_iff (i : ℕ) :
    (∀ e, S.runValue i = .error e → Reportable e) ↔ RunFits S.str (S.runs i) := by
  rw [runValue]
  cases hrun : S.runs i with
  | ok run => exact runFits_iff_of_ok (S.exitCodes i run hrun)
  | error exc =>
    refine iff_of_true (fun e he => ?_) trivial
    obtain rfl := Except.error.inj he
    rw [S.unread i exc hrun]
    exact short_tooDeep

theorem batchFits_iff {count : ℕ} (hcount : 1 ≤ count) :
    (∀ e, S.batchValues count = .error e → IsIndex (batchIndex e) ∧ Reportable e) ↔
      BatchFits S.str count (S.runs 0) := by
  rw [batchValues]
  cases hrun : S.runs 0 with
  | ok run => exact batchFits_iff_of_ok S.str hcount (S.exitCodes 0 run hrun)
  | error exc =>
    refine iff_of_true (fun e he => ?_) trivial
    obtain rfl := Except.error.inj he
    rw [S.unread 0 exc hrun]
    exact ⟨⟨0, rfl⟩, short_tooDeep⟩

end Scenario

/-- What a failed compiler may write, per language. JavaScript, C and Rust cut their
messages; the others show what the compiler wrote, TypeScript as far as the configured
limit allows. -/
def CompilerFits (limits : Limits) (language : Language) (proc : Completed) : Prop :=
  match language with
  | .python | .javascript | .c | .rust => True
  | .typescript => ∀ text, tscMessage limits proc = .ok text → Short text
  | .go | .kotlin | .java => ∀ text, decode proc.stderr = .ok text → Short text.strip
  | .cpp => ∀ text, decode proc.stderr = .ok text → Short text
  | .csharp => ∀ text, dotnetMessage proc = .ok text → Short text

theorem short_take (s : PyStr) : Short (s.take 1000) := by
  have htake : (s.take 1000).length = min 1000 s.length := List.length_take
  rw [Short, htake]
  omega

theorem forall_ok_iff {α : Type} {a : α} {P : α → Prop} :
    (∀ b, (Except.ok a : Except PyExc α) = .ok b → P b) ↔ P a := by
  constructor
  · intro h
    exact h a rfl
  · rintro h b hb
    obtain rfl := Except.ok.inj hb
    exact h

theorem forall_bind_pure_iff {α β : Type} (x : Except PyExc α) (f : α → β) {P : β → Prop} :
    (∀ b, (x >>= fun a => pure (f a)) = .ok b → P b) ↔ ∀ a, x = .ok a → P (f a) := by
  cases x with
  | error e => exact iff_of_true (fun b hb => by cases hb) (fun a ha => by cases ha)
  | ok a =>
    constructor
    · rintro h a' ha
      obtain rfl := Except.ok.inj ha
      exact h (f a) rfl
    · rintro h b hb
      obtain rfl := Except.ok.inj hb
      exact h a rfl

theorem short_strippedStderr_iff (proc : Completed) :
    (∀ text, strippedStderr proc = .ok text → Short text) ↔
      ∀ text, decode proc.stderr = .ok text → Short text.strip := by
  have hfailed : Short "Compilation failed" := by
    unfold Short
    decide
  rw [strippedStderr, forall_bind_pure_iff]
  exact forall₂_congr fun text _ => short_orElse_iff _ hfailed

theorem compilerFits_iff (limits : Limits) (language : Language) (proc : Completed) :
    (∀ text, Scenario.message limits language proc = .ok text → Short text) ↔
      CompilerFits limits language proc := by
  have hcut : ∀ (s : PyStr) {default : PyStr}, Short default →
      Short ((s.take 1000).orElse default) := by
    intro s default hdefault
    exact (short_orElse_iff _ hdefault).mpr (short_take s)
  cases language with
  | python => exact iff_of_true (forall_ok_iff.mpr (Nat.zero_le _)) trivial
  | javascript =>
    refine iff_of_true (forall_ok_iff.mpr (hcut _ ?_)) trivial
    unfold Short
    decide
  | c =>
    refine iff_of_true (forall_ok_iff.mpr (hcut _ ?_)) trivial
    unfold Short
    decide
  | rust =>
    refine iff_of_true ?_ trivial
    exact (forall_bind_pure_iff _ _).mpr fun text _ => short_take _
  | typescript =>
    have hfailed : Short "TypeScript compilation failed" := by
      unfold Short
      decide
    refine (forall_bind_pure_iff _ _).trans ?_
    exact forall₂_congr fun text _ => short_orElse_iff _ hfailed
  | go => exact short_strippedStderr_iff proc
  | kotlin => exact short_strippedStderr_iff proc
  | java => exact short_strippedStderr_iff proc
  | cpp => exact Iff.rfl
  | csharp => exact Iff.rfl

namespace Scenario

/-- The message of every exception with which the generator of the wrapper refuses a
submission is short. -/
def GeneratorFits (S : Scenario) : Prop := ∀ m, S.wrapped = .error (.compileError m) → Short m

/-- No message of a failed compilation is too long. -/
def CompileFits (S : Scenario) (language : Language) : Prop :=
  match language with
  | .python =>
    match S.syntaxCheck with
    | .syntaxError m => Short m
    | .passed => S.GeneratorFits
    | _ => True
  | language => S.GeneratorFits ∧ ∀ text proc, S.text language = .ok text →
      S.compiler = some proc → proc.returncode ≠ 0 → CompilerFits S.limits language proc

/-- A `CompileError` with which the computation ends has a short message. -/
def ErrorsShort {α : Type} (x : Except PyExc α) : Prop :=
  ∀ m, x = .error (.compileError m) → Short m

theorem errorsShort_ok {α : Type} (a : α) : ErrorsShort (.ok a) := by
  intro m h
  cases h

theorem errorsShort_compileError {α : Type} (m : PyStr) :
    ErrorsShort (.error (.compileError m) : Except PyExc α) ↔ Short m := by
  simp [ErrorsShort]

theorem errorsShort_bind {α β : Type} (x : Except PyExc α) (f : α → Except PyExc β) :
    ErrorsShort (x >>= f) ↔ ErrorsShort x ∧ ∀ a, x = .ok a → ErrorsShort (f a) := by
  cases x with
  | error e => simp [ErrorsShort, bind, Except.bind]
  | ok a => simp [ErrorsShort, bind, Except.bind]

theorem errorsShort_decode (bytes : List UInt8) : ErrorsShort (decode bytes) := by
  intro m h
  unfold decode at h
  split at h <;> cases h

theorem errorsShort_message (limits : Limits) (language : Language) (proc : Completed) :
    ErrorsShort (message limits language proc) := by
  have hstderr : ErrorsShort (strippedStderr proc) :=
    (errorsShort_bind _ _).mpr ⟨errorsShort_decode _, fun _ _ => errorsShort_ok _⟩
  cases language with
  | typescript =>
    refine (errorsShort_bind _ _).mpr ⟨?_, fun _ _ => errorsShort_ok _⟩
    refine (errorsShort_bind _ _).mpr ⟨errorsShort_decode _, fun stderr _ => ?_⟩
    dsimp only
    split_ifs
    · exact errorsShort_ok _
    · exact (errorsShort_bind _ _).mpr ⟨errorsShort_decode _, fun _ _ => errorsShort_ok _⟩
  | go => exact hstderr
  | kotlin => exact hstderr
  | java => exact hstderr
  | cpp => exact errorsShort_decode _
  | rust => exact (errorsShort_bind _ _).mpr ⟨errorsShort_decode _, fun _ _ => errorsShort_ok _⟩
  | csharp =>
    refine (errorsShort_bind _ _).mpr ⟨errorsShort_decode _, fun stdout _ => ?_⟩
    dsimp only
    split_ifs
    · exact errorsShort_ok _
    · exact hstderr
  | _ => exact errorsShort_ok _

theorem errorsShort_failed (limits : Limits) (language : Language) (proc : Completed) :
    ErrorsShort (message limits language proc >>= fun text =>
      (.error (.compileError text) : Except PyExc Unit)) ↔ CompilerFits limits language proc := by
  rw [errorsShort_bind, ← compilerFits_iff]
  simp only [errorsShort_message, errorsShort_compileError, true_and]

theorem errorsShort_report (S : Scenario) (language : Language) :
    ErrorsShort (S.report (message S.limits language)) ↔
      ∀ proc, S.compiler = some proc → proc.returncode ≠ 0 →
        CompilerFits S.limits language proc := by
  rw [report]
  cases S.compiler with
  | none =>
    refine iff_of_true ((errorsShort_compileError _).mpr ?_) (by simp)
    unfold Short
    decide
  | some proc =>
    have hproc := errorsShort_failed S.limits language proc
    by_cases hcode : proc.returncode = 0
    · simp [hcode, errorsShort_ok]
    · simp [hcode, hproc]

theorem errorsShort_compilerOutcome (S : Scenario) (language : Language) :
    ErrorsShort (S.compilerOutcome language) ↔
      ∀ proc, S.compiler = some proc → proc.returncode ≠ 0 →
        CompilerFits S.limits language proc := by
  have hreport := errorsShort_report S language
  cases language with
  | python => exact iff_of_true (errorsShort_ok _) fun _ _ _ => trivial
  | javascript =>
    refine iff_of_true ?_ fun _ _ _ => trivial
    unfold compilerOutcome
    dsimp only
    split_ifs
    · exact (errorsShort_failed _ _ _).mpr trivial
    · exact errorsShort_ok _
  | typescript =>
    have hlook : Short "Compilation failed: main.js not generated" := by
      unfold Short
      decide
    rw [← hreport, compilerOutcome, errorsShort_bind]
    refine and_iff_left fun _ _ => ?_
    split_ifs
    · exact (errorsShort_compileError _).mpr hlook
    · exact errorsShort_ok _
  | _ => exact hreport

theorem errorsShort_text (S : Scenario) (language : Language) :
    ErrorsShort (S.text language) ↔ S.GeneratorFits := by
  have hfilled : ∀ language, ErrorsShort (filledWrapper S.host [] [] language) ↔
      S.GeneratorFits := by
    intro language
    refine (errorsShort_bind _ _).trans (and_iff_left fun wrapped _ => ?_)
    split_ifs
    · refine (errorsShort_compileError _).mpr ?_
      unfold Short
      decide
    · exact errorsShort_ok _
  cases language with
  | cpp => exact hfilled .cpp
  | rust => exact hfilled .rust
  | _ => exact Iff.rfl

theorem compileFits_iff (S : Scenario) (language : Language) :
    ErrorsShort (S.compileOutcome language) ↔ S.CompileFits language := by
  have hrest : ErrorsShort (S.text language >>= fun _ => S.compilerOutcome language) ↔
      S.GeneratorFits ∧ ∀ text proc, S.text language = .ok text → S.compiler = some proc →
        proc.returncode ≠ 0 → CompilerFits S.limits language proc := by
    rw [errorsShort_bind, errorsShort_text]
    refine and_congr_right fun _ => forall_congr' fun text => ?_
    rw [errorsShort_compilerOutcome]
    exact forall_comm
  rw [compileOutcome]
  by_cases hpython : language = .python
  · subst hpython
    have hgenerator : ErrorsShort (S.text .python >>= fun _ => S.compilerOutcome .python) ↔
        S.GeneratorFits := hrest.trans (and_iff_left fun _ _ _ _ _ => trivial)
    rw [if_pos rfl, errorsShort_bind, CompileFits]
    simp only [hgenerator]
    have hcheck : S.host.pyCompile [] = S.syntaxCheck := rfl
    unfold checkSyntax
    rw [hcheck]
    cases S.syntaxCheck <;> simp [ErrorsShort]
  · rw [if_neg hpython]
    cases language with
    | python => exact absurd rfl hpython
    | _ => exact hrest

/-- What the compiler writes and what the submission prints must be like: no message of
a failed compilation is too long, and after a successful one no message of a run that is
reached is too long, nor an index that is reported for C or Java anything but a
non-negative integer. -/
def Fits (outputsMatch : Json → Json → Except PyExc Bool) (S : Scenario) (req : Request) : Prop :=
  S.CompileFits req.language ∧
    (S.compileOutcome req.language = .ok () →
      match req.language with
      | .c | .java => BatchFits S.str req.testCases.length (S.runs 0)
      | _ => ∀ i < req.testCases.length,
        (∀ k < i, ∀ tk, req.testCases[k]? = some tk →
          ∃ w, S.runValue k = .ok w ∧ compare outputsMatch req.inPlace w tk = .ok true) →
        RunFits S.str (S.runs i))

theorem scriptFits_iff (outputsMatch : Json → Json → Except PyExc Bool) (S : Scenario)
    (req : Request) : ScriptFits outputsMatch (S.script req) req ↔ S.Fits outputsMatch req := by
  have hbatch := S.batchFits_iff req.testCases_length.1
  have hruns : RunsFit outputsMatch req.inPlace (S.script req).runs req.testCases ↔
      ∀ i < req.testCases.length,
        (∀ k < i, ∀ tk, req.testCases[k]? = some tk →
          ∃ w, S.runValue k = .ok w ∧ compare outputsMatch req.inPlace w tk = .ok true) →
        RunFits S.str (S.runs i) :=
    forall₂_congr fun i _ => imp_congr_right fun _ => S.runFits_iff i
  have houtcome : (match some (S.batchValues req.testCases.length) with
      | none => RunsFit outputsMatch req.inPlace (S.script req).runs req.testCases
      | some (.error e) => IsIndex (batchIndex e) ∧ Reportable e
      | some (.ok _) => True) ↔ BatchFits S.str req.testCases.length (S.runs 0) := by
    rw [← hbatch]
    cases S.batchValues req.testCases.length with
    | error e => simp
    | ok results => simp
  refine and_congr (compileFits_iff S req.language) (imp_congr_right fun _ => ?_)
  cases hl : req.language with
  | c =>
    simp only [script, hl] at houtcome ⊢
    exact houtcome
  | java =>
    simp only [script, hl] at houtcome ⊢
    exact houtcome
  | _ =>
    simp only [script, hl] at hruns ⊢
    exact hruns

end Scenario

/-- Every verdict of a judged run is an instance of its model exactly when the compiler
and the submission do not write too much, and the submission does not print an index of
its own that is no index. -/
theorem response_conforms_iff (outputsMatch : Json → Json → Except PyExc Bool) (S : Scenario)
    (req : Request) :
    (∀ v, (pipelineExecute outputsMatch S.host req 0).1 = .ok v →
      conforms (verdictDict v) = true) ↔ S.Fits outputsMatch req := by
  rw [Scenario.pipelineExecute_host, ← Scenario.scriptFits_iff, ← execute_fits_iff _ _ rfl]
  exact forall₂_congr fun v _ => conforms_iff v

/-- A Python submission that writes 1001 characters to stderr and exits with 1. -/
def longStderr : Scenario where
  limits := Fallback.defaultLimits
  str := fun _ => []
  syntaxCheck := .passed
  wrapped := .ok []
  compiler := none
  lookCode := 0
  runs := fun _ => .ok (.exited ⟨none, [], List.replicate 1001 (PyStr.ofChar 'x'), 1⟩)
  exitCodes := by
    intro i run hrun out hout
    obtain rfl := Except.ok.inj hrun
    obtain rfl := SandboxRun.exited.inj hout
    decide
  unread := by
    intro i e h
    cases h

def pythonRequest : Request where
  language := .python
  sourceCode := "def f(): ..."
  functionName := "f"
  testCases := [⟨[], .int 1⟩]
  inPlace := none
  sourceCode_length := by decide
  functionName_length := length_functionName
  testCases_length := by decide

theorem strip_replicate (n : ℕ) : PyStr.strip (List.replicate n (PyStr.ofChar 'x')) =
    List.replicate n (PyStr.ofChar 'x') := by
  have hspace : PyStr.isSpace (PyStr.ofChar 'x') = false := by decide
  simp [PyStr.strip, hspace]
  rfl

/-- The message is cut to 1000 characters and three dots are added. -/
theorem response_not_conforming :
    ¬ ∀ (outputsMatch : Json → Json → Except PyExc Bool) (S : Scenario) (req : Request) (v : Verdict),
      (pipelineExecute outputsMatch S.host req 0).1 = .ok v → conforms (verdictDict v) = true := by
  intro h
  have hall := h sameInt longStderr pythonRequest
  simp only [Scenario.pipelineExecute_host, conforms_iff] at hall
  obtain ⟨-, hruns⟩ := (execute_fits_iff (longStderr.script pythonRequest) pythonRequest rfl).mp hall
  have hfirst : RunFits longStderr.str (longStderr.runs 0) :=
    (longStderr.runFits_iff 0).mp (hruns rfl 0 (by decide) (by simp))
  have hfailed : ¬ Succeeded ⟨none, [], List.replicate 1001 (PyStr.ofChar 'x'), 1⟩ := by
    rintro ⟨d, hd, -⟩
    cases hd
  have hshort : Short (PyStr.strip (List.replicate 1001 (PyStr.ofChar 'x'))) := hfirst hfailed
  rw [strip_replicate] at hshort
  have hlength : (List.replicate 1001 (PyStr.ofChar 'x')).length ≤ 1000 := hshort
  rw [List.length_replicate] at hlength
  omega

end ExecutionEngine.ResponseSchema
