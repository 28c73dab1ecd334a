import ExecutionEngine.Executors
import ExecutionEngine.PipelineOutcome
import ExecutionEngine.ResultFraming

/-!
# A Python submission behind its wrapper

For each test case `PythonExecutor.run` writes the call as JSON to the standard input of the
wrapper. The wrapper reads it, calls the submission and writes the answer as JSON between
markers to its standard output, after whatever the submission prints there. The answer is
read back and compared. Nothing of this channel is seen in the verdict: it is the verdict on
what the submission answers.

The submission stands for `execute_function`: it may answer and print anything. What the
wrapper does with a payload that it cannot read, or with an answer that it cannot write, is
left out.
-/
namespace ExecutionEngine.PythonRun
open JsonDecoder JsonEncoder JsonText JsonRoundTrip JsonAscii
open Pipeline Process WrapperOutput SandboxHost Executors ResultFraming Effect

/-- An exception that leaves the submission; the name of its type is not empty. -/
structure Raised where
  typeName : PyStr
  text : PyStr
  trace : PyStr
  named : typeName.truthy = true

/-- What becomes of `execute_function`: a value, nothing but the first argument, or an
exception, of which `RecursionError` has a handler of its own. -/
inductive Answer
  | returned (value : Json)
  | inPlace (mutated : Json)
  | raised (exc : Raised)
  | tooDeep

/-- What the submission writes while it is called, and its answer. -/
structure Reply where
  stdout : List UInt8
  stderr : List UInt8
  answer : Answer

abbrev Submission := PyStr → Dict → Reply

/-- `f"{type(e).__name__}: {e}" if str(e) else type(e).__name__` -/
def Raised.message (exc : Raised) : PyStr :=
  if exc.text.truthy then exc.typeName ++ (": " : PyStr) ++ exc.text else exc.typeName

namespace Answer

/-- The message for a `RecursionError`. -/
def tooDeepMessage : PyStr := "RecursionError: maximum recursion depth exceeded"

/-- The object that `emit` writes. -/
def dict : Answer → Dict
  | .returned value => [("result", value)]
  | .inPlace mutated => [("result", .null), ("mutated", mutated)]
  | .raised exc => [("error", .str exc.message), ("trace", .str exc.trace)]
  | .tooDeep => [("error", .str tooDeepMessage)]

def exitCode : Answer → ℤ
  | .returned _ => 0
  | .inPlace _ => 0
  | .raised _ => 1
  | .tooDeep => 1

/-- The answer as the pipeline would have it from a call of its own. -/
def direct : Answer → Except PyExc RunValue
  | .returned value => .ok (.plain value)
  | .inPlace mutated => .ok (.inPlace .null mutated)
  | .raised exc => .error (.runtimeExecution (truncate exc.message) none)
  | .tooDeep => .error (.runtimeExecution (truncate tooDeepMessage) none)

end Answer

section
variable (submission : Submission)

/-- `emit`, and the exit code. -/
def emit (room : ℕ) (reply : Reply) : Option Completed :=
  match dumps defaultStyle (.obj reply.answer.dict) room with
  | .ok text =>
    some ⟨reply.answer.exitCode, reply.stdout ++ blockBytes text, reply.stderr⟩
  | .error _ => none

/-- `main` of the wrapper. -/
def main (room : ℕ) (stdin : List UInt8) : Option Completed :=
  match (Utf8.decode stdin).map fun text => loads room text with
  | some (.ok (.obj payload)) =>
    match Dict.lookup payload "function_name", Dict.lookup payload "input" with
    | some (.str functionName), some (.obj input) => emit room (submission functionName input)
    | _, _ => none
  | _ => none

/-- `PythonExecutor.run`. The engine and the wrapper are two interpreters, with room for
different numbers of nested calls. -/
def run (str : Json → PyStr) (room wrapperRoom : ℕ) (functionName : PyStr) (input : Dict) :
    Option (Except PyExc RunValue) :=
  match dumps defaultStyle (namedInput functionName input) room with
  | .ok payload =>
    (main submission wrapperRoom (Utf8.asciiBytes payload)).map fun proc =>
      wrapperOutcome str room (runInSandbox proc)
  | .error _ => none

end

/-- Both interpreters can write the value and read it. -/
structure Carried (room wrapperRoom : ℕ) (v : Json) : Prop where
  isJson : IsJson v
  depth : depth v ≤ room
  wrapperDepth : JsonRoundTrip.depth v ≤ wrapperRoom

/-- The reply can be told from what else is printed, and is not too long. -/
structure Framed (room wrapperRoom : ℕ) (reply : Reply) : Prop where
  carried : Carried room wrapperRoom (.obj reply.answer.dict)
  unmarked : ∀ text, dumps defaultStyle (.obj reply.answer.dict) wrapperRoom = .ok text →
    Unmarked text ∧ (reply.stdout ++ blockBytes text).length ≤ maxStdoutBytes

section
variable {room wrapperRoom : ℕ}

/-- The text of a value, whoever writes it, is read back by either. -/
theorem Carried.exists_text {v : Json} (h : Carried room wrapperRoom v) :
    ∃ text, dumps defaultStyle v room = .ok text ∧ dumps defaultStyle v wrapperRoom = .ok text ∧
      loads room text = .ok v ∧ loads wrapperRoom text = .ok v := by
  obtain ⟨more, hmore⟩ := h.isJson
  have hwithin : Within (Writable defaultStyle) Unpaired (min room wrapperRoom) v :=
    ((hmore.iff_depth _).mpr (le_min h.depth h.wrapperDepth)).mono (fun _ _ => .inl rfl)
      (fun _ h => h) le_rfl
  obtain ⟨text, hdumps, hloads⟩ := loads_dumps (fun _ h => h) hwithin
  exact ⟨text, hdumps room (min_le_left _ _), hdumps wrapperRoom (min_le_right _ _),
    hloads room (min_le_left _ _), hloads wrapperRoom (min_le_right _ _)⟩

/-- The wrapper receives the call that was written. -/
theorem main_of_call (submission : Submission) {functionName : PyStr} {input : Dict}
    (h : Carried room wrapperRoom (namedInput functionName input)) {payload : List CodePoint}
    (hpayload : dumps defaultStyle (namedInput functionName input) room = .ok payload) :
    main submission wrapperRoom (Utf8.asciiBytes payload) =
      emit wrapperRoom (submission functionName input) := by
  obtain ⟨text, hdumps, -, -, hloads⟩ := h.exists_text
  obtain rfl := Except.ok.inj (hdumps.symm.trans hpayload)
  have hdecode : Utf8.decode (Utf8.asciiBytes text) = some text :=
    Utf8.decode_asciiBytes (ascii_dumps _ hdumps)
  have hread : ((Utf8.decode (Utf8.asciiBytes text)).map fun text => loads wrapperRoom text) =
      some (.ok (namedInput functionName input)) := by
    rw [hdecode]
    exact congrArg some hloads
  rw [main, hread]
  rfl

/-- The engine reads the answer that was written, whatever else was printed. -/
theorem exists_outcome (str : Json → PyStr) {reply : Reply} (h : Framed room wrapperRoom reply) :
    ∃ proc, emit wrapperRoom reply = some proc ∧ wrapperOutcome str room (runInSandbox proc) =
      runWrapper str (.exited ⟨some reply.answer.dict, [], decodeReplace reply.stderr,
        reply.answer.exitCode⟩) := by
  obtain ⟨text, hdumps, hwritten, -, -⟩ := h.carried.exists_text
  obtain ⟨hunmarked, hlimit⟩ := h.unmarked text hwritten
  have hparsed := parseWrapperOutput_block h.carried.isJson hdumps hunmarked
  refine ⟨⟨reply.answer.exitCode, reply.stdout ++ blockBytes text, reply.stderr⟩, ?_, ?_⟩
  · rw [emit, hwritten]
  · rw [wrapperOutcome_block str room (ascii_dumps _ hdumps) reply.stdout _ rfl hlimit, hparsed]
    rfl

end

/-- `str` of a decoded value. -/
def strOf (printable : CodePoint → Bool) (v : Json) : PyStr :=
  (PyRepr.pyStr printable v).getD ""

theorem message_truthy (exc : Raised) : exc.message.truthy = true := by
  rw [Raised.message]
  split_ifs with htext
  · obtain ⟨c, rest, hname⟩ : ∃ c rest, exc.typeName = c :: rest := by
      have hnamed := exc.named
      unfold PyStr.truthy at hnamed
      cases hname : exc.typeName with
      | nil => simp [hname] at hnamed
      | cons c rest => exact ⟨c, rest, rfl⟩
    rw [hname]
    rfl
  · exact exc.named

/-- What `run_wrapper` makes of the object is the answer. -/
theorem runWrapper_answer (printable : CodePoint → Bool) (answer : Answer) (stderr : PyStr) :
    runWrapper (strOf printable) (.exited ⟨some answer.dict, [], stderr, answer.exitCode⟩) =
      answer.direct := by
  have herror : ∀ (message : PyStr) (rest : Dict), message.truthy = true →
      errorMessage (strOf printable) (some (("error", .str message) :: rest)) stderr 1 =
        truncate message := by
    intro message rest htruthy
    have hlookup : (some ((("error" : PyStr), Json.str message) :: rest)).bind
        (fun d => Dict.lookup d "error") = some (.str message) := rfl
    rw [errorMessage, hlookup]
    exact if_pos htruthy
  have hfails : ∀ (message : PyStr) (rest : Dict), message.truthy = true →
      runWrapper (strOf printable)
          (.exited ⟨some (("error", .str message) :: rest), [], stderr, 1⟩) =
        .error (.runtimeExecution (truncate message) none) := by
    intro message rest htruthy
    rw [← herror message rest htruthy]
    simp only [runWrapper]
    exact if_pos (Or.inl (by decide))
  cases answer with
  | returned value => rfl
  | inPlace mutated => rfl
  | raised exc => exact hfails exc.message _ (message_truthy exc)
  | tooDeep => exact hfails Answer.tooDeepMessage _ (by decide)

section
variable (printable : CodePoint → Bool) {room wrapperRoom : ℕ} {submission : Submission}
  {functionName : PyStr}

/-- One test case: the call and its answer go through unchanged. -/
theorem run_eq_direct {input : Dict}
    (hcall : Carried room wrapperRoom (namedInput functionName input))
    (hreply : Framed room wrapperRoom (submission functionName input)) :
    run submission (strOf printable) room wrapperRoom functionName input =
      some (submission functionName input).answer.direct := by
  obtain ⟨payload, hpayload, -, -, -⟩ := hcall.exists_text
  obtain ⟨proc, hemit, houtcome⟩ := exists_outcome (strOf printable) hreply
  rw [run, hpayload]
  simp only [main_of_call submission hcall hpayload, hemit, Option.map_some, houtcome,
    runWrapper_answer]

end

/-- Only the answers to the test cases of the request matter. -/
theorem runEach_congr {σ : Type} (outputsMatch : Json → Json → Except PyExc Bool)
    {x y : Executor σ} (inPlace : Option Bool) {testCases : List TestCase}
    (h : ∀ tc ∈ testCases, x.run tc.input = y.run tc.input) (index : ℕ) (actual : List Json) :
    runEach outputsMatch x inPlace index testCases actual =
      runEach outputsMatch y inPlace index testCases actual := by
  induction testCases generalizing index actual with
  | nil => rfl
  | cons tc rest ih =>
    have hrest := ih fun tc htc => h tc (List.mem_cons_of_mem _ htc)
    rw [runEach, runEach, h tc List.mem_cons_self]
    simp only [hrest]

/-- An executor of Python runs each test case through the wrapper. Where the calls and the
replies can be carried, no reply has a marker in its text and no output is too long, `execute`
does exactly what it would do if it called the submission itself, whatever else is printed. -/
theorem judged_as_called {σ : Type} (outputsMatch : Json → Json → Except PyExc Bool)
    (printable : CodePoint → Bool) (room wrapperRoom : ℕ) (submission : Submission)
    (req : Request) (x : Executor σ) (hbatch : x.runBatch = none)
    (hrun : ∀ tc ∈ req.testCases, ∀ r, run submission (strOf printable) room wrapperRoom
      req.functionName tc.input = some r → x.run tc.input = .lift r)
    (hcalls : ∀ tc ∈ req.testCases,
      Carried room wrapperRoom (namedInput req.functionName tc.input))
    (hreplies : ∀ tc ∈ req.testCases,
      Framed room wrapperRoom (submission req.functionName tc.input)) :
    execute outputsMatch x req = execute outputsMatch
      { x with run := fun input => .lift (submission req.functionName input).answer.direct }
      req := by
  have hsame : ∀ tc ∈ req.testCases,
      x.run tc.input = .lift (submission req.functionName tc.input).answer.direct := fun tc htc =>
    hrun tc htc _ (run_eq_direct printable (hcalls tc htc) (hreplies tc htc))
  have hjudge : judge outputsMatch x req = judge outputsMatch
      { x with run := fun input => .lift (submission req.functionName input).answer.direct }
      req := by
    simp only [judge, hbatch]
    exact runEach_congr outputsMatch req.inPlace hsame 0 []
  rw [execute, execute, compileAndJudge, compileAndJudge, hjudge]
  rfl

/-- A submission that prints a line and returns the negation of its argument. -/
def negation : Submission := fun _ input =>
  ⟨[104, 105, 10], [], .returned (match Dict.lookup input "b" with
    | some (.bool b) => .bool (!b)
    | _ => .null)⟩

/-- The input of a test case. -/
def flag (b : Bool) : Dict := [("b", .bool b)]

def negationRequest : Request where
  language := .python
  sourceCode := "def f(b): print('hi'); return not b"
  functionName := "f"
  testCases := [⟨flag true, .bool false⟩, ⟨flag false, .bool true⟩]
  inPlace := none
  sourceCode_length := by decide
  functionName_length := PipelineOutcome.length_functionName
  testCases_length := by decide

def negationExecutor : Executor Unit where
  compile := pure ()
  run := fun input => .lift ((run negation (strOf fun _ => true) 1000 1000 "f" input).getD
    (.ok (.plain .null)))
  runBatch := none
  cleanup := pure ()

theorem negationRequest_cases {tc : TestCase} (h : tc ∈ negationRequest.testCases) :
    ∃ b, tc = ⟨flag b, .bool (!b)⟩ := by
  obtain rfl | rfl : tc = ⟨flag true, .bool false⟩ ∨ tc = ⟨flag false, .bool true⟩ := by
    simpa [negationRequest] using h
  · exact ⟨true, rfl⟩
  · exact ⟨false, rfl⟩

theorem carried_call (b : Bool) : Carried 1000 1000 (namedInput "f" (flag b)) := by
  have hkeys : ∀ c ∈ lit "function_name" ++ lit "input", Plain c := by
    unfold Plain
    decide
  have hnames : ∀ c ∈ lit "f" ++ lit "b", Plain c := by
    unfold Plain
    decide
  have hdepth : depth (namedInput "f" (flag b)) ≤ 1000 := by cases b <;> decide
  have hnodup : [("function_name" : PyStr), "input"].Nodup := by decide
  refine ⟨⟨3, .obj hnodup ?_ ?_⟩, hdepth, hdepth⟩
  · intro item hitem
    obtain rfl | rfl : item = _ ∨ item = _ := by simpa using hitem
    · exact unpaired_of_plain fun c hc => hkeys c (List.mem_append_left _ hc)
    · exact unpaired_of_plain fun c hc => hkeys c (List.mem_append_right _ hc)
  · intro item hitem
    obtain rfl | rfl : item = _ ∨ item = _ := by simpa using hitem
    · exact .str (unpaired_of_plain fun c hc => hnames c (List.mem_append_left _ hc))
    · refine .obj (List.nodup_singleton _) (fun item hitem => ?_) fun item hitem => ?_
      · obtain rfl := List.mem_singleton.mp hitem
        exact unpaired_of_plain fun c hc => hnames c (List.mem_append_right _ hc)
      · obtain rfl := List.mem_singleton.mp hitem
        exact .bool b

theorem isJson_bool (b : Bool) : IsJson (.obj [("result", .bool b)]) := by
  have hkey : ∀ c ∈ lit "result", Plain c := by
    unfold Plain
    decide
  refine ⟨1, .obj (List.nodup_singleton _) (fun item hitem => ?_) fun item hitem => ?_⟩
  · obtain rfl := List.mem_singleton.mp hitem
    exact unpaired_of_plain hkey
  · obtain rfl := List.mem_singleton.mp hitem
    exact .bool b

/-- The text of the reply. -/
def falseText : List CodePoint := lit "\x7b\"result\": false\x7d"

theorem dumps_falseText :
    dumps defaultStyle (.obj [("result", .bool false)]) 1000 = .ok falseText := by
  have htext : falseText = ch '{' ::
      (joinTexts [quote true "result" ++ lit ": " ++ lit "false"] ++ [ch '}']) := by
    decide
  rw [htext]
  simp [dumps, dumpsMembers, defaultStyle, bind, Except.bind]

theorem framed_reply (b : Bool) : Framed 1000 1000 (negation "f" (flag b)) := by
  refine ⟨⟨isJson_bool (!b), by cases b <;> decide, by cases b <;> decide⟩, fun text htext => ?_⟩
  cases b with
  | false =>
    obtain rfl := Except.ok.inj (dumps_trueText.symm.trans htext)
    exact ⟨by decide +kernel, by decide +kernel⟩
  | true =>
    obtain rfl := Except.ok.inj (dumps_falseText.symm.trans htext)
    exact ⟨by decide +kernel, by decide +kernel⟩

/-- Two test cases, with an argument each. -/
theorem judged_as_called_negation :
    execute (fun _ _ => .ok true) negationExecutor negationRequest =
      execute (fun _ _ => .ok true) { negationExecutor with
          run := fun input => .lift (negation "f" input).answer.direct }
        negationRequest := by
  refine judged_as_called _ (fun _ => true) 1000 1000 negation _ negationExecutor rfl ?_ ?_ ?_
  · intro tc _ r hr
    exact congrArg (fun o => Comp.lift (Option.getD o (.ok (.plain .null)))) hr
  · intro tc htc
    obtain ⟨b, rfl⟩ := negationRequest_cases htc
    exact carried_call b
  · intro tc htc
    obtain ⟨b, rfl⟩ := negationRequest_cases htc
    exact framed_reply b

end ExecutionEngine.PythonRun
