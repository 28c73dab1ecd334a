import ExecutionEngine.Executors
import ExecutionEngine.JobQueue
import ExecutionEngine.JsonDecoder

/-!
# The route `/execute` of `api/main.py`

A judged request is queued and its result awaited. When Redis cannot be reached,
the request is executed in the API process itself, by the same pipeline and the
same executors. Their `compile` begins with a Redis command: the `RPOP` of the
pool. With Redis down the fallback therefore answers only the requests that fail
before it.

An `HTTPException` ends the route with its response and is modelled as that
response. The trace context, metrics and log calls are left out.
-/
namespace ExecutionEngine.Api
open Binary64 Effect Executors JobQueue JsonDecoder Pipeline SandboxHost

/-- The dict of a verdict. -/
def verdictDict : Verdict → Dict
  | .accepted outputs => [("verdict", .str "accepted"), ("actual_outputs", .arr outputs)]
  | .wrongAnswer index actual expected =>
    [("verdict", .str "wrong_answer"), ("failed_test_case_index", index),
      ("actual_output", actual), ("expected_output", expected)]
  | .runtimeError index message =>
    [("verdict", .str "runtime_error"), ("failed_test_case_index", index),
      ("error_message", .str message)]
  | .timeout index => [("verdict", .str "timeout"), ("failed_test_case_index", index)]
  | .compilationError message =>
    [("verdict", .str "compilation_error"), ("error_message", .str message)]
  | .error message => [("verdict", .str "error"), ("error_message", .str message)]

/-- The string has no surrogate, so that it can be encoded. -/
def encodable (s : PyStr) : Bool := List.all s fun c => !(0xD800 ≤ c.val && c.val ≤ 0xDFFF)

def isFinite : Float64 → Bool
  | .finite _ => true
  | _ => false

section
variable (number : Float64 → Bool) (text : PyStr → Bool)

mutual

/-- The tests hold of every float and of every string of the value. -/
def holdsIn : Json → Bool
  | .float x => number x
  | .str s => text s
  | .arr items => holdsInItems items
  | .obj items => holdsInMembers items
  | _ => true

def holdsInItems : List Json → Bool
  | [] => true
  | item :: rest => holdsIn item && holdsInItems rest

def holdsInMembers : List (PyStr × Json) → Bool
  | [] => true
  | (key, value) :: rest => text key && holdsIn value && holdsInMembers rest

end

end

inductive Body
  | json (content : Json)
  | text (content : PyStr)

structure Response where
  status : ℕ
  body : Body
  retryAfter : Option PyStr

/-- `JSONResponse`, which renders with `allow_nan=False` and encodes as UTF-8. -/
def jsonResponse (status : ℕ) (content : Json) (retryAfter : Option PyStr) :
    Except PyExc Response :=
  if !holdsIn isFinite (fun _ => true) content then
    .error (.valueError "Out of range float values are not JSON compliant")
  else if !holdsIn (fun _ => true) encodable content then
    .error (.valueError "'utf-8' codec can't encode character: surrogates not allowed")
  else .ok ⟨status, .json content, retryAfter⟩

/-- The response of an `HTTPException`. -/
def httpException (status : ℕ) (detail : PyStr) (retryAfter : Option PyStr) :
    Except PyExc Response :=
  jsonResponse status (.obj [("detail", .str detail)]) retryAfter

/-- The response to an exception that leaves the route; a cancelled request has none. -/
def serverError (exc : PyExc) : Option Response :=
  if exc.isException then some ⟨500, .text "Internal Server Error", none⟩ else none

/-- The API process: the host it runs on, fresh ids, and the slots of `_fallback_sem`,
one of which is obtained within 30 seconds or not. -/
structure Server (σ : Type) extends Host σ where
  room : ℕ
  uuid4 : Comp PyExc σ PyStr
  queueResultTimeout : ℤ
  fallbackAcquire : Comp PyExc σ Bool
  fallbackRelease : σ → σ

/-- The subclasses of `OSError`, and `redis.exceptions.TimeoutError`. -/
def redisErrorNames : List String :=
  ["redis.exceptions.TimeoutError", "OSError", "BlockingIOError", "ChildProcessError",
    "ConnectionError", "BrokenPipeError", "ConnectionAbortedError", "ConnectionRefusedError",
    "ConnectionResetError", "FileExistsError", "FileNotFoundError", "InterruptedError",
    "IsADirectoryError", "NotADirectoryError", "PermissionError", "ProcessLookupError",
    "TimeoutError"]

/-- The exception is one of `_REDIS_ERRORS`. -/
def isRedisError : PyExc → Bool
  | .redisConnection _ => true
  | .other name _ => redisErrorNames.contains name
  | _ => false

section
variable {σ : Type} (outputsMatch : Json → Json → Except PyExc Bool) (srv : Server σ)

/-- `enqueue` -/
def enqueue (req : Request) : Comp PyExc σ PyStr := do
  let queueKey : PyStr := (Key.queue req.language).render
  let depth ← srv.redis.llen queueKey
  if depth ≥ maxQueueDepth then .raise (.other "OverflowError" "Queue at capacity")
  let jobId ← srv.uuid4
  srv.redis.submit queueKey jobId req
  pure jobId

/-- What `json.loads` raises. -/
def decodeException : DecodeError → PyExc
  | .malformed => .valueError "Expecting value"
  | .tooManyDigits => .valueError "Exceeds the limit (4300 digits) for integer string conversion"
  | .recursion => .other "RecursionError" "maximum recursion depth exceeded"

/-- `wait_for_job_result` -/
def waitForJobResult (jobId : PyStr) : Comp PyExc σ (Option Json) := do
  match ← srv.redis.blpop (("exec:job:result:" : PyStr) ++ jobId) srv.queueResultTimeout with
  | none => pure none
  | some value =>
    match loads srv.room value with
    | .ok result => pure (some result)
    | .error e => .raise (decodeException e)

/-- `_wait_for_queued_result`; `none` is the signal to execute directly. -/
def waitForQueuedResult (req : Request) : Comp PyExc σ (Option Response) := do
  match ← (enqueue srv req).attempt with
  | .error (.other "OverflowError" _) =>
    some <$> .lift (httpException 503 "Queue at capacity — try again shortly" (some "5"))
  | .error exc => if isRedisError exc then pure none else .raise exc
  | .ok jobId =>
    match ← (waitForJobResult srv jobId).attempt with
    | .error exc =>
      if isRedisError exc then some <$> .lift (httpException 503 "Result store unavailable" none)
      else .raise exc
    | .ok none => some <$> .lift (httpException 504 "Execution timed out" none)
    | .ok (some result) => some <$> .lift (jsonResponse 200 result none)

/-- `ExecutionPipeline(payload).execute()` with an executor of its own. -/
def pipelineExecute (h : Host σ) (req : Request) : Comp PyExc σ Verdict := fun s =>
  let x := getExecutor h req.sourceCode req.functionName req.language
  let r := execute outputsMatch x req (.fresh, s)
  (r.1, r.2.2)

/-- `_execute_direct` -/
def executeDirect (req : Request) : Comp PyExc σ Response := do
  if ← srv.fallbackAcquire then
    (do
      let direct : Comp PyExc σ Response := do
        let verdict ← pipelineExecute outputsMatch srv.toHost req
        .lift (jsonResponse 200 (.obj (verdictDict verdict)) none)
      match ← direct.attempt with
      | .ok response => pure response
      | .error (.valueError message) => .lift (httpException 400 message none)
      | .error exc => .raise exc).finallyDo (.update srv.fallbackRelease)
  else
    .lift (httpException 503
      "Server busy — Redis is unavailable and the fallback queue is full" (some "10"))

/-- The route `execute`. -/
def executeRoute (req : Request) : Comp PyExc σ Response := do
  match ← waitForQueuedResult srv req with
  | some response => pure response
  | none => executeDirect outputsMatch srv req

/-- The response that the client gets. -/
def respond (req : Request) (s : σ) : Option Response :=
  match (executeRoute outputsMatch srv req s).1 with
  | .ok response => some response
  | .error exc => serverError exc

end

end ExecutionEngine.Api
