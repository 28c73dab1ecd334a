import ExecutionEngine.Api
import ExecutionEngine.PipelineOutcome

/-!
# The fallback when Redis is down

With every Redis command raising a connection error, the route `/execute` runs the
pipeline in the API process. Every executor pops the pool before it starts a
container, and the exception of that command is none that the pipeline handles.
-/
namespace ExecutionEngine.Fallback
open Effect Pipeline SandboxHost Executors Api

/-- The same server with another Redis. -/
def withRedis {σ : Type} (srv : Server σ) (redis : Redis σ) : Server σ :=
  { srv with redis := redis }

section
variable {σ : Type} (outputsMatch : Json → Json → Except PyExc Bool)

/-- What `compile` does before its first Redis command. -/
def beforeRedis (h : Host σ) (language : Language) (code : PyStr) : Except PyExc (PyStr × PyStr) :=
  match language with
  | .python => checkSyntax h code >>= fun _ => getSandboxRoots h.environ
  | _ => getSandboxRoots h.environ

/-- Every `compile` looks for a container right after that. -/
theorem compile_eq (h : Host σ) (language : Language) (code functionName : PyStr) :
    ∃ l rest, (getExecutor h code functionName language).compile =
      .lift (beforeRedis h language code) >>= fun roots => launch h l roots >>= rest := by
  cases language with
  | python =>
    refine ⟨pythonLaunch, fun started => do
      let wrapped ← .lift (h.wrap .python code functionName)
      writeFiles h started.2.tempDir [("main.py", wrapped)], ?_⟩
    show pythonCompile h code functionName = _
    unfold pythonCompile beforeRedis
    cases checkSyntax h code <;> rfl
  | _ => exact ⟨_, _, rfl⟩

theorem launch_down {h : Host σ} {message : PyStr} (hdown : h.redis = .down message) (l : Launch)
    (roots : PyStr × PyStr) : launch h l roots = .raise (.redisConnection message) := by
  unfold launch acquire
  rw [hdown]
  rfl

/-- A `compile` that fails before its first Redis command touches nothing. -/
theorem compile_of_error {h : Host σ} {language : Language} {code functionName : PyStr}
    {exc : PyExc} (hfails : beforeRedis h language code = .error exc) (s : Self × σ) :
    (getExecutor h code functionName language).compile s = (.error exc, s) := by
  obtain ⟨l, rest, hcompile⟩ := compile_eq h language code functionName
  rw [hcompile, hfails]
  rfl

/-- Otherwise it raises the exception of Redis. -/
theorem compile_down {h : Host σ} {language : Language} {code functionName : PyStr}
    {roots : PyStr × PyStr} {message : PyStr} (hdown : h.redis = .down message)
    (hready : beforeRedis h language code = .ok roots) (s : Self × σ) :
    (getExecutor h code functionName language).compile s =
      (.error (.redisConnection message), s) := by
  obtain ⟨l, rest, hcompile⟩ := compile_eq h language code functionName
  rw [hcompile, hready, Comp.lift_ok_bind, launch_down hdown]
  rfl

theorem cleanup_fresh (h : Host σ) (language : Language) (code functionName : PyStr) (s : σ) :
    (getExecutor h code functionName language).cleanup (.fresh, s) = (.ok (), (.fresh, s)) := by
  cases language <;> rfl

/-- What the pipeline makes of an exception of `compile`. -/
def compileFailure : PyExc → Except PyExc Verdict
  | .compileError m => .ok (.compilationError m)
  | .runtimeExecution m _ => .ok (.error ("Execution environment error: " ++ m))
  | .executionTimeout m _ => .ok (.error ("Execution environment error: " ++ m))
  | exc => .error exc

theorem pipelineExecute_of_compile {h : Host σ} {req : Request} {exc : PyExc} {s : σ}
    (hcompile : (getExecutor h req.sourceCode req.functionName req.language).compile (.fresh, s) =
      (.error exc, (.fresh, s))) :
    pipelineExecute outputsMatch h req s = (compileFailure exc, s) := by
  have hclean := cleanup_fresh h req.language req.sourceCode req.functionName s
  have hjudge : compileAndJudge outputsMatch
      (getExecutor h req.sourceCode req.functionName req.language) req (.fresh, s) =
      (compileFailure exc, (.fresh, s)) := by
    rw [compileAndJudge, Comp.bind_apply, Comp.attempt_apply, hcompile]
    cases exc <;> rfl
  have hshield : shieldedCleanup (getExecutor h req.sourceCode req.functionName req.language)
      (.fresh, s) = (.ok (), (.fresh, s)) := by
    rw [shieldedCleanup, Comp.bind_apply, Comp.attempt_apply, hclean]
    rfl
  simp only [pipelineExecute, execute, Comp.finallyDo_apply, hjudge, hshield]

/-- What `_execute_direct` makes of the outcome of the pipeline. -/
def answer (r : Except PyExc Verdict) : Except PyExc Response :=
  match r >>= fun v => jsonResponse 200 (.obj (verdictDict v)) none with
  | .ok response => .ok response
  | .error (.valueError m) => httpException 400 m none
  | .error exc => .error exc

theorem executeDirect_of_slot {srv : Server σ} {req : Request} {s s' s'' : σ}
    {r : Except PyExc Verdict} (hslot : srv.fallbackAcquire s = (.ok true, s'))
    (hrun : pipelineExecute outputsMatch srv.toHost req s' = (r, s'')) :
    (executeDirect outputsMatch srv req s).1 = answer r := by
  rw [executeDirect, Comp.bind_ok hslot, if_pos rfl, Comp.finallyDo_apply, Comp.update_apply]
  simp only [Comp.bind_apply, Comp.attempt_apply, hrun]
  unfold answer
  cases r with
  | error exc => cases exc <;> rfl
  | ok v =>
    simp only [Comp.lift_apply, Bind.bind, Except.bind]
    cases jsonResponse 200 (.obj (verdictDict v)) none with
    | ok response => rfl
    | error exc => cases exc <;> rfl

theorem httpException_status {status : ℕ} {detail : PyStr} {retryAfter : Option PyStr}
    {response : Response} (h : httpException status detail retryAfter = .ok response) :
    response.status = status := by
  unfold httpException jsonResponse at h
  split_ifs at h
  obtain rfl := Except.ok.inj h
  rfl

/-- Without a slot the answer has another status, or there is none. -/
theorem executeDirect_without_slot {srv : Server σ} {req : Request} {s : σ} {response : Response}
    (hslot : ∀ s', srv.fallbackAcquire s ≠ (.ok true, s'))
    (h : (executeDirect outputsMatch srv req s).1 = .ok response) : response.status = 503 := by
  rw [executeDirect] at h
  rcases hs : srv.fallbackAcquire s with ⟨exc | _ | _, s'⟩
  · rw [Comp.bind_error hs] at h
    cases h
  · rw [Comp.bind_ok hs, if_neg Bool.false_ne_true, Comp.lift_apply] at h
    dsimp only at h
    exact httpException_status h
  · exact absurd hs (hslot s')

/-- With Redis down the route comes to the fallback. -/
theorem executeRoute_down (srv : Server σ) (message : PyStr) (req : Request) (s : σ) :
    executeRoute outputsMatch (withRedis srv (.down message)) req s =
      executeDirect outputsMatch (withRedis srv (.down message)) req s := rfl

/-- A text of the source has no surrogate. -/
@[simp] theorem encodable_ofString (s : String) : encodable (PyStr.ofString s) = true := by
  unfold encodable PyStr.ofString
  rw [List.all_map, List.all_eq_true]
  intro c _
  have hvalid := c.valid
  simp only [UInt32.isValidChar, Nat.isValidChar] at hvalid
  simp only [Function.comp_apply, Bool.not_eq_true', Bool.and_eq_false_iff,
    decide_eq_false_iff_not]
  show ¬ 0xD800 ≤ c.val.toNat ∨ ¬ c.val.toNat ≤ 0xDFFF
  omega

/-- A message of an error verdict can be rendered exactly if it can be encoded. -/
theorem jsonResponse_message (verdict : String) (m : PyStr) :
    jsonResponse 200 (.obj [("verdict", .str verdict), ("error_message", .str m)]) none =
      if encodable m then
        .ok ⟨200, .json (.obj [("verdict", .str verdict), ("error_message", .str m)]), none⟩
      else .error (.valueError
        "'utf-8' codec can't encode character: surrogates not allowed") := by
  cases hm : encodable m <;> simp [jsonResponse, holdsIn, holdsInMembers, hm]

theorem encodable_append (s t : PyStr) : encodable (s ++ t) = (encodable s && encodable t) :=
  List.all_append

theorem getSandboxRoots_error {environ : String → Option PyStr} {exc : PyExc}
    (h : getSandboxRoots environ = .error exc) :
    ∃ m, exc = .runtimeExecution m none ∧ encodable m = true := by
  unfold getSandboxRoots at h
  dsimp only at h
  split_ifs at h
  all_goals
    obtain rfl := Except.error.inj h
    exact ⟨_, rfl, encodable_ofString _⟩

/-- The request fails before the first Redis command, with an exception that the
pipeline turns into a verdict: a Python source with a syntax error whose message can
be encoded, or a sandbox root that is missing, empty or a Windows path. -/
def FailsBeforeRedis (h : Host σ) (req : Request) : Prop :=
  (req.language = .python ∧ ∃ m, h.pyCompile req.sourceCode = .syntaxError m ∧ encodable m = true) ∨
    ((req.language = .python → h.pyCompile req.sourceCode = .passed) ∧
      ∃ exc, getSandboxRoots h.environ = .error exc)

/-- The verdict can be sent to the client. -/
def Sent (v : Verdict) : Prop :=
  answer (.ok v) = .ok ⟨200, .json (.obj (verdictDict v)), none⟩

/-- An answer with status 200 carries the verdict. -/
theorem sent_of_answer {v : Verdict} {response : Response} (h : answer (.ok v) = .ok response)
    (hstatus : response.status = 200) : Sent v := by
  have hbind : ((.ok v : Except PyExc Verdict) >>= fun v =>
      jsonResponse 200 (.obj (verdictDict v)) none) =
      jsonResponse 200 (.obj (verdictDict v)) none := rfl
  unfold Sent
  unfold answer at h ⊢
  rw [hbind] at h ⊢
  cases hj : jsonResponse 200 (.obj (verdictDict v)) none with
  | ok r =>
    unfold jsonResponse at hj
    split_ifs at hj
    rw [← Except.ok.inj hj]
  | error exc =>
    rw [hj] at h
    cases exc with
    | valueError m =>
      have hbad := httpException_status h
      omega
    | _ => cases h

theorem sent_compilationError (m : PyStr) : Sent (.compilationError m) ↔ encodable m = true := by
  unfold Sent answer verdictDict
  simp only [Bind.bind, Except.bind, jsonResponse_message]
  cases hm : encodable m
  · simp [httpException, jsonResponse, holdsIn, holdsInMembers]
  · simp

theorem sent_error {m : PyStr} (hm : encodable m = true) : Sent (.error m) := by
  unfold Sent answer verdictDict
  simp [Bind.bind, Except.bind, jsonResponse_message, hm]

/-- Exactly then the request gets a verdict that can be sent. -/
theorem failsBeforeRedis_iff (h : Host σ) (req : Request) :
    FailsBeforeRedis h req ↔
      ∃ exc v, beforeRedis h req.language req.sourceCode = .error exc ∧
        compileFailure exc = .ok v ∧ Sent v := by
  constructor
  · rintro (⟨hlang, m, hm, henc⟩ | ⟨hpython, exc, hroots⟩)
    · refine ⟨.compileError m, .compilationError m, ?_, rfl, (sent_compilationError m).mpr henc⟩
      simp [beforeRedis, hlang, checkSyntax, hm, Bind.bind, Except.bind]
    · obtain ⟨m, rfl, henc⟩ := getSandboxRoots_error hroots
      refine ⟨.runtimeExecution m none, _, ?_, rfl, sent_error (by simp [encodable_append, henc])⟩
      unfold beforeRedis
      split
      · next hlang => simp [checkSyntax, hpython hlang, hroots, Bind.bind, Except.bind]
      · exact hroots
  · rintro ⟨exc, v, hb, hv, hsent⟩
    unfold beforeRedis at hb
    split at hb
    · next hlang =>
      unfold checkSyntax at hb
      cases hcheck : h.pyCompile req.sourceCode with
      | passed =>
        rw [hcheck] at hb
        exact .inr ⟨fun _ => hcheck, exc, hb⟩
      | syntaxError m =>
        rw [hcheck] at hb
        obtain rfl := Except.error.inj hb
        obtain rfl := Except.ok.inj hv
        exact .inl ⟨hlang, m, hcheck, (sent_compilationError m).mp hsent⟩
      | valueError m =>
        rw [hcheck] at hb
        obtain rfl := Except.error.inj hb
        cases hv
      | otherException name m =>
        rw [hcheck] at hb
        obtain rfl := Except.error.inj hb
        cases hv
    · next hlang => exact .inr ⟨fun hpython => absurd hpython hlang, exc, hb⟩

/-- With Redis down the pipeline gives a verdict only in that case. -/
theorem pipelineExecute_down {h : Host σ} {message : PyStr} (hdown : h.redis = .down message)
    (req : Request) (s : σ) :
    pipelineExecute outputsMatch h req s =
      (match beforeRedis h req.language req.sourceCode with
        | .error exc => compileFailure exc
        | .ok _ => .error (.redisConnection message), s) := by
  cases hb : beforeRedis h req.language req.sourceCode with
  | error exc => exact pipelineExecute_of_compile outputsMatch (compile_of_error hb _)
  | ok roots => exact pipelineExecute_of_compile outputsMatch (compile_down hdown hb _)

theorem answer_error_status {exc : PyExc} {response : Response}
    (h : answer (.error exc) = .ok response) : response.status = 400 := by
  cases exc with
  | valueError m => exact httpException_status h
  | _ => cases h

/-- A response with status 200 is the one that the route returned. -/
theorem executeRoute_of_respond {srv : Server σ} {req : Request} {s : σ} {response : Response}
    (h : respond outputsMatch srv req s = some response) (hstatus : response.status = 200) :
    (executeRoute outputsMatch srv req s).1 = .ok response := by
  unfold respond at h
  split at h
  · next r hr => rw [hr, Option.some.inj h]
  · unfold serverError at h
    split_ifs at h
    obtain rfl := Option.some.inj h
    cases hstatus

/-- The answer with Redis down: the fallback slot decides, and then the part of
`compile` before Redis. -/
theorem executeRoute_of_slot {srv : Server σ} {message : PyStr} {req : Request} {s s' : σ}
    (hslot : srv.fallbackAcquire s = (.ok true, s')) :
    (executeRoute outputsMatch (withRedis srv (.down message)) req s).1 =
      answer (match beforeRedis srv.toHost req.language req.sourceCode with
        | .error exc => compileFailure exc
        | .ok _ => .error (.redisConnection message)) := by
  have hslot' : (withRedis srv (.down message)).fallbackAcquire s = (.ok true, s') := hslot
  have hrun := pipelineExecute_down outputsMatch
    (h := (withRedis srv (.down message)).toHost) rfl req s'
  rw [executeRoute_down]
  exact executeDirect_of_slot outputsMatch hslot' hrun

/-- A route that answers with status 200 had a slot, and its request failed before
the first Redis command. -/
theorem fails_of_answer {srv : Server σ} {message : PyStr} {req : Request} {s : σ}
    {response : Response}
    (hroute : (executeRoute outputsMatch (withRedis srv (.down message)) req s).1 = .ok response)
    (hstatus : response.status = 200) :
    (∃ s', srv.fallbackAcquire s = (.ok true, s')) ∧ FailsBeforeRedis srv.toHost req := by
  by_cases hslot : ∃ s', srv.fallbackAcquire s = (.ok true, s')
  · refine ⟨hslot, (failsBeforeRedis_iff srv.toHost req).mpr ?_⟩
    obtain ⟨s', hs'⟩ := hslot
    rw [executeRoute_of_slot outputsMatch hs'] at hroute
    cases hb : beforeRedis srv.toHost req.language req.sourceCode with
    | ok roots =>
      rw [hb] at hroute
      have hbad := answer_error_status hroute
      omega
    | error exc =>
      rw [hb] at hroute
      cases hv : compileFailure exc with
      | error exc' =>
        simp only [hv] at hroute
        have hbad := answer_error_status hroute
        omega
      | ok v =>
        simp only [hv] at hroute
        exact ⟨exc, v, rfl, hv, sent_of_answer hroute hstatus⟩
  · have hnone : ∀ s', (withRedis srv (.down message)).fallbackAcquire s ≠ (.ok true, s') :=
      not_exists.mp hslot
    rw [executeRoute_down] at hroute
    have hbusy := executeDirect_without_slot outputsMatch hnone hroute
    omega

/-- With Redis down, the client gets status 200 with the verdict that the pipeline
returns with Redis up exactly when a fallback slot is obtained and the request
fails before its first Redis command. -/
theorem fallback_answers_iff (srv : Server σ) (up : Redis σ) (message : PyStr) (req : Request)
    (s t : σ) :
    (∃ v t', pipelineExecute outputsMatch (withRedis srv up).toHost req t = (.ok v, t') ∧
        respond outputsMatch (withRedis srv (.down message)) req s =
          some ⟨200, .json (.obj (verdictDict v)), none⟩) ↔
      (∃ s', srv.fallbackAcquire s = (.ok true, s')) ∧ FailsBeforeRedis srv.toHost req := by
  constructor
  · rintro ⟨v, t', -, hrespond⟩
    exact fails_of_answer outputsMatch (executeRoute_of_respond outputsMatch hrespond rfl) rfl
  · rintro ⟨⟨s', hslot⟩, hfails⟩
    obtain ⟨exc, v, hb, hv, hsent⟩ := (failsBeforeRedis_iff srv.toHost req).mp hfails
    refine ⟨v, t, ?_, ?_⟩
    · have hb' : beforeRedis (withRedis srv up).toHost req.language req.sourceCode = .error exc :=
        hb
      rw [pipelineExecute_of_compile outputsMatch (compile_of_error hb' _), hv]
    · rw [respond, executeRoute_of_slot outputsMatch hslot, hb]
      simp only [hv]
      rw [hsent]

end

/-- A Redis with an empty pool and free slots in both semaphores. -/
def openRedis : Redis Unit where
  llen := fun _ => pure 0
  setnx := fun _ _ => pure true
  delete := fun _ => pure ()
  rpush := fun _ _ => pure ()
  lpush := fun _ _ => pure ()
  brpop := fun _ _ => pure (some "t")
  blpop := fun _ _ => pure none
  rpop := fun _ => pure none
  cappedPush := fun _ _ _ => pure true
  submit := fun _ _ _ => pure ()

/-- The values of `config/limits.py` without environment variables. -/
def defaultLimits : Limits where
  executionTimeout := 10
  compilationTimeout := 120
  tsCompileTimeout := 30
  memory := "1024m"
  memorySwap := "1024m"
  cpus := "2"
  pids := "1536"
  nofile := "65535"
  tsCpus := "2"
  cppOptLevel := "-O0"
  maxCompileErrorBytes := 1000
  sleepCmd := ["sleep", "infinity"]
  warmContainerTtl := 60
  warmPoolMaxPerImage := 50
  dockerRunConcurrency := 20
  compileConcurrency := 8

/-- A server on which every docker command succeeds and every submission returns 1. -/
def calmServer : Server Unit where
  limits := defaultLimits
  environ := fun name => if name = "HOST_SANDBOX_ROOT" then some "/srv/sandbox" else none
  time := fun _ => .zero
  redis := openRedis
  mkdtemp := fun _ => pure "/sandbox/tmp1"
  makedirs := fun _ => pure ()
  writeFile := fun _ _ => pure ()
  rmtree := fun _ => pure ()
  communicate := fun _ => pure ⟨0, [0x63, 0x31, 0x0A], []⟩
  communicateWithin := fun _ _ => pure (some ⟨0, [0x63, 0x31, 0x0A], []⟩)
  killProcess := pure ()
  killContainer := fun _ _ => pure ()
  containerIsUsable := fun _ _ => pure true
  sanitize := fun _ => pure true
  runInSandbox := fun _ _ _ => pure (.exited
    { parsed := some [("index", .int 0), ("result", .int 1)]
      blocks := [[("index", .int 0), ("result", .int 1)]]
      stderr := []
      returncode := 0 })
  pyCompile := fun _ => .passed
  wrap := fun _ code _ => .ok code
  cPrelude := []
  str := fun _ => []
  patience := 0
  room := 900
  uuid4 := pure "8f14e45f"
  queueResultTimeout := 900
  fallbackAcquire := pure true
  fallbackRelease := id

/-- A submission that is accepted with Redis up gets an internal server error with
Redis down. -/
theorem fallback_fails :
    pipelineExecute PipelineOutcome.sameInt (withRedis calmServer openRedis).toHost
        (PipelineOutcome.requestFor [.int 1] (by decide)) () = (.ok (.accepted [.int 1]), ()) ∧
      respond PipelineOutcome.sameInt
        (withRedis calmServer (.down "Error 111 connecting to redis:6379. Connection refused."))
        (PipelineOutcome.requestFor [.int 1] (by decide)) () =
        some ⟨500, .text "Internal Server Error", none⟩ ∧
      ¬ ∃ v t', pipelineExecute PipelineOutcome.sameInt (withRedis calmServer openRedis).toHost
          (PipelineOutcome.requestFor [.int 1] (by decide)) () = (.ok v, t') ∧
        respond PipelineOutcome.sameInt
          (withRedis calmServer (.down "Error 111 connecting to redis:6379. Connection refused."))
          (PipelineOutcome.requestFor [.int 1] (by decide)) () =
          some ⟨200, .json (.obj (verdictDict v)), none⟩ := by
  refine ⟨rfl, rfl, ?_⟩
  rintro ⟨v, t', -, hrespond⟩
  have hstatus := congrArg (Option.map Response.status) hrespond
  cases hstatus

end ExecutionEngine.Fallback
