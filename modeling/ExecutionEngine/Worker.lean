import ExecutionEngine.JobQueue
import ExecutionEngine.JsonDecoder

/-!
# The worker slots of `worker.py`

A slot pops a string, decodes it and works on the job. Everything the slot calls
may return or raise: Redis through `BRPOP`, `mark_running` and `mark_done`, the
extraction of the trace context, and the pipeline. The calls are effects on a
state that the slot does not look at, except for the clock and the shutdown flag.
Metrics and log calls are taken to return and are left out.

Only the pipeline and the first `mark_done` after it run inside a `try`. What
reaches `_process` before them, and the `mark_done` of the handlers, is not
protected: an exception there ends the slot, and `gather` keeps it as a result
that nobody reads.
-/
namespace ExecutionEngine.Worker
open Binary64 Effect JsonDecoder Pipeline
open JobQueue (jobMaxAge)

/-- What a slot calls. `room` is what the recursion limit leaves to the decoder,
`extract` is `propagate.extract` on a carrier, and `execute` runs
`ExecutionPipeline(payload)` within its span. -/
structure Host (σ : Type) where
  room : ℕ
  time : σ → Float64
  shutdown : σ → Bool
  brpop : Comp PyExc σ (Option PyStr)
  sleep : Comp PyExc σ Unit
  markRunning : Json → Comp PyExc σ Unit
  markDone : Json → Dict → Comp PyExc σ Unit
  extract : Json → Except PyExc Unit
  execute : Dict → Comp PyExc σ Dict

/-- `type(value).__name__` -/
def typeName : Json → PyStr
  | .null => "NoneType"
  | .bool _ => "bool"
  | .int _ => "int"
  | .float _ => "float"
  | .str _ => "str"
  | .arr _ => "list"
  | .obj _ => "dict"

/-- The receiver of `.get`: only a dict has that method. -/
def asDict : Json → Except PyExc Dict
  | .obj d => .ok d
  | value => .error (.other "AttributeError"
      (("'" : PyStr) ++ typeName value ++ ("' object has no attribute 'get'" : PyStr)))

/-- `language_from_payload` -/
def languageFromPayload (payload : Json) : Except PyExc Json := do
  let d ← asDict payload
  let language := d.getD "language" .null
  pure (if language.truthy then language else .str "unknown")

/-- `mode_from_payload` -/
def modeFromPayload (payload : Json) : Except PyExc PyStr := do
  let d ← asDict payload
  pure (if (d.getD "is_raw" .null).truthy then "raw" else "judge")

/-- The value of a number as a float, if it is in the range of floats. -/
def floatOf : Json → Option Float64
  | .float x => some x
  | .int n => Float64.ofInt n
  | .bool b => some (.ofBool b)
  | _ => none

/-- What the subtraction of the value from a float raises. -/
def subtractError : Json → PyExc
  | .int _ => .other "OverflowError" "int too large to convert to float"
  | value => .other "TypeError"
      (("unsupported operand type(s) for -: 'float' and '" : PyStr) ++ typeName value ++
        ("'" : PyStr))

/-- `now - value` -/
def elapsedSince (now : Float64) (value : Json) : Except PyExc Float64 :=
  match floatOf value with
  | some t => .ok (now.sub t)
  | none => .error (subtractError value)

/-- The dict of an error verdict. -/
def errorResult (message : PyStr) : Dict :=
  [("verdict", .str "error"), ("error_message", .str message)]

def expiredMessage (age : Float64) : PyStr :=
  ("Job expired after " : PyStr) ++ (age.fixed : PyStr) ++ ("s in queue" : PyStr)

/-- `job.get("job_id", "unknown")` -/
def jobIdOf (job : Dict) : Json := job.getD "job_id" (.str "unknown")

/-- `job.get("payload", {})` -/
def payloadOf (job : Dict) : Json := job.getD "payload" (.obj [])

/-- `job.get("enqueued_at", 0.0)` -/
def enqueuedAtOf (job : Dict) : Json := job.getD "enqueued_at" (.float .zero)

section
variable {σ : Type} (h : Host σ)

/-- `extract_context` -/
def extractContext (payload : Dict) : Except PyExc Unit :=
  let carrier := payload.getD "_trace_context" .null
  h.extract (if carrier.truthy then carrier else .obj [])

/-- The message of the handler that catches the exception, if one does. -/
def handlerMessage (exc : PyExc) : Option PyStr :=
  match exc with
  | .valueError message => some message
  | exc => if exc.isException then some "Internal execution error" else none

/-- The `try` statement of `_process`. -/
def runJob (jobId : Json) (payload : Dict) : Comp PyExc σ Unit := do
  match ← (do h.markDone jobId (← h.execute payload)).attempt with
  | .ok () => pure ()
  | .error exc =>
    match handlerMessage exc with
    | some message => h.markDone jobId (errorResult message)
    | none => .raise exc

/-- `_process` from `mark_running` on. -/
def startJob (jobId payload : Json) : Comp PyExc σ Unit := do
  h.markRunning jobId
  let payload ← .lift (asDict payload)
  .lift (extractContext h payload)
  runJob h jobId payload

/-- `_process` -/
def process (jobData : PyStr) : Comp PyExc σ Unit :=
  match loads h.room jobData with
  | .error _ => pure ()
  | .ok value => do
    let job ← .lift (asDict value)
    let _language ← .lift (languageFromPayload (payloadOf job))
    let _mode ← .lift (modeFromPayload (payloadOf job))
    let now ← .read h.time
    let age ← .lift (elapsedSince now (enqueuedAtOf job))
    if age.gtInt jobMaxAge then
      h.markDone (jobIdOf job) (errorResult (expiredMessage age))
    else startJob h (jobIdOf job) (payloadOf job)

/-- One turn of the loop of `_slot`. -/
def turn : Comp PyExc σ Unit := do
  match ← h.brpop.attempt with
  | .error exc => if exc.isException then h.sleep else .raise exc
  | .ok none => pure ()
  | .ok (some jobData) => process h jobData

/-- Where a slot is after some turns. -/
inductive Position
  | looping
  | left
  | raised (exc : PyExc)

/-- `_slot`, for at most the given number of turns. -/
def slot : ℕ → σ → Position × σ
  | 0, s => (.looping, s)
  | turns + 1, s =>
    if h.shutdown s then (.left, s)
    else
      match turn h s with
      | (.ok (), s') => slot turns s'
      | (.error exc, s') => (.raised exc, s')

/-- A verdict is written: the one of the pipeline, or the one of a handler. -/
def Reported (jobId : Json) (payload : Dict) (s : σ) : Prop :=
  match h.execute payload s with
  | (.ok result, s') =>
    match h.markDone jobId result s' with
    | (.ok (), _) => True
    | (.error exc, s'') => ∃ message, handlerMessage exc = some message ∧
        (h.markDone jobId (errorResult message)).Returns s''
  | (.error exc, s') => ∃ message, handlerMessage exc = some message ∧
      (h.markDone jobId (errorResult message)).Returns s'

/-- The string is malformed, or it is an object whose payload is an object and
whose time of enqueueing is a number in the range of floats, and each call outside
the `try` returns: `mark_done` for an expired job; `mark_running`, the extraction
of the trace context and the `mark_done` of a handler that is needed, for another. -/
def Survives (jobData : PyStr) (s : σ) : Prop :=
  ∀ value, loads h.room jobData = .ok value →
    ∃ job payload t, value = .obj job ∧ payloadOf job = .obj payload ∧
      floatOf (enqueuedAtOf job) = some t ∧
      if ((h.time s).sub t).gtInt jobMaxAge then
        (h.markDone (jobIdOf job) (errorResult (expiredMessage ((h.time s).sub t)))).Returns s
      else
        ∃ s', h.markRunning (jobIdOf job) s = (.ok (), s') ∧
          extractContext h payload = .ok () ∧ Reported h (jobIdOf job) payload s'

@[simp] theorem asDict_eq_ok {value : Json} {d : Dict} : asDict value = .ok d ↔ value = .obj d := by
  cases value <;> simp [asDict]

theorem elapsedSince_eq_ok {now age : Float64} {value : Json} :
    elapsedSince now value = .ok age ↔ ∃ t, floatOf value = some t ∧ now.sub t = age := by
  unfold elapsedSince
  cases floatOf value <;> simp

theorem languageFromPayload_eq_ok {payload : Json} :
    (∃ language, languageFromPayload payload = .ok language) ↔ ∃ d, payload = .obj d := by
  cases payload <;> simp [languageFromPayload, asDict, Bind.bind, Except.bind, pure, Except.pure]

theorem modeFromPayload_eq_ok {payload : Json} :
    (∃ mode, modeFromPayload payload = .ok mode) ↔ ∃ d, payload = .obj d := by
  cases payload <;> simp [modeFromPayload, asDict, Bind.bind, Except.bind, pure, Except.pure]

theorem returns_handler (jobId : Json) (exc : PyExc) (s : σ) :
    (match handlerMessage exc with
      | some message => h.markDone jobId (errorResult message)
      | none => .raise exc : Comp PyExc σ Unit).Returns s ↔
      ∃ message, handlerMessage exc = some message ∧
        (h.markDone jobId (errorResult message)).Returns s := by
  cases handlerMessage exc <;> simp

theorem runJob_returns (jobId : Json) (payload : Dict) (s : σ) :
    (runJob h jobId payload).Returns s ↔ Reported h jobId payload s := by
  unfold runJob Reported
  rw [Comp.returns_attempt_bind, Comp.bind_apply]
  rcases h.execute payload s with ⟨exc | result, s'⟩
  · exact returns_handler h jobId exc s'
  · rcases hdone : h.markDone jobId result s' with ⟨exc | _, s''⟩
    · simpa [hdone] using returns_handler h jobId exc s''
    · simp [hdone]

theorem startJob_returns (jobId : Json) (payload : Dict) (s : σ) :
    (startJob h jobId (.obj payload)).Returns s ↔
      ∃ s', h.markRunning jobId s = (.ok (), s') ∧ extractContext h payload = .ok () ∧
        Reported h jobId payload s' := by
  simp [startJob, Comp.returns_bind, asDict, runJob_returns, Unique.exists_iff]

/-- `_process` returns exactly from the jobs it survives. -/
theorem process_returns (jobData : PyStr) (s : σ) :
    (process h jobData).Returns s ↔ Survives h jobData s := by
  unfold process Survives
  cases hloads : loads h.room jobData with
  | error e => simp
  | ok value =>
    simp only [Except.ok.injEq, forall_eq', Comp.returns_lift_bind, Comp.returns_read_bind,
      asDict_eq_ok, elapsedSince_eq_ok]
    constructor
    · rintro ⟨job, rfl, language, hlanguage, mode, hmode, age, ⟨t, ht, rfl⟩, hrest⟩
      obtain ⟨payload, hpayload⟩ := languageFromPayload_eq_ok.mp ⟨language, hlanguage⟩
      refine ⟨job, payload, t, rfl, hpayload, ht, ?_⟩
      rw [hpayload] at hrest
      by_cases hage : ((h.time s).sub t).gtInt jobMaxAge
      · rwa [if_pos hage] at hrest ⊢
      · rw [if_neg hage] at hrest ⊢
        exact (startJob_returns h _ payload s).mp hrest
    · rintro ⟨job, payload, t, rfl, hpayload, ht, hrest⟩
      obtain ⟨language, hlanguage⟩ := languageFromPayload_eq_ok.mpr ⟨payload, hpayload⟩
      obtain ⟨mode, hmode⟩ := modeFromPayload_eq_ok.mpr ⟨payload, hpayload⟩
      refine ⟨job, rfl, language, hlanguage, mode, hmode, _, ⟨t, ht, rfl⟩, ?_⟩
      rw [hpayload]
      by_cases hage : ((h.time s).sub t).gtInt jobMaxAge
      · rwa [if_pos hage] at hrest ⊢
      · rw [if_neg hage] at hrest ⊢
        exact (startJob_returns h _ payload s).mpr hrest

/-- A turn pops nothing, or a job that is survived, or it retries after an exception. -/
def TurnSurvives (s : σ) : Prop :=
  match h.brpop s with
  | (.ok none, _) => True
  | (.ok (some jobData), s') => Survives h jobData s'
  | (.error exc, s') => exc.isException ∧ h.sleep.Returns s'

theorem turn_returns (s : σ) : (turn h).Returns s ↔ TurnSurvives h s := by
  unfold turn TurnSurvives
  rw [Comp.returns_attempt_bind]
  rcases h.brpop s with ⟨exc | _ | jobData, s'⟩
  · cases hexc : exc.isException <;> simp [hexc]
  · simp
  · exact process_returns h jobData s'

/-- Every turn is survived, until the flag is seen. -/
def AllSurvived : ℕ → σ → Prop
  | 0, _ => True
  | turns + 1, s =>
    h.shutdown s ∨ (TurnSurvives h s ∧ AllSurvived turns (turn h s).2)

/-- The slot is in its loop, or it has left it and the flag is set. -/
def LeavesOnShutdown (turns : ℕ) (s : σ) : Prop :=
  (slot h turns s).1 = .looping ∨ ((slot h turns s).1 = .left ∧ h.shutdown (slot h turns s).2)

theorem leavesOnShutdown_iff (turns : ℕ) (s : σ) :
    LeavesOnShutdown h turns s ↔ AllSurvived h turns s := by
  induction turns generalizing s with
  | zero => simp [LeavesOnShutdown, AllSurvived, slot]
  | succ turns ih =>
    cases hflag : h.shutdown s with
    | true => simp [LeavesOnShutdown, AllSurvived, slot, hflag]
    | false =>
      simp only [LeavesOnShutdown, AllSurvived, slot, hflag, ← turn_returns, ← ih]
      rcases hturn : turn h s with ⟨exc | _, s'⟩
      · simp [Comp.Returns, hturn]
      · simp [Comp.Returns, hturn]

/-- What a slot survives. `_process` returns from a job, and in every run the slot
leaves its loop only for the flag, exactly when every job meets the condition. -/
theorem slot_survives_iff :
    (∀ jobData s, (process h jobData).Returns s ↔ Survives h jobData s) ∧
      ∀ turns s, LeavesOnShutdown h turns s ↔ AllSurvived h turns s :=
  ⟨process_returns h, leavesOnShutdown_iff h⟩

end

/-- Every call returns, and the queue holds the text `[]`. -/
def calmHost : Host Unit where
  room := 900
  time := fun _ => .zero
  shutdown := fun _ => false
  brpop := pure (some "[]")
  sleep := pure ()
  markRunning := fun _ => pure ()
  markDone := fun _ _ => pure ()
  extract := fun _ => .ok ()
  execute := fun _ => pure (errorResult "Unsupported language")

/-- A list has no method `get`: the slot ends with its first job, with the flag unset. -/
theorem not_slot_survives :
    ¬ (process calmHost "[]").Returns () ∧ ¬ LeavesOnShutdown calmHost 1 () := by
  have hprocess : process calmHost "[]" () =
      (.error (.other "AttributeError" "'list' object has no attribute 'get'"), ()) := by
    rfl
  have hslot : slot calmHost 1 () =
      (.raised (.other "AttributeError" "'list' object has no attribute 'get'"), ()) := by
    rfl
  constructor
  · simp [Comp.Returns, hprocess]
  · simp [LeavesOnShutdown, hslot]

end ExecutionEngine.Worker
