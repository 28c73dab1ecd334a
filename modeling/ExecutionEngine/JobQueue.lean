import ExecutionEngine.Transition
import ExecutionEngine.Pipeline

/-!
# The job queue of `jobqueue/job.py` and `worker.py`

API tasks run `enqueue` and `wait_for_job_result`, worker slots run `_slot` and
`_process`. They meet in one Redis keyspace: a list of jobs per language, and for
each job a status key and a list for its result. Each action is one Redis command
or one `MULTI`/`EXEC` pipeline, or what the code does between two of them.

The keys are the strings of the source. A command on a key of another type sets
the flag `wrongType`, where Redis would answer `WRONGTYPE`. Documents are kept
decoded. The payload of a job only reaches the pipeline, whose outcome the action
chooses; of the payload the language is kept. All processes read one clock.
-/
namespace ExecutionEngine.JobQueue
open Transition Pipeline

/-- `str(uuid.uuid4())`: what matters of it is that it has no colon. -/
structure JobId where
  text : String
  noColon : ':' ∉ text.toList
  deriving DecidableEq, Repr

/-- `LANGUAGE_QUEUES` by name. -/
def languageName : Language → String
  | .python => "python"
  | .javascript => "javascript"
  | .c => "c"
  | .java => "java"
  | .kotlin => "kotlin"
  | .go => "go"
  | .rust => "rust"
  | .typescript => "typescript"
  | .cpp => "cpp"
  | .csharp => "csharp"

/-- The keys the queue uses. -/
inductive Key
  | queue (language : Language)
  | job (id : JobId)
  | result (id : JobId)
  deriving DecidableEq, Repr

/-- `QUEUE_KEY_PREFIX`, `JOB_PREFIX` and the names built from them. -/
def Key.render : Key → String
  | .queue language => "exec:queue:" ++ languageName language
  | .job id => "exec:job:" ++ id.text
  | .result id => "exec:job:" ++ "result:" ++ id.text

/-- `JOB_MAX_AGE` -/
def jobMaxAge : ℤ := 300

/-- `MAX_QUEUE_DEPTH` -/
def maxQueueDepth : ℕ := 10000

/-- What `pipeline.execute` returns: a verdict, or the dict of a raw run. -/
inductive JobResult
  | verdict (v : Verdict)
  | raw (stdout stderr : PyStr) (exitCode : ℤ)

structure Job where
  id : JobId
  language : Language
  enqueuedAt : ℤ
  deriving DecidableEq, Repr

inductive Status
  | queued
  | running
  | done (result : JobResult)

/-- The value of a key. An element of a result list carries, as a history
variable, the job for which it was pushed. -/
inductive Value
  | absent
  | status (s : Status)
  | jobs (entries : List Job)
  | results (entries : List (JobId × JobResult))

/-- A call of `enqueue` followed by `wait_for_job_result`: before `LLEN`, before
the pipeline that pushes the job, before `BLPOP`. -/
inductive ApiTask
  | idle
  | measuring (language : Language)
  | pushing (job : Job)
  | waiting (id : JobId)

/-- A slot: before `BRPOP`, before the age test, before `mark_running`, while the
pipeline runs, before `mark_done`. -/
inductive Slot
  | idle
  | popped (job : Job)
  | starting (job : Job)
  | running (job : Job)
  | finishing (job : Job) (started : Bool) (result : JobResult)

/-- The histories say which ids have been drawn, which slot popped which job, what
was written to the status of a job, what was pushed on its result list, and which
waiter received an element pushed for which job. -/
structure State where
  now : ℤ
  redis : String → Value
  wrongType : Bool
  tasks : ℕ → ApiTask
  slots : ℕ → Slot
  drawn : List JobId
  pops : List (ℕ × JobId)
  writes : JobId → List Status
  pushes : JobId → List JobResult
  received : List (JobId × JobId × JobResult)

namespace State

def empty : State where
  now := 0
  redis := fun _ => .absent
  wrongType := false
  tasks := fun _ => .idle
  slots := fun _ => .idle
  drawn := []
  pops := []
  writes := fun _ => []
  pushes := fun _ => []
  received := []

def get (s : State) (k : Key) : Value := s.redis k.render

def set (s : State) (k : Key) (v : Value) : State :=
  { s with redis := Function.update s.redis k.render v }

def setTask (s : State) (t : ℕ) (task : ApiTask) : State :=
  { s with tasks := Function.update s.tasks t task }

def setSlot (s : State) (k : ℕ) (slot : Slot) : State :=
  { s with slots := Function.update s.slots k slot }

/-- `SET` of the status of a job; `SET` replaces a value of any type. -/
def setStatus (s : State) (id : JobId) (status : Status) : State :=
  { s.set (.job id) (.status status) with
    writes := Function.update s.writes id (s.writes id ++ [status]) }

/-- `LPUSH` of a job. -/
def lpushJob (s : State) (job : Job) : State :=
  match s.get (.queue job.language) with
  | .absent => s.set (.queue job.language) (.jobs [job])
  | .jobs entries => s.set (.queue job.language) (.jobs (job :: entries))
  | _ => { s with wrongType := true }

/-- `LPUSH` of a result. -/
def lpushResult (s : State) (id : JobId) (result : JobResult) : State :=
  let s := { s with pushes := Function.update s.pushes id (s.pushes id ++ [result]) }
  match s.get (.result id) with
  | .absent => s.set (.result id) (.results [(id, result)])
  | .results entries => s.set (.result id) (.results ((id, result) :: entries))
  | _ => { s with wrongType := true }

/-- `mark_done` -/
def markDone (s : State) (id : JobId) (result : JobResult) : State :=
  (s.setStatus id (.done result)).lpushResult id result

/-- `BRPOP` on one of the keys it is given: the entry it takes and what is left. -/
def rpop (s : State) (language : Language) : Option (Job × List Job) :=
  match s.get (.queue language) with
  | .jobs entries => entries.getLast?.map fun job => (job, entries.dropLast)
  | _ => none

/-- The commands on the queue of a language find a list. -/
def isQueue (s : State) (language : Language) : Bool :=
  match s.get (.queue language) with
  | .absent => true
  | .jobs _ => true
  | _ => false

/-- `LLEN` of a queue. -/
def llen (s : State) (language : Language) : ℕ :=
  match s.get (.queue language) with
  | .jobs entries => entries.length
  | _ => 0

end State

/-- The result that `_process` reports for the outcome of the pipeline and of the
serialisation of its result: `except ValueError` and `except Exception`. -/
def reportedResult : Except PyExc JobResult → JobResult
  | .ok result => result
  | .error (.valueError message) => .verdict (.error message)
  | .error _ => .verdict (.error "Internal execution error")

/-- The result reported for an expired job. -/
def expiredResult (age : ℤ) : JobResult :=
  .verdict (.error
    (("Job expired after " : PyStr) ++ (toString age : PyStr) ++ ("s in queue" : PyStr)))

inductive Action
  | tick (seconds : ℕ)
  | enqueue (t : ℕ) (language : Language)
  | llen (t : ℕ) (id : JobId)
  | push (t : ℕ)
  | waitForJobResult (t : ℕ) (id : JobId)
  | blpop (t : ℕ)
  | giveUp (t : ℕ)
  | brpop (k : ℕ) (languages : List Language)
  | judgeAge (k : ℕ)
  | markRunning (k : ℕ)
  | execute (k : ℕ) (outcome : Except PyExc JobResult)
  | markDone (k : ℕ)
  | expire (id : JobId) (ofResult : Bool)

/-- Partial step function. A slot blocks on the queues of its languages and takes
from the first one that is not empty. The status and the result list of a job may
expire at any time. -/
def step (s : State) : Action → Option State
  | .tick d => some { s with now := s.now + d }
  | .enqueue t language =>
    match s.tasks t with
    | .idle => some (s.setTask t (.measuring language))
    | _ => none
  | .llen t id =>
    match s.tasks t with
    | .measuring language =>
      if s.isQueue language = false then some { s with wrongType := true }
      else if maxQueueDepth ≤ s.llen language then some (s.setTask t .idle)
      else if id ∈ s.drawn then none
      else some ({ s with drawn := id :: s.drawn }.setTask t (.pushing ⟨id, language, s.now⟩))
    | _ => none
  | .push t =>
    match s.tasks t with
    | .pushing job => some (((s.lpushJob job).setStatus job.id .queued).setTask t (.waiting job.id))
    | _ => none
  | .waitForJobResult t id =>
    match s.tasks t with
    | .idle => some (s.setTask t (.waiting id))
    | _ => none
  | .blpop t =>
    match s.tasks t with
    | .waiting id =>
      match s.get (.result id) with
      | .results ((owner, result) :: rest) =>
        some { (s.set (.result id) (.results rest)).setTask t .idle with
               received := (id, owner, result) :: s.received }
      | .status _ => some { s with wrongType := true }
      | .jobs _ => some { s with wrongType := true }
      | _ => none
    | _ => none
  | .giveUp t =>
    match s.tasks t with
    | .waiting _ => some (s.setTask t .idle)
    | _ => none
  | .brpop k languages =>
    match s.slots k with
    | .idle =>
      if languages.all s.isQueue = false then some { s with wrongType := true }
      else
        match languages.findSome? fun language => (s.rpop language).map (language, ·) with
        | none => none
        | some (language, job, rest) =>
          some { (s.set (.queue language) (.jobs rest)).setSlot k (.popped job) with
                 pops := (k, job.id) :: s.pops }
    | _ => none
  | .judgeAge k =>
    match s.slots k with
    | .popped job =>
      if s.now - job.enqueuedAt > jobMaxAge then
        some (s.setSlot k (.finishing job false (expiredResult (s.now - job.enqueuedAt))))
      else some (s.setSlot k (.starting job))
    | _ => none
  | .markRunning k =>
    match s.slots k with
    | .starting job => some ((s.setStatus job.id .running).setSlot k (.running job))
    | _ => none
  | .execute k outcome =>
    match s.slots k with
    | .running job => some (s.setSlot k (.finishing job true (reportedResult outcome)))
    | _ => none
  | .markDone k =>
    match s.slots k with
    | .finishing job _ result => some ((s.markDone job.id result).setSlot k .idle)
    | _ => none
  | .expire id ofResult =>
    some (if ofResult then s.set (.result id) .absent else s.set (.job id) .absent)

def system : System State Action := ⟨State.empty, step⟩

theorem languageName_injective : Function.Injective languageName := by
  intro a b h
  cases a <;> cases b <;> first | rfl | (exact absurd h (by decide))

/-- No two keys have the same name. A status key and a result key could only
coincide if a job id began with `result:`. -/
theorem Key.render_injective : Function.Injective Key.render := by
  have hresult : ∀ i j : JobId, i.text.toList ≠ "result:".toList ++ j.text.toList := by
    intro i j h
    exact i.noColon (by rw [h]; simp)
  have hid : ∀ i j : JobId, i.text.toList = j.text.toList → i = j := by
    rintro ⟨x, hx⟩ ⟨y, hy⟩ h
    obtain rfl : x = y := String.toList_injective h
    rfl
  intro a b h
  have hlist := congrArg String.toList h
  cases a with
  | queue a =>
    cases b with
    | queue b =>
      have hname : (languageName a).toList = (languageName b).toList := by
        simpa [Key.render, String.toList_append] using hlist
      rw [languageName_injective (String.toList_injective hname)]
    | job j => simp [Key.render, String.toList_append] at hlist
    | result j => simp [Key.render, String.toList_append] at hlist
  | job i =>
    cases b with
    | queue b => simp [Key.render, String.toList_append] at hlist
    | job j => rw [hid i j (by simpa [Key.render, String.toList_append] using hlist)]
    | result j =>
      exact absurd (by simpa [Key.render, String.toList_append] using hlist) (hresult i j)
  | result i =>
    cases b with
    | queue b => simp [Key.render, String.toList_append] at hlist
    | job j =>
      exact absurd (by simpa [Key.render, String.toList_append] using hlist.symm) (hresult j i)
    | result j => rw [hid i j (by simpa [Key.render, String.toList_append] using hlist)]

end ExecutionEngine.JobQueue
