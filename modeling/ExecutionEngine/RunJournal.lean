import ExecutionEngine.Journal
import ExecutionEngine.RawExecution

/-!
# The journal of one execution

A run of the pipeline owns directories and containers: those it makes and those it
takes from the pool. The journalled host writes down every command that can change
this, with its outcome. What a command does may differ from what the engine sees of
it: a reply can be lost, and a client that is killed leaves the container it has
started. These facts are a parameter.

An entry strands something when the engine has no further reference to it, so that
nothing will ever settle it.
-/
namespace ExecutionEngine.RunJournal
open Effect Journal Pipeline SandboxHost RawExecution

/-- What a run may own. -/
inductive Resource
  | dir (path : PyStr)
  | container (id : PyStr)
  deriving DecidableEq

/-- The container and the directory that is mounted in it. -/
def both (containerId tempDir : PyStr) : List Resource := [.container containerId, .dir tempDir]

/-- The commands of a run that concern its resources, with their outcomes and with
what the outcome does not show. -/
inductive Step
  | rpop (outcome : Except PyExc (Option PoolEntry)) (lostReply : Option Warm)
  | usable (containerId : PyStr) (outcome : Except PyExc Bool)
  | kill (containerId tempDir : PyStr) (outcome : Except PyExc Unit)
  | mkdtemp (outcome : Except PyExc PyStr)
  | slot (key : PyStr) (passed : Bool)
  | dockerRun (outcome : Except PyExc (Option Completed)) (unseen : Option PyStr)
  | sanitize (containerId : PyStr) (outcome : Except PyExc Bool) (stopped : Bool)
  | push (entry : PoolEntry) (outcome : Except PyExc Bool) (carriedOut : Bool)
  | rmtree (path : PyStr) (removed : Bool)
  | write (outcome : Except PyExc Unit)
  | spawn (outcome : Except PyExc ℕ) (container : Option PyStr)
  | client (container : Option PyStr) (outcome : Except PyExc (Option Completed))

/-- The id that `docker run -d` prints when it has started a container. -/
def printedId : Except PyExc (Option Completed) → Option PyStr
  | .ok (some proc) =>
    if proc.returncode = 0 then
      match decode proc.stdout with
      | .ok stdout => some stdout.strip
      | .error _ => none
    else none
  | _ => none

namespace Step

/-- The resources that the run creates or takes from the pool. -/
@[simp] def gained : Step → List Resource
  | .rpop (.ok (some entry)) _ => both entry.containerId entry.dirs.tempDir
  | .rpop (.error _) (some warm) => both warm.containerId warm.dirs.tempDir
  | .mkdtemp (.ok path) => [.dir path]
  | .dockerRun outcome unseen =>
    ((printedId outcome).orElse fun _ => unseen).toList.map .container
  | .spawn _ container => container.toList.map .container
  | _ => []

/-- The resources that are recorded in a pool entry. -/
@[simp] def pooled : Step → List Resource
  | .push entry (.ok true) _ => both entry.containerId entry.dirs.tempDir
  | .push entry (.error _) true => both entry.containerId entry.dirs.tempDir
  | _ => []

/-- The directories that are removed and the containers that are found to have
exited. The container of a client that ends by itself has exited. -/
@[simp] def removed : Step → List Resource
  | .rmtree path true => [.dir path]
  | .sanitize containerId (.ok false) true => [.container containerId]
  | .client container (.ok (some _)) => container.toList.map .container
  | _ => []

/-- The resources that `_kill_container` is scheduled for. -/
@[simp] def scheduled : Step → List Resource
  | .kill containerId tempDir (.ok ()) => both containerId tempDir
  | _ => []

/-- The container that `release` is called with: `_sanitize` is its first command. -/
@[simp] def released : Step → List Resource
  | .sanitize containerId _ _ => [.container containerId]
  | _ => []

/-- The keys of `docker_run_semaphore`. -/
def isRunKey (key : PyStr) : Bool :=
  key = ("docker_run_semaphore" : PyStr) || key = ("docker_run_semaphore" : PyStr) ++ (":init" : PyStr)

/-- A judge run loses something: the reply of `RPOP`; an entry whose container can
neither be checked nor discarded, or has no id; a new directory, when no slot is
obtained or given back or no container is reported in it; or a container in `release`. -/
def strandsJudge : Step → Bool
  | .rpop (.error _) (some _) => true
  | .usable _ (.error _) => true
  | .usable containerId (.ok true) => !containerId.truthy
  | .kill _ _ (.error _) => true
  | .slot key passed => isRunKey key && !passed
  | .dockerRun outcome _ => (printedId outcome).all fun id => !id.truthy
  | .sanitize _ (.error _) _ => true
  | .sanitize _ (.ok false) stopped => !stopped
  | .push _ (.error _) carriedOut => !carriedOut
  | .rmtree _ removed => !removed
  | _ => false

/-- A raw run loses something: its directory, when the program cannot be written or the
directory not be removed; or the container of a client that is not awaited to its end,
also because its input cannot be encoded. -/
def strandsRaw (req : RawRequest) : Step → Bool
  | .write (.error _) => true
  | .spawn (.error _) (some _) => true
  | .spawn (.ok _) (some _) => req.stdin.truthy && !Api.encodable req.stdin
  | .client (some _) (.ok none) => true
  | .client (some _) (.error _) => true
  | .rmtree _ removed => !removed
  | _ => false

/-- The entry strands something in a run of the request. -/
def strands : PipelineRequest → Step → Bool
  | .judge _, k => k.strandsJudge
  | .raw req, k => k.strandsRaw req

end Step

/-- What a host does behind the outcomes it reports: the entry that an `RPOP` without a
reply has taken, whether a push without a reply was carried out, whether a container
reported dead has stopped, whether `rmtree` (which ignores errors) removes the
directory, the container that a `docker run` starts and does not report, and the
container of an attached client. -/
structure Unseen (σ : Type) where
  popped : PyStr → σ → Option Warm
  pushed : PoolEntry → σ → Bool
  stopped : PyStr → σ → Bool
  removes : PyStr → σ → Bool
  starts : List PyStr → σ → Option PyStr
  attached : ℕ → Option PyStr

def succeeded {α : Type} : Except PyExc α → Bool
  | .ok _ => true
  | .error _ => false

/-- A slot was obtained. -/
def obtained : Except PyExc (Option PyStr) → Bool
  | .ok (some _) => true
  | _ => false

/-- The command line is one of `docker run`. -/
def isDockerRun (cmd : List PyStr) : Bool := cmd.take 2 = (["docker", "run"] : List PyStr)

section
variable {σ : Type}

/-- The Redis client, with its commands on slots and pool entries written down. -/
def journalledRedis (r : Redis σ) (u : Unseen σ) : Redis (σ × List Step) where
  llen := fun key => (r.llen key).unnoted
  setnx := fun key value => (r.setnx key value).noted fun _ out => .slot key (succeeded out)
  delete := fun key => (r.delete key).noted fun _ out => .slot key (succeeded out)
  rpush := fun key values => (r.rpush key values).noted fun _ out => .slot key (succeeded out)
  lpush := fun key value => (r.lpush key value).noted fun _ out => .slot key (succeeded out)
  brpop := fun key timeout => (r.brpop key timeout).noted fun _ out => .slot key (obtained out)
  blpop := fun key timeout => (r.blpop key timeout).unnoted
  rpop := fun key => (r.rpop key).noted fun s out => .rpop out (u.popped key s)
  cappedPush := fun key cap entry =>
    (r.cappedPush key cap entry).noted fun s out => .push entry out (u.pushed entry s)
  submit := fun key jobId req => (r.submit key jobId req).unnoted

/-- The host with its journal. -/
def journalled (h : RawHost σ) (u : Unseen σ) : RawHost (σ × List Step) where
  limits := h.limits
  environ := h.environ
  time := fun s => h.time s.1
  redis := journalledRedis h.redis u
  mkdtemp := fun root => (h.mkdtemp root).noted fun _ out => .mkdtemp out
  makedirs := fun path => (h.makedirs path).unnoted
  writeFile := fun path content => (h.writeFile path content).noted fun _ out => .write out
  rmtree := fun path => (h.rmtree path).noted fun s _ => .rmtree path (u.removes path s)
  communicate := fun cmd =>
    if isDockerRun cmd then
      (h.communicate cmd).noted fun s out => .dockerRun (out.map some) (u.starts cmd s)
    else (h.communicate cmd).unnoted
  communicateWithin := fun cmd timeout =>
    if isDockerRun cmd then
      (h.communicateWithin cmd timeout).noted fun s out => .dockerRun out (u.starts cmd s)
    else (h.communicateWithin cmd timeout).unnoted
  killProcess := h.killProcess.unnoted
  killContainer := fun containerId tempDir =>
    (h.killContainer containerId tempDir).noted fun _ out => .kill containerId tempDir out
  containerIsUsable := fun containerId image =>
    (h.containerIsUsable containerId image).noted fun _ out => .usable containerId out
  sanitize := fun containerId =>
    (h.sanitize containerId).noted fun s out => .sanitize containerId out (u.stopped containerId s)
  runInSandbox := fun cmd payload timeout => (h.runInSandbox cmd payload timeout).unnoted
  pyCompile := h.pyCompile
  wrap := h.wrap
  cPrelude := h.cPrelude
  str := h.str
  patience := h.patience
  spawn := fun cmd => (h.spawn cmd).noted fun s out =>
    .spawn out (match out with
      | .ok client => u.attached client
      | .error _ => u.starts cmd s)
  communicateWith := fun client input timeout =>
    (h.communicateWith client input timeout).noted fun _ out => .client (u.attached client) out

/-- The journal of `ExecutionPipeline.execute` from a state of the host. -/
def steps (outputsMatch : Json → Json → Except PyExc Bool) (h : RawHost σ) (u : Unseen σ)
    (req : PipelineRequest) (s : σ) : List Step :=
  (executePipeline outputsMatch (journalled h u) req (s, [])).2.2

end

/-- Each time the run creates or takes a directory or a container, this is settled once:
by a pool entry, by a removal or by a scheduled `_kill_container`. And `release` is
called at most once for each time a container is taken. -/
structure NoLeak (log : List Step) : Prop where
  settled : ∀ r, (log.flatMap Step.pooled).count r + (log.flatMap Step.removed).count r +
    (log.flatMap Step.scheduled).count r = (log.flatMap Step.gained).count r
  released : ∀ id, (log.flatMap Step.released).count (.container id) ≤
    (log.flatMap Step.gained).count (.container id)

/-- What is taken once is in exactly one of the three situations. -/
theorem NoLeak.exactly_one {log : List Step} (hlog : NoLeak log) {r : Resource}
    (hr : (log.flatMap Step.gained).count r = 1) :
    ((log.flatMap Step.pooled).count r = 1 ∧ r ∉ log.flatMap Step.removed ∧
        r ∉ log.flatMap Step.scheduled) ∨
      (r ∉ log.flatMap Step.pooled ∧ (log.flatMap Step.removed).count r = 1 ∧
        r ∉ log.flatMap Step.scheduled) ∨
      (r ∉ log.flatMap Step.pooled ∧ r ∉ log.flatMap Step.removed ∧
        (log.flatMap Step.scheduled).count r = 1) := by
  have h := hlog.settled r
  rw [hr] at h
  simp only [← List.count_eq_zero]
  omega

/-- The three ways to settle. -/
@[simp] def Step.settled (k : Step) : List Resource := k.pooled ++ k.removed ++ k.scheduled

/-- The account of a request. -/
@[simps] def account (req : PipelineRequest) : Account Step Resource where
  gained := Step.gained
  settled := Step.settled
  returned := Step.released
  fault := Step.strands req

theorem count_settled (log : List Step) (r : Resource) :
    (log.flatMap Step.settled).count r = (log.flatMap Step.pooled).count r +
      (log.flatMap Step.removed).count r + (log.flatMap Step.scheduled).count r := by
  induction log with
  | nil => simp
  | cons k log ih =>
    simp only [List.flatMap_cons, List.count_append, ih, Step.settled]
    omega

/-- Books with nothing in hand: there is no leak exactly when no entry strands something. -/
theorem noLeak_iff_of_balanced {req : PipelineRequest} {log : List Step} {pending : List Resource}
    (h : (account req).Balanced log [] pending) :
    NoLeak log ↔ ∀ k ∈ log, k.strands req = false := by
  have hiff := h.closed_iff
  constructor
  · intro hlog
    refine hiff.mp fun r => ?_
    exact (count_settled log r).trans (hlog.settled r)
  · intro hlog
    refine ⟨fun r => ?_, fun id => ?_⟩
    · exact (count_settled log r).symm.trans (hiff.mpr hlog r)
    · exact le_trans (Nat.le_add_right _ _) (h.returned_le (.container id))

end ExecutionEngine.RunJournal
