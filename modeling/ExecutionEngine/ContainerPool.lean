import ExecutionEngine.Transition

/-!
# The warm container pool of `execution/container_pool.py`

The idle containers of an image are the entries of the Redis list
`warm_pool:<image>`. Any number of tasks, in any number of worker processes, run
`acquire`, `release`, `ensure_pool_target` and `_reap_once` on these lists. Each
action below is one Redis command, one `MULTI`/`EXEC` pipeline or one awaited
docker command, so an interleaving of the real system is a list of actions. What
the code does between two awaits, in particular the loop of `_reap_once` that
schedules the kills, belongs to one action.

All processes read `time.time()` off one clock that never runs backwards.
`docker run` returns a container id that it has not returned before. The metrics
and log calls have no effect on the pool and are left out, as is the `LLEN` that
only feeds the pool size gauge of `release`.
-/
namespace ExecutionEngine.ContainerPool
open Transition

structure Container where
  containerId : String
  tempDir : String
  hostTempDir : String
  deriving DecidableEq, Repr

/-- The JSON object stored in a pool list. -/
structure Entry extends Container where
  bornAt : ℤ
  deriving DecidableEq, Repr

/-- `WARM_CONTAINER_TTL_SECONDS` and `WARM_POOL_MAX_PER_IMAGE`. -/
structure Limits where
  ttl : ℤ
  maxPerImage : ℤ

/-- The test `age > WARM_CONTAINER_TTL_SECONDS` of `acquire` and `_reap_once`. -/
def expired (limits : Limits) (now : ℤ) (e : Entry) : Bool :=
  decide (now - e.bornAt > limits.ttl)

/-- The prewarm lock of an image with the time at which Redis drops it. The owner
is a history variable; the stored value is `str(time.time())`. -/
structure Lock where
  value : ℤ
  expiresAt : ℤ
  owner : ℕ
  deriving DecidableEq, Repr

/-- Where a task stands, with the local variables its next action reads. -/
inductive Task
  | idle
  /-- `acquire`: before `RPOP`, before the age test, before the usability test. -/
  | acquiring (image : String)
  | judging (image : String) (entry : Entry)
  | inspecting (image : String) (entry : Entry)
  /-- `acquire` returned `None`: the executor starts a container. -/
  | missed (image : String)
  /-- A job runs in the container. -/
  | holding (image : String) (container : Container)
  /-- `release`: before the outcome of `_sanitize`, before the capped push. -/
  | sanitizing (image : String) (container : Container)
  | releasing (image : String) (entry : Entry)
  /-- `ensure_pool_target`: before `SET NX`, before `LLEN`, at the loop head, before
  the capped push of a new container, before `GET` and before `DELETE`. -/
  | locking (image : String) (target : ℤ) (lockValue : ℤ)
  | measuring (image : String) (target : ℤ) (lockValue : ℤ)
  | prewarming (image : String) (target : ℤ) (lockValue : ℤ) (current : ℤ)
  | prewarmed (image : String) (target : ℤ) (lockValue : ℤ) (entry : Entry)
  | unlocking (image : String) (lockValue : ℤ)
  | deleting (image : String)
  /-- `_reap_once`: in the `SCAN` loop, after `LRANGE`, before `MULTI`. -/
  | scanning (now : ℤ)
  | sifting (now : ℤ) (image : String) (rawEntries : List Entry)
  | rebuilding (now : ℤ) (image : String) (rawEntries keep : List Entry)
  deriving DecidableEq, Repr

/-- `kills` lists the scheduled `_kill_container` calls. `owed` is a history
variable: the pool into which a container was last pushed, until `acquire` hands
the container to a job or a kill is scheduled for it. -/
structure State where
  now : ℤ
  pool : String → List Entry
  lock : String → Option Lock
  started : List String
  kills : List (String × Option String)
  owed : String → Option String
  tasks : ℕ → Task

namespace State

/-- An empty Redis, no container and no running task. -/
def empty : State where
  now := 0
  pool := fun _ => []
  lock := fun _ => none
  started := []
  kills := []
  owed := fun _ => none
  tasks := fun _ => .idle

def become (s : State) (t : ℕ) (task : Task) : State :=
  { s with tasks := Function.update s.tasks t task }

def setPool (s : State) (image : String) (entries : List Entry) : State :=
  { s with pool := Function.update s.pool image entries }

def setLock (s : State) (image : String) (lock : Option Lock) : State :=
  { s with lock := Function.update s.lock image lock }

/-- `asyncio.create_task(_kill_container(container_id, temp_dir))` -/
def killContainer (s : State) (c : Container) : State :=
  { s with kills := (c.containerId, some c.tempDir) :: s.kills
           owed := Function.update s.owed c.containerId none }

def killAll (s : State) (entries : List Entry) : State :=
  entries.foldl (fun s e => s.killContainer e.toContainer) s

/-- The container is given to the job of task `t`. -/
def handOut (s : State) (t : ℕ) (image : String) (c : Container) : State :=
  { s.become t (.holding image c) with owed := Function.update s.owed c.containerId none }

/-- `_LUA_CAPPED_PUSH`: `LPUSH` unless the list has reached the cap, in which
case the caller schedules the kill. -/
def cappedPush (s : State) (limits : Limits) (image : String) (entry : Entry) : State :=
  if ((s.pool image).length : ℤ) ≥ limits.maxPerImage then s.killContainer entry.toContainer
  else { s.setPool image (entry :: s.pool image) with
         owed := Function.update s.owed entry.containerId (some image) }

end State

/-- One step of the task named by the number, or of the environment. -/
inductive Action
  | tick (seconds : ℕ)
  | acquire (t : ℕ) (image : String)
  | rpop (t : ℕ)
  | judgeAge (t : ℕ)
  | containerIsUsable (t : ℕ) (usable : Bool)
  | dockerRun (t : ℕ) (container : Option Container)
  | release (t : ℕ)
  | sanitize (t : ℕ) (alive : Bool)
  | cappedPush (t : ℕ)
  | ensurePoolTarget (t : ℕ) (image : String) (target : ℤ)
  | setLock (t : ℕ)
  | llen (t : ℕ)
  | queueBusy (t : ℕ)
  | getLock (t : ℕ)
  | deleteLock (t : ℕ)
  | expireLock (image : String)
  | reapOnce (t : ℕ)
  | lrange (t : ℕ) (image : String)
  | sift (t : ℕ)
  | rebuild (t : ℕ)
  | endReap (t : ℕ)
  deriving DecidableEq, Repr

/-- Seconds until Redis drops a prewarm lock. -/
def lockSeconds : ℤ := 900

/-- The keys of `_PREWARM_SPECS`. -/
def prewarmSpecs : List String :=
  ["cpp-sandbox:latest", "python-sandbox:latest", "js-sandbox:latest", "java-sandbox:latest",
    "kotlin-sandbox:latest", "go-sandbox:latest", "rust-sandbox:latest", "csharp-sandbox:latest"]

/-- The loop head of `ensure_pool_target` after `current = LLEN`. -/
def prewarmLoop (image : String) (target lockValue current : ℤ) : Task :=
  if current < target then .prewarming image target lockValue current
  else .unlocking image lockValue

/-- The loop of `_reap_once` over the snapshot: schedule a kill for every entry
that is expired at the time `now` read when the reaper started, keep the others. -/
def siftEntries (limits : Limits) (s : State) (t : ℕ) (now : ℤ) (image : String)
    (rawEntries : List Entry) : State :=
  (s.killAll (rawEntries.filter (expired limits now))).become t
    (.rebuilding now image rawEntries (rawEntries.filter fun e => !expired limits now e))

/-- The result of `docker run -d` for the task that waits for it. A started
container has a fresh id. -/
def afterDockerRun (s : State) (t : ℕ) : Option Container → Option State
  | none =>
    match s.tasks t with
    | .missed _ => some (s.become t .idle)
    | .prewarming image _ value _ => some (s.become t (.unlocking image value))
    | _ => none
  | some c =>
    if c.containerId ∈ s.started then none
    else
      let s' := { s with started := c.containerId :: s.started }
      match s.tasks t with
      | .missed image => some (s'.become t (.holding image c))
      | .prewarming image target value _ =>
        some (s'.become t (.prewarmed image target value ⟨c, s.now⟩))
      | _ => none

/-- Partial step function; the branches follow the source from top to bottom. -/
def step (limits : Limits) (s : State) : Action → Option State
  | .tick d => some { s with now := s.now + d }
  | .acquire t image =>
    match s.tasks t with
    | .idle => some (s.become t (.acquiring image))
    | _ => none
  | .rpop t =>
    match s.tasks t with
    | .acquiring image =>
      match (s.pool image).getLast? with
      | none => some (s.become t (.missed image))
      | some e => some ((s.setPool image (s.pool image).dropLast).become t (.judging image e))
    | _ => none
  | .judgeAge t =>
    match s.tasks t with
    | .judging image e =>
      if expired limits s.now e then
        some ((s.killContainer e.toContainer).become t (.acquiring image))
      else some (s.become t (.inspecting image e))
    | _ => none
  | .containerIsUsable t usable =>
    match s.tasks t with
    | .inspecting image e =>
      if usable then some (s.handOut t image e.toContainer)
      else some ((s.killContainer e.toContainer).become t (.acquiring image))
    | _ => none
  | .dockerRun t c => afterDockerRun s t c
  | .release t =>
    match s.tasks t with
    | .holding image c => some (s.become t (.sanitizing image c))
    | _ => none
  | .sanitize t alive =>
    match s.tasks t with
    | .sanitizing image c =>
      if alive then some (s.become t (.releasing image ⟨c, s.now⟩))
      else some (s.become t .idle)
    | _ => none
  | .cappedPush t =>
    match s.tasks t with
    | .releasing image e => some ((s.cappedPush limits image e).become t .idle)
    | .prewarmed image target value e =>
      some ((s.cappedPush limits image e).become t (.measuring image target value))
    | _ => none
  | .ensurePoolTarget t image target =>
    match s.tasks t with
    | .idle =>
      if target ≤ 0 ∨ image ∉ prewarmSpecs then some s
      else some (s.become t (.locking image target s.now))
    | _ => none
  | .setLock t =>
    match s.tasks t with
    | .locking image target value =>
      match s.lock image with
      | some _ => some (s.become t .idle)
      | none => some ((s.setLock image (some ⟨value, s.now + lockSeconds, t⟩)).become t
          (.measuring image target value))
    | _ => none
  | .llen t =>
    match s.tasks t with
    | .measuring image target value =>
      some (s.become t (prewarmLoop image target value (s.pool image).length))
    | _ => none
  | .queueBusy t =>
    match s.tasks t with
    | .prewarming image target value _ => some (s.become t (.measuring image target value))
    | _ => none
  | .getLock t =>
    match s.tasks t with
    | .unlocking image value =>
      if (s.lock image).map Lock.value = some value then some (s.become t (.deleting image))
      else some (s.become t .idle)
    | _ => none
  | .deleteLock t =>
    match s.tasks t with
    | .deleting image => some ((s.setLock image none).become t .idle)
    | _ => none
  | .expireLock image =>
    match s.lock image with
    | some l => if l.expiresAt ≤ s.now then some (s.setLock image none) else none
    | none => none
  | .reapOnce t =>
    match s.tasks t with
    | .idle => some (s.become t (.scanning s.now))
    | _ => none
  | .lrange t image =>
    match s.tasks t with
    | .scanning now =>
      if s.pool image = [] then some s
      else some (s.become t (.sifting now image (s.pool image)))
    | _ => none
  | .sift t =>
    match s.tasks t with
    | .sifting now image rawEntries => some (siftEntries limits s t now image rawEntries)
    | _ => none
  | .rebuild t =>
    match s.tasks t with
    | .rebuilding now image _ keep => some ((s.setPool image keep).become t (.scanning now))
    | _ => none
  | .endReap t =>
    match s.tasks t with
    | .scanning _ => some (s.become t .idle)
    | _ => none

def system (limits : Limits) : System State Action := ⟨State.empty, step limits⟩

/-- Scheduling kills moves no task and touches neither a list nor a lock. -/
theorem killAll_frame (s : State) (entries : List Entry) :
    (s.killAll entries).pool = s.pool ∧ (s.killAll entries).lock = s.lock ∧
      (s.killAll entries).now = s.now ∧ (s.killAll entries).tasks = s.tasks := by
  induction entries generalizing s with
  | nil => exact ⟨rfl, rfl, rfl, rfl⟩
  | cons e entries ih => exact ih (s.killContainer e.toContainer)

end ExecutionEngine.ContainerPool
