import ExecutionEngine.Process
import ExecutionEngine.Utf8

/-!
# What the executors use of Redis, Docker and the file system

The commands are effects on a state that the code does not look at, so that each
of them may return or raise whatever it likes. On top of them stand the functions
that all executors share: the sandbox paths of `execution/sandbox_paths.py`, the
context managers of `execution/docker_semaphore.py`, and `acquire` and `release`
of `execution/container_pool.py` as one task sees them.

Documents in Redis are kept decoded. The commands of `_sanitize` and
`_container_is_usable` are one call each.
-/
namespace ExecutionEngine.SandboxHost
open Binary64 Effect Pipeline Process

/-- `bytes.decode()`. The position that Python adds to the message is left out. -/
def decode (bytes : List UInt8) : Except PyExc PyStr :=
  match Utf8.decode bytes with
  | some s => .ok s
  | none => .error (.valueError "'utf-8' codec can't decode bytes")

/-- `bytes.decode(errors="replace")` -/
def decodeReplace (bytes : List UInt8) : PyStr := Utf8.decodeReplace bytes

/-- A process that has ended. -/
structure Completed where
  returncode : ℤ
  stdout : List UInt8
  stderr : List UInt8

/-- `temp_dir` and `host_temp_dir` -/
structure Dirs where
  tempDir : PyStr
  hostTempDir : PyStr

/-- A container that `acquire` returns. -/
structure Warm where
  containerId : PyStr
  dirs : Dirs

/-- An element of a pool list. -/
structure PoolEntry extends Warm where
  bornAt : Float64

/-- The part of `config/limits.py` that the executors read. -/
structure Limits where
  executionTimeout : ℤ
  compilationTimeout : ℤ
  tsCompileTimeout : ℤ
  memory : PyStr
  memorySwap : PyStr
  cpus : PyStr
  pids : PyStr
  nofile : PyStr
  tsCpus : PyStr
  cppOptLevel : PyStr
  maxCompileErrorBytes : ℤ
  sleepCmd : List PyStr
  warmContainerTtl : ℤ
  warmPoolMaxPerImage : ℤ
  dockerRunConcurrency : ℕ
  compileConcurrency : ℕ

/-- The Redis commands of one client. `submit` is the transaction of `enqueue`. -/
structure Redis (σ : Type) where
  llen : PyStr → Comp PyExc σ ℤ
  setnx : PyStr → PyStr → Comp PyExc σ Bool
  delete : PyStr → Comp PyExc σ Unit
  rpush : PyStr → List PyStr → Comp PyExc σ Unit
  lpush : PyStr → PyStr → Comp PyExc σ Unit
  brpop : PyStr → ℤ → Comp PyExc σ (Option PyStr)
  blpop : PyStr → ℤ → Comp PyExc σ (Option PyStr)
  rpop : PyStr → Comp PyExc σ (Option PoolEntry)
  cappedPush : PyStr → ℤ → PoolEntry → Comp PyExc σ Bool
  submit : PyStr → PyStr → Request → Comp PyExc σ Unit

/-- Every command raises `redis.exceptions.ConnectionError`. -/
def Redis.down {σ : Type} (message : PyStr) : Redis σ where
  llen := fun _ => .raise (.redisConnection message)
  setnx := fun _ _ => .raise (.redisConnection message)
  delete := fun _ => .raise (.redisConnection message)
  rpush := fun _ _ => .raise (.redisConnection message)
  lpush := fun _ _ => .raise (.redisConnection message)
  brpop := fun _ _ => .raise (.redisConnection message)
  blpop := fun _ _ => .raise (.redisConnection message)
  rpop := fun _ => .raise (.redisConnection message)
  cappedPush := fun _ _ _ => .raise (.redisConnection message)
  submit := fun _ _ _ => .raise (.redisConnection message)

/-- What the built-in `compile` does with a source text. -/
inductive SyntaxCheck
  | passed
  | syntaxError (message : PyStr)
  | valueError (message : PyStr)
  | otherException (name : String) (message : PyStr)

/-- The host of one process. `communicateWithin` gives `none` for a process that
has not ended in time and has to be killed. `killContainer` schedules
`_kill_container`. `pyCompile` is the built-in `compile`, `wrap` the text of the
wrapper that an executor generates, and `patience` the number of pool entries that
`acquire` discards before its task is cancelled. -/
structure Host (σ : Type) where
  limits : Limits
  environ : String → Option PyStr
  time : σ → Float64
  redis : Redis σ
  mkdtemp : PyStr → Comp PyExc σ PyStr
  makedirs : PyStr → Comp PyExc σ Unit
  writeFile : PyStr → PyStr → Comp PyExc σ Unit
  rmtree : PyStr → Comp PyExc σ Unit
  communicate : List PyStr → Comp PyExc σ Completed
  communicateWithin : List PyStr → ℤ → Comp PyExc σ (Option Completed)
  killProcess : Comp PyExc σ Unit
  killContainer : PyStr → PyStr → Comp PyExc σ Unit
  containerIsUsable : PyStr → PyStr → Comp PyExc σ Bool
  sanitize : PyStr → Comp PyExc σ Bool
  runInSandbox : List PyStr → Json → ℤ → Comp PyExc σ SandboxRun
  pyCompile : PyStr → SyntaxCheck
  wrap : Language → PyStr → PyStr → Except PyExc PyStr
  cPrelude : PyStr
  str : Json → PyStr
  patience : ℕ

def slash : CodePoint := PyStr.ofChar '/'

def backslash : CodePoint := PyStr.ofChar '\\'

/-- `WINDOWS_DRIVE_PATH.match` -/
def isWindowsDrivePath : PyStr → Bool
  | drive :: colon :: separator :: _ =>
    ((65 ≤ drive.val && drive.val ≤ 90) || (97 ≤ drive.val && drive.val ≤ 122)) &&
      colon = PyStr.ofChar ':' && (separator = backslash || separator = slash)
  | _ => false

/-- `s.replace("\\", "/").rstrip("/")` -/
def posixPath (s : PyStr) : PyStr :=
  ((List.map (fun c => if c = backslash then slash else c) s).reverse.dropWhile
    fun c => decide (c = slash)).reverse

/-- `get_sandbox_roots` -/
def getSandboxRoots (environ : String → Option PyStr) : Except PyExc (PyStr × PyStr) :=
  let containerSandboxRoot := (environ "CONTAINER_SANDBOX_ROOT").getD "/sandbox"
  let hostSandboxRoot := (environ "HOST_SANDBOX_ROOT").getD []
  if !hostSandboxRoot.truthy then .error (.runtimeExecution "HOST_SANDBOX_ROOT not set" none)
  else if !hostSandboxRoot.strip.truthy then
    .error (.runtimeExecution "HOST_SANDBOX_ROOT is empty" none)
  else if isWindowsDrivePath hostSandboxRoot.strip then
    .error (.runtimeExecution (("HOST_SANDBOX_ROOT must be a Docker-daemon-visible Linux path " ++
      "(for Windows Docker Desktop use /run/desktop/mnt/host/<drive>/...)" : String) : PyStr) none)
  else .ok (containerSandboxRoot, posixPath hostSandboxRoot.strip)

/-- `os.path.basename` -/
def basename (path : PyStr) : PyStr :=
  (path.reverse.takeWhile fun c => decide (c ≠ slash)).reverse

/-- `build_host_temp_dir` -/
def buildHostTempDir (hostSandboxRoot tempDir : PyStr) : PyStr :=
  hostSandboxRoot ++ ("/" : PyStr) ++ basename tempDir

/-- `os.path.join` with a relative second path. -/
def joinPath (dir name : PyStr) : PyStr :=
  if !dir.truthy || List.getLast? dir = some slash then dir ++ name
  else dir ++ ("/" : PyStr) ++ name

/-- `_pool_key` -/
def poolKey (image : PyStr) : PyStr := ("warm_pool:" : PyStr) ++ image

section
variable {σ : Type} (h : Host σ)

/-- `acquire`, for at most the given number of entries. -/
def acquire (image : PyStr) : ℕ → Comp PyExc σ (Option Warm)
  | 0 => .raise .cancelled
  | turns + 1 => do
    match ← h.redis.rpop (poolKey image) with
    | none => pure none
    | some entry =>
      let now ← .read h.time
      if (now.sub entry.bornAt).gtInt h.limits.warmContainerTtl then
        h.killContainer entry.containerId entry.dirs.tempDir
        acquire image turns
      else if ← h.containerIsUsable entry.containerId image then pure (some entry.toWarm)
      else
        h.killContainer entry.containerId entry.dirs.tempDir
        acquire image turns

/-- `release`. The length read after the push feeds a gauge, but its command may
raise like any other. -/
def release (image containerId : PyStr) (dirs : Dirs) : Comp PyExc σ Unit := do
  if ← h.sanitize containerId then
    let now ← .read h.time
    if ← h.redis.cappedPush (poolKey image) h.limits.warmPoolMaxPerImage
        ⟨⟨containerId, dirs⟩, now⟩ then
      let _ ← h.redis.llen (poolKey image)
      pure ()
    else h.killContainer containerId dirs.tempDir
  else h.rmtree dirs.tempDir

end

/-- `container_id`, `temp_dir` and `host_temp_dir` of an executor: all are `None`, or
the directory has been made, or the container has been started in it. -/
inductive Self
  | fresh
  | placed (dirs : Dirs)
  | started (containerId : PyStr) (dirs : Dirs)

section
variable {σ : Type} {α : Type} (h : Host σ)

/-- Assignment to the attributes. -/
def setSelf (self : Self) : Comp PyExc (Self × σ) Unit := .update fun s => (self, s.2)

/-- The attributes. -/
def getSelf : Comp PyExc (Self × σ) Self := .read Prod.fst

/-- `_ACQUIRE_TIMEOUT` -/
def acquireTimeout : ℤ := 120

/-- The context manager that `_make_semaphore(key, concurrency)` returns. -/
def withSemaphore (key : PyStr) (concurrency : ℕ) (body : Comp PyExc (Self × σ) α) :
    Comp PyExc (Self × σ) α := do
  if ← (h.redis.setnx (key ++ (":init" : PyStr)) "1").onSecond then
    (h.redis.delete key).onSecond
    (h.redis.rpush key (List.replicate concurrency "t")).onSecond
  match ← (h.redis.brpop key acquireTimeout).onSecond with
  | none => .raise (.other "RuntimeError"
      (("Timed out waiting for " : PyStr) ++ key ++ (" slot after 120s" : PyStr)))
  | some _ => body.finallyDo (h.redis.lpush key "t").onSecond

/-- `docker_run_semaphore` -/
def dockerRunSemaphore (body : Comp PyExc (Self × σ) α) : Comp PyExc (Self × σ) α :=
  withSemaphore h "docker_run_semaphore" h.limits.dockerRunConcurrency body

/-- `compile_semaphore` -/
def compileSemaphore (body : Comp PyExc (Self × σ) α) : Comp PyExc (Self × σ) α :=
  withSemaphore h "compile_semaphore" h.limits.compileConcurrency body

end

end ExecutionEngine.SandboxHost
