import ExecutionEngine.RunJournal

/-!
# The books of a judge run

The books of a judge run are kept against the attributes of the executor: what
`cleanup` will release is in hand, and everything else that was gained has been
settled or lost. `acquire`, the start of a container and `release` are followed
command by command; no other command of an executor touches the books.
-/
namespace ExecutionEngine.ResourceBooks
open Effect Comp Journal Pipeline SandboxHost Executors RawExecution RunJournal

/-- A container with its directory, if it has an id. -/
def owned (containerId : PyStr) (dirs : Dirs) : List Resource :=
  if containerId.truthy then both containerId dirs.tempDir else []

section
variable {τ α : Type} {g : Host τ} {key : PyStr} {P : Self × τ → Prop}
  {Q R : Except PyExc α → Self × τ → Prop}

/-- After a command: `P` when it has returned, the end of the computation when not. -/
def orElseEnds {β : Type} (P : Self × τ → Prop) (Q : Except PyExc α → Self × τ → Prop) :
    Except PyExc β → Self × τ → Prop
  | .ok _ => P
  | .error e => Q (.error e)

/-- A place is taken and given back after the body. -/
theorem slot_triple {body : Comp PyExc (Self × τ) α}
    (hbrpop : Triple P (g.redis.brpop key acquireTimeout).onSecond fun r s => match r with
      | .ok (some _) => P s
      | .ok none => ∀ e, Q (.error e) s
      | .error e => Q (.error e) s)
    (hbody : Triple P body R)
    (hlpush : ∀ r, Triple (R r) (g.redis.lpush key "t").onSecond (orElseEnds (Q r) Q)) :
    Triple P (do
      match ← (g.redis.brpop key acquireTimeout).onSecond with
      | none => .raise (.other "RuntimeError"
          (("Timed out waiting for " : PyStr) ++ key ++ (" slot after 120s" : PyStr)))
      | some _ => body.finallyDo (g.redis.lpush key "t").onSecond) Q := by
  refine triple_bind hbrpop ?_ fun e s hs => hs
  intro slot
  rcases slot with _ | _
  · exact fun s hs => hs _
  · refine triple_finallyDo hbody fun r s hs => ?_
    have hs' := hlpush r s hs
    constructor
    · intro e he
      rw [he] at hs'
      exact hs'
    · intro he
      rw [he] at hs'
      exact hs'

/-- The rule of the context manager, command by command. -/
theorem withSemaphore_triple {n : ℕ} {body : Comp PyExc (Self × τ) α}
    (hsetnx : Triple P (g.redis.setnx (key ++ (":init" : PyStr)) "1").onSecond (orElseEnds P Q))
    (hdelete : Triple P (g.redis.delete key).onSecond (orElseEnds P Q))
    (hrpush : Triple P (g.redis.rpush key (List.replicate n "t")).onSecond (orElseEnds P Q))
    (hbrpop : Triple P (g.redis.brpop key acquireTimeout).onSecond fun r s => match r with
      | .ok (some _) => P s
      | .ok none => ∀ e, Q (.error e) s
      | .error e => Q (.error e) s)
    (hbody : Triple P body R)
    (hlpush : ∀ r, Triple (R r) (g.redis.lpush key "t").onSecond (orElseEnds (Q r) Q)) :
    Triple P (withSemaphore g key n body) Q := by
  have hrest := slot_triple hbrpop hbody hlpush
  refine triple_bind hsetnx ?_ fun e s hs => hs
  intro init
  rcases init with _ | _
  · exact hrest
  · refine triple_bind hdelete ?_ fun e s hs => hs
    intro _
    refine triple_bind hrpush ?_ fun e s hs => hs
    exact fun _ => hrest

end

section
variable {σ : Type} (h : RawHost σ) (u : Unseen σ) (req : Request)

/-- The books of a judge run, beside the state of the host. -/
abbrev Books (held pending : List Resource) : σ × List Step → Prop :=
  Logged fun log => (account (.judge req)).Balanced log held pending

/-- What `acquire` has in hand after `RPOP`. -/
def poppedEntry : Except PyExc (Option PoolEntry) → List Resource
  | .ok (some entry) => both entry.containerId entry.dirs.tempDir
  | _ => []

/-- What `acquire` returns. -/
def acquired : Except PyExc (Option Warm) → List Resource
  | .ok (some warm) => owned warm.containerId warm.dirs
  | _ => []

theorem rpop_books (key : PyStr) :
    Triple (Books req [] []) ((journalled h u).redis.rpop key)
      fun r => Books req (poppedEntry r) (poppedEntry r) := by
  change Triple _ ((h.redis.rpop key).noted fun s out => Step.rpop out (u.popped key s)) _
  refine triple_noted fun s r log hlog => ?_
  rcases r with e | _ | entry
  · rcases hu : u.popped key s with _ | warm
    · exact hlog.quiet rfl rfl rfl rfl
    · exact hlog.lose rfl (both warm.containerId warm.dirs.tempDir) (by simp [both])
        (by simp [poppedEntry]) (by simp [poppedEntry])
  · exact hlog.quiet rfl rfl rfl rfl
  · exact hlog.move rfl (by simp [poppedEntry]) (by simp [poppedEntry])

theorem killContainer_books (containerId tempDir : PyStr) (pending : List Resource) :
    Triple (Books req (both containerId tempDir) pending)
      ((journalled h u).killContainer containerId tempDir) fun _ => Books req [] [] := by
  change Triple _
    ((h.killContainer containerId tempDir).noted fun _ out => Step.kill containerId tempDir out) _
  refine triple_noted fun s r log hlog => ?_
  rcases r with e | ⟨⟩
  · exact hlog.lose rfl (both containerId tempDir) (by simp [both]) (by simp) (by simp)
  · exact hlog.move rfl (by simp) (by simp)

/-- What is in hand after the check of a container. -/
def checkedEntry (containerId : PyStr) (dirs : Dirs) : Except PyExc Bool → List Resource
  | .ok true => owned containerId dirs
  | .ok false => both containerId dirs.tempDir
  | .error _ => []

theorem containerIsUsable_books (containerId image : PyStr) (dirs : Dirs) :
    Triple (Books req (both containerId dirs.tempDir) (both containerId dirs.tempDir))
      ((journalled h u).containerIsUsable containerId image)
      fun r => Books req (checkedEntry containerId dirs r) (checkedEntry containerId dirs r) := by
  change Triple _
    ((h.containerIsUsable containerId image).noted fun _ out => Step.usable containerId out) _
  refine triple_noted fun s r log hlog => ?_
  rcases r with e | _ | _
  · exact hlog.lose rfl (both containerId dirs.tempDir) (by simp [both])
      (by simp [checkedEntry]) (by simp [checkedEntry])
  · exact hlog.quiet rfl rfl rfl rfl
  · by_cases hid : containerId.truthy = true
    · have hk : (Step.usable containerId (.ok true)).strandsJudge = false := by
        simp [Step.strandsJudge, hid]
      exact hlog.move hk (by simp [checkedEntry, owned, hid]) (by simp [checkedEntry, owned, hid])
    · have hk : (Step.usable containerId (.ok true)).strandsJudge = true := by
        simp [Step.strandsJudge, hid]
      exact hlog.lose hk (both containerId dirs.tempDir) (by simp [both])
        (by simp [checkedEntry, owned, hid]) (by simp [checkedEntry, owned, hid])

/-- `acquire` keeps the books: every entry it pops is discarded, returned or lost. -/
theorem acquire_books (image : PyStr) (turns : ℕ) :
    Triple (Books req [] []) (acquire (journalled h u).toHost image turns)
      fun r => Books req (acquired r) (acquired r) := by
  induction turns with
  | zero => exact fun t ht => ht
  | succ turns ih =>
    refine triple_bind (rpop_books h u req (poolKey image)) ?_ fun e t ht => ht
    intro popped
    rcases popped with _ | entry
    · exact fun t ht => ht
    refine triple_read_bind fun now => ?_
    have hdiscard : Triple (Books req (both entry.containerId entry.dirs.tempDir)
        (both entry.containerId entry.dirs.tempDir))
        (do (journalled h u).killContainer entry.containerId entry.dirs.tempDir
            acquire (journalled h u).toHost image turns)
        fun r => Books req (acquired r) (acquired r) :=
      triple_bind (killContainer_books h u req _ _ _) (fun _ => ih) fun e t ht => ht
    split
    · exact hdiscard
    · refine triple_bind (containerIsUsable_books h u req _ _ entry.dirs) ?_ fun e t ht => ht
      intro usable
      rcases usable with _ | _
      · exact hdiscard
      · exact fun t ht => ht

/-- What `release` has in hand after `_sanitize`. -/
def sanitized (containerId tempDir : PyStr) : Except PyExc Bool → List Resource
  | .ok true => both containerId tempDir
  | .ok false => [.dir tempDir]
  | .error _ => []

theorem sanitize_books (containerId tempDir : PyStr) :
    Triple (Books req (both containerId tempDir) (both containerId tempDir))
      ((journalled h u).sanitize containerId)
      fun r => Books req (sanitized containerId tempDir r) [] := by
  change Triple _ ((h.sanitize containerId).noted fun s out =>
    Step.sanitize containerId out (u.stopped containerId s)) _
  refine triple_noted fun s r log hlog => ?_
  rcases r with e | _ | _
  · exact hlog.lose rfl (both containerId tempDir) (by simp [both]) (by simp [sanitized])
      (by simp [both, List.count_cons])
  · rcases hu : u.stopped containerId s with _ | _
    · refine hlog.lose rfl [.container containerId] (by simp) ?_ (by simp [both, List.count_cons])
      simp [sanitized, both, List.count_cons, add_comm]
    · refine hlog.move rfl ?_ (by simp [both, List.count_cons])
      simp [sanitized, both, List.count_cons, add_comm]
  · exact hlog.move rfl (by simp [sanitized]) (by simp [both, List.count_cons])

/-- What `release` has in hand after the push. -/
def afterPush (containerId tempDir : PyStr) : Except PyExc Bool → List Resource
  | .ok false => both containerId tempDir
  | _ => []

theorem cappedPush_books (key : PyStr) (cap : ℤ) (entry : PoolEntry) :
    Triple (Books req (both entry.containerId entry.dirs.tempDir) [])
      ((journalled h u).redis.cappedPush key cap entry)
      fun r => Books req (afterPush entry.containerId entry.dirs.tempDir r) [] := by
  change Triple _ ((h.redis.cappedPush key cap entry).noted fun s out =>
    Step.push entry out (u.pushed entry s)) _
  refine triple_noted fun s r log hlog => ?_
  rcases r with e | _ | _
  · rcases hu : u.pushed entry s with _ | _
    · exact hlog.lose rfl (both entry.containerId entry.dirs.tempDir) (by simp [both])
        (by simp [afterPush]) (by simp)
    · exact hlog.move rfl (by simp [afterPush]) (by simp)
  · exact hlog.quiet rfl rfl rfl rfl
  · exact hlog.move rfl (by simp [afterPush]) (by simp)

theorem rmtree_books (path : PyStr) :
    Triple (Books req [.dir path] []) ((journalled h u).rmtree path)
      fun _ => Books req [] [] := by
  change Triple _ ((h.rmtree path).noted fun s _ => Step.rmtree path (u.removes path s)) _
  refine triple_noted fun s r log hlog => ?_
  rcases hu : u.removes path s with _ | _
  · exact hlog.lose rfl [.dir path] (by simp) (by simp) (by simp)
  · exact hlog.move rfl (by simp) (by simp)

/-- `release` leaves nothing in hand, however it ends. -/
theorem release_books (image containerId : PyStr) (dirs : Dirs) :
    Triple (Books req (both containerId dirs.tempDir) (both containerId dirs.tempDir))
      (release (journalled h u).toHost image containerId dirs) fun _ => Books req [] [] := by
  refine triple_bind (sanitize_books h u req containerId dirs.tempDir) ?_ fun e t ht => ht
  intro alive
  rcases alive with _ | _
  · exact rmtree_books h u req dirs.tempDir
  refine triple_read_bind fun now => ?_
  refine triple_bind (cappedPush_books h u req _ _ ⟨⟨containerId, dirs⟩, now⟩) ?_ fun e t ht => ht
  intro pushed
  rcases pushed with _ | _
  · exact killContainer_books h u req containerId dirs.tempDir []
  · exact keeps_bind keeps_unnoted fun _ => keeps_pure _

/-- What there is in the directory after `docker run`. -/
def startedIn (dirs : Dirs) (outcome : Except PyExc (Option Completed)) : List Resource :=
  match printedId outcome with
  | some id => owned id dirs
  | none => []

/-- Something is in hand or lost, while the attributes of the executor are as given. -/
def Midway (self : Self) (held : List Resource) (s : Self × (σ × List Step)) : Prop :=
  s.1 = self ∧ (account (.judge req)).Standing s.2.2 held

/-- A command on a slot of `docker_run_semaphore`: what is in hand is lost if it fails. -/
theorem slot_midway {α : Type} (x : Comp PyExc σ α) {key : PyStr}
    (hkey : Step.isRunKey key = true) (passed : Except PyExc α → Bool) (self : Self)
    (held : List Resource) :
    Triple (Midway req self held)
      (x.noted fun _ out => Step.slot key (passed out)).onSecond
      fun r => Midway req self (if passed r then held else []) := by
  rintro ⟨_, t⟩ ⟨rfl, ht⟩
  refine ⟨rfl, ?_⟩
  change (account (.judge req)).Standing (t.2 ++ [Step.slot key (passed (x t.1).1)])
    (if passed (x t.1).1 = true then held else [])
  rcases hp : passed (x t.1).1 with _ | _
  · have hk : (Step.slot key false).strandsJudge = true := by simp [Step.strandsJudge, hkey]
    exact ht.fault hk rfl rfl rfl
  · have hk : (Step.slot key true).strandsJudge = false := by simp [Step.strandsJudge]
    exact ht.quiet hk rfl rfl rfl

/-- The container that `docker run` reports, or the loss of the directory. -/
theorem standing_dockerRun {log : List Step} {dirs : Dirs}
    (hlog : (account (.judge req)).Standing log [.dir dirs.tempDir])
    (outcome : Except PyExc (Option Completed)) (unseen : Option PyStr) :
    (account (.judge req)).Standing (log ++ [.dockerRun outcome unseen])
      (startedIn dirs outcome) := by
  rcases hp : printedId outcome with _ | id
  · have hk : (Step.dockerRun outcome unseen).strandsJudge = true := by
      simp [Step.strandsJudge, hp]
    have hstarted : startedIn dirs outcome = [] := by simp [startedIn, hp]
    rw [hstarted]
    exact hlog.1.loseAll hk (by simp) rfl rfl
  by_cases hid : id.truthy = true
  · have hk : (Step.dockerRun outcome unseen).strandsJudge = false := by
      simp [Step.strandsJudge, hp, hid]
    have hstarted : startedIn dirs outcome = both id dirs.tempDir := by
      simp [startedIn, hp, owned, hid]
    rw [hstarted]
    refine ⟨hlog.1.move hk ?_ ?_, by simp [both]⟩
    · intro r
      simp [hp, both, List.count_cons, add_comm]
    · intro r
      simp [hp, both, List.count_cons, add_comm]
  · have hk : (Step.dockerRun outcome unseen).strandsJudge = true := by
      simp [Step.strandsJudge, hp, hid]
    have hstarted : startedIn dirs outcome = [] := by simp [startedIn, hp, owned, hid]
    rw [hstarted]
    exact hlog.1.loseAll hk (by simp) rfl rfl

theorem isDockerRun_runCmd (limits : Limits) (l : Launch) (hostTempDir : PyStr) :
    isDockerRun (runCmd limits l hostTempDir) = true := by
  simp [isDockerRun, runCmd]

theorem communicate_dockerRun {cmd : List PyStr} (hcmd : isDockerRun cmd = true) :
    (journalled h u).communicate cmd =
      (h.communicate cmd).noted fun s out => Step.dockerRun (out.map some) (u.starts cmd s) :=
  if_pos hcmd

theorem communicateWithin_dockerRun {cmd : List PyStr} (hcmd : isDockerRun cmd = true)
    (timeout : ℤ) :
    (journalled h u).communicateWithin cmd timeout =
      (h.communicateWithin cmd timeout).noted fun s out => Step.dockerRun out (u.starts cmd s) :=
  if_pos hcmd

/-- The body of `docker_run_semaphore`. -/
theorem dockerRun_midway (l : Launch) (dirs : Dirs) (self : Self) :
    Triple (Midway req self [.dir dirs.tempDir])
      (dockerRun (journalled h u).toHost l dirs.hostTempDir)
      fun r => Midway req self (startedIn dirs (r.map some)) := by
  have hcmd := isDockerRun_runCmd (journalled h u).limits l dirs.hostTempDir
  unfold dockerRun
  rcases l.hungMessage with _ | hung
  · rintro ⟨_, t⟩ ⟨rfl, ht⟩
    simp only [communicate_dockerRun h u hcmd]
    exact ⟨rfl, standing_dockerRun req ht _ _⟩
  · simp only [communicateWithin_dockerRun h u hcmd]
    refine triple_bind (R := fun out => Midway req self (startedIn dirs out)) ?_ ?_ ?_
    · rintro ⟨_, t⟩ ⟨rfl, ht⟩
      exact ⟨rfl, standing_dockerRun req ht _ _⟩
    · intro out
      rcases out with _ | proc
      · refine triple_bind (R := fun _ => Midway req self []) ?_ ?_ ?_
        · exact fun s hs => hs
        · exact fun _ s hs => hs
        · exact fun e s hs => hs
      · exact fun s hs => hs
    · exact fun e s hs => hs

/-- The container that is started in a slot, or the loss of the directory. -/
theorem dockerRunSemaphore_midway (l : Launch) (dirs : Dirs) (self : Self) :
    Triple (Midway req self [.dir dirs.tempDir])
      (dockerRunSemaphore (journalled h u).toHost
        (dockerRun (journalled h u).toHost l dirs.hostTempDir))
      fun r => Midway req self (startedIn dirs (r.map some)) := by
  let Q : Except PyExc Completed → Self × (σ × List Step) → Prop :=
    fun r => Midway req self (startedIn dirs (r.map some))
  have hslot : ∀ {α : Type} (x : Comp PyExc σ α) {key : PyStr}, Step.isRunKey key = true →
      ∀ held : List Resource, Triple (Midway req self held)
        (x.noted fun _ out => Step.slot key (succeeded out)).onSecond
        (orElseEnds (Midway req self held) Q) := by
    intro α x key hkey held
    refine triple_mono (slot_midway req x hkey succeeded self held) (fun s hs => hs) ?_
    intro r s hs
    cases r with
    | ok a => exact hs
    | error e => exact hs
  refine withSemaphore_triple (hslot _ (by decide) _) (hslot _ (by decide) _)
    (hslot _ (by decide) _) ?_ (dockerRun_midway h u req l dirs self) ?_
  · refine triple_mono (slot_midway req _ (by decide) obtained self _) (fun s hs => hs) ?_
    intro r s hs
    rcases r with e | _ | slot
    · exact hs
    · exact fun e => hs
    · exact hs
  · exact fun r => hslot _ (by decide) _

/-- The books, kept against the attributes of the executor. -/
def inHand : Self → List Resource
  | .started containerId dirs => owned containerId dirs
  | _ => []

/-- What `cleanup` will release is in hand. -/
def Kept (s : Self × (σ × List Step)) : Prop := Books req (inHand s.1) (inHand s.1) s.2

/-- Nothing is in hand yet. -/
def Opening (s : Self × (σ × List Step)) : Prop := s.1 = .fresh ∧ Kept req s

/-- What is in hand after `mkdtemp`. -/
def AfterMkdtemp (r : Except PyExc PyStr) (s : Self × (σ × List Step)) : Prop :=
  match r with
  | .ok path => Midway req .fresh [.dir path] s
  | .error _ => Kept req s

theorem mkdtemp_kept (root : PyStr) :
    Triple (Opening req) ((journalled h u).mkdtemp root).onSecond (AfterMkdtemp req) := by
  rintro ⟨_, t⟩ ⟨rfl, ht⟩
  change AfterMkdtemp req (h.mkdtemp root t.1).1
    (.fresh, ((h.mkdtemp root t.1).2, t.2 ++ [Step.mkdtemp (h.mkdtemp root t.1).1]))
  rcases (h.mkdtemp root t.1).1 with e | path
  · exact Account.Balanced.quiet ht rfl rfl rfl rfl
  · refine ⟨rfl, Account.Balanced.move ht rfl ?_ ?_, by simp⟩
    · simp [inHand]
    · simp [inHand]

/-- The use of what `docker run` has printed. -/
theorem started_kept (l : Launch) (dirs : Dirs) (proc : Completed) :
    Triple (Midway req (.placed dirs) (startedIn dirs (.ok (some proc))))
      (do
        if proc.returncode ≠ 0 then
          let message ← .lift (l.failedMessage proc)
          .raise (.runtimeExecution message none)
        let stdout ← .lift (decode proc.stdout)
        setSelf (.started stdout.strip dirs)
        pure (stdout.strip, dirs) : Comp PyExc (Self × (σ × List Step)) (PyStr × Dirs))
      fun _ => Kept req := by
  rintro ⟨_, t⟩ ⟨rfl, ht⟩
  by_cases hcode : proc.returncode = 0
  · rcases hout : decode proc.stdout with e | stdout
    · have hnone : startedIn dirs (.ok (some proc)) = [] := by
        simp [startedIn, printedId, hcode, hout]
      rw [hnone] at ht
      simp only [ne_eq, hcode, not_true_eq_false, ↓reduceIte]
      exact ht.1
    · have hsome : startedIn dirs (.ok (some proc)) = owned stdout.strip dirs := by
        simp [startedIn, printedId, hcode, hout]
      rw [hsome] at ht
      simp only [ne_eq, hcode, not_true_eq_false, ↓reduceIte]
      exact ht.1
  · have hnone : startedIn dirs (.ok (some proc)) = [] := by
      simp [startedIn, printedId, hcode]
    rw [hnone] at ht
    simp only [ne_eq, hcode, not_false_eq_true, ↓reduceIte]
    rcases l.failedMessage proc with e | message
    · exact ht.1
    · exact ht.1

/-- `launch` keeps the books, however it ends. -/
theorem launch_kept (l : Launch) (roots : PyStr × PyStr) :
    Triple (Opening req) (launch (journalled h u).toHost l roots) fun _ => Kept req := by
  refine triple_bind (R := fun r s => s.1 = .fresh ∧ Books req (acquired r) (acquired r) s.2)
    ?_ ?_ ?_
  · rintro ⟨_, t⟩ ⟨rfl, ht⟩
    exact ⟨rfl, acquire_books h u req _ _ t ht⟩
  · intro warm
    rcases warm with _ | warm
    · refine triple_mono (P := Opening req) ?_ ?_ fun r s hs => hs
      · refine triple_bind (mkdtemp_kept h u req roots.1) ?_ fun e s hs => hs
        intro tempDir
        let dirs : Dirs := ⟨tempDir, buildHostTempDir roots.2 tempDir⟩
        refine triple_update_bind (R := Midway req (.placed dirs) [.dir tempDir]) ?_ ?_
        · rintro s ⟨-, hs⟩
          exact ⟨rfl, hs⟩
        refine triple_bind (dockerRunSemaphore_midway h u req l dirs (.placed dirs)) ?_ ?_
        · exact fun proc => started_kept req l dirs proc
        · rintro e ⟨_, t⟩ ⟨rfl, ht⟩
          exact ht.1
      · rintro ⟨_, t⟩ ⟨rfl, ht⟩
        exact ⟨rfl, ht⟩
    · rintro s ⟨-, hs⟩
      exact hs
  · rintro e ⟨_, t⟩ ⟨rfl, ht⟩
    exact ht

theorem keeps_onSecond {α : Type} {x : Comp PyExc (σ × List Step) α}
    (hx : ∀ held pending, Keeps (Books req held pending) x) : Keeps (Kept req) x.onSecond :=
  fun s hs => hx _ _ s.2 hs

theorem unnoted_kept {α : Type} (x : Comp PyExc σ α) :
    Keeps (Kept req) (x.unnoted : Comp PyExc (σ × List Step) α).onSecond :=
  keeps_onSecond req fun _ _ => keeps_unnoted

theorem writeFile_kept (path content : PyStr) :
    Keeps (Kept req) ((journalled h u).writeFile path content).onSecond := by
  refine keeps_onSecond req fun held pending => ?_
  change Triple _ ((h.writeFile path content).noted fun _ out => Step.write out) _
  exact triple_noted fun s r log hlog => Account.Balanced.quiet hlog rfl rfl rfl rfl

theorem writeFiles_kept (dir : PyStr) (files : List (PyStr × PyStr)) :
    Keeps (Kept req) (writeFiles (journalled h u).toHost dir files) := by
  induction files with
  | nil => exact keeps_pure ()
  | cons file files ih => exact keeps_bind (writeFile_kept h u req _ _) fun _ => ih

theorem isDockerRun_exec (args : List PyStr) :
    isDockerRun (("docker" : PyStr) :: ("exec" : PyStr) :: args) = false := by
  have hne : ("exec" : PyStr) ≠ ("run" : PyStr) := by decide
  simp [isDockerRun, hne]

theorem communicate_kept {cmd : List PyStr} (hcmd : isDockerRun cmd = false) :
    Keeps (Kept req) ((journalled h u).communicate cmd).onSecond := by
  have heq : (journalled h u).communicate cmd = (h.communicate cmd).unnoted :=
    if_neg (Bool.eq_false_iff.mp hcmd)
  rw [heq]
  exact unnoted_kept req _

theorem communicateWithin_kept {cmd : List PyStr} (hcmd : isDockerRun cmd = false)
    (timeout : ℤ) : Keeps (Kept req) ((journalled h u).communicateWithin cmd timeout).onSecond := by
  have heq : (journalled h u).communicateWithin cmd timeout =
      (h.communicateWithin cmd timeout).unnoted := if_neg (Bool.eq_false_iff.mp hcmd)
  rw [heq]
  exact unnoted_kept req _

/-- A command on a slot of another semaphore. -/
theorem slot_kept {α : Type} (x : Comp PyExc σ α) {key : PyStr}
    (hkey : Step.isRunKey key = false) (passed : Except PyExc α → Bool) :
    Keeps (Kept req) (x.noted fun _ out => Step.slot key (passed out)).onSecond := by
  refine keeps_onSecond req fun held pending => ?_
  refine triple_noted fun s r log hlog => ?_
  have hk : (Step.slot key (passed r)).strandsJudge = false := by simp [Step.strandsJudge, hkey]
  exact Account.Balanced.quiet hlog hk rfl rfl rfl

theorem compileSemaphore_kept {α : Type} {body : Comp PyExc (Self × (σ × List Step)) α}
    (hbody : Keeps (Kept req) body) :
    Keeps (Kept req) (compileSemaphore (journalled h u).toHost body) := by
  have hslot : ∀ {β : Type} (x : Comp PyExc σ β) {key : PyStr}, Step.isRunKey key = false →
      ∀ passed : Except PyExc β → Bool, Triple (Kept req)
        (x.noted fun _ out => Step.slot key (passed out)).onSecond
        (orElseEnds (Kept req) fun _ : Except PyExc α => Kept req) := by
    intro β x key hkey passed
    refine triple_mono (slot_kept req x hkey passed) (fun s hs => hs) ?_
    intro r s hs
    cases r with
    | ok a => exact hs
    | error e => exact hs
  refine withSemaphore_triple (R := fun _ => Kept req) (hslot _ (by decide) succeeded)
    (hslot _ (by decide) succeeded) (hslot _ (by decide) succeeded) ?_ hbody ?_
  · refine triple_mono (slot_kept req _ (by decide) obtained) (fun s hs => hs) ?_
    intro r s hs
    rcases r with e | _ | slot
    · exact hs
    · exact fun e => hs
    · exact hs
  · exact fun r => hslot _ (by decide) succeeded

theorem cleanup_started {τ : Type} (g : Host τ) (image containerId : PyStr) (dirs : Dirs) (t : τ) :
    cleanup g image (.started containerId dirs, t) =
      if containerId.truthy = true then
        ((release g image containerId dirs t).1,
          (.fresh, (release g image containerId dirs t).2))
      else (.ok (), (.started containerId dirs, t)) := by
  change (if containerId.truthy = true then
      (do setSelf .fresh; (release g image containerId dirs).onSecond)
    else pure () : Comp PyExc (Self × τ) Unit) (.started containerId dirs, t) = _
  split
  · rfl
  · rfl

/-- After `cleanup` nothing is in hand, however it ends. -/
theorem cleanup_kept (image : PyStr) :
    Triple (Kept req) (cleanup (journalled h u).toHost image)
      fun _ s => Kept req s ∧ inHand s.1 = [] := by
  rintro ⟨self, t⟩ ht
  rcases self with _ | dirs | ⟨containerId, dirs⟩
  · exact ⟨ht, rfl⟩
  · exact ⟨ht, rfl⟩
  · by_cases hid : containerId.truthy = true
    · have hheld : inHand (.started containerId dirs) = both containerId dirs.tempDir := by
        simp [inHand, owned, hid]
      rw [Kept, hheld] at ht
      rw [cleanup_started, if_pos hid]
      exact ⟨release_books h u req image containerId dirs t ht, rfl⟩
    · have hheld : inHand (.started containerId dirs) = [] := by simp [inHand, owned, hid]
      rw [cleanup_started, if_neg hid]
      exact ⟨ht, hheld⟩

end

end ExecutionEngine.ResourceBooks
