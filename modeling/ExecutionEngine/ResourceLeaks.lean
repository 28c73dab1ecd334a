import ExecutionEngine.Fallback
import ExecutionEngine.ResourceBooks

/-!
# Leaks of directories and containers

Every executor keeps the books against its attributes, and the pipeline ends with
`cleanup`, after which nothing is in hand. So there is a leak exactly when some entry
of the journal strands something. The books of a raw run are kept against the
directory that its `finally` part removes.
-/
namespace ExecutionEngine.ResourceLeaks
open Effect Comp Journal Pipeline SandboxHost Executors RawExecution RunJournal ResourceBooks

section
variable {σ : Type} {P I Q : σ → Prop} (outputsMatch : Json → Json → Except PyExc Bool)

theorem runEach_keeps (x : Executor σ) (hrun : ∀ input, Keeps I (x.run input))
    (inPlace : Option Bool) (testCases : List TestCase) :
    ∀ index actualOutputs,
      Keeps I (runEach outputsMatch x inPlace index testCases actualOutputs) := by
  induction testCases with
  | nil => exact fun index actualOutputs => keeps_pure _
  | cons tc rest ih =>
    intro index actualOutputs
    refine keeps_bind (triple_attempt (hrun tc.input)) fun outcome => ?_
    cases outcome with
    | error exc =>
      dsimp only
      split
      · exact keeps_pure _
      · exact keeps_raise _
    | ok value =>
      refine keeps_bind (keeps_lift _) fun same => ?_
      split
      · exact keeps_bind (keeps_lift _) fun shown => ih _ _
      · exact keeps_bind (keeps_lift _) fun shown => keeps_pure _

theorem judge_keeps (x : Executor σ) (req : Request) (hrun : ∀ input, Keeps I (x.run input))
    (hbatch : ∀ runBatch, x.runBatch = some runBatch → ∀ cases, Keeps I (runBatch cases)) :
    Keeps I (judge outputsMatch x req) := by
  unfold judge
  split
  · rename_i runBatch hx
    refine keeps_bind (triple_attempt (hbatch runBatch hx req.testCases)) fun outcome => ?_
    cases outcome with
    | error exc =>
      dsimp only
      split
      · exact keeps_pure _
      · exact keeps_raise _
    | ok results => exact keeps_lift _
  · exact runEach_keeps outputsMatch x hrun _ _ _ _

/-- What `compile` establishes, the runs keep, and `cleanup` turns into the end. -/
theorem execute_triple (x : Executor σ) (req : Request)
    (hcompile : Triple P x.compile fun _ => I) (hrun : ∀ input, Keeps I (x.run input))
    (hbatch : ∀ runBatch, x.runBatch = some runBatch → ∀ cases, Keeps I (runBatch cases))
    (hcleanup : Triple I x.cleanup fun _ => Q) :
    Triple P (execute outputsMatch x req) fun _ => Q := by
  have hjudge : Triple P (compileAndJudge outputsMatch x req) fun _ => I := by
    refine triple_bind_keeps (triple_attempt hcompile) fun outcome => ?_
    split
    · exact judge_keeps outputsMatch x req hrun hbatch
    · exact keeps_pure _
    · exact keeps_pure _
    · exact keeps_pure _
    · exact keeps_raise _
  have hshielded : Triple I (shieldedCleanup x) fun _ => Q := by
    refine triple_bind_keeps (triple_attempt hcleanup) fun outcome => ?_
    split
    · exact keeps_pure _
    · exact keeps_pure _
    · exact keeps_raise _
  refine triple_finallyDo hjudge fun r s hs => ?_
  exact ⟨fun _ _ => hshielded s hs, fun _ => hshielded s hs⟩

end

section
variable {σ : Type} (h : RawHost σ) (u : Unseen σ) (req : Request) (code functionName : PyStr)

theorem initialized_kept : Keeps (Kept req) (initialized (σ := σ × List Step)) := by
  refine keeps_bind (keeps_read _) fun self => ?_
  split
  · split
    · exact keeps_pure _
    · exact keeps_raise _
  · exact keeps_raise _

theorem runWith_kept (execCmd : PyStr → List PyStr) (payload : Json) :
    Keeps (Kept req) (runWith (journalled h u).toHost execCmd payload) := by
  refine keeps_bind (initialized_kept req) fun containerId => ?_
  exact keeps_bind (unnoted_kept req _) fun run => keeps_lift _

theorem runBatchWith_kept (execCmd : PyStr → List PyStr) (payload : Json) (count : ℕ) :
    Keeps (Kept req) (runBatchWith (journalled h u).toHost execCmd payload count) := by
  refine keeps_bind (initialized_kept req) fun containerId => ?_
  exact keeps_bind (unnoted_kept req _) fun run => keeps_lift _

/-- The start of every `compile`: the roots, then the container. -/
theorem launched_kept {α : Type} (l : Launch)
    {rest : PyStr × Dirs → Comp PyExc (Self × (σ × List Step)) α}
    (hrest : ∀ started, Keeps (Kept req) (rest started)) :
    Triple (Opening req) (do
      let roots ← .lift (getSandboxRoots (journalled h u).environ)
      launch (journalled h u).toHost l roots >>= rest) fun _ => Kept req := by
  refine triple_lift_bind (fun roots => ?_) fun e s hs => hs.2
  exact triple_bind_keeps (launch_kept h u req l roots) hrest

theorem compileInContainer_kept {compileCmd : List PyStr} (hcmd : isDockerRun compileCmd = false)
    (message : Completed → Except PyExc PyStr) :
    Keeps (Kept req) (compileInContainer (journalled h u).toHost compileCmd message) := by
  refine keeps_bind (compileSemaphore_kept h u req ?_) fun proc => ?_
  · refine keeps_bind (communicateWithin_kept h u req hcmd _) fun outcome => ?_
    cases outcome with
    | some proc => exact keeps_pure _
    | none => exact keeps_bind (unnoted_kept req _) fun _ => keeps_raise _
  · split
    · exact keeps_bind (keeps_lift _) fun text => keeps_raise _
    · exact keeps_pure _

theorem compileWith_kept (l : Launch)
    {write : PyStr → Dirs → Comp PyExc (Self × (σ × List Step)) Unit}
    (hwrite : ∀ id dirs, Keeps (Kept req) (write id dirs)) {compileCmd : PyStr → List PyStr}
    (hcmd : ∀ id, isDockerRun (compileCmd id) = false) (message : Completed → Except PyExc PyStr) :
    Triple (Opening req) (compileWith (journalled h u).toHost l write compileCmd message)
      fun _ => Kept req := by
  refine launched_kept h u req l ?_
  rintro ⟨id, dirs⟩
  refine keeps_bind (hwrite id dirs) fun _ => ?_
  exact compileInContainer_kept h u req (hcmd id) message

theorem pythonCompile_kept :
    Triple (Opening req) (pythonCompile (journalled h u).toHost code functionName)
      fun _ => Kept req := by
  refine triple_lift_bind (fun _ => ?_) fun e s hs => hs.2
  refine launched_kept h u req pythonLaunch ?_
  rintro ⟨id, dirs⟩
  exact keeps_bind (keeps_lift _) fun wrapped => writeFiles_kept h u req _ _

theorem javaScriptCompile_kept :
    Triple (Opening req) (javaScriptCompile (journalled h u).toHost code functionName)
      fun _ => Kept req := by
  refine launched_kept h u req javaScriptLaunch ?_
  rintro ⟨id, dirs⟩
  refine keeps_bind (keeps_lift _) fun wrapped => ?_
  refine keeps_bind (writeFiles_kept h u req _ _) fun _ => ?_
  refine keeps_bind (communicate_kept h u req (isDockerRun_exec _)) fun check => ?_
  split
  · exact keeps_raise _
  · exact keeps_pure _

/-- `TypeScriptExecutor.compile` also cleans up; the books are kept all the same. -/
theorem typeScriptCompile_kept :
    Triple (Opening req) (typeScriptCompile (journalled h u).toHost code functionName)
      fun _ => Kept req := by
  have hclean : Keeps (Kept req) (cleanup (journalled h u).toHost typeScriptLaunch.image) :=
    triple_mono (cleanup_kept h u req _) (fun s hs => hs) fun r s hs => hs.1
  refine launched_kept h u req typeScriptLaunch ?_
  rintro ⟨id, dirs⟩
  refine keeps_bind (keeps_lift _) fun wrapped => ?_
  refine keeps_bind (writeFiles_kept h u req _ _) fun _ => ?_
  refine keeps_bind (compileSemaphore_kept h u req ?_) fun proc => ?_
  · refine keeps_bind (communicateWithin_kept h u req (isDockerRun_exec _) _) fun outcome => ?_
    cases outcome with
    | some proc => exact keeps_pure _
    | none =>
      refine keeps_bind (unnoted_kept req _) fun _ => ?_
      exact keeps_bind hclean fun _ => keeps_raise _
  have hcheck : Keeps (Kept req) (do
      let check ← ((journalled h u).communicate
        ["docker", "exec", id, "test", "-f", "main.js"]).onSecond
      if check.returncode ≠ 0 then
        cleanup (journalled h u).toHost typeScriptLaunch.image
        .raise (.compileError "Compilation failed: main.js not generated") :
        Comp PyExc (Self × (σ × List Step)) Unit) := by
    refine keeps_bind (communicate_kept h u req (isDockerRun_exec _)) fun check => ?_
    split
    · exact keeps_bind hclean fun _ => keeps_raise _
    · exact keeps_pure _
  dsimp only
  split
  · refine keeps_bind (keeps_lift _) fun message => ?_
    exact keeps_bind hclean fun _ => keeps_bind (keeps_raise _) fun _ => hcheck
  · exact hcheck

theorem writeWrapped_kept (language : Language) (name : PyStr) (dirs : Dirs) :
    Keeps (Kept req) (writeWrapped (journalled h u).toHost code functionName language name dirs) :=
  keeps_bind (keeps_lift _) fun _ => writeFiles_kept h u req _ _

theorem goCompile_kept :
    Triple (Opening req) (goCompile (journalled h u).toHost code functionName)
      fun _ => Kept req := by
  unfold goCompile
  exact compileWith_kept h u req goLaunch (fun _ dirs => writeWrapped_kept h u req _ _ _ _ dirs)
    (fun id => isDockerRun_exec _) _

theorem kotlinCompile_kept :
    Triple (Opening req) (kotlinCompile (journalled h u).toHost code functionName)
      fun _ => Kept req := by
  unfold kotlinCompile
  exact compileWith_kept h u req kotlinLaunch (fun _ dirs => writeWrapped_kept h u req _ _ _ _ dirs)
    (fun id => isDockerRun_exec _) _

theorem javaCompile_kept :
    Triple (Opening req) (javaCompile (journalled h u).toHost code functionName)
      fun _ => Kept req := by
  unfold javaCompile
  exact compileWith_kept h u req javaLaunch (fun _ dirs => writeWrapped_kept h u req _ _ _ _ dirs)
    (fun id => isDockerRun_exec _) _

theorem cCompile_kept :
    Triple (Opening req) (cCompile (journalled h u).toHost code functionName)
      fun _ => Kept req := by
  unfold cCompile
  refine compileWith_kept h u req cLaunch (fun id dirs => ?_) (fun id => isDockerRun_exec _) _
  exact keeps_bind (keeps_lift _) fun _ => writeFiles_kept h u req _ _

theorem cppCompile_kept :
    Triple (Opening req) (cppCompile (journalled h u).toHost code functionName)
      fun _ => Kept req := by
  unfold cppCompile
  refine compileWith_kept h u req cppLaunch (fun id dirs => ?_) (fun id => isDockerRun_exec _) _
  exact keeps_bind (keeps_lift _) fun _ => writeFiles_kept h u req _ _

theorem rustCompile_kept :
    Triple (Opening req) (rustCompile (journalled h u).toHost code functionName)
      fun _ => Kept req := by
  unfold rustCompile
  refine compileWith_kept h u req rustLaunch (fun id dirs => ?_) (fun id => isDockerRun_exec _) _
  refine keeps_bind (keeps_lift _) fun _ => ?_
  refine keeps_bind (unnoted_kept req _) fun _ => ?_
  refine keeps_bind (writeFiles_kept h u req _ _) fun _ => ?_
  refine keeps_bind (writeFiles_kept h u req _ _) fun _ => ?_
  exact keeps_bind (unnoted_kept req _) fun _ => writeFiles_kept h u req _ _

theorem csharpCompile_kept :
    Triple (Opening req) (csharpCompile (journalled h u).toHost code functionName)
      fun _ => Kept req := by
  unfold csharpCompile
  refine compileWith_kept h u req csharpLaunch (fun id dirs => ?_) (fun id => isDockerRun_exec _) _
  refine keeps_bind (unnoted_kept req _) fun _ => ?_
  refine keeps_bind (communicate_kept h u req (isDockerRun_exec _)) fun _ => ?_
  exact keeps_bind (keeps_lift _) fun _ => writeFiles_kept h u req _ _

/-- Every executor keeps the books in `compile`. -/
theorem compile_kept (language : Language) :
    Triple (Opening req)
      (getExecutor (journalled h u).toHost code functionName language).compile
      fun _ => Kept req := by
  cases language with
  | python => exact pythonCompile_kept h u req code functionName
  | javascript => exact javaScriptCompile_kept h u req code functionName
  | typescript => exact typeScriptCompile_kept h u req code functionName
  | java => exact javaCompile_kept h u req code functionName
  | kotlin => exact kotlinCompile_kept h u req code functionName
  | csharp => exact csharpCompile_kept h u req code functionName
  | cpp => exact cppCompile_kept h u req code functionName
  | go => exact goCompile_kept h u req code functionName
  | c => exact cCompile_kept h u req code functionName
  | rust => exact rustCompile_kept h u req code functionName

theorem run_kept (language : Language) (input : Dict) :
    Keeps (Kept req)
      ((getExecutor (journalled h u).toHost code functionName language).run input) := by
  cases language <;> exact runWith_kept h u req _ _

theorem runBatch_kept (language : Language)
    (runBatch : List TestCase → Comp PyExc (Self × (σ × List Step)) (List RunValue))
    (hbatch : (getExecutor (journalled h u).toHost code functionName language).runBatch =
      some runBatch) (testCases : List TestCase) :
    Keeps (Kept req) (runBatch testCases) := by
  cases language with
  | java | c =>
    cases hbatch
    exact runBatchWith_kept h u req _ _ _
  | _ => cases hbatch

/-- The executor cleans up by `cleanup` with its own image. -/
theorem executor_cleanup_kept (language : Language) :
    Triple (Kept req) (getExecutor (journalled h u).toHost code functionName language).cleanup
      fun _ s => Kept req s ∧ inHand s.1 = [] := by
  cases language <;> exact cleanup_kept h u req _

/-- A judge run ends with nothing in hand. -/
theorem judge_balanced (outputsMatch : Json → Json → Except PyExc Bool) (s : σ) :
    (account (.judge req)).Balanced (steps outputsMatch h u (.judge req) s) [] [] := by
  have hrun := execute_triple outputsMatch
    (getExecutor (journalled h u).toHost req.sourceCode req.functionName req.language) req
    (compile_kept h u req _ _ _) (run_kept h u req _ _ _) (runBatch_kept h u req _ _ _)
    (executor_cleanup_kept h u req _ _ _)
  have hopening : Opening req (Self.fresh, ((s, []) : σ × List Step)) :=
    ⟨rfl, Account.balanced_nil⟩
  obtain ⟨hkept, hheld⟩ := hrun _ hopening
  rw [Kept, hheld] at hkept
  rw [steps, executePipeline, map_state]
  exact hkept

variable (rawReq : RawRequest)

/-- The books of a raw run, beside the state of the host. -/
abbrev RawBooks (held : List Resource) : σ × List Step → Prop :=
  Logged fun log => (account (.raw rawReq)).Balanced log held []

/-- What a raw run has in hand after `mkdtemp`. -/
def madeDir : Except PyExc PyStr → List Resource
  | .ok path => [.dir path]
  | .error _ => []

theorem mkdtemp_raw (root : PyStr) :
    Triple (RawBooks rawReq []) ((journalled h u).mkdtemp root)
      fun r => RawBooks rawReq (madeDir r) := by
  change Triple _ ((h.mkdtemp root).noted fun _ out => Step.mkdtemp out) _
  refine triple_noted fun s r log hlog => ?_
  cases r with
  | error e => exact hlog.quiet rfl rfl rfl rfl
  | ok path => exact hlog.move rfl (by simp [madeDir]) (by simp)

/-- A program that cannot be written leaves the directory behind. -/
theorem writeFile_raw (path content tempDir : PyStr) :
    Triple (RawBooks rawReq [.dir tempDir]) ((journalled h u).writeFile path content)
      fun r => RawBooks rawReq (if succeeded r then [.dir tempDir] else []) := by
  change Triple _ ((h.writeFile path content).noted fun _ out => Step.write out) _
  refine triple_noted fun s r log hlog => ?_
  cases r with
  | error e => exact hlog.lose rfl [.dir tempDir] (by simp) (by simp [succeeded]) (by simp)
  | ok a => exact hlog.quiet rfl rfl rfl rfl

theorem rmtree_raw (path : PyStr) :
    Triple (RawBooks rawReq [.dir path]) ((journalled h u).rmtree path)
      fun _ => RawBooks rawReq [] := by
  change Triple _ ((h.rmtree path).noted fun s _ => Step.rmtree path (u.removes path s)) _
  refine triple_noted fun s r log hlog => ?_
  rcases hu : u.removes path s with _ | _
  · exact hlog.lose rfl [.dir path] (by simp) (by simp) (by simp)
  · exact hlog.move rfl (by simp) (by simp)

/-- The container of a client, if there is one. -/
def attachedTo (client : ℕ) : List Resource := (u.attached client).toList.map .container

/-- The input cannot be encoded. -/
def unencodable : Bool := rawReq.stdin.truthy && !Api.encodable rawReq.stdin

/-- What a raw run has in hand beside its directory after the client was started: the
container of the client, unless the input cannot be encoded. -/
def clientOf : Except PyExc ℕ → List Resource
  | .ok client => if unencodable rawReq then [] else attachedTo u client
  | .error _ => []

theorem spawn_raw (cmd : List PyStr) (tempDir : PyStr) :
    Triple (RawBooks rawReq [.dir tempDir]) ((journalled h u).spawn cmd)
      fun r => RawBooks rawReq (clientOf u rawReq r ++ [.dir tempDir]) := by
  change Triple _ ((h.spawn cmd).noted fun s out => Step.spawn out (match out with
    | .ok client => u.attached client
    | .error _ => u.starts cmd s)) _
  refine triple_noted fun s r log hlog => ?_
  cases r with
  | error e =>
    rcases hu : u.starts cmd s with _ | id
    · exact hlog.quiet rfl rfl rfl rfl
    · refine hlog.lose rfl [.container id] (by simp) ?_ (by simp)
      simp [clientOf, add_comm]
  | ok client =>
    change (account (.raw rawReq)).Balanced
      (log ++ [Step.spawn (.ok client) (u.attached client)]) _ []
    rcases hu : u.attached client with _ | id
    · exact hlog.move rfl (by simp [clientOf, attachedTo, hu]) (by simp)
    · rcases hbad : unencodable rawReq with _ | _
      · refine hlog.move hbad ?_ (by simp)
        simp [clientOf, attachedTo, hu, hbad, List.count_cons, add_comm]
      · refine hlog.lose hbad [.container id] (by simp) ?_ (by simp)
        simp [clientOf, hbad, add_comm]

/-- A client that ends by itself takes its container with it; any other is left running. -/
theorem communicateWith_raw (client : ℕ) (input : Option PyStr) (timeout : ℤ) (tempDir : PyStr) :
    Triple (RawBooks rawReq (attachedTo u client ++ [.dir tempDir]))
      ((journalled h u).communicateWith client input timeout)
      fun _ => RawBooks rawReq [.dir tempDir] := by
  change Triple _ ((h.communicateWith client input timeout).noted fun _ out =>
    Step.client (u.attached client) out) _
  refine triple_noted fun s r log hlog => ?_
  rcases hu : u.attached client with _ | id
  · have hlog' : (account (.raw rawReq)).Balanced log [.dir tempDir] [] := by
      simpa [attachedTo, hu] using hlog
    refine hlog'.move ?_ ?_ (by simp)
    · rcases r with e | _ | proc <;> rfl
    · rcases r with e | _ | proc <;> simp
  · have hlog' : (account (.raw rawReq)).Balanced log [.container id, .dir tempDir] [] := by
      simpa [attachedTo, hu] using hlog
    rcases r with e | _ | proc
    · exact hlog'.lose rfl [.container id] (by simp) (by simp [List.count_cons]) (by simp)
    · exact hlog'.lose rfl [.container id] (by simp) (by simp [List.count_cons]) (by simp)
    · refine hlog'.move rfl ?_ (by simp)
      simp [List.count_cons, add_comm]

theorem encodeStdin_unencodable (hbad : unencodable rawReq = true) :
    ∃ e, encodeStdin rawReq.stdin = .error e := by
  simp only [unencodable, Bool.and_eq_true, Bool.not_eq_true'] at hbad
  refine ⟨.valueError "'utf-8' codec can't encode characters: surrogates not allowed", ?_⟩
  simp [encodeStdin, hbad.1, hbad.2]

theorem encodeStdin_encodable (hgood : unencodable rawReq = false) :
    ∃ input, encodeStdin rawReq.stdin = .ok input := by
  by_cases hempty : rawReq.stdin.truthy = true
  · have henc : Api.encodable rawReq.stdin = true := by simpa [unencodable, hempty] using hgood
    exact ⟨some rawReq.stdin, by simp [encodeStdin, hempty, henc]⟩
  · exact ⟨none, by simp [encodeStdin, hempty]⟩

/-- What follows the start of the process. -/
theorem attached_raw (client : ℕ) (input : Option PyStr) (tempDir : PyStr) :
    Triple (RawBooks rawReq (attachedTo u client ++ [.dir tempDir])) (do
      match ← (journalled h u).communicateWith client input 30 with
      | none =>
        (journalled h u).killProcess
        pure ⟨[], "Execution timed out", 124⟩
      | some proc =>
        pure ⟨(decodeReplace proc.stdout).take 10000, (decodeReplace proc.stderr).take 10000,
          proc.returncode⟩ : Comp PyExc (σ × List Step) RawResult)
      fun _ => RawBooks rawReq [.dir tempDir] := by
  refine triple_bind_keeps (communicateWith_raw h u rawReq client input 30 tempDir) ?_
  intro outcome
  cases outcome with
  | none => exact keeps_bind keeps_unnoted fun _ => keeps_pure _
  | some proc => exact keeps_pure _

/-- The `try` block keeps the directory in hand, however it ends. -/
theorem runAttached_raw (cmd : List PyStr) (tempDir : PyStr) :
    Keeps (RawBooks rawReq [.dir tempDir]) (runAttached (journalled h u) rawReq cmd) := by
  refine triple_bind (spawn_raw h u rawReq cmd tempDir) ?_ fun e t ht => ht
  intro client
  rcases hbad : unencodable rawReq with _ | _
  · have hclient : clientOf u rawReq (.ok client) = attachedTo u client := by
      simp [clientOf, hbad]
    rw [hclient]
    obtain ⟨input, hinput⟩ := encodeStdin_encodable rawReq hbad
    rw [hinput]
    exact attached_raw h u rawReq client input tempDir
  · obtain ⟨e, he⟩ := encodeStdin_unencodable rawReq hbad
    have hclient : clientOf u rawReq (.ok client) = [] := by
      simp [clientOf, hbad]
    rw [hclient, he]
    exact fun t ht => ht

/-- A raw run ends with nothing in hand. -/
theorem raw_balanced (outputsMatch : Json → Json → Except PyExc Bool) (s : σ) :
    (account (.raw rawReq)).Balanced (steps outputsMatch h u (.raw rawReq) s) [] [] := by
  have hrun : Triple (RawBooks rawReq []) (executeRaw (journalled h u) rawReq)
      fun _ => RawBooks rawReq [] := by
    refine triple_lift_bind (fun roots => ?_) fun e t ht => ht
    refine triple_bind (mkdtemp_raw h u rawReq roots.1) ?_ fun e t ht => ht
    intro tempDir
    refine triple_bind (writeFile_raw h u rawReq _ _ tempDir) ?_ fun e t ht => ht
    intro _
    refine triple_finallyDo (runAttached_raw h u rawReq _ tempDir) fun r t ht => ?_
    have hend := rmtree_raw h u rawReq tempDir t ht
    exact ⟨fun _ _ => hend, fun _ => hend⟩
  have hend := hrun ((s, []) : σ × List Step) Account.balanced_nil
  rw [steps, executePipeline, map_state]
  exact hend

end

/-- For every host and every outcome of its commands: a run of the pipeline leaks no
directory and no container exactly when none of its steps strands something. -/
theorem no_leak_iff {σ : Type} (outputsMatch : Json → Json → Except PyExc Bool)
    (h : RawHost σ) (u : Unseen σ) (req : PipelineRequest) (s : σ) :
    NoLeak (steps outputsMatch h u req s) ↔
      ∀ k ∈ steps outputsMatch h u req s, k.strands req = false := by
  cases req with
  | judge req => exact noLeak_iff_of_balanced (judge_balanced h u req outputsMatch s)
  | raw req => exact noLeak_iff_of_balanced (raw_balanced h u req outputsMatch s)

/-- A host on which `docker run` ends with code 125 and a raw program does not end. -/
def brokenDocker : RawHost Unit :=
  { Fallback.calmServer.toHost with
    communicate := fun _ => pure ⟨125, [], []⟩
    communicateWithin := fun _ _ => pure (some ⟨125, [], []⟩)
    spawn := fun _ => pure 7
    communicateWith := fun _ _ _ => pure none }

/-- Nothing is hidden, and the client with process id 7 has started the container `c7`. -/
def candid : Unseen Unit where
  popped := fun _ _ => none
  pushed := fun _ _ => false
  stopped := fun _ _ => true
  removes := fun _ _ => true
  starts := fun _ _ => none
  attached := fun client => if client = 7 then some "c7" else none

/-- A program that is not read. -/
def rawRequest : RawRequest where
  language := .python
  sourceCode := "while True: pass"
  stdin := []
  args := []
  sourceCode_length := by decide
  stdin_length := by decide
  args_length := by decide

/-- A container that does not start leaves the directory made for it, and a raw program
that exceeds its 30 seconds leaves its container. -/
theorem directory_and_container_leak :
    (¬ NoLeak (steps PipelineOutcome.sameInt brokenDocker candid
        (.judge (PipelineOutcome.requestFor [.int 1] (by decide))) ())) ∧
      ¬ NoLeak (steps PipelineOutcome.sameInt brokenDocker candid (.raw rawRequest) ()) := by
  constructor
  · intro hleak
    have hdir := hleak.settled (.dir "/sandbox/tmp1")
    revert hdir
    decide
  · intro hleak
    have hcontainer := hleak.settled (.container "c7")
    revert hcontainer
    decide

end ExecutionEngine.ResourceLeaks
