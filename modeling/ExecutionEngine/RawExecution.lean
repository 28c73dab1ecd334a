import ExecutionEngine.Api

/-!
# Raw executions

`ExecutionPipeline._execute_raw` runs a program as it is, in a container of its own
that is attached to the client: no pool, no wrapper, no test cases. The directory is
made before the `try` block and removed in its `finally` part. The client is given
30 seconds, and on timeout it is the client that is killed.
-/
namespace ExecutionEngine.RawExecution
open Effect Pipeline SandboxHost

/-- `RawExecuteRequest` after validation. -/
structure RawRequest where
  language : Language
  sourceCode : PyStr
  stdin : PyStr
  args : List PyStr
  sourceCode_length : 1 ≤ sourceCode.length ∧ sourceCode.length ≤ 50000
  stdin_length : stdin.length ≤ 10000
  args_length : args.length ≤ 100

/-- The dict that `_execute_raw` returns. -/
structure RawResult where
  stdout : PyStr
  stderr : PyStr
  exitCode : ℤ

/-- An element of `_LANG_CONFIG`. -/
structure LangConfig where
  image : PyStr
  ext : PyStr
  cmd : List PyStr

/-- A command that is run by a shell, with the arguments as its parameters. -/
def shell (image ext script : PyStr) : LangConfig := ⟨image, ext, ["sh", "-c", script, "sh"]⟩

/-- `_LANG_CONFIG` -/
def langConfig : Language → LangConfig
  | .python => ⟨"python-sandbox:latest", ".py", ["python3", "main.py"]⟩
  | .javascript => ⟨"js-sandbox:latest", ".js", ["node", "main.js"]⟩
  | .c => shell "cpp-sandbox:latest" ".c" "gcc -O2 main.c -o main && ./main \"$@\""
  | .cpp => shell "cpp-sandbox:latest" ".cpp" "g++ -O2 main.cpp -o main && ./main \"$@\""
  | .java => shell "java-sandbox:latest" ".java" "javac Main.java && java Main \"$@\""
  | .kotlin => shell "kotlin-sandbox:latest" ".kt"
      "kotlinc main.kt -include-runtime -d main.jar && java -jar main.jar \"$@\""
  | .go => shell "go-sandbox:latest" ".go" "go build -o main main.go && ./main \"$@\""
  | .rust => shell "rust-sandbox:latest" ".rs" "rustc main.rs -o main && ./main \"$@\""
  | .typescript => shell "js-sandbox:latest" ".ts" "tsc main.ts && node main.js \"$@\""
  | .csharp => shell "csharp-sandbox:latest" ".cs"
      ("echo '<Project Sdk=\"Microsoft.NET.Sdk\"><PropertyGroup><OutputType>Exe</OutputType>" ++
        "<TargetFramework>net8.0</TargetFramework><ImplicitUsings>enable</ImplicitUsings>" ++
        "<Nullable>disable</Nullable></PropertyGroup></Project>' > main.csproj && " ++
        "dotnet run -- \"$@\"" : String)

/-- `file_name` -/
def rawFileName : Language → PyStr
  | .java => "Main.java"
  | language => ("main" : PyStr) ++ (langConfig language).ext

/-- `run_cmd` -/
def rawRunCmd (limits : Limits) (req : RawRequest) (hostTempDir : PyStr) : List PyStr :=
  ([
    "docker", "run", "-i", "--rm",
    "--memory", limits.memory,
    "--memory-swap", limits.memorySwap,
    "--cpus", limits.cpus,
    "--pids-limit", limits.pids,
    "--ulimit", ("nofile=" : PyStr) ++ limits.nofile ++ (":" : PyStr) ++ limits.nofile,
    "--network", "none",
    "--cap-drop", "ALL",
    "--security-opt", "no-new-privileges",
    "-v", hostTempDir ++ (":/app" : PyStr),
    "-w", "/app",
    (langConfig req.language).image
  ] : List PyStr) ++ (langConfig req.language).cmd ++ req.args

/-- A host that can start a client with a pipe to its standard input. A client is
known by its process id. `communicateWith` gives `none` for a client that has not
ended in time. -/
structure RawHost (σ : Type) extends Host σ where
  spawn : List PyStr → Comp PyExc σ ℕ
  communicateWith : ℕ → Option PyStr → ℤ → Comp PyExc σ (Option Completed)

/-- `stdin.encode('utf-8') if stdin else None`. The input is kept as text. -/
def encodeStdin (stdin : PyStr) : Except PyExc (Option PyStr) :=
  if !stdin.truthy then .ok none
  else if Api.encodable stdin then .ok (some stdin)
  else .error (.valueError "'utf-8' codec can't encode characters: surrogates not allowed")

section
variable {σ : Type} (h : RawHost σ) (req : RawRequest)

/-- The body of the `try` block. -/
def runAttached (runCmd : List PyStr) : Comp PyExc σ RawResult := do
  let client ← h.spawn runCmd
  let input ← .lift (encodeStdin req.stdin)
  match ← h.communicateWith client input 30 with
  | none =>
    h.killProcess
    pure ⟨[], "Execution timed out", 124⟩
  | some proc =>
    pure ⟨(decodeReplace proc.stdout).take 10000, (decodeReplace proc.stderr).take 10000,
      proc.returncode⟩

/-- `_execute_raw` -/
def executeRaw : Comp PyExc σ RawResult := do
  let (containerRoot, hostRoot) ← .lift (getSandboxRoots h.environ)
  let tempDir ← h.mkdtemp containerRoot
  let hostTempDir := buildHostTempDir hostRoot tempDir
  h.writeFile (joinPath tempDir (rawFileName req.language)) req.sourceCode
  (runAttached h req (rawRunCmd h.limits req hostTempDir)).finallyDo (h.rmtree tempDir)

end

/-- The dict given to `ExecutionPipeline`, which may set `is_raw`. -/
inductive PipelineRequest
  | judge (req : Request)
  | raw (req : RawRequest)

/-- `ExecutionPipeline.execute` -/
def executePipeline {σ : Type} (outputsMatch : Json → Json → Except PyExc Bool) (h : RawHost σ) :
    PipelineRequest → Comp PyExc σ (Verdict ⊕ RawResult)
  | .judge req => .inl <$> Api.pipelineExecute outputsMatch h.toHost req
  | .raw req => .inr <$> executeRaw h req

end ExecutionEngine.RawExecution
