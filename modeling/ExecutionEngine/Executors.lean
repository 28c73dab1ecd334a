import ExecutionEngine.SandboxHost

/-!
# The executors of `languages/`

All ten executors find the sandbox roots, take a container from the pool or start
one, write the wrapped submission into its directory and compile it there. They
differ in the image, the messages, the files and the commands, and in a few turns
of their own: Python checks the syntax before anything else and compiles nothing,
JavaScript checks the syntax in the container without a semaphore, and TypeScript
cleans up inside `compile` before it reports an error. C and Java can run all test
cases in one process.
-/
namespace ExecutionEngine.Executors
open Effect Pipeline Process SandboxHost

/-- How an executor starts a container: the arguments of `docker run` in which the
languages differ, the message of a start that is given 30 seconds, if it is
limited, and the message of a start that fails. -/
structure Launch where
  image : PyStr
  memorySwap : Limits → PyStr
  cpus : Limits → PyStr
  workdir : PyStr
  hungMessage : Option PyStr
  failedMessage : Completed → Except PyExc PyStr

/-- A start without a time limit, with the same message for every failure. -/
def plainLaunch (image failed : PyStr) : Launch where
  image := image
  memorySwap := Limits.memorySwap
  cpus := Limits.cpus
  workdir := "/app"
  hungMessage := none
  failedMessage := fun _ => .ok failed

/-- `run_cmd` -/
def runCmd (limits : Limits) (l : Launch) (hostTempDir : PyStr) : List PyStr :=
  ([
    "docker", "run", "-d", "--rm",
    "--memory", limits.memory,
    "--memory-swap", l.memorySwap limits,
    "--cpus", l.cpus limits,
    "--pids-limit", limits.pids,
    "--ulimit", ("nofile=" : PyStr) ++ limits.nofile ++ (":" : PyStr) ++ limits.nofile,
    "--network", "none",
    "--cap-drop", "ALL",
    "--security-opt", "no-new-privileges",
    "-v", hostTempDir ++ (":/app" : PyStr),
    "-w", l.workdir,
    l.image
  ] : List PyStr) ++ limits.sleepCmd

section
variable {σ : Type} (h : Host σ)

/-- The body of `docker_run_semaphore`. -/
def dockerRun (l : Launch) (hostTempDir : PyStr) : Comp PyExc (Self × σ) Completed :=
  match l.hungMessage with
  | none => (h.communicate (runCmd h.limits l hostTempDir)).onSecond
  | some hung => do
    match ← (h.communicateWithin (runCmd h.limits l hostTempDir) 30).onSecond with
    | some proc => pure proc
    | none =>
      h.killProcess.onSecond
      .raise (.runtimeExecution hung none)

/-- The part of `compile` that finds a container. -/
def launch (l : Launch) (roots : PyStr × PyStr) : Comp PyExc (Self × σ) (PyStr × Dirs) := do
  match ← (acquire h l.image (h.patience + 1)).onSecond with
  | some warm =>
    setSelf (.started warm.containerId warm.dirs)
    pure (warm.containerId, warm.dirs)
  | none =>
    let tempDir ← (h.mkdtemp roots.1).onSecond
    let dirs : Dirs := ⟨tempDir, buildHostTempDir roots.2 tempDir⟩
    setSelf (.placed dirs)
    let proc ← dockerRunSemaphore h (dockerRun h l dirs.hostTempDir)
    if proc.returncode ≠ 0 then
      let message ← .lift (l.failedMessage proc)
      .raise (.runtimeExecution message none)
    let stdout ← .lift (decode proc.stdout)
    setSelf (.started stdout.strip dirs)
    pure (stdout.strip, dirs)

/-- Write files of the submission into its directory. -/
def writeFiles (dir : PyStr) : List (PyStr × PyStr) → Comp PyExc (Self × σ) Unit
  | [] => pure ()
  | (name, content) :: rest => do
    (h.writeFile (joinPath dir name) content).onSecond
    writeFiles dir rest

/-- The compiler call of an executor. -/
def compileInContainer (compileCmd : List PyStr) (message : Completed → Except PyExc PyStr) :
    Comp PyExc (Self × σ) Unit := do
  let proc ← compileSemaphore h do
    match ← (h.communicateWithin compileCmd h.limits.compilationTimeout).onSecond with
    | some proc => pure proc
    | none =>
      h.killProcess.onSecond
      .raise (.compileError "Compilation timed out")
  if proc.returncode ≠ 0 then
    let text ← .lift (message proc)
    .raise (.compileError text)

/-- `stderr.decode().strip() or "Compilation failed"` -/
def strippedStderr (proc : Completed) : Except PyExc PyStr := do
  pure ((← decode proc.stderr).strip.orElse "Compilation failed")

/-- `cleanup`, the same for every executor. A container without an id is left alone. -/
def cleanup (image : PyStr) : Comp PyExc (Self × σ) Unit := do
  match ← getSelf with
  | .started containerId dirs =>
    if containerId.truthy then
      setSelf .fresh
      (release h image containerId dirs).onSecond
  | _ => pure ()

/-- The container of `run` and `run_batch`. -/
def initialized : Comp PyExc (Self × σ) PyStr := do
  match ← getSelf with
  | .started containerId _ =>
    if containerId.truthy then pure containerId
    else .raise (.runtimeExecution "Container not initialized" none)
  | _ => .raise (.runtimeExecution "Container not initialized" none)

/-- `run`: the command and the document on its standard input. -/
def runWith (execCmd : PyStr → List PyStr) (payload : Json) : Comp PyExc (Self × σ) RunValue := do
  let containerId ← initialized
  let run ← (h.runInSandbox (execCmd containerId) payload h.limits.executionTimeout).onSecond
  .lift (runWrapper h.str run)

/-- `run_batch` -/
def runBatchWith (execCmd : PyStr → List PyStr) (payload : Json) (count : ℕ) :
    Comp PyExc (Self × σ) (List RunValue) := do
  let containerId ← initialized
  let timeout := max h.limits.executionTimeout (h.limits.executionTimeout * count)
  let run ← (h.runInSandbox (execCmd containerId) payload timeout).onSecond
  .lift (runBatchWrapper h.str count run)

end

def keysOf (input : Dict) : Json := .arr (input.map fun item => .str item.1)

def valuesOf (input : Dict) : Json := .arr (input.map Prod.snd)

/-- The document with the function name and the input. -/
def namedInput (functionName : PyStr) (input : Dict) : Json :=
  .obj [("function_name", .str functionName), ("input", .obj input)]

/-- The document with the keys and the values of the input. -/
def keyedInput (input : Dict) : Json := .obj [("keys", keysOf input), ("values", valuesOf input)]

section
variable {σ : Type} (h : Host σ) (code functionName : PyStr)

def pythonLaunch : Launch :=
  { plainLaunch "python-sandbox:latest" "Failed to start execution container" with
    hungMessage := some "Docker daemon timed out while starting the container" }

/-- The built-in `compile`, with a `SyntaxError` as `CompileError`. -/
def checkSyntax : Except PyExc Unit :=
  match h.pyCompile code with
  | .passed => .ok ()
  | .syntaxError message => .error (.compileError message)
  | .valueError message => .error (.valueError message)
  | .otherException name message => .error (.other name message)

/-- `PythonExecutor.compile` -/
def pythonCompile : Comp PyExc (Self × σ) Unit := do
  .lift (checkSyntax h code)
  let roots ← .lift (getSandboxRoots h.environ)
  let (_, dirs) ← launch h pythonLaunch roots
  let wrapped ← .lift (h.wrap .python code functionName)
  writeFiles h dirs.tempDir [("main.py", wrapped)]

/-- `PythonExecutor` -/
def pythonExecutor : Executor (Self × σ) where
  compile := pythonCompile h code functionName
  run := fun input => runWith h (fun id => ["docker", "exec", "-i", id, "python3", "main.py"])
    (namedInput functionName input)
  runBatch := none
  cleanup := cleanup h pythonLaunch.image

def javaScriptLaunch : Launch :=
  plainLaunch "js-sandbox:latest" "Failed to start execution container"

/-- `JavaScriptExecutor.compile` -/
def javaScriptCompile : Comp PyExc (Self × σ) Unit := do
  let roots ← .lift (getSandboxRoots h.environ)
  let (id, dirs) ← launch h javaScriptLaunch roots
  let wrapped ← .lift (h.wrap .javascript code functionName)
  writeFiles h dirs.tempDir [("main.js", wrapped)]
  let check ← (h.communicate ["docker", "exec", id, "node", "--check", "main.js"]).onSecond
  if check.returncode ≠ 0 then
    .raise (.compileError (((decodeReplace check.stderr).strip.take 1000).orElse "Syntax error"))

/-- `JavaScriptExecutor` -/
def javaScriptExecutor : Executor (Self × σ) where
  compile := javaScriptCompile h code functionName
  run := fun input => runWith h (fun id => ["docker", "exec", "-i", id, "node", "main.js"])
    (namedInput functionName input)
  runBatch := none
  cleanup := cleanup h javaScriptLaunch.image

def typeScriptLaunch : Launch :=
  { plainLaunch "js-sandbox:latest" "Failed to start execution container" with
    memorySwap := fun _ => "1024m"
    cpus := Limits.tsCpus }

/-- The message of a failed `tsc`. -/
def tscMessage (limits : Limits) (proc : Completed) : Except PyExc PyStr := do
  let stderr ← decode proc.stderr
  let text ← if stderr.truthy then pure stderr else decode proc.stdout
  let message := text.strip
  pure (if (message.length : ℤ) > limits.maxCompileErrorBytes then
    message.sliceTo limits.maxCompileErrorBytes else message)

/-- `TypeScriptExecutor.compile` -/
def typeScriptCompile : Comp PyExc (Self × σ) Unit := do
  let roots ← .lift (getSandboxRoots h.environ)
  let (id, dirs) ← launch h typeScriptLaunch roots
  let wrapped ← .lift (h.wrap .typescript code functionName)
  writeFiles h dirs.tempDir [("main.ts", wrapped)]
  let compileCmd : List PyStr := ["docker", "exec", id, "tsc", "main.ts", "--target", "ES2020",
    "--module", "commonjs", "--lib", "ES2020", "--skipLibCheck"]
  let proc ← compileSemaphore h do
    match ← (h.communicateWithin compileCmd h.limits.tsCompileTimeout).onSecond with
    | some proc => pure proc
    | none =>
      h.killProcess.onSecond
      cleanup h typeScriptLaunch.image
      .raise (.compileError "Compilation timed out")
  if proc.returncode ≠ 0 then
    let message ← .lift (tscMessage h.limits proc)
    cleanup h typeScriptLaunch.image
    .raise (.compileError (message.orElse "TypeScript compilation failed"))
  let check ← (h.communicate ["docker", "exec", id, "test", "-f", "main.js"]).onSecond
  if check.returncode ≠ 0 then
    cleanup h typeScriptLaunch.image
    .raise (.compileError "Compilation failed: main.js not generated")

/-- `TypeScriptExecutor` -/
def typeScriptExecutor : Executor (Self × σ) where
  compile := typeScriptCompile h code functionName
  run := fun input => runWith h (fun id => ["docker", "exec", "-i", id, "node", "main.js"])
    (namedInput functionName input)
  runBatch := none
  cleanup := cleanup h typeScriptLaunch.image

/-- The `compile` of a compiled language: what it writes, the command and the message
of a failed compilation. -/
def compileWith (l : Launch) (write : PyStr → Dirs → Comp PyExc (Self × σ) Unit)
    (compileCmd : PyStr → List PyStr) (message : Completed → Except PyExc PyStr) :
    Comp PyExc (Self × σ) Unit := do
  let roots ← .lift (getSandboxRoots h.environ)
  let (id, dirs) ← launch h l roots
  write id dirs
  compileInContainer h (compileCmd id) message

/-- The wrapped submission as one file. -/
def writeWrapped (language : Language) (name : PyStr) (dirs : Dirs) :
    Comp PyExc (Self × σ) Unit := do
  let wrapped ← .lift (h.wrap language code functionName)
  writeFiles h dirs.tempDir [(name, wrapped)]

def goLaunch : Launch :=
  { plainLaunch "go-sandbox:latest" "Failed to start execution container" with
    hungMessage := some "Docker daemon timed out and hung while starting the container" }

/-- `GoExecutor.compile` -/
def goCompile : Comp PyExc (Self × σ) Unit :=
  compileWith h goLaunch (fun _ => writeWrapped h code functionName .go "main.go")
    (fun id => ["docker", "exec", "-e", "CGO_ENABLED=0", id,
      "go", "build", "-buildvcs=false", "-o", "main", "main.go"])
    strippedStderr

/-- `GoExecutor` -/
def goExecutor : Executor (Self × σ) where
  compile := goCompile h code functionName
  run := fun input => runWith h (fun id => ["docker", "exec", "-i", id, "./main"])
    (.obj [("function_name", .str functionName), ("input", .obj input), ("keys", keysOf input)])
  runBatch := none
  cleanup := cleanup h goLaunch.image

def kotlinLaunch : Launch :=
  { plainLaunch "kotlin-sandbox:latest" "Failed to start execution container" with
    failedMessage := fun proc => do
      pure ((← decode proc.stderr).strip.orElse "Failed to start execution container") }

/-- `KotlinExecutor.compile` -/
def kotlinCompile : Comp PyExc (Self × σ) Unit :=
  compileWith h kotlinLaunch (fun _ => writeWrapped h code functionName .kotlin "Main.kt")
    (fun id => ["docker", "exec", id, "kotlinc", "Main.kt", "-cp",
      ("/opt/libs/jackson-core.jar:/opt/libs/jackson-databind.jar:" ++
        "/opt/libs/jackson-annotations.jar" : String),
      "-d", ".", "-J-Xms64m", "-J-Xmx256m", "-J-XX:+UseSerialGC", "-J-XX:TieredStopAtLevel=1"])
    strippedStderr

/-- `KotlinExecutor` -/
def kotlinExecutor : Executor (Self × σ) where
  compile := kotlinCompile h code functionName
  run := fun input => runWith h (fun id => ["docker", "exec", "-i", id, "java", "-Xms16m",
      "-Xmx256m", "-Xss256m", "-XX:+UseSerialGC", "-XX:TieredStopAtLevel=1", "-cp",
      (".:/opt/kotlinc/lib/kotlin-stdlib.jar:/opt/libs/jackson-core.jar:" ++
        "/opt/libs/jackson-databind.jar:/opt/libs/jackson-annotations.jar" : String), "Main"])
    (namedInput functionName input)
  runBatch := none
  cleanup := cleanup h kotlinLaunch.image

def javaLaunch : Launch :=
  plainLaunch "java-sandbox:latest" "Failed to start execution container"

/-- `JavaExecutor.compile` -/
def javaCompile : Comp PyExc (Self × σ) Unit :=
  compileWith h javaLaunch (fun _ => writeWrapped h code functionName .java "Main.java")
    (fun id => ["docker", "exec", id, "javac", "-cp", ".:/opt/libs/*", "Main.java"])
    strippedStderr

/-- `_java_exec_cmd` -/
def javaExecCmd (id : PyStr) : List PyStr :=
  ["docker", "exec", "-i", id, "java", "-Xms16m", "-Xmx256m", "-Xss256m",
    "-XX:+UseSerialGC", "-XX:TieredStopAtLevel=1", "-cp", ".:/opt/libs/*", "Main"]

/-- `JavaExecutor` -/
def javaExecutor : Executor (Self × σ) where
  compile := javaCompile h code functionName
  run := fun input => runWith h javaExecCmd (namedInput functionName input)
  runBatch := some fun testCases => runBatchWith h javaExecCmd
    (.obj [("function_name", .str functionName),
      ("test_cases", .arr (testCases.map fun tc => .obj [("input", .obj tc.input)]))])
    testCases.length
  cleanup := cleanup h javaLaunch.image

def cLaunch : Launch := plainLaunch "cpp-sandbox:latest" "Failed to start container"

/-- `CExecutor.compile` -/
def cCompile : Comp PyExc (Self × σ) Unit :=
  compileWith h cLaunch
    (fun _ dirs => do
      let wrapped ← .lift (h.wrap .c code functionName)
      writeFiles h dirs.tempDir
        [("judge_prelude.h", h.cPrelude), ("user.c", code), ("solution.cpp", wrapped)])
    (fun id => ["docker", "exec", id, "sh", "-c",
      ("gcc -std=gnu17 -O2 -include judge_prelude.h -c user.c -o user.o" : PyStr) ++
        (" && g++ -std=c++20 -pipe " : PyStr) ++ h.limits.cppOptLevel ++
        (" solution.cpp user.o -o solution -lm" : PyStr)])
    (fun proc => .ok
      (((decodeReplace proc.stderr).strip.take 1000).orElse "Compilation failed"))

/-- `CExecutor` -/
def cExecutor : Executor (Self × σ) where
  compile := cCompile h code functionName
  run := fun input => runWith h (fun id => ["docker", "exec", "-i", id, "./solution"])
    (keyedInput input)
  runBatch := some fun testCases => runBatchWith h
    (fun id => ["docker", "exec", "-i", id, "./solution"])
    (.obj [("test_cases", .arr (testCases.map fun tc => keyedInput tc.input))])
    testCases.length
  cleanup := cleanup h cLaunch.image

/-- The wrapper of C++ and Rust, which must have no placeholder left. -/
def filledWrapper (language : Language) : Except PyExc PyStr := do
  let wrapped ← h.wrap language code functionName
  if PyStr.hasPart "__PLACEHOLDER__" wrapped || PyStr.hasPart "__FUNCTION_" wrapped then
    .error (.compileError "Wrapper placeholder replacement failed")
  else pure wrapped

def cppLaunch : Launch :=
  { plainLaunch "cpp-sandbox:latest" "Failed to start C++ container" with
    hungMessage := some "Docker daemon timed out and hung while starting the container" }

/-- `CppExecutor.compile` -/
def cppCompile : Comp PyExc (Self × σ) Unit :=
  compileWith h cppLaunch
    (fun _ dirs => do
      let wrapped ← .lift (filledWrapper h code functionName .cpp)
      writeFiles h dirs.tempDir [("solution.cpp", wrapped)])
    (fun id => ["docker", "exec", id, "g++", "solution.cpp", "-pipe", h.limits.cppOptLevel,
      "-std=c++20", "-o", "solution"])
    (fun proc => decode proc.stderr)

/-- `CppExecutor` -/
def cppExecutor : Executor (Self × σ) where
  compile := cppCompile h code functionName
  run := fun input => runWith h (fun id => ["docker", "exec", "-i", id, "./solution"])
    (keyedInput input)
  runBatch := none
  cleanup := cleanup h cppLaunch.image

def rustLaunch : Launch := plainLaunch "rust-sandbox:latest" "Failed to start Rust container"

def cargoToml : PyStr :=
  ("\n[package]\nname = \"runner\"\nversion = \"0.1.0\"\nedition = \"2021\"\n\n" ++
    "[dependencies]\nserde_json = \"1\"\n" : String)

def cargoConfig : PyStr :=
  ("[source.crates-io]\nreplace-with = \"vendored-sources\"\n\n" ++
    "[source.vendored-sources]\ndirectory = \"/opt/cache/runner/vendor\"\n" : String)

/-- `RustExecutor.compile` -/
def rustCompile : Comp PyExc (Self × σ) Unit :=
  compileWith h rustLaunch
    (fun _ dirs => do
      let wrapped ← .lift (filledWrapper h code functionName .rust)
      (h.makedirs (joinPath dirs.tempDir "src")).onSecond
      writeFiles h (joinPath dirs.tempDir "src") [("main.rs", wrapped)]
      writeFiles h dirs.tempDir [("Cargo.toml", cargoToml)]
      (h.makedirs (joinPath dirs.tempDir ".cargo")).onSecond
      writeFiles h (joinPath dirs.tempDir ".cargo") [("config.toml", cargoConfig)])
    (fun id => ["docker", "exec", id, "cargo", "build", "--release", "--offline",
      "--target-dir", "/opt/cache/runner/target"])
    (fun proc => do pure ((← decode proc.stderr).strip.take 1000))

/-- `RustExecutor` -/
def rustExecutor : Executor (Self × σ) where
  compile := rustCompile h code functionName
  run := fun input => runWith h
    (fun id => ["docker", "exec", "-i", id, "/opt/cache/runner/target/release/runner"])
    (keyedInput input)
  runBatch := none
  cleanup := cleanup h rustLaunch.image

def csharpLaunch : Launch :=
  { plainLaunch "csharp-sandbox:latest" "Failed to start execution container" with
    workdir := "/app/SandboxApp" }

def csprojContent : PyStr :=
  ("<Project Sdk=\"Microsoft.NET.Sdk\">\n  <PropertyGroup>\n    <OutputType>Exe</OutputType>\n" ++
    "    <TargetFramework>net8.0</TargetFramework>\n" ++
    "    <ImplicitUsings>enable</ImplicitUsings>\n    <Nullable>disable</Nullable>\n" ++
    "  </PropertyGroup>\n</Project>\n" : String)

/-- The message of a failed `dotnet build`, which writes its errors to stdout. -/
def dotnetMessage (proc : Completed) : Except PyExc PyStr := do
  let stdout := (← decode proc.stdout).strip
  if stdout.truthy then pure stdout else strippedStderr proc

/-- `CSharpExecutor.compile` -/
def csharpCompile : Comp PyExc (Self × σ) Unit :=
  compileWith h csharpLaunch
    (fun id dirs => do
      let projectPath := joinPath dirs.tempDir "SandboxApp"
      (h.makedirs projectPath).onSecond
      let _ ← (h.communicate ["docker", "exec", id, "mkdir", "-p", "/app/SandboxApp"]).onSecond
      let wrapped ← .lift (h.wrap .csharp code functionName)
      writeFiles h projectPath [("Program.cs", wrapped), ("SandboxApp.csproj", csprojContent)])
    (fun id => ["docker", "exec", id, "dotnet", "build", "--configuration", "Release", "--nologo"])
    dotnetMessage

/-- `CSharpExecutor` -/
def csharpExecutor : Executor (Self × σ) where
  compile := csharpCompile h code functionName
  run := fun input => runWith h (fun id => ["docker", "exec", "-i", id, "dotnet",
      "/app/SandboxApp/bin/Release/net8.0/SandboxApp.dll"])
    (namedInput functionName input)
  runBatch := none
  cleanup := cleanup h csharpLaunch.image

/-- `ExecutorFactory.get_executor` -/
def getExecutor : Language → Executor (Self × σ)
  | .python => pythonExecutor h code functionName
  | .javascript => javaScriptExecutor h code functionName
  | .typescript => typeScriptExecutor h code functionName
  | .java => javaExecutor h code functionName
  | .kotlin => kotlinExecutor h code functionName
  | .csharp => csharpExecutor h code functionName
  | .cpp => cppExecutor h code functionName
  | .go => goExecutor h code functionName
  | .c => cExecutor h code functionName
  | .rust => rustExecutor h code functionName

end

end ExecutionEngine.Executors
