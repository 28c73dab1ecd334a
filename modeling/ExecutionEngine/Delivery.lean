import ExecutionEngine.ResponseSchema
import ExecutionEngine.VerdictValues
import ExecutionEngine.Worker
import ExecutionEngine.WrapperOutput

/-!
# The way of a verdict to the client

The worker judges the submission and writes the verdict to Redis with `json.dumps`.
The API reads it with `json.loads` and hands it to `JSONResponse`, which renders it
with `allow_nan=False` and encodes it. The first decoder, that of the output of the
submission, lets floats pass that the last encoder refuses, and strings that cannot
be encoded; and the documents on the way nest a little deeper than that output.
-/
namespace ExecutionEngine.Delivery
open Binary64 Effect Pipeline PipelineOutcome SandboxHost Api JsonDecoder JsonEncoder JsonRoundTrip
open JsonText WrapperOutput VerdictValues
open ResponseSchema (Scenario)

/-- What `json.dumps` raises. -/
def encodeException : EncodeError → PyExc
  | .outOfRange => .valueError "Out of range float values are not JSON compliant"
  | .tooManyDigits => .valueError "Exceeds the limit (4300 digits) for integer string conversion"
  | .recursion => .other "RecursionError"
      "maximum recursion depth exceeded while encoding a JSON object"

/-- `json.dumps`, as the worker calls it. -/
def encode (room : ℕ) (value : Json) : Except PyExc PyStr :=
  match dumps defaultStyle value room with
  | .ok text => .ok text
  | .error e => .error (encodeException e)

/-- The strings and the lists in Redis. -/
structure Store where
  values : PyStr → Option PyStr
  lists : PyStr → List PyStr

def Store.empty : Store := ⟨fun _ => none, fun _ => []⟩

def statusKey (jobId : PyStr) : PyStr := ("exec:job:" : PyStr) ++ jobId

def resultKey (jobId : PyStr) : PyStr := ("exec:job:result:" : PyStr) ++ jobId

/-- The document under the status key. -/
def statusDocument (result : Dict) : Json :=
  .obj [("status", .str "done"), ("result", .obj result)]

/-- `mark_done` -/
def markDone (room : ℕ) (jobId : PyStr) (result : Dict) : Comp PyExc Store Unit := do
  let status ← .lift (encode room (statusDocument result))
  let text ← .lift (encode room (.obj result))
  .update fun s =>
    { values := Function.update s.values (statusKey jobId) (some status)
      lists := Function.update s.lists (resultKey jobId) (text :: s.lists (resultKey jobId)) }

/-- `BLPOP` on one key. -/
def blpop (key : PyStr) : Comp PyExc Store (Option PyStr) := fun s =>
  match s.lists key with
  | [] => (.ok none, s)
  | text :: rest => (.ok (some text), { s with lists := Function.update s.lists key rest })

/-- The style of `JSONResponse`. -/
def responseStyle : Style := ⟨false, false⟩

/-- The outputs are searched for the objects of a batch in C and Java. -/
def decodeFor : Language → ℕ → RawRun → Except PyExc Process.SandboxRun
  | .c | .java => decodeBatchRun
  | _ => decodeRun

/-- A request and its judged run, with the outputs of the submission as the text from which
they were decoded, and the expected outputs as they were decoded from the job. The recursion
limit leaves some room to each encoder and decoder: at least for a verdict without arrays
and objects of its own. -/
structure Exchange where
  scenario : Scenario
  request : Request
  parseRoom : ℕ
  encodeRoom : ℕ
  decodeRoom : ℕ
  renderRoom : ℕ
  raw : ℕ → RawRun
  limited : ∀ i, (raw i).Limited
  decoded : ∀ i, decodeFor request.language parseRoom (raw i) = scenario.runs i
  expected : ∀ tc ∈ request.testCases, ∃ text, loads parseRoom text = .ok tc.expectedOutput
  roomy : 2 ≤ encodeRoom ∧ 1 ≤ decodeRoom ∧ 1 ≤ renderRoom

namespace Exchange

section
variable (outputsMatch : Json → Json → Except PyExc Bool) (X : Exchange)

/-- `pipeline.execute()` in the worker. -/
def outcome : Except PyExc Verdict := (pipelineExecute outputsMatch X.scenario.host X.request 0).1

/-- The id that the job gets. -/
def jobId : PyStr := "6f1c0a52-8a53-4f0e-9f0b-2b1d4f0c7e11"

/-- The worker that takes the job. -/
def worker : Worker.Host Store where
  room := X.parseRoom
  time := fun _ => .zero
  shutdown := fun _ => false
  brpop := pure none
  sleep := pure ()
  markRunning := fun _ => pure ()
  markDone := fun jobId result =>
    match jobId with
    | .str id => markDone X.encodeRoom id result
    | value => markDone X.encodeRoom (X.scenario.str value) result
  extract := fun _ => .ok ()
  execute := fun _ => .lift ((X.outcome outputsMatch).map verdictDict)

/-- Redis after the worker has done its job. -/
def finished : Store := (Worker.runJob (X.worker outputsMatch) (.str jobId) [] Store.empty).2

/-- The API. When the job has been pushed the worker takes it; whether its slot survives
does not concern the API, nor does the API use the sandbox. -/
def server : Server Store where
  limits := X.scenario.limits
  environ := fun _ => none
  time := fun _ => .zero
  redis :=
    { Redis.down [] with
      llen := fun _ => pure 0
      blpop := fun key _ => blpop key
      submit := fun _ jobId _ => do
        let _ ← (Worker.runJob (X.worker outputsMatch) (.str jobId) []).attempt
        pure () }
  mkdtemp := fun _ => .raise .cancelled
  makedirs := fun _ => .raise .cancelled
  writeFile := fun _ _ => .raise .cancelled
  rmtree := fun _ => .raise .cancelled
  communicate := fun _ => .raise .cancelled
  communicateWithin := fun _ _ => .raise .cancelled
  killProcess := .raise .cancelled
  killContainer := fun _ _ => .raise .cancelled
  containerIsUsable := fun _ _ => .raise .cancelled
  sanitize := fun _ => .raise .cancelled
  runInSandbox := fun _ _ _ => .raise .cancelled
  pyCompile := fun _ => .passed
  wrap := fun _ _ _ => .ok []
  cPrelude := []
  str := X.scenario.str
  patience := 0
  room := X.decodeRoom
  uuid4 := pure jobId
  queueResultTimeout := 300
  fallbackAcquire := pure true
  fallbackRelease := id

/-- The API answers 200 with the dict of the verdict, and the body that is rendered from it
carries that dict. -/
def Delivered (v : Verdict) : Prop :=
  respond outputsMatch (X.server outputsMatch) X.request Store.empty =
      some ⟨200, .json (.obj (verdictDict v)), none⟩ ∧
    ∃ body, dumps responseStyle (.obj (verdictDict v)) X.renderRoom = .ok body ∧
      loads X.renderRoom body = .ok (.obj (verdictDict v))

/-- The nesting that a verdict may have. -/
def room : ℕ := min (X.encodeRoom - 1) (min X.decodeRoom X.renderRoom)

end

end Exchange

section
variable {number : Float64 → Bool} {text : PyStr → Bool}

theorem holdsInItems_iff {items : List Json} :
    holdsInItems number text items = true ↔ ∀ item ∈ items, holdsIn number text item = true := by
  induction items with
  | nil => simp [holdsInItems]
  | cons item rest ih => simp [holdsInItems, ih]

theorem holdsInMembers_iff {items : List (PyStr × Json)} :
    holdsInMembers number text items = true ↔
      ∀ item ∈ items, text item.1 = true ∧ holdsIn number text item.2 = true := by
  induction items with
  | nil => simp [holdsInMembers]
  | cons item rest ih => simp [holdsInMembers, ih]

/-- A test on a decoded value looks at its floats and strings only. -/
theorem within_iff_holdsIn {room : ℕ} {v : Json} (h : Decoded room v) :
    Within (fun x => number x = true) (fun s => text s = true) room v ↔
      holdsIn number text v = true := by
  induction h with
  | null => exact iff_of_true .null (by simp [holdsIn])
  | bool b => exact iff_of_true (.bool b) (by simp [holdsIn])
  | int h => exact iff_of_true (.int h) (by simp [holdsIn])
  | float _ =>
    rw [holdsIn]
    constructor
    · intro h
      cases h with
      | float h => exact h
    · intro h
      refine .float ?_
      exact h
  | str _ =>
    rw [holdsIn]
    constructor
    · intro h
      cases h with
      | str h => exact h
    · intro h
      refine .str ?_
      exact h
  | arr _ ih =>
    rw [holdsIn, holdsInItems_iff]
    constructor
    · intro h item hitem
      cases h with
      | arr h => exact (ih item hitem).mp (h item hitem)
    · intro h
      exact .arr fun item hitem => (ih item hitem).mpr (h item hitem)
  | obj hkeys _ _ ih =>
    rw [holdsIn, holdsInMembers_iff]
    constructor
    · intro h item hitem
      cases h with
      | obj _ htext h => exact ⟨htext item hitem, (ih item hitem).mp (h item hitem)⟩
    · intro h
      exact .obj hkeys (fun item hitem => (h item hitem).1)
        fun item hitem => (ih item hitem).mpr (h item hitem).2

/-- Floats and strings may be tested one after the other. -/
theorem holdsIn_and {room : ℕ} {v : Json} (h : Decoded room v) :
    holdsIn number text v = true ↔
      holdsIn number (fun _ => true) v = true ∧ holdsIn (fun _ => true) text v = true := by
  induction h with
  | arr _ ih =>
    simp only [holdsIn, holdsInItems_iff]
    constructor
    · intro h
      exact ⟨fun item hitem => ((ih item hitem).mp (h item hitem)).1,
        fun item hitem => ((ih item hitem).mp (h item hitem)).2⟩
    · rintro ⟨hnumber, htext⟩ item hitem
      exact (ih item hitem).mpr ⟨hnumber item hitem, htext item hitem⟩
  | obj _ _ _ ih =>
    simp only [holdsIn, holdsInMembers_iff]
    constructor
    · intro h
      exact ⟨fun item hitem => ⟨trivial, ((ih item hitem).mp (h item hitem).2).1⟩,
        fun item hitem => ⟨(h item hitem).1, ((ih item hitem).mp (h item hitem).2).2⟩⟩
    · rintro ⟨hnumber, htext⟩ item hitem
      exact ⟨(htext item hitem).1,
        (ih item hitem).mpr ⟨(hnumber item hitem).2, (htext item hitem).2⟩⟩
  | _ => simp [holdsIn]

end

theorem plainStr_of_encodable {s : PyStr} (h : encodable s = true) : PlainStr s := by
  intro c hc
  have hplain := List.all_eq_true.mp h c hc
  simp only [Bool.not_eq_true', Bool.and_eq_false_iff, decide_eq_false_iff_not] at hplain
  unfold Plain
  omega

theorem writable_of_isFinite (style : Style) {x : Float64} (h : isFinite x = true) :
    Writable style x := by
  cases x with
  | finite y => exact .inr ⟨y, rfl⟩
  | nan => cases h
  | infinity s => cases h

/-- The value can be written, and written by `JSONResponse`. -/
def Clean (room : ℕ) (v : Json) : Prop := depth v < room ∧ holdsIn isFinite encodable v = true

/-- The value may come from a decoder. -/
def Genuine (v : Json) : Prop := ∃ room, Decoded room v

theorem genuine_iff {v : Json} : Genuine v ↔ Decoded (depth v) v :=
  ⟨fun ⟨_, h⟩ => (h.iff_depth _).mpr le_rfl, fun h => ⟨_, h⟩⟩

theorem genuine_str (s : PyStr) : Genuine (.str s) := ⟨0, .str trivial⟩

theorem genuine_int {n : ℤ} (h : n.natAbs ≤ maxStdoutBytes) : Genuine (.int n) := by
  have hlength : (digitChars n.natAbs).length ≤ 7 := by
    refine length_digitChars_le (by norm_num) ?_
    unfold maxStdoutBytes at h
    omega
  have hlimit : 7 ≤ intMaxStrDigits := by decide
  exact ⟨0, .int (hlength.trans hlimit)⟩

theorem genuine_arr {items : List Json} (h : ∀ item ∈ items, Genuine item) :
    Genuine (.arr items) := by
  refine ⟨depthItems items + 1, .arr fun item hitem => ?_⟩
  have hdepth := depthItems_le_iff.mp le_rfl item hitem
  exact (genuine_iff.mp (h item hitem)).mono (fun _ => id) (fun _ => id) hdepth

theorem genuine_lookup {d : Dict} (h : Genuine (.obj d)) {key : PyStr} {value : Json}
    (hvalue : d.lookup key = some value) : Genuine value := by
  obtain ⟨room, h⟩ := h
  obtain ⟨item, hitem, rfl⟩ := Option.map_eq_some_iff.mp hvalue
  cases h with
  | obj _ _ h => exact ⟨_, h item (List.mem_of_find?_eq_some hitem)⟩

theorem genuine_getD {d : Dict} (h : Genuine (.obj d)) (key : PyStr) {default : Json}
    (hdefault : Genuine default) : Genuine (d.getD key default) := by
  unfold Dict.getD
  cases hvalue : d.lookup key with
  | none => exact hdefault
  | some value => exact genuine_lookup h hvalue

def GenuineRun : RunValue → Prop
  | .plain value => Genuine value
  | .inPlace value mutated => Genuine value ∧ Genuine mutated

section
open Process
variable {str : Json → PyStr} {room : ℕ} {run : SandboxRun}

theorem genuine_null : Genuine .null := ⟨0, .null⟩

theorem genuine_resultValue {d : Dict} (h : Genuine (.obj d)) : GenuineRun (resultValue d) := by
  have hresult := genuine_getD h "result" genuine_null
  unfold resultValue
  split
  · rename_i mutated hmutated
    exact ⟨hresult, genuine_lookup h hmutated⟩
  · exact hresult

theorem genuine_runWrapper (h : Printed room run) {v : RunValue}
    (hv : runWrapper str run = .ok v) : GenuineRun v := by
  cases run with
  | timedOut blocks => cases hv
  | outputLimitExceeded => cases hv
  | exited out =>
    rw [runWrapper] at hv
    split at hv
    · cases hv
    · rename_i parsed hparsed
      split_ifs at hv
      obtain rfl := Except.ok.inj hv
      exact genuine_resultValue ⟨room, h.1 parsed hparsed⟩

theorem genuine_runBatchWrapper (h : Printed room run) {count : ℕ} {results : List RunValue}
    (hresults : runBatchWrapper str count run = .ok results) : ∀ v ∈ results, GenuineRun v := by
  cases run with
  | timedOut blocks => cases hresults
  | outputLimitExceeded => cases hresults
  | exited out =>
    obtain ⟨collected, hcollect, hresults⟩ := bind_eq_ok hresults
    rw [ResponseSchema.collect_eq] at hcollect
    split_ifs at hresults
    obtain rfl := Except.ok.inj hresults
    split at hcollect
    · cases hcollect
    · obtain rfl := Except.ok.inj hcollect
      intro v hv
      obtain ⟨d, hd, rfl⟩ := List.mem_map.mp (by simpa using hv)
      exact genuine_resultValue ⟨room, h.2.1 d hd⟩

theorem genuine_batchIndex_some {m : PyStr} {index : Json} (h : Genuine index) :
    Genuine (batchIndex (.runtimeExecution m (some index))) := by
  have hzero : Genuine (.int 0) := genuine_int (Nat.zero_le _)
  unfold batchIndex
  dsimp only [PyExc.failedTestCaseIndex]
  split_ifs
  · exact h
  · exact hzero

theorem genuine_runValue {S : Scenario} (h : ∀ i run, S.runs i = .ok run → Printed room run)
    {i : ℕ} {v : RunValue} (hv : S.runValue i = .ok v) : GenuineRun v := by
  obtain ⟨run, hrun, hv⟩ := bind_eq_ok hv
  exact genuine_runWrapper (h i run hrun) hv

theorem genuine_batchIndex (h : Printed room run) {count : ℕ} (hcount : 1 ≤ count ∧ count ≤ 20)
    {e : PyExc} (he : runBatchWrapper str count run = .error e) : Genuine (batchIndex e) := by
  have hzero : Genuine (.int 0) := genuine_int (Nat.zero_le _)
  cases run with
  | timedOut blocks =>
    obtain rfl := Except.error.inj he
    unfold batchIndex
    dsimp only [PyExc.failedTestCaseIndex]
    split_ifs
    · refine genuine_int ?_
      have hbound : (min (blocks.length : ℤ) (count - 1)).natAbs ≤ 20 := by omega
      exact hbound.trans (by decide)
    · exact hzero
  | outputLimitExceeded =>
    obtain rfl := Except.error.inj he
    exact hzero
  | exited out =>
    have hindex : ∀ n ≤ out.blocks.length, Genuine (.int n) :=
      fun n hn => genuine_int (by simpa using hn.trans h.2.2)
    rw [runBatchWrapper, ResponseSchema.collect_eq] at he
    split at he
    · rename_i block done hfound
      obtain rfl := Except.error.inj he
      have hmem := List.mem_of_find?_eq_some hfound
      obtain ⟨-, hlt, hblock⟩ := List.mem_zipIdx hmem
      refine genuine_batchIndex_some (genuine_getD ⟨room, h.2.1 block ?_⟩ _ (hindex done ?_))
      · rw [hblock]
        exact List.getElem_mem _
      · simp only [List.length_nil] at hlt
        omega
    · simp only [bind, Except.bind] at he
      split_ifs at he
      obtain rfl := Except.error.inj he
      exact genuine_batchIndex_some (hindex _ (by simp))

theorem genuine_failedBatch {S : Scenario} (h : ∀ i run, S.runs i = .ok run → Printed room run)
    {count : ℕ} (hcount : 1 ≤ count ∧ count ≤ 20) {e : PyExc} (he : S.batchValues count = .error e) :
    Genuine (batchIndex e) := by
  rw [Scenario.batchValues] at he
  cases hrun : S.runs 0 with
  | ok run =>
    rw [hrun] at he
    exact genuine_batchIndex (h 0 run hrun) hcount he
  | error exc =>
    rw [hrun] at he
    obtain rfl := Except.error.inj he
    rw [S.unread 0 exc hrun]
    exact genuine_int (Nat.zero_le _)

theorem decodeFor_printed {language : Language} {raw : RawRun} (hlimited : raw.Limited)
    (h : decodeFor language room raw = .ok run) : Printed room run := by
  unfold decodeFor at h
  split at h
  · exact decodeBatchRun_printed hlimited h
  · exact decodeBatchRun_printed hlimited h
  · exact decodeRun_printed h

end

section
variable {outputsMatch : Json → Json → Except PyExc Bool} {inPlace : Option Bool}

theorem genuine_reported {v : RunValue} (h : GenuineRun v) {expected shown : Json}
    (hshown : reported outputsMatch (applyInPlace inPlace v) expected = .ok shown) :
    Genuine shown := by
  cases v with
  | plain value =>
    obtain rfl := Except.ok.inj hshown
    exact h
  | inPlace value mutated =>
    obtain ⟨hvalue, hmutated⟩ := h
    unfold applyInPlace at hshown
    dsimp only at hshown
    split_ifs at hshown
    · obtain rfl := Except.ok.inj hshown
      exact hvalue
    · unfold reported at hshown
      dsimp only at hshown
      split_ifs at hshown
      · obtain rfl := Except.ok.inj hshown
        exact hvalue
      · obtain ⟨same, -, hshown⟩ := bind_eq_ok hshown
        split_ifs at hshown
        · obtain rfl := Except.ok.inj hshown
          exact hvalue
        · obtain rfl := Except.ok.inj hshown
          exact hmutated

theorem reportable_genuine (e : PyExc) : Reportable Genuine e := by
  cases e with
  | executionTimeout m i => trivial
  | _ => exact genuine_str _

theorem runsShow_genuine {runs : ℕ → Except PyExc RunValue} {testCases : List TestCase}
    (hruns : ∀ i v, runs i = .ok v → GenuineRun v)
    (hexpected : ∀ tc ∈ testCases, Genuine tc.expectedOutput) :
    RunsShow Genuine outputsMatch inPlace [] runs testCases := by
  refine ⟨fun _ _ e _ _ _ => reportable_genuine e, ?_, ?_⟩
  · intro i tc v shown htc _ hv _ hshown
    exact ⟨genuine_reported (hruns i v hv) hshown, hexpected tc (List.mem_of_getElem? htc)⟩
  · rintro outs ⟨hlength, houts⟩
    refine genuine_arr fun o ho => ?_
    obtain ⟨k, hk, rfl⟩ := List.mem_iff_getElem.mp ho
    obtain ⟨w, hw, -, hshown⟩ := houts k testCases[k] outs[k] (by simp) (by simp)
    exact genuine_reported (hruns k w hw) hshown

theorem fixed_genuine : Fixed Genuine := by
  refine ⟨fun s _ => genuine_str s, fun n hn => genuine_int ?_⟩
  have hbound : (n : ℤ).natAbs ≤ 20 := by simpa using hn
  exact hbound.trans (by decide)

variable (outputsMatch) in
theorem scriptShows_genuine (X : Exchange) :
    ScriptShows Genuine outputsMatch (X.scenario.script X.request) X.request := by
  have hexpected : ∀ tc ∈ X.request.testCases, Genuine tc.expectedOutput := by
    intro tc htc
    obtain ⟨text, htext⟩ := X.expected tc htc
    exact ⟨X.parseRoom, loads_decoded htext⟩
  have hprinted : ∀ i run, X.scenario.runs i = .ok run → Printed X.parseRoom run :=
    fun i run hrun => decodeFor_printed (X.limited i) ((X.decoded i).trans hrun)
  refine ⟨fun m _ => genuine_str m, fun m _ _ => genuine_str _, fun _ => ?_⟩
  cases hb : (X.scenario.script X.request).batch with
  | none =>
    refine runsShow_genuine (fun i v hv => ?_) hexpected
    exact genuine_runValue hprinted hv
  | some outcome =>
    have houtcome : X.scenario.batchValues X.request.testCases.length = outcome := by
      unfold Scenario.script at hb
      dsimp only at hb
      split at hb
      · exact Option.some.inj hb
      · exact Option.some.inj hb
      · cases hb
    cases outcome with
    | error e =>
      exact ⟨genuine_failedBatch hprinted X.request.testCases_length houtcome,
        reportable_genuine e⟩
    | ok results =>
      intro _
      refine runsShow_genuine (fun i v hv => ?_) hexpected
      unfold Script.deliver at hv
      dsimp only at hv
      split at hv
      · rename_i w hw
        obtain rfl := Except.ok.inj hv
        obtain ⟨run, hrun, hbatch⟩ := bind_eq_ok houtcome
        exact genuine_runBatchWrapper (hprinted 0 run hrun) hbatch w (List.mem_of_getElem? hw)
      · cases hv

end

theorem within_of_clean {room : ℕ} {v : Json} (hgenuine : Genuine v) (style : Style)
    (hdepth : depth v ≤ room) (hclean : holdsIn isFinite encodable v = true) :
    Within (Writable style) PlainStr room v := by
  have hdecoded : Decoded room v :=
    (genuine_iff.mp hgenuine).mono (fun _ => id) (fun _ => id) hdepth
  exact ((within_iff_holdsIn hdecoded).mpr hclean).mono (fun _ => writable_of_isFinite style)
    (fun _ => plainStr_of_encodable) le_rfl

theorem verdictDict_keys (v : Verdict) : ((verdictDict v).map Prod.fst).Nodup := by
  cases v <;> simp +decide [verdictDict]

theorem verdictDict_encodable (v : Verdict) : ∀ item ∈ verdictDict v, encodable item.1 = true := by
  cases v <;> simp +decide [verdictDict]

theorem genuine_verdictDict {v : Verdict} (h : Shows Genuine v) :
    Genuine (.obj (verdictDict v)) := by
  refine ⟨depthMembers (verdictDict v) + 1, .obj (verdictDict_keys v) (fun _ _ => trivial)
    fun item hitem => ?_⟩
  have hdepth := depthMembers_le_iff.mp le_rfl item hitem
  exact (genuine_iff.mp (h item hitem)).mono (fun _ => id) (fun _ => id) hdepth

/-- The test on the dict is the test on its items. -/
theorem shows_clean_iff {room : ℕ} (v : Verdict) :
    Shows (Clean room) v ↔
      depth (.obj (verdictDict v)) ≤ room ∧
        holdsIn isFinite encodable (.obj (verdictDict v)) = true := by
  have hne : ∃ item, item ∈ verdictDict v := by
    cases v <;> exact ⟨_, List.mem_cons_self⟩
  rw [depth, holdsIn, holdsInMembers_iff]
  constructor
  · intro h
    obtain ⟨first, hfirst⟩ := hne
    obtain ⟨n, rfl⟩ : ∃ n, room = n + 1 := ⟨room - 1, by have := (h first hfirst).1; omega⟩
    rw [Nat.add_le_add_iff_right, depthMembers_le_iff]
    exact ⟨fun item hitem => Nat.lt_succ_iff.mp (h item hitem).1,
      fun item hitem => ⟨verdictDict_encodable v item hitem, (h item hitem).2⟩⟩
  · rintro ⟨hdepth, hclean⟩ item hitem
    have hitems := depthMembers_le_iff.mp (Nat.le_sub_one_of_lt hdepth) item hitem
    exact ⟨by omega, (hclean item hitem).2⟩

namespace Exchange

section
variable (outputsMatch : Json → Json → Except PyExc Bool) (X : Exchange)

theorem blpop_nil {key : PyStr} {s : Store} (h : s.lists key = []) :
    blpop key s = (.ok none, s) := by
  rw [blpop, h]

theorem blpop_cons {key text : PyStr} {rest : List PyStr} {s : Store}
    (h : s.lists key = text :: rest) :
    blpop key s = (.ok (some text), { s with lists := Function.update s.lists key rest }) := by
  rw [blpop, h]

/-- The route returns what it gets from the queue. -/
theorem executeRoute_of_queued {r : Except PyExc Response} {s : Store}
    (h : waitForQueuedResult (X.server outputsMatch) X.request Store.empty = (r.map some, s)) :
    executeRoute outputsMatch (X.server outputsMatch) X.request Store.empty = (r, s) := by
  rw [executeRoute, Comp.bind_apply, h]
  cases r <;> rfl

theorem map_lift {α β : Type} (f : α → β) (r : Except PyExc α) (s : Store) :
    (f <$> (Comp.lift r : Comp PyExc Store α)) s = (r.map f, s) := by
  cases r <;> rfl

/-- What the route does after the worker. -/
theorem executeRoute_server : ∃ s, executeRoute outputsMatch (X.server outputsMatch) X.request
    Store.empty =
      match (X.finished outputsMatch).lists (resultKey jobId) with
      | [] => (httpException 504 "Execution timed out" none, s)
      | text :: _ =>
        match loads X.decodeRoom text with
        | .ok result => (jsonResponse 200 result none, s)
        | .error e => (.error (decodeException e), s) := by
  have henqueue : (enqueue (X.server outputsMatch) X.request).attempt Store.empty =
      (.ok (.ok jobId), X.finished outputsMatch) := rfl
  have hpop : (X.server outputsMatch).redis.blpop (("exec:job:result:" : PyStr) ++ jobId)
      (X.server outputsMatch).queueResultTimeout = blpop (resultKey jobId) := rfl
  have hqueued : waitForQueuedResult (X.server outputsMatch) X.request Store.empty = _ :=
    Comp.bind_ok henqueue _
  dsimp only at hqueued
  cases hlist : (X.finished outputsMatch).lists (resultKey jobId) with
  | nil =>
    have hwait : waitForJobResult (X.server outputsMatch) jobId (X.finished outputsMatch) =
        (.ok none, X.finished outputsMatch) := by
      rw [waitForJobResult, hpop, Comp.bind_ok (blpop_nil hlist)]
      rfl
    refine ⟨X.finished outputsMatch, executeRoute_of_queued outputsMatch X ?_⟩
    rw [hqueued, Comp.bind_apply, Comp.attempt_apply, hwait]
    exact map_lift _ _ _
  | cons text rest =>
    let popped : Store := { X.finished outputsMatch with
      lists := Function.update (X.finished outputsMatch).lists (resultKey jobId) rest }
    have hroom : (X.server outputsMatch).room = X.decodeRoom := rfl
    refine ⟨popped, ?_⟩
    dsimp only
    cases hloads : loads X.decodeRoom text with
    | ok result =>
      have hwait : waitForJobResult (X.server outputsMatch) jobId (X.finished outputsMatch) =
          (.ok (some result), popped) := by
        rw [waitForJobResult, hpop, Comp.bind_ok (blpop_cons hlist)]
        dsimp only
        rw [hroom, hloads]
        rfl
      apply executeRoute_of_queued
      rw [hqueued, Comp.bind_apply, Comp.attempt_apply, hwait]
      exact map_lift _ _ _
    | error e =>
      have hwait : waitForJobResult (X.server outputsMatch) jobId (X.finished outputsMatch) =
          (.error (decodeException e), popped) := by
        rw [waitForJobResult, hpop, Comp.bind_ok (blpop_cons hlist)]
        dsimp only
        rw [hroom, hloads]
        rfl
      have hredis : isRedisError (decodeException e) = false := by
        cases e <;> decide
      apply executeRoute_of_queued
      rw [hqueued, Comp.bind_apply, Comp.attempt_apply, hwait]
      dsimp only
      rw [hredis]
      rfl

/-- A document is sent with status 200 where it can be rendered. -/
theorem jsonResponse_sent_iff (result d : Json) :
    (match jsonResponse 200 result none with
      | .ok response => some response
      | .error exc => serverError exc) = some ⟨200, .json d, none⟩ ↔
      result = d ∧ holdsIn isFinite (fun _ => true) result = true ∧
        holdsIn (fun _ => true) encodable result = true := by
  unfold jsonResponse
  cases holdsIn isFinite (fun _ => true) result <;>
    cases holdsIn (fun _ => true) encodable result <;>
    simp [serverError, PyExc.isException]

/-- The client gets a document with status 200 exactly when it is what the API decodes, and
can be rendered. -/
theorem respond_server (d : Json) :
    respond outputsMatch (X.server outputsMatch) X.request Store.empty =
        some ⟨200, .json d, none⟩ ↔
      ∃ text rest, (X.finished outputsMatch).lists (resultKey jobId) = text :: rest ∧
        loads X.decodeRoom text = .ok d ∧ holdsIn isFinite (fun _ => true) d = true ∧
        holdsIn (fun _ => true) encodable d = true := by
  obtain ⟨s, hroute⟩ := executeRoute_server outputsMatch X
  rw [respond, hroute]
  cases hlist : (X.finished outputsMatch).lists (resultKey jobId) with
  | nil => exact iff_of_false (by rintro ⟨⟩) (by simp)
  | cons text rest =>
    dsimp only
    cases hloads : loads X.decodeRoom text with
    | error e =>
      refine iff_of_false ?_ (by simp [hloads])
      cases e <;> simp [serverError, decodeException, PyExc.isException]
    | ok result =>
      refine (jsonResponse_sent_iff result d).trans ?_
      constructor
      · rintro ⟨rfl, hfinite, hencodable⟩
        exact ⟨text, rest, rfl, hloads, hfinite, hencodable⟩
      · rintro ⟨text', rest', hcons, hloads', hchecks⟩
        obtain ⟨rfl, rfl⟩ := List.cons.inj hcons
        obtain rfl : result = d := Except.ok.inj (hloads.symm.trans hloads')
        exact ⟨rfl, hchecks⟩

/-- `mark_done` succeeds when both documents can be written. -/
theorem markDone_of_ok {room : ℕ} {result : Dict} {status text : PyStr}
    (hstatus : encode room (statusDocument result) = .ok status)
    (htext : encode room (.obj result) = .ok text) (id : PyStr) (s : Store) :
    ∃ s', markDone room id result s = (.ok (), s') ∧
      s'.lists (resultKey id) = text :: s.lists (resultKey id) := by
  rw [markDone, hstatus, htext]
  exact ⟨_, rfl, Function.update_self ..⟩

/-- Otherwise nothing is written. -/
theorem markDone_of_error {room : ℕ} {result : Dict}
    (h : ¬ ∃ status text, encode room (statusDocument result) = .ok status ∧
      encode room (.obj result) = .ok text) (id : PyStr) (s : Store) :
    ∃ e, markDone room id result s = (.error (encodeException e), s) := by
  have hencode : ∀ value, (∃ text, encode room value = .ok text) ∨
      ∃ e, encode room value = .error (encodeException e) := by
    intro value
    unfold encode
    cases dumps defaultStyle value room with
    | ok text => exact .inl ⟨text, rfl⟩
    | error e => exact .inr ⟨e, rfl⟩
  unfold markDone
  rcases hencode (statusDocument result) with ⟨status, hstatus⟩ | ⟨e, he⟩
  · rcases hencode (.obj result) with ⟨text, htext⟩ | ⟨e, he⟩
    · exact absurd ⟨status, text, hstatus, htext⟩ h
    · exact ⟨e, by rw [hstatus, he]; rfl⟩
  · exact ⟨e, by rw [he]; rfl⟩

/-- The message that the worker reports in place of a verdict it cannot write. -/
theorem handlerMessage_encodeException (e : EncodeError) :
    ∃ m, Worker.handlerMessage (encodeException e) = some m ∧ encodable m = true := by
  cases e <;> exact ⟨_, rfl, by decide⟩

variable {outputsMatch X} in
/-- The worker pushes the verdict if it can be written. In its place it pushes an error, if
that can be written. -/
theorem finished_cases {v : Verdict} (h : X.outcome outputsMatch = .ok v) :
    (∃ status text, encode X.encodeRoom (statusDocument (verdictDict v)) = .ok status ∧
      encode X.encodeRoom (.obj (verdictDict v)) = .ok text ∧
      (X.finished outputsMatch).lists (resultKey jobId) = [text]) ∨
    (¬ ∃ status text, encode X.encodeRoom (statusDocument (verdictDict v)) = .ok status ∧
      encode X.encodeRoom (.obj (verdictDict v)) = .ok text) ∧
    ∀ text rest, (X.finished outputsMatch).lists (resultKey jobId) = text :: rest →
      ∃ m status, encodable m = true ∧
        encode X.encodeRoom (statusDocument (Worker.errorResult m)) = .ok status ∧
        encode X.encodeRoom (.obj (Worker.errorResult m)) = .ok text := by
  have hexecute : (X.worker outputsMatch).execute [] = .lift (.ok (verdictDict v)) := by
    unfold worker
    rw [h]
    rfl
  have hmark : (X.worker outputsMatch).markDone (.str jobId) = markDone X.encodeRoom jobId := rfl
  have hbody : ((X.worker outputsMatch).execute [] >>= fun result =>
      (X.worker outputsMatch).markDone (.str jobId) result) =
        markDone X.encodeRoom jobId (verdictDict v) := by
    rw [hexecute, hmark]
    rfl
  by_cases hok : ∃ status text, encode X.encodeRoom (statusDocument (verdictDict v)) = .ok status ∧
      encode X.encodeRoom (.obj (verdictDict v)) = .ok text
  · left
    obtain ⟨status, text, hstatus, htext⟩ := hok
    obtain ⟨s, hs, hlist⟩ := markDone_of_ok hstatus htext jobId Store.empty
    refine ⟨status, text, hstatus, htext, ?_⟩
    rw [finished, Worker.runJob, hbody, Comp.bind_apply, Comp.attempt_apply, hs]
    exact hlist
  · right
    refine ⟨hok, fun text rest hlist => ?_⟩
    obtain ⟨e, he⟩ := markDone_of_error hok jobId Store.empty
    obtain ⟨m, hm, hplain⟩ := handlerMessage_encodeException e
    rw [finished, Worker.runJob, hbody, Comp.bind_apply, Comp.attempt_apply, he] at hlist
    dsimp only at hlist
    rw [hm, hmark] at hlist
    dsimp only at hlist
    by_cases hreport : ∃ status text,
        encode X.encodeRoom (statusDocument (Worker.errorResult m)) = .ok status ∧
        encode X.encodeRoom (.obj (Worker.errorResult m)) = .ok text
    · obtain ⟨status, text', hstatus, htext⟩ := hreport
      obtain ⟨s, hs, hpushed⟩ := markDone_of_ok hstatus htext jobId Store.empty
      rw [hs, hpushed] at hlist
      obtain ⟨rfl, -⟩ := List.cons.inj hlist
      exact ⟨m, status, hplain, hstatus, htext⟩
    · obtain ⟨e', he'⟩ := markDone_of_error hreport jobId Store.empty
      rw [he'] at hlist
      cases hlist

variable {outputsMatch X}

theorem room_le : X.room + 1 ≤ X.encodeRoom ∧ X.room ≤ X.decodeRoom ∧ X.room ≤ X.renderRoom := by
  have hroomy := X.roomy
  unfold room
  omega

theorem depth_statusDocument (d : Dict) : depth (statusDocument d) = depth (.obj d) + 1 := by
  simp [statusDocument, depth, depthMembers]

theorem clean_statusDocument {d : Dict} (h : holdsIn isFinite encodable (.obj d) = true) :
    holdsIn isFinite encodable (statusDocument d) = true := by
  have hkeys : encodable "status" = true ∧ encodable "result" = true ∧ encodable "done" = true := by
    decide
  simp [statusDocument, holdsIn, holdsInMembers, hkeys] at h ⊢
  exact h

theorem genuine_statusDocument {d : Dict} (h : Genuine (.obj d)) : Genuine (statusDocument d) := by
  refine ⟨depth (.obj d) + 1, .obj (by simp +decide) (fun _ _ => trivial) fun item hitem => ?_⟩
  simp only [List.mem_cons, List.not_mem_nil, or_false] at hitem
  rcases hitem with rfl | rfl
  · exact .str trivial
  · exact genuine_iff.mp h

/-- A clean document is written as a text from which it is read back. -/
theorem encode_of_clean {d : Json} (hgenuine : Genuine d)
    (hclean : holdsIn isFinite encodable d = true) {a b : ℕ} (ha : depth d ≤ a)
    (hb : depth d ≤ b) : ∃ text, encode a d = .ok text ∧ loads b text = .ok d := by
  obtain ⟨text, hdumps, hloads⟩ := loads_dumps (fun _ => unpaired_of_plain)
    (within_of_clean hgenuine defaultStyle le_rfl hclean)
  refine ⟨text, ?_, hloads b hb⟩
  rw [encode, hdumps a ha]

theorem depth_le_of_encode {d : Json} (hgenuine : Genuine d) {a : ℕ} {text : PyStr}
    (h : encode a d = .ok text) : depth d ≤ a := by
  obtain ⟨room, hdecoded⟩ := hgenuine
  unfold encode at h
  split at h
  · rename_i hdumps
    exact depth_le_of_dumps hdecoded hdumps
  · cases h

/-- An error that the worker has written is read back. -/
theorem loads_errorResult {m : PyStr} (hm : encodable m = true) {a b : ℕ} {text : PyStr}
    (htext : encode a (.obj (Worker.errorResult m)) = .ok text) (hb : 1 ≤ b) :
    loads b text = .ok (.obj (Worker.errorResult m)) := by
  have hshows : Shows Genuine (.error m) := by
    intro item hitem
    simp only [verdictDict, List.mem_cons, List.not_mem_nil, or_false] at hitem
    rcases hitem with rfl | rfl <;> exact genuine_str _
  have hgenuine : Genuine (.obj (Worker.errorResult m)) := genuine_verdictDict hshows
  have hclean : holdsIn isFinite encodable (.obj (Worker.errorResult m)) = true := by
    have hkeys : encodable "verdict" = true ∧ encodable "error" = true ∧
        encodable "error_message" = true := by decide
    simp [Worker.errorResult, holdsIn, holdsInMembers, hkeys, hm]
  have hdepth : depth (.obj (Worker.errorResult m)) = 1 := by
    simp [Worker.errorResult, depth, depthMembers]
  obtain ⟨text', htext', hloads⟩ := encode_of_clean hgenuine hclean
    (depth_le_of_encode hgenuine htext) (hdepth.le.trans hb)
  obtain rfl : text = text' := Except.ok.inj (htext.symm.trans htext')
  exact hloads

/-- A verdict arrives exactly when its dict is clean. -/
theorem delivered_iff {v : Verdict} (houtcome : X.outcome outputsMatch = .ok v)
    (hshows : Shows Genuine v) : X.Delivered outputsMatch v ↔ Shows (Clean X.room) v := by
  have hgenuine := genuine_verdictDict hshows
  have hroom : X.room + 1 ≤ X.encodeRoom ∧ X.room ≤ X.decodeRoom ∧ X.room ≤ X.renderRoom := room_le
  rw [shows_clean_iff, Delivered, respond_server]
  constructor
  · rintro ⟨⟨text, rest, hlist, hloads, hfinite, hencodable⟩, body, hbody, -⟩
    have hdecoded := loads_decoded hloads
    refine ⟨?_, (holdsIn_and hdecoded).mpr ⟨hfinite, hencodable⟩⟩
    have hdecode : depth (.obj (verdictDict v)) ≤ X.decodeRoom :=
      (hdecoded.iff_depth _).mp hdecoded
    have hrender : depth (.obj (verdictDict v)) ≤ X.renderRoom := depth_le_of_dumps hdecoded hbody
    have hencode : depth (.obj (verdictDict v)) + 1 ≤ X.encodeRoom := by
      rcases finished_cases houtcome with ⟨status, _, hstatus, -, -⟩ | ⟨hfailed, hreport⟩
      · rw [← depth_statusDocument]
        exact depth_le_of_encode (genuine_statusDocument hgenuine) hstatus
      · -- the worker has pushed an error in place of the verdict, and it is the same dict
        obtain ⟨m, status, hm, hstatus, htext⟩ := hreport text rest hlist
        have hread := loads_errorResult hm htext X.roomy.2.1
        obtain hsame : verdictDict v = Worker.errorResult m :=
          Json.obj.inj (Except.ok.inj (hloads.symm.trans hread))
        rw [hsame] at hfailed
        exact absurd ⟨status, text, hstatus, htext⟩ hfailed
    unfold room
    omega
  · rintro ⟨hdepth, hclean⟩
    obtain ⟨status, hstatus, -⟩ := encode_of_clean (genuine_statusDocument hgenuine)
      (clean_statusDocument hclean)
      (show depth (statusDocument (verdictDict v)) ≤ X.encodeRoom by
        rw [depth_statusDocument]; omega) le_rfl
    obtain ⟨text, htext, hloads⟩ := encode_of_clean hgenuine hclean
      (show depth (.obj (verdictDict v)) ≤ X.encodeRoom by omega)
      (show depth (.obj (verdictDict v)) ≤ X.decodeRoom by omega)
    obtain ⟨body, hbody, hread⟩ := loads_dumps (fun _ => unpaired_of_plain)
      (within_of_clean hgenuine responseStyle le_rfl hclean)
    have hchecks := (holdsIn_and (genuine_iff.mp hgenuine)).mp hclean
    rcases finished_cases houtcome with ⟨status', text', -, htext', hlist⟩ | ⟨hfailed, -⟩
    · obtain rfl : text = text' := Except.ok.inj (htext.symm.trans htext')
      exact ⟨⟨text, [], hlist, hloads, hchecks⟩, body, hbody _ (by omega), hread _ (by omega)⟩
    · exact absurd ⟨status, text, hstatus, htext⟩ hfailed

theorem fixed_clean : Fixed (Clean X.room) := by
  have hroom : 0 < X.room := by
    have hroomy := X.roomy
    unfold room
    omega
  refine ⟨fun s hs => ⟨hroom, ?_⟩, fun n _ => ⟨hroom, by simp [holdsIn]⟩⟩
  have htexts : ∀ s ∈ fixedTexts, encodable s = true := by decide
  rw [holdsIn]
  exact htexts s hs

end

end Exchange

/-- Every verdict reaches the client unchanged exactly when what it shows of the outputs, the
expected outputs and the messages has only finite floats, no surrogate, and does not nest
too deeply. -/
theorem verdict_delivered_iff (outputsMatch : Json → Json → Except PyExc Bool) (X : Exchange) :
    (∀ v, X.outcome outputsMatch = .ok v → X.Delivered outputsMatch v) ↔
      ScriptShows (Clean X.room) outputsMatch (X.scenario.script X.request) X.request := by
  have hscript : X.outcome outputsMatch =
      (execute outputsMatch (X.scenario.script X.request).executor X.request 0).1 :=
    Scenario.pipelineExecute_host X.scenario X.request
  have hgenuine := (execute_shows_iff fixed_genuine _ X.request rfl).mpr
    (scriptShows_genuine outputsMatch X)
  rw [← execute_shows_iff Exchange.fixed_clean _ X.request rfl, ← hscript]
  rw [← hscript] at hgenuine
  exact forall₂_congr fun v hv => Exchange.delivered_iff hv (hgenuine v hv)

/-- What the wrapper prints for a submission that returns `float("nan")`. -/
def nanBlock : PyStr := "\x7b\"result\": NaN\x7d"

def nanText : PyStr := resultStart ++ nanBlock ++ resultEnd ++ ("\n" : PyStr)

theorem parseBlock_nan : parseBlock 900 nanBlock = .ok (some [("result", .float .nan)]) := by
  have hvalue : Within (Writable defaultStyle) PlainStr 1 (.obj [("result", .float .nan)]) := by
    refine .obj (by simp) ?_ ?_
    · intro item hitem
      obtain rfl := List.mem_singleton.mp hitem
      exact plainStr_of_encodable (by decide)
    · intro item hitem
      obtain rfl := List.mem_singleton.mp hitem
      exact .float (.inl rfl)
  obtain ⟨text, hdumps, hloads⟩ := loads_dumps (fun _ => unpaired_of_plain) hvalue
  obtain rfl : text = nanBlock := Except.ok.inj ((hdumps 1 le_rfl).symm.trans rfl)
  rw [parseBlock, hloads 900 (by norm_num)]

theorem decodeRun_nan : decodeRun 900 (.exited nanText [] 0) =
    .ok (.exited ⟨some [("result", .float .nan)], [], [], 0⟩) := by
  let after : PyStr := nanBlock ++ resultEnd ++ ("\n" : PyStr)
  have hlast : afterLast resultStart nanText = some after := by decide +kernel
  have hblock : cutFirst resultEnd after = some (nanBlock, ("\n" : PyStr)) := by decide +kernel
  have hparsed : parseWrapperOutput 900 nanText = .ok (some [("result", .float .nan)]) := by
    rw [parseWrapperOutput, hlast]
    dsimp only
    rw [hblock]
    exact parseBlock_nan
  simp only [decodeRun, hparsed]
  rfl

def nanScenario : Scenario where
  limits := Fallback.defaultLimits
  str := fun _ => []
  syntaxCheck := .passed
  wrapped := .ok []
  compiler := none
  lookCode := 0
  runs := fun _ => .ok (.exited ⟨some [("result", .float .nan)], [], [], 0⟩)
  exitCodes := by
    intro i run hrun out hout
    obtain rfl := Except.ok.inj hrun
    obtain rfl := Process.SandboxRun.exited.inj hout
    decide
  unread := by
    intro i e h
    cases h

/-- The expected output is 1. -/
def nanExchange : Exchange where
  scenario := nanScenario
  request := ResponseSchema.pythonRequest
  parseRoom := 900
  encodeRoom := 900
  decodeRoom := 900
  renderRoom := 900
  raw := fun _ => .exited nanText [] 0
  limited := fun _ => by
    have hlength : nanText.length ≤ maxStdoutBytes := by decide +kernel
    exact hlength
  decoded := fun _ => decodeRun_nan
  expected := by
    intro tc htc
    obtain rfl := List.mem_singleton.mp htc
    exact ⟨"1", rfl⟩
  roomy := by norm_num

/-- The verdict is `wrong_answer` with the output `NaN`, which `JSONResponse` refuses. -/
theorem nan_not_delivered :
    ¬ ∀ (outputsMatch : Json → Json → Except PyExc Bool) (X : Exchange) (v : Verdict),
      X.outcome outputsMatch = .ok v → X.Delivered outputsMatch v := by
  intro h
  let v : Verdict := .wrongAnswer (.int 0) (.float .nan) (.int 1)
  have hrun : nanExchange.outcome sameInt = .ok v :=
    (Scenario.pipelineExecute_host nanScenario ResponseSchema.pythonRequest).trans rfl
  have hgenuine : Shows Genuine v := by
    intro item hitem
    simp only [v, verdictDict, List.mem_cons, List.not_mem_nil, or_false] at hitem
    rcases hitem with rfl | rfl | rfl | rfl
    · exact genuine_str _
    · exact genuine_int (by decide)
    · exact ⟨0, .float trivial⟩
    · exact genuine_int (by decide)
  have hclean := (Exchange.delivered_iff hrun hgenuine).mp (h sameInt nanExchange v hrun)
  have hnan := (hclean ("actual_output", .float .nan) (by simp [v, verdictDict])).2
  cases hnan

end ExecutionEngine.Delivery
