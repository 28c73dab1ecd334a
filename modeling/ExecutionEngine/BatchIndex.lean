import ExecutionEngine.Comparison
import ExecutionEngine.WrapperOutput

/-!
# Which test case a batch says has failed

When a batch does not return all results, the index in the verdict comes from one of
four places: a field of the error object that the program printed, the number of
results before that object, the number of results printed when the time was up, or
the default 0. The first is whatever the program printed, and the second has no
bound: a program may print more results than there are test cases, or print them all
and fail then.
-/
namespace ExecutionEngine.BatchIndex
open Pipeline Process WrapperOutput Effect

section
variable (str : Json → PyStr) (room : ℕ)

/-- `run_batch_wrapper`, from what the process has left. -/
def batchOutcome (count : ℕ) : RawRun → Except PyExc (List RunValue)
  | .exited stdout stderr returncode => do
    let blocks ← parseAllWrapperOutputs room stdout
    runBatchWrapper str count (.exited ⟨none, blocks, stderr, returncode⟩)
  | .timedOut stdout => do
    let blocks ← parseAllWrapperOutputs room stdout
    runBatchWrapper str count (.timedOut blocks)
  | .outputLimitExceeded => runBatchWrapper str count .outputLimitExceeded

variable (outputsMatch : Json → Json → Except PyExc Bool)

/-- What `execute` makes of the outcome of `run_batch`. -/
def judgeOutcome (inPlace : Option Bool) (testCases : List TestCase)
    (outcome : Except PyExc (List RunValue)) : Except PyExc Verdict :=
  match outcome with
  | .error exc => if exc.isException then .ok (failure exc (batchIndex exc)) else .error exc
  | .ok results => judgeBatch outputsMatch inPlace results testCases

/-- The branch of `execute` for batches judges the outcome of `run_batch` so. -/
theorem runAll_eq {σ : Type} (req : Request) (outcome : Except PyExc (List RunValue)) (s : σ) :
    runAll outputsMatch (fun _ => .lift outcome) req s =
      (judgeOutcome outputsMatch req.inPlace req.testCases outcome, s) := by
  have hattempt : (Comp.lift outcome : Comp PyExc σ (List RunValue)).attempt s =
      (.ok outcome, s) := by
    cases outcome <;> rfl
  rw [runAll, Comp.bind_ok hattempt]
  cases outcome with
  | error exc => cases hexc : exc.isException <;> simp [judgeOutcome, hexc]
  | ok results => rfl

end

/-- The first object with an error, after so many others. -/
def firstError : ℕ → List Dict → Option (ℕ × Dict)
  | _, [] => none
  | before, block :: rest =>
    if block.contains "error" then some (before, block) else firstError (before + 1) rest

/-- The value, or 0 in place of it, is the index of a test case. -/
def Names (count : ℕ) (v : Json) : Prop :=
  v.truthy = false ∨ ∃ i : ℤ, v = .int i ∧ 0 ≤ i ∧ i < count

section
variable (str : Json → PyStr) (stderr : PyStr) (returncode : ℤ)

theorem collect_of_firstError {blocks : List Dict} {results : List RunValue} {before : ℕ}
    {block : Dict} (h : firstError results.length blocks = some (before, block)) :
    collect str stderr returncode blocks results =
      .error (.runtimeExecution (errorMessage str (some block) stderr returncode)
        (some (block.getD "failed_test_case_index" (.int before)))) := by
  induction blocks generalizing results with
  | nil => cases h
  | cons first rest ih =>
    rw [firstError] at h
    rw [collect]
    split_ifs at h ⊢ with herror
    · obtain ⟨rfl, rfl⟩ := Prod.mk.inj (Option.some.inj h)
      rfl
    · exact ih (by rw [List.length_append]; exact h)

theorem collect_of_no_error {blocks : List Dict} {results : List RunValue}
    (h : firstError results.length blocks = none) :
    collect str stderr returncode blocks results = .ok (results ++ blocks.map resultValue) := by
  induction blocks generalizing results with
  | nil => simp [collect]
  | cons first rest ih =>
    rw [firstError] at h
    rw [collect]
    split_ifs at h ⊢ with herror
    rw [ih (by rw [List.length_append]; exact h)]
    simp

variable {blocks : List Dict} {count : ℕ}

theorem runBatchWrapper_error {before : ℕ} {block : Dict}
    (h : firstError 0 blocks = some (before, block)) :
    runBatchWrapper str count (.exited ⟨none, blocks, stderr, returncode⟩) =
      .error (.runtimeExecution (errorMessage str (some block) stderr returncode)
        (some (block.getD "failed_test_case_index" (.int before)))) := by
  have hcollect : collect str stderr returncode blocks [] = _ :=
    collect_of_firstError str stderr returncode h
  rw [runBatchWrapper, hcollect]
  rfl

theorem collect_all (h : firstError 0 blocks = none) :
    collect str stderr returncode blocks [] = .ok (blocks.map resultValue) :=
  collect_of_no_error str stderr returncode h

theorem runBatchWrapper_failed (h : firstError 0 blocks = none)
    (hfail : returncode ≠ 0 ∨ blocks.length ≠ count) :
    runBatchWrapper str count (.exited ⟨none, blocks, stderr, returncode⟩) =
      .error (.runtimeExecution (errorMessage str none stderr returncode)
        (some (.int blocks.length))) := by
  have hlength : (blocks.map resultValue).length = blocks.length := List.length_map _
  rw [runBatchWrapper, collect_all str stderr returncode h]
  refine (if_pos ?_).trans ?_
  · rw [hlength]
    exact hfail
  · rw [hlength]

theorem runBatchWrapper_returned (h : firstError 0 blocks = none)
    (hlength : blocks.length = count) :
    runBatchWrapper str count (.exited ⟨none, blocks, stderr, 0⟩) =
      .ok (blocks.map resultValue) := by
  rw [runBatchWrapper, collect_all str stderr 0 h]
  refine if_neg ?_
  rw [List.length_map]
  simp [hlength]

end

/-- The objects in the output, and the exit code, lead to the index of a test case. -/
def NamesCase (count : ℕ) (blocks : List Dict) (returncode : ℤ) : Prop :=
  match firstError 0 blocks with
  | some (before, block) => Names count (block.getD "failed_test_case_index" (.int before))
  | none => blocks.length < count ∨ blocks.length = count ∧ returncode = 0

/-- What the process has left leads to the index of a test case. -/
def Indexed (room count : ℕ) : RawRun → Prop
  | .exited stdout _ returncode =>
    ∀ blocks, parseAllWrapperOutputs room stdout = .ok blocks → NamesCase count blocks returncode
  | .timedOut _ => True
  | .outputLimitExceeded => True

/-- The index in the verdict, if it has one, is that of a test case. -/
def InCases (count : ℕ) (verdict : Except PyExc Verdict) : Prop :=
  ∀ v index, verdict = .ok v → v.failedTestCaseIndex = some index →
    ∃ i : ℤ, index = .int i ∧ 0 ≤ i ∧ i < count

/-- The text of the output. -/
def printed : RawRun → Option PyStr
  | .exited stdout _ _ => some stdout
  | .timedOut stdout => some stdout
  | .outputLimitExceeded => none

section
variable {outputsMatch : Json → Json → Except PyExc Bool} {inPlace : Option Bool}
  {testCases : List TestCase}

theorem failedTestCaseIndex_failure (exc : PyExc) (index : Json) :
    (failure exc index).failedTestCaseIndex = some index := by
  cases exc <;> rfl

theorem inCases_ok {count : ℕ} {v : Verdict} {index : Json}
    (h : v.failedTestCaseIndex = some index) :
    InCases count (.ok v) ↔ ∃ i : ℤ, index = .int i ∧ 0 ≤ i ∧ i < count := by
  constructor
  · exact fun hin => hin v index rfl h
  · intro hin w index' hw hindex
    obtain rfl := Except.ok.inj hw
    obtain rfl := Option.some.inj (hindex.symm.trans h)
    exact hin

theorem judgeOutcome_error {exc : PyExc} (hexc : exc.isException = true) :
    judgeOutcome outputsMatch inPlace testCases (.error exc) =
      .ok (failure exc (batchIndex exc)) := if_pos hexc

/-- An exception leads to the index of a test case exactly if its own index does. -/
theorem inCases_error {count : ℕ} (hcount : 1 ≤ count) {exc : PyExc}
    (hexc : exc.isException = true) :
    InCases count (judgeOutcome outputsMatch inPlace testCases (.error exc)) ↔
      ∀ v, exc.failedTestCaseIndex = some v → Names count v := by
  have hzero : ∃ i : ℤ, Json.int 0 = .int i ∧ 0 ≤ i ∧ i < count := ⟨0, rfl, le_refl 0, by omega⟩
  rw [judgeOutcome_error hexc, inCases_ok (failedTestCaseIndex_failure exc _)]
  unfold batchIndex
  cases exc.failedTestCaseIndex with
  | none => exact iff_of_true hzero (by simp)
  | some v =>
    simp only [Option.some.injEq, forall_eq', Names]
    cases hv : v.truthy with
    | false => exact iff_of_true hzero (.inl rfl)
    | true => simp

theorem firstMismatch_index {index : ℕ} {pairs : List (RunValue × TestCase)} {v : Verdict}
    (h : firstMismatch outputsMatch index pairs = .ok (some v)) :
    ∃ i : ℕ, v.failedTestCaseIndex = some (.int i) ∧ i < index + pairs.length := by
  induction pairs generalizing index with
  | nil => cases Except.ok.inj h
  | cons p rest ih =>
    obtain ⟨result, tc⟩ := p
    obtain ⟨b, -, h⟩ := JsonRoundTrip.bind_eq_ok h
    cases b with
    | true =>
      obtain ⟨i, hi, hlt⟩ := ih h
      exact ⟨i, hi, by rw [List.length_cons]; omega⟩
    | false =>
      obtain ⟨shown, -, h⟩ := JsonRoundTrip.bind_eq_ok h
      obtain rfl := Option.some.inj (Except.ok.inj h)
      exact ⟨index, rfl, by rw [List.length_cons]; omega⟩

/-- The first output that does not match belongs to a test case. -/
theorem inCases_judgeBatch {results : List RunValue} (h : results.length = testCases.length) :
    InCases testCases.length (judgeBatch outputsMatch inPlace results testCases) := by
  intro v index hv hindex
  unfold judgeBatch at hv
  rw [if_neg (not_not.mpr h)] at hv
  obtain ⟨m, hm, hv⟩ := JsonRoundTrip.bind_eq_ok hv
  cases m with
  | none =>
    obtain ⟨shown, -, hv⟩ := JsonRoundTrip.bind_eq_ok hv
    obtain rfl := Except.ok.inj hv
    cases hindex
  | some verdict =>
    obtain rfl := Except.ok.inj hv
    obtain ⟨i, hi, hlt⟩ := firstMismatch_index hm
    obtain rfl := Option.some.inj (hindex.symm.trans hi)
    refine ⟨i, rfl, Int.natCast_nonneg i, ?_⟩
    simp only [List.length_zip, List.length_map, h, min_self] at hlt
    omega

variable {str : Json → PyStr} {room : ℕ}

theorem parseBlock_error {block : PyStr} {exc : PyExc} (h : parseBlock room block = .error exc) :
    exc.isException = true ∧ exc.failedTestCaseIndex = none := by
  unfold parseBlock at h
  split at h
  · cases h
  · cases h
  · obtain rfl := Except.error.inj h
    exact ⟨rfl, rfl⟩
  · cases h

/-- Where `parse_all_wrapper_outputs` raises, the exception has no index. -/
theorem parseFrom_error {turns : ℕ} {s : PyStr} {exc : PyExc}
    (h : parseFrom room turns s = .error exc) :
    exc.isException = true ∧ exc.failedTestCaseIndex = none := by
  induction turns generalizing s with
  | zero => cases h
  | succ turns ih =>
    rw [parseFrom] at h
    split at h
    · cases h
    · split at h
      · cases h
      · rename_i block rest _
        cases hblock : parseBlock room block with
        | error e =>
          rw [hblock] at h
          obtain rfl := Except.error.inj h
          exact parseBlock_error hblock
        | ok parsed =>
          rw [hblock] at h
          cases hmore : parseFrom room turns rest with
          | error e =>
            rw [hmore] at h
            obtain rfl := Except.error.inj h
            exact ih hmore
          | ok more =>
            rw [hmore] at h
            cases h

theorem names_int {count n : ℕ} (hcount : 1 ≤ count) : Names count (.int n) ↔ n < count := by
  constructor
  · rintro (h | ⟨i, hi, -, hlt⟩)
    · have hzero : n = 0 := by simpa [Json.truthy] using h
      omega
    · have hn := Json.int.inj hi
      omega
  · exact fun h => .inr ⟨n, rfl, Int.natCast_nonneg n, by omega⟩

theorem inCases_exited (hcount : 1 ≤ testCases.length) (blocks : List Dict) (stderr : PyStr)
    (returncode : ℤ) :
    InCases testCases.length (judgeOutcome outputsMatch inPlace testCases
      (runBatchWrapper str testCases.length (.exited ⟨none, blocks, stderr, returncode⟩))) ↔
    NamesCase testCases.length blocks returncode := by
  unfold NamesCase
  cases hfirst : firstError 0 blocks with
  | some p =>
    rw [runBatchWrapper_error str stderr returncode hfirst, inCases_error hcount rfl]
    simp [PyExc.failedTestCaseIndex]
  | none =>
    by_cases hfail : returncode ≠ 0 ∨ blocks.length ≠ testCases.length
    · rw [runBatchWrapper_failed str stderr returncode hfirst hfail, inCases_error hcount rfl]
      simp only [PyExc.failedTestCaseIndex, Option.some.injEq, forall_eq', names_int hcount]
      constructor
      · exact .inl
      · rintro (h | ⟨hlength, hzero⟩)
        · exact h
        · rcases hfail with h | h
          · exact absurd hzero h
          · exact absurd hlength h
    · push Not at hfail
      obtain ⟨rfl, hlength⟩ := hfail
      rw [runBatchWrapper_returned str stderr hfirst hlength]
      refine iff_of_true (inCases_judgeBatch ?_) (.inr ⟨hlength, rfl⟩)
      rw [List.length_map, hlength]

theorem firstError_none {blocks : List Dict}
    (h : ∀ block ∈ blocks, Dict.contains block "error" = false) (before : ℕ) :
    firstError before blocks = none := by
  induction blocks generalizing before with
  | nil => rfl
  | cons block rest ih =>
    rw [firstError, if_neg (by simp [h block (by simp)])]
    exact ih (fun b hb => h b (by simp [hb])) _

/-- An index that is a number of results is kept. -/
theorem batchIndex_int {exc : PyExc} {n : ℕ} (h : exc.failedTestCaseIndex = some (.int n)) :
    batchIndex exc = .int n := by
  unfold batchIndex
  rw [h]
  cases n with
  | zero => rfl
  | succ n => simp [Json.truthy]; omega

/-- The verdict for an exception with a number of results. -/
theorem judgeOutcome_index {exc : PyExc} (hexc : exc.isException = true) {n : ℕ}
    (h : exc.failedTestCaseIndex = some (.int n)) :
    ∃ v, judgeOutcome outputsMatch inPlace testCases (.error exc) = .ok v ∧
      v.failedTestCaseIndex = some (.int n) :=
  ⟨_, judgeOutcome_error hexc, by rw [failedTestCaseIndex_failure, batchIndex_int h]⟩

theorem batchOutcome_exited {count : ℕ} {stdout : PyStr} {blocks : List Dict}
    (h : parseAllWrapperOutputs room stdout = .ok blocks) (stderr : PyStr) (returncode : ℤ) :
    batchOutcome str room count (.exited stdout stderr returncode) =
      runBatchWrapper str count (.exited ⟨none, blocks, stderr, returncode⟩) := by
  rw [batchOutcome, h]
  rfl

theorem batchOutcome_timedOut {count : ℕ} {stdout : PyStr} {blocks : List Dict}
    (h : parseAllWrapperOutputs room stdout = .ok blocks) :
    batchOutcome str room count (.timedOut stdout) =
      .error (.executionTimeout "Time limit exceeded"
        (some (.int (min (blocks.length : ℤ) (count - 1))))) := by
  rw [batchOutcome, h]
  rfl

/-- Where the parser raises, so does the batch. -/
theorem batchOutcome_raises {count : ℕ} {raw : RawRun} {stdout : PyStr} {exc : PyExc}
    (hraw : printed raw = some stdout) (h : parseAllWrapperOutputs room stdout = .error exc) :
    batchOutcome str room count raw = .error exc := by
  cases raw with
  | outputLimitExceeded => cases hraw
  | _ =>
    obtain rfl := Option.some.inj hraw
    rw [batchOutcome, h]
    rfl

/-- Without an error object, the index is the number of the objects that are found, where they
are fewer than the test cases. -/
theorem judgeOutcome_found {raw : RawRun} {stdout : PyStr} {blocks : List Dict}
    (hprinted : printed raw = some stdout)
    (hblocks : parseAllWrapperOutputs room stdout = .ok blocks)
    (herror : firstError 0 blocks = none) (hfew : blocks.length < testCases.length) :
    ∃ v, judgeOutcome outputsMatch inPlace testCases
        (batchOutcome str room testCases.length raw) = .ok v ∧
      v.failedTestCaseIndex = some (.int blocks.length) := by
  cases raw with
  | exited out stderr returncode =>
    obtain rfl := Option.some.inj hprinted
    rw [batchOutcome_exited hblocks, runBatchWrapper_failed str stderr returncode herror
      (.inr hfew.ne)]
    exact judgeOutcome_index rfl rfl
  | timedOut out =>
    obtain rfl := Option.some.inj hprinted
    have hmin : min (blocks.length : ℤ) (testCases.length - 1) = blocks.length := by omega
    rw [batchOutcome_timedOut hblocks, hmin]
    exact judgeOutcome_index rfl rfl
  | outputLimitExceeded => cases hprinted

theorem inCases_timedOut (hcount : 1 ≤ testCases.length) {stdout : PyStr} {blocks : List Dict}
    (h : parseAllWrapperOutputs room stdout = .ok blocks) :
    InCases testCases.length (judgeOutcome outputsMatch inPlace testCases
      (batchOutcome str room testCases.length (.timedOut stdout))) := by
  have hmin : min (blocks.length : ℤ) (testCases.length - 1) =
      ((min blocks.length (testCases.length - 1) : ℕ) : ℤ) := by omega
  rw [batchOutcome_timedOut h, inCases_error hcount rfl, hmin]
  simp only [PyExc.failedTestCaseIndex, Option.some.injEq, forall_eq', names_int hcount]
  omega

end

/-- The index in the verdict of a batch is that of a test case exactly if the first error object
names one, or stands after fewer results than test cases, and without one fewer objects than
test cases are found in the output, or as many and the program ended well. -/
theorem inCases_iff (str : Json → PyStr) (room : ℕ)
    (outputsMatch : Json → Json → Except PyExc Bool) (inPlace : Option Bool)
    (testCases : List TestCase) (hcount : 1 ≤ testCases.length) (raw : RawRun) :
    InCases testCases.length (judgeOutcome outputsMatch inPlace testCases
        (batchOutcome str room testCases.length raw)) ↔
      Indexed room testCases.length raw := by
  have hdefault : ∀ exc : PyExc, exc.isException = true ∧ exc.failedTestCaseIndex = none →
      InCases testCases.length (judgeOutcome outputsMatch inPlace testCases (.error exc)) := by
    intro exc ⟨hexc, hnone⟩
    rw [inCases_error hcount hexc, hnone]
    simp
  cases raw with
  | exited stdout stderr returncode =>
    cases hblocks : parseAllWrapperOutputs room stdout with
    | error exc =>
      rw [batchOutcome_raises rfl hblocks]
      refine iff_of_true (hdefault exc (parseFrom_error hblocks)) ?_
      intro blocks h
      cases hblocks.symm.trans h
    | ok blocks =>
      rw [batchOutcome_exited hblocks, inCases_exited hcount]
      constructor
      · intro hnames blocks' h
        obtain rfl := Except.ok.inj (hblocks.symm.trans h)
        exact hnames
      · exact fun h => h blocks hblocks
  | timedOut stdout =>
    refine iff_of_true ?_ trivial
    cases hblocks : parseAllWrapperOutputs room stdout with
    | error exc =>
      rw [batchOutcome_raises rfl hblocks]
      exact hdefault exc (parseFrom_error hblocks)
    | ok blocks => exact inCases_timedOut hcount hblocks
  | outputLimitExceeded => exact iff_of_true (hdefault _ ⟨rfl, rfl⟩) trivial

/-- The text of a program that has printed one result. -/
def oneResult : PyStr := resultStart ++ ("\x7b\"result\": 1\x7d" : PyStr) ++ resultEnd

theorem oneResult_blocks : ∃ blocks, parseAllWrapperOutputs 1000 oneResult = .ok blocks ∧
    blocks.length = 1 ∧ firstError 0 blocks = none := by
  have hparse : (match parseAllWrapperOutputs 1000 oneResult with
      | .ok blocks => blocks.length == 1 && (firstError 0 blocks).isNone
      | .error _ => false) = true := by
    decide +kernel
  split at hparse
  · rename_i blocks hblocks
    rw [Bool.and_eq_true, beq_iff_eq, Option.isNone_iff_eq_none] at hparse
    exact ⟨blocks, hblocks, hparse⟩
  · cases hparse

/-- `str` of what the error objects hold. -/
def shown (v : Json) : PyStr := (PyRepr.pyStr (fun _ => true) v).getD ""

end ExecutionEngine.BatchIndex
