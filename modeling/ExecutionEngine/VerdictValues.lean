import ExecutionEngine.Api
import ExecutionEngine.PipelineOutcome

/-!
# The values that a verdict shows

A test on values passes on every item of the verdict's dict exactly when it passes
on what the executor's methods return and on the expected outputs, as far as the
verdict shows them: the message of the run that fails, the two outputs of the first
mismatch, or all outputs when there is none.
-/
namespace ExecutionEngine.VerdictValues
open Effect Pipeline PipelineOutcome Api

section
variable (P : Json → Prop)

/-- Every item of the dict passes. -/
def Shows (v : Verdict) : Prop := ∀ item ∈ verdictDict v, P item.2

/-- The texts that the pipeline itself puts into a verdict. -/
def fixedTexts : List PyStr :=
  ["accepted", "wrong_answer", "runtime_error", "timeout", "compilation_error", "error",
    "Invalid batch output format"]

/-- The test passes on these texts, and on the index of a test case. -/
structure Fixed : Prop where
  texts : ∀ s ∈ fixedTexts, P (.str s)
  indices : ∀ n : ℕ, n ≤ 20 → P (.int n)

/-- The message with which the exception is reported passes. -/
def Reportable (exc : PyExc) : Prop :=
  match exc with
  | .executionTimeout .. => True
  | _ => P (.str (exc.message.orElse "Runtime error"))

variable (outputsMatch : Json → Json → Except PyExc Bool)

/-- All test cases before test case `i` match. -/
def Reached (inPlace : Option Bool) (runs : ℕ → Except PyExc RunValue) (testCases : List TestCase)
    (i : ℕ) : Prop :=
  ∀ k < i, ∀ tk, testCases[k]? = some tk →
    ∃ w, runs k = .ok w ∧ compare outputsMatch inPlace w tk = .ok true

/-- All test cases match, and these are the outputs shown for them. -/
def AllMatch (inPlace : Option Bool) (runs : ℕ → Except PyExc RunValue)
    (testCases : List TestCase) (outs : List Json) : Prop :=
  outs.length = testCases.length ∧
    ∀ k tk o, testCases[k]? = some tk → outs[k]? = some o →
      ∃ w, runs k = .ok w ∧ compare outputsMatch inPlace w tk = .ok true ∧
        reported outputsMatch (applyInPlace inPlace w) tk.expectedOutput = .ok o

/-- A run that is reached and fails has a message that passes, at the first mismatch both
outputs pass, and without a mismatch all outputs shown pass, after those in `done`. -/
structure RunsShow (inPlace : Option Bool) (done : List Json) (runs : ℕ → Except PyExc RunValue)
    (testCases : List TestCase) : Prop where
  failed : ∀ i tc e, testCases[i]? = some tc →
    Reached outputsMatch inPlace runs testCases i → runs i = .error e → Reportable P e
  mismatch : ∀ i tc v shown, testCases[i]? = some tc →
    Reached outputsMatch inPlace runs testCases i → runs i = .ok v →
    compare outputsMatch inPlace v tc = .ok false →
    reported outputsMatch (applyInPlace inPlace v) tc.expectedOutput = .ok shown →
    P shown ∧ P tc.expectedOutput
  passed : ∀ outs, AllMatch outputsMatch inPlace runs testCases outs → P (.arr (done ++ outs))

/-- What the outcomes of the executor's methods must be like. -/
structure ScriptShows (S : Script) (req : Request) : Prop where
  compileError : ∀ m, S.compile = .error (.compileError m) → P (.str m)
  environmentError : ∀ m i, S.compile = .error (.runtimeExecution m i) ∨
    S.compile = .error (.executionTimeout m i) →
    P (.str (("Execution environment error: " : PyStr) ++ m))
  judged : S.compile = .ok () →
    match S.batch with
    | none => RunsShow P outputsMatch req.inPlace [] S.runs req.testCases
    | some (.error e) => P (batchIndex e) ∧ Reportable P e
    | some (.ok results) => results.length = req.testCases.length →
        RunsShow P outputsMatch req.inPlace [] (S.deliver results).runs req.testCases

end

section
variable {P : Json → Prop} (hfixed : Fixed P)

include hfixed

theorem shows_accepted (outs : List Json) : Shows P (.accepted outs) ↔ P (.arr outs) := by
  have htext := hfixed.texts "accepted" (by simp [fixedTexts])
  simp [Shows, verdictDict, htext]

theorem shows_wrongAnswer {i : ℕ} (hi : i ≤ 20) (actual expected : Json) :
    Shows P (.wrongAnswer (.int i) actual expected) ↔ P actual ∧ P expected := by
  have htext := hfixed.texts "wrong_answer" (by simp [fixedTexts])
  have hindex := hfixed.indices i hi
  simp [Shows, verdictDict, htext, hindex]

theorem shows_failure (exc : PyExc) (index : Json) :
    Shows P (Pipeline.failure exc index) ↔ P index ∧ Reportable P exc := by
  have htext := hfixed.texts "runtime_error" (by simp [fixedTexts])
  have htimeout := hfixed.texts "timeout" (by simp [fixedTexts])
  cases exc <;> simp [Pipeline.failure, Shows, verdictDict, Reportable, htext, htimeout]

theorem shows_compilationError (m : PyStr) : Shows P (.compilationError m) ↔ P (.str m) := by
  have htext := hfixed.texts "compilation_error" (by simp [fixedTexts])
  simp [Shows, verdictDict, htext]

theorem shows_error (m : PyStr) : Shows P (.error m) ↔ P (.str m) := by
  have htext := hfixed.texts "error" (by simp [fixedTexts])
  simp [Shows, verdictDict, htext]

end

section
variable {P : Json → Prop} {outputsMatch : Json → Json → Except PyExc Bool}
  {inPlace : Option Bool} {runs : ℕ → Except PyExc RunValue} {tc : TestCase}
  {rest : List TestCase} {done : List Json}

theorem reached_succ {i : ℕ} : Reached outputsMatch inPlace runs (tc :: rest) (i + 1) ↔
    (∃ w, runs 0 = .ok w ∧ compare outputsMatch inPlace w tc = .ok true) ∧
      Reached outputsMatch inPlace (fun k => runs (k + 1)) rest i := by
  constructor
  · intro h
    refine ⟨h 0 (by omega) tc rfl, fun k hk tk htk => ?_⟩
    exact h (k + 1) (by omega) tk (by simpa using htk)
  · rintro ⟨hfirst, hrest⟩ k hk tk htk
    cases k with
    | zero =>
      obtain rfl : tc = tk := by simpa using htk
      exact hfirst
    | succ k => exact hrest k (by omega) tk (by simpa using htk)

theorem allMatch_cons {outs : List Json} :
    AllMatch outputsMatch inPlace runs (tc :: rest) outs ↔
      ∃ w o more, outs = o :: more ∧ runs 0 = .ok w ∧
        compare outputsMatch inPlace w tc = .ok true ∧
        reported outputsMatch (applyInPlace inPlace w) tc.expectedOutput = .ok o ∧
        AllMatch outputsMatch inPlace (fun k => runs (k + 1)) rest more := by
  constructor
  · rintro ⟨hlength, h⟩
    obtain ⟨o, more, rfl⟩ : ∃ o more, outs = o :: more :=
      List.exists_cons_of_length_eq_add_one hlength
    obtain ⟨w, hw, hc, hshown⟩ := h 0 tc o rfl rfl
    refine ⟨w, o, more, rfl, hw, hc, hshown, by simpa using hlength, fun k tk o' htk ho => ?_⟩
    exact h (k + 1) tk o' (by simpa using htk) (by simpa using ho)
  · rintro ⟨w, o, more, rfl, hw, hc, hshown, hlength, h⟩
    refine ⟨by simpa using hlength, fun k tk o' htk ho => ?_⟩
    cases k with
    | zero =>
      obtain rfl : tc = tk := by simpa using htk
      obtain rfl : o = o' := by simpa using ho
      exact ⟨w, hw, hc, hshown⟩
    | succ k => exact h k tk o' (by simpa using htk) (by simpa using ho)

theorem runsShow_nil : RunsShow P outputsMatch inPlace done runs [] ↔ P (.arr done) := by
  constructor
  · intro h
    have hdone := h.passed [] ⟨rfl, by simp⟩
    rwa [List.append_nil] at hdone
  · intro h
    refine ⟨by simp, by simp, fun outs houts => ?_⟩
    obtain rfl := List.eq_nil_of_length_eq_zero houts.1
    rwa [List.append_nil]

/-- The first test case decides what is left to show. -/
theorem runsShow_cons :
    RunsShow P outputsMatch inPlace done runs (tc :: rest) ↔
      (∀ e, runs 0 = .error e → Reportable P e) ∧
      (∀ v, runs 0 = .ok v → compare outputsMatch inPlace v tc = .ok false → ∀ shown,
        reported outputsMatch (applyInPlace inPlace v) tc.expectedOutput = .ok shown →
        P shown ∧ P tc.expectedOutput) ∧
      ∀ v, runs 0 = .ok v → compare outputsMatch inPlace v tc = .ok true → ∀ shown,
        reported outputsMatch (applyInPlace inPlace v) tc.expectedOutput = .ok shown →
        RunsShow P outputsMatch inPlace (done ++ [shown]) (fun k => runs (k + 1)) rest := by
  have hzero : Reached outputsMatch inPlace runs (tc :: rest) 0 := by
    intro k hk
    omega
  constructor
  · intro h
    refine ⟨fun e he => h.failed 0 tc e rfl hzero he,
      fun v hv hc shown hshown => h.mismatch 0 tc v shown rfl hzero hv hc hshown, ?_⟩
    intro v hv hc shown hshown
    have hreached : ∀ i, Reached outputsMatch inPlace (fun k => runs (k + 1)) rest i →
        Reached outputsMatch inPlace runs (tc :: rest) (i + 1) :=
      fun i hi => reached_succ.mpr ⟨⟨v, hv, hc⟩, hi⟩
    refine ⟨fun i ti e hti hi he => ?_, fun i ti w o hti hi hw => ?_, fun outs houts => ?_⟩
    · exact h.failed (i + 1) ti e (by simpa using hti) (hreached i hi) he
    · exact h.mismatch (i + 1) ti w o (by simpa using hti) (hreached i hi) hw
    · have hpassed := h.passed (shown :: outs)
        (allMatch_cons.mpr ⟨v, shown, outs, rfl, hv, hc, hshown, houts⟩)
      rwa [List.append_assoc, List.singleton_append]
  · rintro ⟨hfailed, hmismatch, hnext⟩
    have hpair : ∀ i, Reached outputsMatch inPlace runs (tc :: rest) (i + 1) →
        ∃ shown, RunsShow P outputsMatch inPlace (done ++ [shown]) (fun k => runs (k + 1)) rest ∧
          Reached outputsMatch inPlace (fun k => runs (k + 1)) rest i := by
      intro i hi
      obtain ⟨⟨w, hw, hc⟩, hrest⟩ := reached_succ.mp hi
      obtain ⟨shown, hshown⟩ := reported_of_resultMatches outputsMatch hc
      exact ⟨shown, hnext w hw hc shown hshown, hrest⟩
    refine ⟨fun i ti e hti hi he => ?_, fun i ti w o hti hi hw hc ho => ?_, fun outs houts => ?_⟩
    · cases i with
      | zero => exact hfailed e he
      | succ i =>
        obtain ⟨shown, hshow, hreached⟩ := hpair i hi
        exact hshow.failed i ti e (by simpa using hti) hreached he
    · cases i with
      | zero =>
        obtain rfl : tc = ti := by simpa using hti
        exact hmismatch w hw hc o ho
      | succ i =>
        obtain ⟨shown, hshow, hreached⟩ := hpair i hi
        exact hshow.mismatch i ti w o (by simpa using hti) hreached hw hc ho
    · obtain ⟨w, o, more, rfl, hw, hc, hshown, hmore⟩ := allMatch_cons.mp houts
      have hpassed := (hnext w hw hc o hshown).passed more hmore
      rwa [List.append_assoc, List.singleton_append] at hpassed

end

section
variable {P : Json → Prop} (hfixed : Fixed P) {outputsMatch : Json → Json → Except PyExc Bool}

include hfixed

variable (outputsMatch) in
theorem runEach_shows_iff (S : Script) (inPlace : Option Bool) (testCases : List TestCase)
    (index : ℕ) (hindex : index + testCases.length ≤ 20) (done : List Json) :
    (∀ v, (runEach outputsMatch S.executor inPlace index testCases done index).1 = .ok v →
      Shows P v) ↔
      RunsShow P outputsMatch inPlace done (fun i => S.runs (index + i)) testCases := by
  induction testCases generalizing index done with
  | nil => simp [runEach, runsShow_nil, shows_accepted hfixed]
  | cons tc rest ih =>
    rw [List.length_cons] at hindex
    have hi : index ≤ 20 := by omega
    rw [runsShow_cons]
    obtain ⟨exc, hr, -, hrun⟩ | ⟨v, hr, hcase⟩ :=
      runEach_cons outputsMatch S inPlace tc rest index done
    · simp [hrun, hr, shows_failure hfixed, hfixed.indices index hi]
    · obtain ⟨exc, hc, hrun⟩ | ⟨shown, hc, hshown, hrun⟩ | ⟨shown, hc, hshown, hrun⟩ := hcase
      · simp [hrun, hr, hc]
      · have hshift : (fun i => S.runs (index + (i + 1))) = fun i => S.runs (index + 1 + i) := by
          funext i
          rw [Nat.add_assoc, Nat.add_comm 1 i]
        rw [hrun]
        refine (ih (index + 1) (by omega) (done ++ [shown])).trans ?_
        rw [← hshift]
        simp [hr, hc, hshown]
      · simp [hrun, hr, hc, hshown, shows_wrongAnswer hfixed hi]

variable (outputsMatch) in
theorem judgeBatch_shows_iff (S : Script) (inPlace : Option Bool) (results : List RunValue)
    (testCases : List TestCase) (hlength : testCases.length ≤ 20) :
    (∀ v, judgeBatch outputsMatch inPlace results testCases = .ok v → Shows P v) ↔
      (results.length = testCases.length →
        RunsShow P outputsMatch inPlace [] (S.deliver results).runs testCases) := by
  by_cases h : results.length = testCases.length
  · have hruns : ∀ i v, results[i]? = some v → (S.deliver results).runs i = .ok v := by
      intro i v hv
      simp [Script.deliver, hv]
    have heach := runEach_shows_iff hfixed outputsMatch (S.deliver results) inPlace testCases 0
      (by omega) []
    simp only [Nat.zero_add] at heach
    rw [judgeBatch_eq_runEach (S.deliver results) inPlace h hruns, heach]
    simp [h]
  · have htext := hfixed.texts "Invalid batch output format" (by simp [fixedTexts])
    have hname := hfixed.texts "runtime_error" (by simp [fixedTexts])
    have hzero := hfixed.indices 0 (by omega)
    simp only [Nat.cast_zero] at hzero
    have hshows : Shows P (.runtimeError (.int 0) "Invalid batch output format") := by
      simp [Shows, verdictDict, htext, hname, hzero]
    refine iff_of_true (fun v hv => ?_) fun hlength => absurd hlength h
    rw [judgeBatch, if_pos h] at hv
    rwa [← Except.ok.inj hv]

theorem judge_shows_iff (S : Script) (req : Request) :
    (∀ v, (judge outputsMatch S.executor req 0).1 = .ok v → Shows P v) ↔
      match S.batch with
      | none => RunsShow P outputsMatch req.inPlace [] S.runs req.testCases
      | some (.error e) => P (batchIndex e) ∧ Reportable P e
      | some (.ok results) => results.length = req.testCases.length →
          RunsShow P outputsMatch req.inPlace [] (S.deliver results).runs req.testCases := by
  have hlength := req.testCases_length.2
  cases hb : S.batch with
  | none =>
    have heach := runEach_shows_iff hfixed outputsMatch S req.inPlace req.testCases 0 (by omega) []
    simp only [Nat.zero_add] at heach
    simpa [judge, Script.executor, hb] using heach
  | some outcome =>
    have hjudge : judge outputsMatch S.executor req =
        runAll outputsMatch (fun _ => .lift outcome) req := by
      simp [judge, Script.executor, hb]
    rw [hjudge]
    cases outcome with
    | error exc =>
      have hexc := S.batch_exception exc hb
      simp [runAll, Comp.bind_apply, hexc, shows_failure hfixed]
    | ok results =>
      have hbatch := judgeBatch_shows_iff hfixed outputsMatch S req.inPlace results req.testCases
        hlength
      simpa [runAll, Comp.bind_apply] using hbatch

theorem execute_shows_iff (S : Script) (req : Request) (hcleanup : S.cleanup = .ok ()) :
    (∀ v, (execute outputsMatch S.executor req 0).1 = .ok v → Shows P v) ↔
      ScriptShows P outputsMatch S req := by
  have hcompile : S.executor.compile.attempt 0 = (.ok S.compile, 0) := rfl
  have hparts : ScriptShows P outputsMatch S req ↔
      (∀ m, S.compile = .error (.compileError m) → P (.str m)) ∧
      (∀ m i, S.compile = .error (.runtimeExecution m i) ∨
        S.compile = .error (.executionTimeout m i) →
        P (.str (("Execution environment error: " : PyStr) ++ m))) ∧
      (S.compile = .ok () → ∀ v, (judge outputsMatch S.executor req 0).1 = .ok v → Shows P v) := by
    rw [judge_shows_iff hfixed]
    exact ⟨fun h => ⟨h.compileError, h.environmentError, h.judged⟩, fun h => ⟨h.1, h.2.1, h.2.2⟩⟩
  rw [hparts, execute_of_cleanup S req hcleanup, compileAndJudge, Comp.bind_ok hcompile]
  cases hc : S.compile with
  | ok u => simp
  | error exc => cases exc <;> simp [shows_compilationError hfixed, shows_error hfixed]

end

end ExecutionEngine.VerdictValues
