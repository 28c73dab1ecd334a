import ExecutionEngine.ComparisonSymmetry
import ExecutionEngine.PythonRun

/-!
# Correct answers are accepted

Every value matches itself, NaN included: where `==` fails for it, the texts are equal. So a
Python submission whose answers are the expected outputs is accepted, through the wrapper
and whatever else it prints, as long as its replies can be told from the markers and its
output is within the limit.
-/
namespace ExecutionEngine.CorrectAnswers
open Binary64 Pipeline PyRepr Comparison Effect
open JsonRoundTrip Executors ResultFraming PythonRun

theorem itemsEq_self {items : List Json}
    (h : ∀ item ∈ items, (identical item item || pyEq item item) = true) :
    itemsEq items items = true := by
  induction items with
  | nil => rfl
  | cons item rest ih =>
    rw [List.forall_mem_cons] at h
    rw [itemsEq, h.1, ih h.2]
    rfl

theorem membersEq_self {members d : Dict} (hkeys : (d.map Prod.fst).Nodup)
    (hsub : members ⊆ d)
    (h : ∀ member ∈ members, (identical member.2 member.2 || pyEq member.2 member.2) = true) :
    membersEq members d = true := by
  induction members with
  | nil => rfl
  | cons member rest ih =>
    obtain ⟨key, value⟩ := member
    rw [List.forall_mem_cons] at h
    have hlookup : Dict.lookup d key = some value := lookup_of_mem hkeys (hsub List.mem_cons_self)
    rw [membersEq, hlookup, ih (fun m hm => hsub (List.mem_cons_of_mem _ hm)) h.2]
    simpa using h.1

/-- A value is the same object as itself, or equal to itself. -/
theorem same_self {v : Json} (h : KeysOnce v) : (identical v v || pyEq v v) = true := by
  induction h with
  | null => rfl
  | bool b => cases b <;> rfl
  | int n => simp [pyEq, scalarEq, asInt]
  | float x =>
    by_cases hx : x = .nan
    · rw [hx]
      rfl
    · simp [pyEq, scalarEq, Float64.eq_self.mpr hx]
  | str s => simp [pyEq, scalarEq]
  | arr _ ih =>
    rw [pyEq, itemsEq_self ih, Bool.or_true]
  | obj hkeys _ ih =>
    rw [pyEq, membersEq_self hkeys (List.Subset.refl _) ih]
    simp

theorem eq_nan_of_identical_self {v : Json} (h : identical v v = true) : v = .float .nan := by
  unfold identical at h
  split at h
  · rfl
  · cases h

/-- `_outputs_match(v, v)` -/
theorem outputsMatch_self (printable : CodePoint → Bool) {v : Json} (h : KeysOnce v) (room : ℕ) :
    outputsMatch printable (room + 2) v v = .ok true := by
  by_cases hself : pyEq v v = true
  · have hvalues : valuesMatch (room + 1) v v = .ok true :=
      (valuesMatch.eq_def (room + 1) v v).trans (if_pos hself)
    rw [outputsMatch, hvalues]
    rfl
  · have hsame := same_self h
    rw [Bool.eq_false_iff.mpr hself, Bool.or_false] at hsame
    obtain rfl := eq_nan_of_identical_self hsame
    have htexts : textsMatch printable (.float .nan) (.float .nan) = true :=
      textsMatch_self rfl
    have hvalues : ∃ b, valuesMatch (room + 1) (.float .nan) (.float .nan) = .ok b :=
      ⟨_, (valuesMatch.eq_def (room + 1) _ _).trans (if_neg hself)⟩
    obtain ⟨b, hb⟩ := hvalues
    rw [outputsMatch, hb, htexts]
    cases b <;> rfl

theorem keysOnce_of_within {number : Float64 → Prop} {text : PyStr → Prop} {room : ℕ} {v : Json}
    (h : Within number text room v) : KeysOnce v := by
  induction h with
  | null => exact .null
  | bool b => exact .bool b
  | int h => exact .int _
  | float h => exact .float _
  | str h => exact .str _
  | arr _ ih => exact .arr ih
  | obj hkeys _ _ ih => exact .obj hkeys ih

/-- Expected outputs that match themselves, each of them returned by the submission. -/
theorem runEach_correct {σ : Type} (outputsMatch : Json → Json → Except PyExc Bool)
    (x : Executor σ) (inPlace : Option Bool) {testCases : List TestCase}
    (hself : ∀ tc ∈ testCases, outputsMatch tc.expectedOutput tc.expectedOutput = .ok true)
    (hrun : ∀ tc ∈ testCases, x.run tc.input = .lift (.ok (.plain tc.expectedOutput)))
    (index : ℕ) (actual : List Json) (s : σ) :
    runEach outputsMatch x inPlace index testCases actual s =
      (.ok (.accepted (actual ++ testCases.map TestCase.expectedOutput)), s) := by
  induction testCases generalizing index actual with
  | nil =>
    rw [runEach, List.map_nil, List.append_nil]
    rfl
  | cons tc rest ih =>
    rw [List.forall_mem_cons] at hself hrun
    have hmatch : resultMatches outputsMatch (.plain tc.expectedOutput) tc.expectedOutput =
        .ok true := hself.1
    have hattempt : (x.run tc.input).attempt s = (.ok (.ok (.plain tc.expectedOutput)), s) := by
      rw [hrun.1]
      rfl
    rw [runEach, Comp.bind_ok hattempt]
    simp only [applyInPlace, hmatch, Comp.lift_ok_bind, if_true, reported]
    refine (ih hself.2 hrun.2 (index + 1) (actual ++ [tc.expectedOutput])).trans ?_
    rw [List.append_assoc, List.map_cons, List.singleton_append]

/-- A Python submission that returns the expected outputs, in replies without a marker and in
an output that is not too long, is accepted, whatever else it prints, and the outputs shown
are the expected ones. -/
theorem correct_answers_accepted {σ : Type} (printable : CodePoint → Bool)
    (compareRoom room wrapperRoom : ℕ) (submission : Submission) (req : Request)
    (x : Executor σ) (hbatch : x.runBatch = none)
    (hrun : ∀ tc ∈ req.testCases, ∀ r, run submission (strOf printable) room wrapperRoom
      req.functionName tc.input = some r → x.run tc.input = .lift r)
    (hcalls : ∀ tc ∈ req.testCases,
      Carried room wrapperRoom (namedInput req.functionName tc.input))
    (hreplies : ∀ tc ∈ req.testCases,
      Framed room wrapperRoom (submission req.functionName tc.input))
    (hcorrect : ∀ tc ∈ req.testCases,
      (submission req.functionName tc.input).answer = .returned tc.expectedOutput) (s : σ) :
    judge (outputsMatch printable (compareRoom + 2)) x req s =
      (.ok (.accepted (req.testCases.map TestCase.expectedOutput)), s) := by
  have hkeys : ∀ tc ∈ req.testCases, KeysOnce tc.expectedOutput := by
    intro tc htc
    obtain ⟨more, hmore⟩ := (hreplies tc htc).carried.isJson
    rw [hcorrect tc htc] at hmore
    cases hmore with
    | obj _ _ h => exact keysOnce_of_within (h _ List.mem_cons_self)
  have hanswers : ∀ tc ∈ req.testCases,
      x.run tc.input = .lift (.ok (.plain tc.expectedOutput)) := by
    intro tc htc
    have hdirect := run_eq_direct printable (hcalls tc htc) (hreplies tc htc)
    rw [hcorrect tc htc] at hdirect
    exact hrun tc htc _ hdirect
  simp only [judge, hbatch]
  exact runEach_correct _ x req.inPlace
    (fun tc htc => outputsMatch_self printable (hkeys tc htc) compareRoom) hanswers 0 [] s

/-- Two test cases, with an argument each. -/
theorem correct_answers_accepted_negation :
    judge (outputsMatch (fun _ => true) 1000) negationExecutor negationRequest () =
      (.ok (.accepted [.bool false, .bool true]), ()) := by
  refine correct_answers_accepted (fun _ => true) 998 1000 1000 negation _ negationExecutor rfl
    ?_ ?_ ?_ ?_ ()
  · intro tc _ r hr
    exact congrArg (fun o => Comp.lift (Option.getD o (.ok (.plain .null)))) hr
  · intro tc htc
    obtain ⟨b, rfl⟩ := negationRequest_cases htc
    exact carried_call b
  · intro tc htc
    obtain ⟨b, rfl⟩ := negationRequest_cases htc
    exact framed_reply b
  · intro tc htc
    obtain ⟨b, rfl⟩ := negationRequest_cases htc
    rfl

end ExecutionEngine.CorrectAnswers
