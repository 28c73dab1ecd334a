import ExecutionEngine.ResultFraming

/-!
# The results printed before a batch fails

A wrapper that runs a batch prints the result of one test case after the other. When the
process dies or hangs, the next test case is the one that has failed. The judge counts the
results that it finds in the output, and it finds those that are printed after text which
does not end in the opening marker without its last one or two underscores.
-/
namespace ExecutionEngine.FailedCase
open JsonEncoder Pipeline Process WrapperOutput BatchIndex ResultFraming

/-- The program has printed results for the first test cases only, and died or hung. It may have
begun with the next result. -/
structure Stopped (room count : ℕ) (raw : RawRun) where
  reports : List (Report room)
  last : List CodePoint
  printed_eq : printed raw = some (output reports last)
  unfinished : ¬ closing <:+: last
  few : reports.length < count

/-- The verdict says that the test case has failed. -/
def Blames (k : ℕ) (verdict : Except PyExc Verdict) : Prop :=
  ∃ v, verdict = .ok v ∧ v.failedTestCaseIndex = some (.int k)

theorem lead_unmarked : Unmarked (lit "x = 1") := by decide +kernel

def firstReport : Report 1000 := ofEmission (printing (lit "x = 1") lead_unmarked)

/-- A program that ends with exit code 139 after the first of two results, of which it has begun
the second. -/
def crashed : RawRun := .exited (output [firstReport] opening) "" 139

def crashedStopped : Stopped 1000 2 crashed where
  reports := [firstReport]
  last := opening
  printed_eq := rfl
  unfinished := by decide
  few := by decide

end ExecutionEngine.FailedCase
