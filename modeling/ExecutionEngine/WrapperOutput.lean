import ExecutionEngine.JsonRoundTrip
import ExecutionEngine.Process

/-!
# Result blocks in the output of a wrapper

A wrapper prints JSON between two markers. `parse_wrapper_output` decodes the text
after the last opening marker, `parse_all_wrapper_outputs` one text after each
opening marker that follows the previous closing one. Text that is not JSON, or not
an object, is passed over; only the `RecursionError` of the decoder is not caught.
-/
namespace ExecutionEngine.WrapperOutput
open JsonDecoder JsonRoundTrip Pipeline Process

/-- `RESULT_START` -/
def resultStart : PyStr := "__JUDGE_RESULT_7f3a__"

/-- `RESULT_END` -/
def resultEnd : PyStr := "__JUDGE_END_7f3a__"

/-- The text before the first occurrence of the marker, and the text after it. -/
def cutFirst (marker : PyStr) : List CodePoint → Option (PyStr × PyStr)
  | [] => if marker.isPrefixOf [] then some ([], []) else none
  | c :: rest =>
    if marker.isPrefixOf (c :: rest) then some ([], (c :: rest).drop marker.length)
    else (cutFirst marker rest).map fun p => (c :: p.1, p.2)

/-- The text after the last occurrence of the marker. -/
def afterLast (marker : PyStr) : List CodePoint → Option PyStr
  | [] => if marker.isPrefixOf [] then some [] else none
  | c :: rest =>
    match afterLast marker rest with
    | some s => some s
    | none =>
      if marker.isPrefixOf (c :: rest) then some ((c :: rest).drop marker.length) else none

/-- The dict of a block, if it is one. -/
def parseBlock (room : ℕ) (block : PyStr) : Except PyExc (Option Dict) :=
  match loads room block with
  | .ok (.obj d) => .ok (some d)
  | .ok _ => .ok none
  | .error .recursion => .error (.other "RecursionError" "maximum recursion depth exceeded")
  | .error _ => .ok none

/-- `parse_wrapper_output` -/
def parseWrapperOutput (room : ℕ) (stdout : PyStr) : Except PyExc (Option Dict) :=
  match afterLast resultStart stdout with
  | none => .ok none
  | some rest =>
    match cutFirst resultEnd rest with
    | none => .ok none
    | some (block, _) => parseBlock room block

/-- The loop of `parse_all_wrapper_outputs`, from the text at `pos` on. Every turn takes a
marker from the text, so that its length bounds the number of turns. -/
def parseFrom (room : ℕ) : ℕ → PyStr → Except PyExc (List Dict)
  | 0, _ => .ok []
  | turns + 1, s =>
    match cutFirst resultStart s with
    | none => .ok []
    | some (_, rest) =>
      match cutFirst resultEnd rest with
      | none => .ok []
      | some (block, rest) => do
        let parsed ← parseBlock room block
        let more ← parseFrom room turns rest
        .ok (parsed.toList ++ more)

/-- `parse_all_wrapper_outputs` -/
def parseAllWrapperOutputs (room : ℕ) (stdout : PyStr) : Except PyExc (List Dict) :=
  parseFrom room stdout.length stdout

/-- What is left of a process: its output, or what it had written when it was killed. -/
inductive RawRun
  | exited (stdout stderr : PyStr) (returncode : ℤ)
  | timedOut (stdout : PyStr)
  | outputLimitExceeded

/-- `MAX_STDOUT_BYTES` -/
def maxStdoutBytes : ℕ := 1000000

/-- The output of a process that ended by itself is not too long. -/
def RawRun.Limited : RawRun → Prop
  | .exited stdout _ _ => stdout.length ≤ maxStdoutBytes
  | _ => True

/-- The run as `run_wrapper` sees it. -/
def decodeRun (room : ℕ) : RawRun → Except PyExc SandboxRun
  | .exited stdout stderr returncode => do
    let parsed ← parseWrapperOutput room stdout
    .ok (.exited ⟨parsed, [], stderr, returncode⟩)
  | .timedOut _ => .ok (.timedOut [])
  | .outputLimitExceeded => .ok .outputLimitExceeded

/-- The run as `run_batch_wrapper` sees it. -/
def decodeBatchRun (room : ℕ) : RawRun → Except PyExc SandboxRun
  | .exited stdout stderr returncode => do
    let blocks ← parseAllWrapperOutputs room stdout
    .ok (.exited ⟨none, blocks, stderr, returncode⟩)
  | .timedOut stdout => do
    let blocks ← parseAllWrapperOutputs room stdout
    .ok (.timedOut blocks)
  | .outputLimitExceeded => .ok .outputLimitExceeded

theorem parseBlock_decoded {room : ℕ} {block : PyStr} {d : Dict}
    (h : parseBlock room block = .ok (some d)) : Decoded room (.obj d) := by
  unfold parseBlock at h
  split at h
  · rename_i hloads
    obtain rfl := Option.some.inj (Except.ok.inj h)
    exact loads_decoded hloads
  · cases h
  · cases h
  · cases h

theorem parseWrapperOutput_decoded {room : ℕ} {stdout : PyStr} {d : Dict}
    (h : parseWrapperOutput room stdout = .ok (some d)) : Decoded room (.obj d) := by
  unfold parseWrapperOutput at h
  split at h
  · cases h
  · split at h
    · cases h
    · exact parseBlock_decoded h

theorem parseFrom_decoded {room turns : ℕ} {s : PyStr} {blocks : List Dict}
    (h : parseFrom room turns s = .ok blocks) : ∀ d ∈ blocks, Decoded room (.obj d) := by
  induction turns generalizing s blocks with
  | zero =>
    obtain rfl := Except.ok.inj h
    simp
  | succ turns ih =>
    rw [parseFrom] at h
    split at h
    · obtain rfl := Except.ok.inj h
      simp
    · split at h
      · obtain rfl := Except.ok.inj h
        simp
      · obtain ⟨parsed, hparsed, h⟩ := bind_eq_ok h
        obtain ⟨more, hmore, h⟩ := bind_eq_ok h
        obtain rfl := Except.ok.inj h
        intro d hd
        rcases List.mem_append.mp hd with hd | hd
        · rw [Option.mem_toList.mp hd] at hparsed
          exact parseBlock_decoded hparsed
        · exact ih hmore d hd

theorem length_parseFrom {room turns : ℕ} {s : PyStr} {blocks : List Dict}
    (h : parseFrom room turns s = .ok blocks) : blocks.length ≤ turns := by
  induction turns generalizing s blocks with
  | zero =>
    obtain rfl := Except.ok.inj h
    exact Nat.zero_le _
  | succ turns ih =>
    rw [parseFrom] at h
    split at h
    · obtain rfl := Except.ok.inj h
      exact Nat.zero_le _
    · split at h
      · obtain rfl := Except.ok.inj h
        exact Nat.zero_le _
      · obtain ⟨parsed, -, h⟩ := bind_eq_ok h
        obtain ⟨more, hmore, h⟩ := bind_eq_ok h
        obtain rfl := Except.ok.inj h
        have hparsed : parsed.toList.length ≤ 1 := by
          cases parsed <;> simp
        have hrest := ih hmore
        rw [List.length_append]
        omega

/-- The objects of a run that ended by itself are decoded values, and not too many. -/
def Printed (room : ℕ) : SandboxRun → Prop
  | .exited out =>
    (∀ d, out.parsed = some d → Decoded room (.obj d)) ∧
      (∀ d ∈ out.blocks, Decoded room (.obj d)) ∧ out.blocks.length ≤ maxStdoutBytes
  | .timedOut _ => True
  | .outputLimitExceeded => True

theorem decodeRun_printed {room : ℕ} {raw : RawRun} {run : SandboxRun}
    (h : decodeRun room raw = .ok run) : Printed room run := by
  cases raw with
  | exited stdout stderr returncode =>
    obtain ⟨parsed, hparsed, h⟩ := bind_eq_ok h
    obtain rfl := Except.ok.inj h
    refine ⟨fun d hd => ?_, List.forall_mem_nil _, Nat.zero_le _⟩
    have hsome : parsed = some d := hd
    rw [hsome] at hparsed
    exact parseWrapperOutput_decoded hparsed
  | timedOut stdout =>
    obtain rfl := Except.ok.inj h
    trivial
  | outputLimitExceeded =>
    obtain rfl := Except.ok.inj h
    trivial

theorem decodeBatchRun_printed {room : ℕ} {raw : RawRun} {run : SandboxRun}
    (hlimited : raw.Limited) (h : decodeBatchRun room raw = .ok run) : Printed room run := by
  cases raw with
  | exited stdout stderr returncode =>
    obtain ⟨blocks, hblocks, h⟩ := bind_eq_ok h
    obtain rfl := Except.ok.inj h
    refine ⟨fun d hd => ?_, parseFrom_decoded hblocks, (length_parseFrom hblocks).trans hlimited⟩
    cases hd
  | timedOut stdout =>
    obtain ⟨blocks, hblocks, h⟩ := bind_eq_ok h
    obtain rfl := Except.ok.inj h
    trivial
  | outputLimitExceeded =>
    obtain rfl := Except.ok.inj h
    trivial

end ExecutionEngine.WrapperOutput
