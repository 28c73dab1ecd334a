import ExecutionEngine.StreamedResults
import ExecutionEngine.Transition

/-!
# Reading the output of a batch

`run_batch_wrapper` feeds the payload to the process and then reads its two streams at the
same time, each in chunks as they come, until both have ended. A stream that grows beyond
the limit ends the run, and so does the clock, at any moment. The sizes of the chunks, their
order and the moment at which the time is up are left open here; what the process would
write, if it were never killed, is fixed. An action is one resumption of one of the tasks.
-/
namespace ExecutionEngine.BatchStream
open Transition Pipeline Process WrapperOutput BatchIndex SandboxHost ResultFraming
open FailedCase StreamedResults

inductive Fd
  | stdout
  | stderr
  deriving DecidableEq

/-- What has been read of a stream, what is still to come, and whether its end was read. -/
structure Pipe where
  buf : List UInt8
  rest : List UInt8
  eof : Bool

inductive Ending
  | exited
  | outputLimitExceeded
  | timedOut
  | raised (exc : PyExc)

/-- `_communicate`: before the payload is written, during `gather`, and what became of it. -/
inductive Phase
  | feeding
  | draining
  | ended (how : Ending)

structure State where
  phase : Phase
  pipes : Fd → Pipe

/-- The number of bytes that `stream.read` asks for. -/
def chunkBytes : ℕ := 65536

/-- `buf.extend(chunk)` -/
def Pipe.extend (p : Pipe) (n : ℕ) : Pipe := ⟨p.buf ++ p.rest.take n, p.rest.drop n, false⟩

def State.setPipe (s : State) (fd : Fd) (p : Pipe) : State :=
  { s with pipes := Function.update s.pipes fd p }

/-- One turn of the loop of `_drain`, with a chunk of `n` bytes. -/
def State.drain (s : State) (fd : Fd) (n : ℕ) : State :=
  let p := (s.pipes fd).extend n
  if maxStdoutBytes < p.buf.length then
    { s.setPipe fd p with phase := .ended .outputLimitExceeded }
  else s.setPipe fd p

/-- `stdinLost` is the failure of `proc.stdin.drain`, which nothing catches. -/
inductive Action
  | fed
  | stdinLost (exc : PyExc)
  | read (fd : Fd) (n : ℕ)
  | close (fd : Fd)
  | exit
  | timeout

def step (s : State) : Action → Option State
  | .fed =>
    match s.phase with
    | .feeding => some { s with phase := .draining }
    | _ => none
  | .stdinLost exc =>
    match s.phase with
    | .feeding => some { s with phase := .ended (.raised exc) }
    | _ => none
  | .read fd n =>
    match s.phase with
    | .draining =>
      if (s.pipes fd).eof = false ∧ 0 < n ∧ n ≤ chunkBytes ∧ n ≤ (s.pipes fd).rest.length then
        some (s.drain fd n)
      else none
    | _ => none
  | .close fd =>
    match s.phase with
    | .draining =>
      if (s.pipes fd).eof = false ∧ (s.pipes fd).rest.length = 0 then
        some (s.setPipe fd { s.pipes fd with eof := true })
      else none
    | _ => none
  | .exit =>
    match s.phase with
    | .draining =>
      if (s.pipes .stdout).eof = true ∧ (s.pipes .stderr).eof = true then
        some { s with phase := .ended .exited }
      else none
    | _ => none
  | .timeout =>
    match s.phase with
    | .ended _ => none
    | _ => some { s with phase := .ended .timedOut }

/-- The bytes of a stream. -/
def output (proc : Completed) : Fd → List UInt8
  | .stdout => proc.stdout
  | .stderr => proc.stderr

/-- The reader of a process that, left alone, would write these bytes and end so. -/
def reader (proc : Completed) : System State Action where
  init := ⟨.feeding, fun fd => ⟨[], output proc fd, false⟩⟩
  step := step

section
variable (str : Json → PyStr) (room count : ℕ) (proc : Completed)

/-- What `run_batch_wrapper` returns or raises. -/
def outcome (s : State) : Option (Except PyExc (List RunValue)) :=
  match s.phase with
  | .ended .exited =>
    some (batchOutcome str room count (.exited (decodeReplace (s.pipes .stdout).buf)
      (decodeReplace (s.pipes .stderr).buf) proc.returncode))
  | .ended .outputLimitExceeded => some (batchOutcome str room count .outputLimitExceeded)
  | .ended .timedOut =>
    some (batchOutcome str room count (.timedOut (decodeReplace (s.pipes .stdout).buf)))
  | .ended (.raised exc) => some (.error exc)
  | _ => none

/-- The process as if its output were read at once. -/
def atOnce : RawRun :=
  if maxStdoutBytes < proc.stdout.length ∨ maxStdoutBytes < proc.stderr.length then
    .outputLimitExceeded
  else .exited (decodeReplace proc.stdout) (decodeReplace proc.stderr) proc.returncode

end

theorem step_cases {s t : State} {a : Action} (h : step s a = some t) :
    (a = .fed ∧ s.phase = .feeding ∧ t = { s with phase := .draining }) ∨
    (∃ exc, a = .stdinLost exc ∧ s.phase = .feeding ∧
      t = { s with phase := .ended (.raised exc) }) ∨
    (∃ fd n, a = .read fd n ∧ s.phase = .draining ∧ (s.pipes fd).eof = false ∧ 0 < n ∧
      n ≤ (s.pipes fd).rest.length ∧ t = s.drain fd n) ∨
    (∃ fd, a = .close fd ∧ s.phase = .draining ∧ (s.pipes fd).eof = false ∧
      (s.pipes fd).rest = [] ∧ t = s.setPipe fd { s.pipes fd with eof := true }) ∨
    (a = .exit ∧ s.phase = .draining ∧ (∀ fd, (s.pipes fd).eof = true) ∧
      t = { s with phase := .ended .exited }) ∨
    (a = .timeout ∧ (∀ how, s.phase ≠ .ended how) ∧ t = { s with phase := .ended .timedOut }) := by
  cases a with
  | fed =>
    simp only [step] at h
    split at h <;> [skip; cases h]
    rename_i hphase
    exact .inl ⟨rfl, hphase, (Option.some.inj h).symm⟩
  | stdinLost exc =>
    simp only [step] at h
    split at h <;> [skip; cases h]
    rename_i hphase
    exact .inr (.inl ⟨exc, rfl, hphase, (Option.some.inj h).symm⟩)
  | read fd n =>
    simp only [step] at h
    split at h <;> [skip; cases h]
    rename_i hphase
    split_ifs at h with hread
    obtain ⟨hopen, hpos, -, hlen⟩ := hread
    exact .inr (.inr (.inl ⟨fd, n, rfl, hphase, hopen, hpos, hlen, (Option.some.inj h).symm⟩))
  | close fd =>
    simp only [step] at h
    split at h <;> [skip; cases h]
    rename_i hphase
    split_ifs at h with hclose
    obtain ⟨hopen, hlen⟩ := hclose
    have hrest := List.eq_nil_of_length_eq_zero hlen
    exact .inr (.inr (.inr (.inl ⟨fd, rfl, hphase, hopen, hrest, (Option.some.inj h).symm⟩)))
  | exit =>
    simp only [step] at h
    split at h <;> [skip; cases h]
    rename_i hphase
    split_ifs at h with heof
    have hall : ∀ fd, (s.pipes fd).eof = true := by
      intro fd
      cases fd with
      | stdout => exact heof.1
      | stderr => exact heof.2
    exact .inr (.inr (.inr (.inr (.inl ⟨rfl, hphase, hall, (Option.some.inj h).symm⟩))))
  | timeout =>
    simp only [step] at h
    split at h <;> [cases h; skip]
    rename_i hphase
    exact .inr (.inr (.inr (.inr (.inr ⟨rfl, hphase, (Option.some.inj h).symm⟩))))

/-- The bytes read are the first ones, and they are within the limit unless it ended the run. -/
structure Reading (proc : Completed) (s : State) : Prop where
  whole : ∀ fd, (s.pipes fd).buf ++ (s.pipes fd).rest = output proc fd
  eof : ∀ fd, (s.pipes fd).eof = true → (s.pipes fd).rest = []
  within : s.phase ≠ .ended .outputLimitExceeded →
    ∀ fd, (s.pipes fd).buf.length ≤ maxStdoutBytes
  beyond : s.phase = .ended .outputLimitExceeded →
    ∃ fd, maxStdoutBytes < (s.pipes fd).buf.length
  exited : s.phase = .ended .exited → ∀ fd, (s.pipes fd).eof = true

section
variable {proc : Completed} {s : State}

/-- A change of the phase that is not the limit. -/
theorem Reading.setPhase (h : Reading proc s) (hopen : s.phase ≠ .ended .outputLimitExceeded)
    {phase : Phase} (hphase : phase ≠ .ended .outputLimitExceeded)
    (hexited : phase = .ended .exited → ∀ fd, (s.pipes fd).eof = true) :
    Reading proc { s with phase := phase } :=
  ⟨h.whole, h.eof, fun _ => h.within hopen, fun hlimit => absurd hlimit hphase, hexited⟩

/-- A property of the streams after one of them has changed. -/
theorem forall_setPipe {P : Fd → Pipe → Prop} (hP : ∀ fd, P fd (s.pipes fd)) {fd : Fd} {p : Pipe}
    (hp : P fd p) (fd' : Fd) : P fd' ((s.setPipe fd p).pipes fd') := by
  by_cases hfd : fd' = fd
  · subst hfd
    simpa [State.setPipe] using hp
  · simpa [State.setPipe, hfd] using hP fd'

theorem Reading.close (h : Reading proc s) (hphase : s.phase = .draining) {fd : Fd}
    (hrest : (s.pipes fd).rest = []) :
    Reading proc (s.setPipe fd { s.pipes fd with eof := true }) := by
  have hopen : s.phase ≠ .ended .outputLimitExceeded := by simp [hphase]
  refine ⟨?_, ?_, fun _ => ?_, ?_, ?_⟩
  · exact forall_setPipe (P := fun fd p => p.buf ++ p.rest = output proc fd) h.whole (h.whole fd)
  · exact forall_setPipe (P := fun _ p => p.eof = true → p.rest = []) h.eof fun _ => hrest
  · exact forall_setPipe (P := fun _ p => p.buf.length ≤ maxStdoutBytes) (h.within hopen)
      (h.within hopen fd)
  · intro hlimit
    cases hphase.symm.trans hlimit
  · intro hexited
    cases hphase.symm.trans hexited

theorem Reading.drain (h : Reading proc s) (hphase : s.phase = .draining) (fd : Fd) (n : ℕ) :
    Reading proc (s.drain fd n) := by
  have hopen : s.phase ≠ .ended .outputLimitExceeded := by simp [hphase]
  have hwhole : ∀ fd', ((s.setPipe fd ((s.pipes fd).extend n)).pipes fd').buf ++
      ((s.setPipe fd ((s.pipes fd).extend n)).pipes fd').rest = output proc fd' := by
    refine forall_setPipe (P := fun fd p => p.buf ++ p.rest = output proc fd) h.whole ?_
    rw [Pipe.extend, List.append_assoc, List.take_append_drop]
    exact h.whole fd
  have heof : ∀ fd', ((s.setPipe fd ((s.pipes fd).extend n)).pipes fd').eof = true →
      ((s.setPipe fd ((s.pipes fd).extend n)).pipes fd').rest = [] :=
    forall_setPipe (P := fun _ p => p.eof = true → p.rest = []) h.eof (by simp [Pipe.extend])
  unfold State.drain
  dsimp only
  split_ifs with hlimit
  · refine ⟨hwhole, heof, fun hno => absurd rfl hno, fun _ => ⟨fd, ?_⟩, by simp⟩
    simpa [State.setPipe] using hlimit
  · refine ⟨hwhole, heof, fun _ => ?_, ?_, ?_⟩
    · exact forall_setPipe (P := fun _ p => p.buf.length ≤ maxStdoutBytes) (h.within hopen)
        (Nat.le_of_not_lt hlimit)
    · intro hlimit
      cases hphase.symm.trans hlimit
    · intro hexited
      cases hphase.symm.trans hexited

theorem Reading.step {t : State} {a : Action} (h : Reading proc s)
    (hstep : BatchStream.step s a = some t) : Reading proc t := by
  obtain ⟨-, hphase, rfl⟩ | ⟨exc, -, hphase, rfl⟩ | ⟨fd, n, -, hphase, -, -, -, rfl⟩ |
    ⟨fd, -, hphase, -, hrest, rfl⟩ | ⟨-, hphase, heof, rfl⟩ | ⟨-, hphase, rfl⟩ := step_cases hstep
  · exact h.setPhase (by simp [hphase]) (by simp) (by simp)
  · exact h.setPhase (by simp [hphase]) (by simp) (by simp)
  · exact h.drain hphase fd n
  · exact h.close hphase hrest
  · exact h.setPhase (by simp [hphase]) (by simp) fun _ => heof
  · exact h.setPhase (hphase _) (by simp) (by simp)

theorem reading_start (proc : Completed) : Reading proc (reader proc).init where
  whole := fun _ => rfl
  eof := by simp [reader]
  within := fun _ _ => Nat.zero_le _
  beyond := by simp [reader]
  exited := by simp [reader]

theorem reading_run {acts : List Action} (h : (reader proc).run acts = some s) :
    Reading proc s :=
  (reader proc).invariant (g := fun _ _ => True) (I := Reading proc)
    (fun _ _ _ hs _ hstep => hs.step hstep) (reading_start proc)
    ((reader proc).guarded_of_forall (fun _ _ _ => trivial) _) h

end

/-- How many actions a stream may still have. -/
def Pipe.left (p : Pipe) : ℕ := p.rest.length + if p.eof then 0 else 1

def Phase.left : Phase → ℕ
  | .feeding => 2
  | .draining => 1
  | .ended _ => 0

/-- How many actions the run may still have. -/
def State.left (s : State) : ℕ :=
  s.phase.left + ((s.pipes .stdout).left + (s.pipes .stderr).left)

theorem left_setPipe {s : State} {fd : Fd} {p : Pipe} (h : p.left < (s.pipes fd).left) :
    (s.setPipe fd p).left < s.left := by
  cases fd with
  | stdout =>
    have hpipe : ((s.setPipe .stdout p).pipes .stdout) = p := by simp [State.setPipe]
    have hother : ((s.setPipe .stdout p).pipes .stderr) = s.pipes .stderr := by
      simp [State.setPipe]
    have hphase : (s.setPipe .stdout p).phase = s.phase := rfl
    rw [State.left, State.left, hpipe, hother, hphase]
    omega
  | stderr =>
    have hpipe : ((s.setPipe .stderr p).pipes .stderr) = p := by simp [State.setPipe]
    have hother : ((s.setPipe .stderr p).pipes .stdout) = s.pipes .stdout := by
      simp [State.setPipe]
    have hphase : (s.setPipe .stderr p).phase = s.phase := rfl
    rw [State.left, State.left, hpipe, hother, hphase]
    omega

theorem left_step {s t : State} {a : Action} (h : step s a = some t) : t.left < s.left := by
  obtain ⟨-, hphase, rfl⟩ | ⟨exc, -, hphase, rfl⟩ | ⟨fd, n, -, hphase, hopen, hpos, hlen, rfl⟩ |
    ⟨fd, -, hphase, hopen, hrest, rfl⟩ | ⟨-, hphase, -, rfl⟩ | ⟨-, hphase, rfl⟩ := step_cases h
  · simp only [State.left, hphase, Phase.left]
    omega
  · simp only [State.left, hphase, Phase.left]
    omega
  · have hleft : ((s.pipes fd).extend n).left < (s.pipes fd).left := by
      simp only [Pipe.extend, Pipe.left, hopen, List.length_drop, Bool.false_eq_true, if_false]
      omega
    have hset := left_setPipe hleft
    unfold State.drain
    dsimp only
    split_ifs
    · refine lt_of_le_of_lt ?_ hset
      simp only [State.left, Phase.left]
      omega
    · exact hset
  · refine left_setPipe ?_
    simp [Pipe.left, hopen, hrest]
  · simp only [State.left, hphase, Phase.left]
    omega
  · cases hp : s.phase with
    | ended how => exact absurd hp (hphase how)
    | feeding =>
      simp only [State.left, hp, Phase.left]
      omega
    | draining =>
      simp only [State.left, hp, Phase.left]
      omega

theorem left_exec {proc : Completed} {s t : State} {acts : List Action}
    (h : (reader proc).exec s acts = some t) : acts.length + t.left ≤ s.left := by
  have hcount := (reader proc).countP_add_le (I := fun _ => True) (m := State.left)
    (fun _ => true) (fun _ _ _ _ _ => trivial) (fun s a u _ hu => ?_) trivial h
  · rwa [List.countP_true] at hcount
  · have hstep : u.left < s.left := left_step hu
    rw [if_pos rfl]
    omega

section
variable (str : Json → PyStr) (room count : ℕ) {proc : Completed} {s : State}

/-- A run that the clock does not end has the outcome of reading everything at once. -/
theorem outcome_eq (h : Reading proc s)
    (hend : s.phase = .ended .exited ∨ s.phase = .ended .outputLimitExceeded) :
    outcome str room count proc s = some (batchOutcome str room count (atOnce proc)) := by
  obtain hend | hend := hend
  · have hall : ∀ fd, (s.pipes fd).buf = output proc fd := by
      intro fd
      have hwhole := h.whole fd
      rwa [h.eof fd (h.exited hend fd), List.append_nil] at hwhole
    have hout : (s.pipes .stdout).buf = proc.stdout := hall .stdout
    have herr : (s.pipes .stderr).buf = proc.stderr := hall .stderr
    have hwithin := h.within (by simp [hend])
    have hlimit : ¬ (maxStdoutBytes < proc.stdout.length ∨
        maxStdoutBytes < proc.stderr.length) := by
      rw [← hout, ← herr, not_or, not_lt, not_lt]
      exact ⟨hwithin .stdout, hwithin .stderr⟩
    rw [outcome, hend, atOnce, if_neg hlimit]
    simp only [hout, herr]
  · obtain ⟨fd, hfd⟩ := h.beyond hend
    have hbeyond : maxStdoutBytes < (output proc fd).length := by
      rw [← h.whole fd, List.length_append]
      omega
    have hlimit : maxStdoutBytes < proc.stdout.length ∨ maxStdoutBytes < proc.stderr.length := by
      cases fd with
      | stdout => exact .inl hbeyond
      | stderr => exact .inr hbeyond
    rw [outcome, hend, atOnce, if_pos hlimit]

/-- While the streams are read, some task can go on without the clock. -/
theorem exists_step (hphase : s.phase = .draining) :
    ∃ a t, a ≠ .timeout ∧ step s a = some t := by
  by_cases hall : (s.pipes .stdout).eof = true ∧ (s.pipes .stderr).eof = true
  · refine ⟨.exit, { s with phase := .ended .exited }, by simp, ?_⟩
    simp only [step, hphase, if_pos hall]
  · obtain ⟨fd, hopen⟩ : ∃ fd, (s.pipes fd).eof = false := by
      by_contra hnone
      refine hall ⟨?_, ?_⟩ <;> exact Bool.eq_true_of_not_eq_false fun hf => hnone ⟨_, hf⟩
    by_cases hrest : (s.pipes fd).rest.length = 0
    · refine ⟨.close fd, s.setPipe fd { s.pipes fd with eof := true }, by simp, ?_⟩
      simp only [step, hphase, if_pos (And.intro hopen hrest)]
    · have hread : (s.pipes fd).eof = false ∧ 0 < 1 ∧ 1 ≤ chunkBytes ∧
          1 ≤ (s.pipes fd).rest.length := ⟨hopen, one_pos, by decide, by omega⟩
      refine ⟨.read fd 1, s.drain fd 1, by simp, ?_⟩
      simp only [step, hphase, if_pos hread]

/-- A step of a task that is not the clock leaves the streams being read, or ends them. -/
theorem phase_step {t : State} {a : Action} (hphase : s.phase = .draining) (ha : a ≠ .timeout)
    (h : step s a = some t) : t.phase = .draining ∨ t.phase = .ended .exited ∨
      t.phase = .ended .outputLimitExceeded := by
  obtain ⟨-, hphase', rfl⟩ | ⟨exc, -, hphase', rfl⟩ | ⟨fd, n, -, -, -, -, -, rfl⟩ |
    ⟨fd, -, -, -, -, rfl⟩ | ⟨-, -, -, rfl⟩ | ⟨rfl, -, rfl⟩ := step_cases h
  · cases hphase.symm.trans hphase'
  · cases hphase.symm.trans hphase'
  · unfold State.drain
    dsimp only
    split_ifs
    · exact .inr (.inr rfl)
    · exact .inl hphase
  · exact .inl hphase
  · exact .inr (.inl rfl)
  · exact absurd rfl ha

/-- The clock apart, every way to go on comes to the end. -/
theorem exists_end (h : Reading proc s) (hphase : s.phase = .draining) :
    ∃ acts t, (∀ a ∈ acts, a ≠ .timeout) ∧ (reader proc).exec s acts = some t ∧
      outcome str room count proc t = some (batchOutcome str room count (atOnce proc)) := by
  induction hn : s.left using Nat.strong_induction_on generalizing s with
  | _ n ih =>
    subst hn
    obtain ⟨a, t, ha, hstep⟩ := exists_step hphase
    have ht := h.step hstep
    have hfirst : (reader proc).exec s [a] = some t := by
      simp [System.exec, reader, hstep]
    obtain hdraining | hended := phase_step hphase ha hstep
    · obtain ⟨acts, u, hacts, hexec, houtcome⟩ := ih _ (left_step hstep) ht hdraining rfl
      refine ⟨a :: acts, u, ?_, (reader proc).exec_append hfirst hexec, houtcome⟩
      exact List.forall_mem_cons.mpr ⟨ha, hacts⟩
    · exact ⟨[a], t, by simpa using ha, hfirst, outcome_eq str room count ht hended⟩

theorem outcome_timedOut (hend : s.phase = .ended .timedOut) {blocks : List Dict}
    (hblocks : parseAllWrapperOutputs room (decodeReplace (s.pipes .stdout).buf) = .ok blocks) :
    outcome str room count proc s = some (.error (.executionTimeout "Time limit exceeded"
      (some (.int (min (blocks.length : ℤ) (count - 1)))))) := by
  rw [outcome, hend]
  simp only [batchOutcome, hblocks]
  rfl

end

/-- Along every run of the two readers, whatever the chunks, their order and the clock: the
run has at most as many steps as there are bytes, and four; a run that comes to its end has
the outcome of reading everything at once; while the streams are read the run can come to
that end; and a run that is out of time names a test case by results which are the first
that the whole output has. -/
theorem outcome_of_any_chunks (str : Json → PyStr) (room count : ℕ) (proc : Completed)
    (acts : List Action) (s : State) (hrun : (reader proc).run acts = some s) :
    acts.length ≤ proc.stdout.length + proc.stderr.length + 4 ∧
    (s.phase = .ended .exited ∨ s.phase = .ended .outputLimitExceeded →
      outcome str room count proc s = some (batchOutcome str room count (atOnce proc))) ∧
    (s.phase = .draining → ∃ more t, (∀ a ∈ more, a ≠ .timeout) ∧
      (reader proc).exec s more = some t ∧
        outcome str room count proc t = some (batchOutcome str room count (atOnce proc))) ∧
    (s.phase = .ended .timedOut → ∀ blocks,
      parseAllWrapperOutputs room (decodeReplace proc.stdout) = .ok blocks →
      ∃ first, first <+: blocks ∧ outcome str room count proc s =
        some (.error (.executionTimeout "Time limit exceeded"
          (some (.int (min (first.length : ℤ) (count - 1))))))) := by
  have hreading := reading_run hrun
  refine ⟨?_, outcome_eq str room count hreading, exists_end str room count hreading, ?_⟩
  · have hleft := left_exec hrun
    have hstart : (reader proc).init.left = proc.stdout.length + proc.stderr.length + 4 := by
      simp only [reader, State.left, Phase.left, Pipe.left, output]
      simp only [Bool.false_eq_true, if_false]
      omega
    omega
  · intro hend blocks hblocks
    have hwhole : (s.pipes .stdout).buf ++ (s.pipes .stdout).rest = proc.stdout :=
      hreading.whole .stdout
    rw [← hwhole] at hblocks
    obtain ⟨first, hfirst, hprefix⟩ := parseAll_cut hblocks
    exact ⟨first, hprefix, outcome_timedOut str room count hend hfirst⟩

/-- Two bytes on one stream and one on the other, read one by one. -/
theorem outcome_of_three_chunks :
    ∃ s, (reader ⟨1, [104, 105], [33]⟩).run [.fed, .read .stdout 1, .read .stderr 1,
        .close .stderr, .read .stdout 1, .close .stdout, .exit] = some s ∧
      outcome shown 1000 2 ⟨1, [104, 105], [33]⟩ s =
        some (batchOutcome shown 1000 2 (atOnce ⟨1, [104, 105], [33]⟩)) :=
  ⟨_, rfl, (outcome_of_any_chunks shown 1000 2 ⟨1, [104, 105], [33]⟩ [.fed, .read .stdout 1,
    .read .stderr 1, .close .stderr, .read .stdout 1, .close .stdout, .exit] _ rfl).2.1 (.inl rfl)⟩

/-- A batch prints its results one after the other, without markers in them or besides, and
nothing before one ends in the opening marker without its last one or two underscores. It is
said to have run out of time on the first test case whose result has not been read up to its
closing marker, whatever the chunks and wherever the last of them ends. -/
theorem timeout_names_unfinished (str : Json → PyStr) {room : ℕ} (count : ℕ) (proc : Completed)
    (es : List (Written room)) (last : List UInt8) (hlast : ¬ closing <:+: (decodeReplace last : List CodePoint))
    (hout : proc.stdout = written es last) (acts : List Action) (s : State)
    (hrun : (reader proc).run acts = some s) (hend : s.phase = .ended .timedOut) :
    outcome str room count proc s = some (.error (.executionTimeout "Time limit exceeded"
      (some (.int (min (completed es (s.pipes .stdout).buf.length : ℤ) (count - 1)))))) := by
  have hwhole : (s.pipes .stdout).buf ++ (s.pipes .stdout).rest = proc.stdout :=
    (reading_run hrun).whole .stdout
  have hparse := parseAll_written es hlast (hout.symm.trans hwhole.symm)
  have hlength : ((es.take (completed es (s.pipes .stdout).buf.length)).map
      fun e => e.value).length = completed es (s.pipes .stdout).buf.length := by
    rw [List.length_map, List.length_take, Nat.min_eq_left (completed_le es _)]
  rw [outcome_timedOut str room count hend hparse, hlength]

theorem decodeReplace_opened :
    decodeReplace (Utf8.asciiBytes (opening ++ trueText)) = opening ++ trueText := by
  have hascii : JsonAscii.Ascii (opening ++ trueText) := by decide
  exact Utf8.decodeReplace_asciiBytes hascii

/-- A result without anything before it. -/
def bare : Written 1000 where
  toReport := ofEmission (printing [] (by decide))
  bytes := Utf8.asciiBytes (opening ++ trueText)
  decoded := decodeReplace_opened
  apart := by decide

/-- The output is cut within the opening marker of the second result. -/
theorem timeout_names_second :
    ∃ s, (reader ⟨0, written [bare, bare] [], []⟩).run [.fed, .read .stdout 60, .read .stdout 9,
        .timeout] = some s ∧
      outcome shown 1000 2 ⟨0, written [bare, bare] [], []⟩ s =
        some (.error (.executionTimeout "Time limit exceeded" (some (.int 1)))) := by
  have hlast : ¬ closing <:+: [] := by decide
  exact ⟨_, rfl, timeout_names_unfinished shown 2 ⟨0, written [bare, bare] [], []⟩ [bare, bare]
    [] hlast rfl [.fed, .read .stdout 60, .read .stdout 9, .timeout] _ rfl rfl⟩

end ExecutionEngine.BatchStream
