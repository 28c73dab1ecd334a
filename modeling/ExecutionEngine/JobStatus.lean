import ExecutionEngine.JobLifecycle

/-!
# Polling the status of a job

`get_job_status` reads what the worker last wrote for a job, while a client may also wait for
its result. The two are different keys, which expire on their own. Whatever is read, the
status of a job never goes back, and both ways lead to the same result.
-/
namespace ExecutionEngine.JobStatus
open Transition Pipeline JobQueue JobLifecycle

/-- `get_job_status`. The documents are kept decoded. -/
def getJobStatus (s : State) (id : JobId) : Option Status :=
  match s.get (.job id) with
  | .status st => some st
  | _ => none

/-- How far a job is. -/
def rank : Status → ℕ
  | .queued => 0
  | .running => 1
  | .done _ => 2

section
variable {s t : State} {id : JobId}

theorem writes_setStatus (s : State) (i : JobId) (st : Status) (id : JobId) :
    s.writes id <+: (s.setStatus i st).writes id := by
  by_cases hid : id = i
  · subst hid
    simp [State.setStatus]
  · simp [State.setStatus, State.set, hid]

theorem writes_lpushJob (s : State) (job : Job) : (s.lpushJob job).writes = s.writes := by
  rw [State.lpushJob]
  split <;> rfl

theorem writes_lpushResult (s : State) (i : JobId) (result : JobResult) :
    (s.lpushResult i result).writes = s.writes := by
  simp only [State.lpushResult]
  split <;> rfl

/-- A command adds at most to what has been written for a job. -/
theorem writes_step {a : Action} (h : step s a = some t) (id : JobId) :
    s.writes id <+: t.writes id := by
  cases a with
  | push u =>
    simp only [step] at h
    split at h <;> [skip; cases h]
    rename_i job hu
    obtain rfl := Option.some.inj h
    have hstatus := writes_setStatus (s.lpushJob job) job.id .queued id
    rw [writes_lpushJob] at hstatus
    exact hstatus
  | markRunning k =>
    simp only [step] at h
    split at h <;> [skip; cases h]
    rename_i job hk
    obtain rfl := Option.some.inj h
    exact writes_setStatus s job.id .running id
  | markDone k =>
    simp only [step] at h
    split at h <;> [skip; cases h]
    rename_i job started result hk
    obtain rfl := Option.some.inj h
    have hpush := writes_lpushResult (s.setStatus job.id (.done result)) job.id result
    have hstatus := writes_setStatus s job.id (.done result) id
    rw [← hpush] at hstatus
    exact hstatus
  | blpop u =>
    simp only [step] at h
    split at h <;> [skip; cases h]
    split at h
    · obtain rfl := Option.some.inj h
      exact List.prefix_rfl
    · obtain rfl := Option.some.inj h
      exact List.prefix_rfl
    · obtain rfl := Option.some.inj h
      exact List.prefix_rfl
    · cases h
  | brpop k languages =>
    simp only [step] at h
    split at h <;> [skip; cases h]
    split_ifs at h
    · obtain rfl := Option.some.inj h
      exact List.prefix_rfl
    · split at h
      · cases h
      · obtain rfl := Option.some.inj h
        exact List.prefix_rfl
  | expire i ofResult =>
    obtain rfl := Option.some.inj h
    split_ifs
    · exact List.prefix_rfl
    · exact List.prefix_rfl
  | tick d =>
    obtain rfl := Option.some.inj h
    exact List.prefix_rfl
  | llen u i =>
    simp only [step] at h
    split at h <;> [skip; cases h]
    split_ifs at h <;> obtain rfl := Option.some.inj h <;> exact List.prefix_rfl
  | judgeAge k =>
    simp only [step] at h
    split at h <;> [skip; cases h]
    split_ifs at h <;> obtain rfl := Option.some.inj h <;> exact List.prefix_rfl
  | _ =>
    simp only [step] at h
    split at h <;> [skip; cases h]
    obtain rfl := Option.some.inj h
    exact List.prefix_rfl

theorem writes_exec {acts : List Action} (h : system.exec s acts = some t) (id : JobId) :
    s.writes id <+: t.writes id := by
  induction acts generalizing s with
  | nil =>
    obtain rfl : s = t := by simpa using h
    exact List.prefix_rfl
  | cons a acts ih =>
    obtain ⟨u, hu, hrest⟩ := system.exec_cons h
    exact (writes_step hu id).trans (ih hrest)

end

section
variable {s : State} {σ : JobId → Stage} {id : JobId}

/-- The status that is read is the one that was written last. -/
theorem getLast?_of_getJobStatus (h : Agrees σ s) {st : Status}
    (hst : getJobStatus s id = some st) : (s.writes id).getLast? = some st := by
  rw [getJobStatus] at hst
  split at hst <;> [skip; cases hst]
  rename_i st' hget
  obtain rfl := Option.some.inj hst
  obtain habsent | ⟨st, hvalue, hlast⟩ := h.redis.fits (.job id)
  · cases hget.symm.trans habsent
  · obtain rfl := Value.status.inj (hget.symm.trans hvalue)
    rw [h.history.writes]
    exact hlast

theorem rank_sorted (h : Agrees σ s) (id : JobId) :
    (s.writes id).Pairwise fun st st' => rank st ≤ rank st' := by
  rw [h.history.writes]
  cases σ id with
  | held k started => cases started <;> simp [Stage.writes, Stage.opening, rank]
  | finished k started result => cases started <;> simp [Stage.writes, Stage.opening, rank]
  | _ => simp [Stage.writes]

/-- The last of the first ones is not after the last of all. -/
theorem rank_le_of_prefix {l w : List Status} (hl : l <+: w)
    (hw : w.Pairwise fun st st' => rank st ≤ rank st') {st st' : Status}
    (hst : l.getLast? = some st) (hst' : w.getLast? = some st') : rank st ≤ rank st' := by
  obtain ⟨more, rfl⟩ := hl
  obtain rfl | ⟨more, last, rfl⟩ := List.eq_nil_or_concat more
  · rw [List.append_nil, hst] at hst'
    rw [Option.some.inj hst']
  · obtain rfl : last = st' := by simpa using hst'
    rw [List.pairwise_append] at hw
    exact hw.2.2 st (List.mem_of_getLast? hst) last (by simp)

theorem eq_done_of_rank {st : Status} (h : 2 ≤ rank st) : ∃ result, st = .done result := by
  cases st with
  | queued => simp [rank] at h
  | running => simp [rank] at h
  | done result => exact ⟨result, rfl⟩

/-- What a waiter received is the result that was pushed for its job. -/
theorem pushes_of_received (h : Agrees σ s) {x : JobId × JobId × JobResult}
    (hx : x ∈ s.received) : s.pushes x.1 = [x.2.2] := by
  obtain ⟨howner, k, started, hfin⟩ := h.history.received x hx
  rw [howner, h.history.pushes, hfin]
  rfl

theorem getLast?_of_pushes (h : Agrees σ s) {result : JobResult} (hp : s.pushes id = [result]) :
    (s.writes id).getLast? = some (.done result) := by
  rw [h.history.pushes] at hp
  rw [h.history.writes]
  cases hσ : σ id with
  | finished k started r =>
    rw [hσ] at hp
    obtain rfl : r = result := by simpa [Stage.pushes] using hp
    simp [Stage.writes]
  | _ => simp [hσ, Stage.pushes] at hp

end

/-- Along every run: a status that is read is never behind one that was read before; once it
is `done`, every later read and every waiter, before or after, has the result it names; and
once a waiter has received a result, no read finds the job queued or running. Statuses and
results may expire at any time. -/
theorem statuses_progress (acts more : List Action) (s t : State)
    (hs : system.run acts = some s) (ht : system.exec s more = some t) (id : JobId) :
    (∀ st st', getJobStatus s id = some st → getJobStatus t id = some st' →
      rank st ≤ rank st') ∧
    (∀ result, getJobStatus s id = some (.done result) →
      (∀ st, getJobStatus t id = some st → st = .done result) ∧
        ∀ x ∈ t.received, x.1 = id → x.2.2 = result) ∧
    ∀ x ∈ s.received, x.1 = id → ∀ st, getJobStatus t id = some st → st = .done x.2.2 := by
  obtain ⟨σ, hσ⟩ := agrees_run hs
  obtain ⟨τ, hτ⟩ := agrees_run (system.exec_append hs ht)
  have hgrows := writes_exec ht id
  have hranks : ∀ st st', (s.writes id).getLast? = some st → getJobStatus t id = some st' →
      rank st ≤ rank st' := fun st st' hst hst' =>
    rank_le_of_prefix hgrows (rank_sorted hτ id) hst (getLast?_of_getJobStatus hτ hst')
  have hpushed : ∀ result, .done result ∈ s.writes id → t.pushes id = [result] := fun result h =>
    ((hτ.once id).pushed result).mp (hgrows.subset h)
  have hdone : ∀ result, (s.writes id).getLast? = some (.done result) →
      ∀ st, getJobStatus t id = some st → st = .done result := by
    intro result hlast st hst
    obtain ⟨r, rfl⟩ := eq_done_of_rank (hranks _ _ hlast hst)
    have hmem := List.mem_of_getLast? (getLast?_of_getJobStatus hτ hst)
    have hr := ((hτ.once id).pushed r).mp hmem
    have hresult := hpushed result (List.mem_of_getLast? hlast)
    obtain rfl : r = result := by simpa using hr.symm.trans hresult
    rfl
  refine ⟨fun st st' hst => hranks st st' (getLast?_of_getJobStatus hσ hst), ?_, ?_⟩
  · intro result hread
    have hlast := getLast?_of_getJobStatus hσ hread
    refine ⟨hdone result hlast, fun x hx hid => ?_⟩
    subst hid
    have hresult := hpushed result (List.mem_of_getLast? hlast)
    simpa using (pushes_of_received hτ hx).symm.trans hresult
  · intro x hx hid
    subst hid
    exact hdone x.2.2 (getLast?_of_pushes hσ (pushes_of_received hσ hx))

/-- A job that is read as running, then finished, received and read again. -/
theorem statuses_progress_one_job :
    ∃ s t, system.run [.enqueue 0 .go, .llen 0 ⟨"8f14e45f", by decide⟩, .push 0, .brpop 7 [.go],
        .judgeAge 7, .markRunning 7] = some s ∧
      system.exec s [.execute 7 (.ok (.verdict (.accepted []))), .markDone 7, .blpop 0] = some t ∧
      getJobStatus s ⟨"8f14e45f", by decide⟩ = some .running ∧
      getJobStatus t ⟨"8f14e45f", by decide⟩ = some (.done (.verdict (.accepted []))) ∧
      rank .running ≤ rank (.done (.verdict (.accepted []))) :=
  ⟨_, _, rfl, rfl, rfl, rfl, (statuses_progress [.enqueue 0 .go, .llen 0 ⟨"8f14e45f", by decide⟩,
    .push 0, .brpop 7 [.go], .judgeAge 7, .markRunning 7]
    [.execute 7 (.ok (.verdict (.accepted []))), .markDone 7, .blpop 0] _ _ rfl rfl
    ⟨"8f14e45f", by decide⟩).1 _ _ rfl rfl⟩

end ExecutionEngine.JobStatus
