import ExecutionEngine.JobLifecycle

/-!
# The end of a worker

`_main` of `worker.py` gathers the loops of a worker: its slots, the reporter of the queue
depths, the reaper and one call of `ensure_pool_target`. A signal sets `_shutdown`, which
the slots and the reporter read between two rounds. The model of the queue is extended by
the flag of every worker and by the place of each of its loops, so that a run interleaves
the commands on the queue with signals and with the rounds of the loops.

After the signal every slot finishes the job it has and leaves its loop after a bounded
number of steps. No job is lost. But the reaper does not read the flag, so that the gather
never returns.
-/
namespace ExecutionEngine.Shutdown
open Transition Pipeline JobQueue JobLifecycle

/-- The place of a loop: at its test, at an `await` that ends its round or waits for a job,
in the body, or behind the loop. -/
inductive Loop
  | testing
  | blocked
  | processing
  | exited
  deriving DecidableEq, Repr

/-- Slots are numbered across all workers. -/
structure State where
  queue : JobQueue.State
  down : ℕ → Bool
  slots : ℕ → Loop
  reporter : ℕ → Loop
  reaper : ℕ → Loop
  prewarmed : ℕ → Bool

inductive Action
  | signal (w : ℕ)
  | test (k : ℕ)
  | timeout (k : ℕ)
  | queue (a : JobQueue.Action)
  | testReporter (w : ℕ)
  | report (w : ℕ)
  | sleepReporter (w : ℕ)
  | reap (w : ℕ)
  | reaped (w : ℕ)
  | prewarmed (w : ℕ)

/-- The slot whose step it is. -/
def slotOf : JobQueue.Action → Option ℕ
  | .brpop k _ => some k
  | .judgeAge k => some k
  | .markRunning k => some k
  | .execute k _ => some k
  | .markDone k => some k
  | _ => none

/-- A slot only issues `BRPOP` from its loop. -/
def enabled (slots : ℕ → Loop) : JobQueue.Action → Bool
  | .brpop k _ => slots k = .blocked
  | _ => true

/-- After a step of the slot: `BRPOP` raised or `_process` has returned, or there is a job. -/
def place : Slot → Loop
  | .idle => .testing
  | _ => .processing

/-- `while not _shutdown` -/
def tested (down : Bool) : Loop := if down then .exited else .blocked

/-- Partial step function; `worker` says to which worker a slot belongs. -/
def step (worker : ℕ → ℕ) (s : State) : Action → Option State
  | .signal w => some { s with down := Function.update s.down w true }
  | .test k =>
    match s.slots k with
    | .testing => some { s with slots := Function.update s.slots k (tested (s.down (worker k))) }
    | _ => none
  | .timeout k =>
    -- `BRPOP` returns `None`, or raises and the slot sleeps for a second
    match s.slots k with
    | .blocked => some { s with slots := Function.update s.slots k .testing }
    | _ => none
  | .queue a =>
    if enabled s.slots a then
      (JobQueue.step s.queue a).map fun q =>
        { s with
          queue := q
          slots := (slotOf a).elim s.slots fun k => Function.update s.slots k (place (q.slots k)) }
    else none
  | .testReporter w =>
    match s.reporter w with
    | .testing =>
      some { s with
             reporter := Function.update s.reporter w (if s.down w then .exited else .processing) }
    | _ => none
  | .report w =>
    match s.reporter w with
    | .processing => some { s with reporter := Function.update s.reporter w .blocked }
    | _ => none
  | .sleepReporter w =>
    match s.reporter w with
    | .blocked => some { s with reporter := Function.update s.reporter w .testing }
    | _ => none
  | .reap w =>
    match s.reaper w with
    | .blocked => some { s with reaper := Function.update s.reaper w .processing }
    | _ => none
  | .reaped w =>
    match s.reaper w with
    | .processing => some { s with reaper := Function.update s.reaper w .blocked }
    | _ => none
  | .prewarmed w => some { s with prewarmed := Function.update s.prewarmed w true }

def initial : State where
  queue := .empty
  down := fun _ => false
  slots := fun _ => .testing
  reporter := fun _ => .testing
  reaper := fun _ => .blocked
  prewarmed := fun _ => false

def system (worker : ℕ → ℕ) : System State Action := ⟨initial, step worker⟩

/-- `asyncio.gather` in `_main` returns. -/
def Gathered (worker : ℕ → ℕ) (s : State) (w : ℕ) : Prop :=
  s.reaper w = .exited ∧ s.prewarmed w = true ∧ s.reporter w = .exited ∧
    ∀ k, worker k = w → s.slots k = .exited

/-- The actions of a slot. -/
def own (k : ℕ) : Action → Bool
  | .test l => l = k
  | .timeout l => l = k
  | .queue a => slotOf a = some k
  | _ => false

/-- The slot receives a job. -/
def takes (k : ℕ) : Action → Bool
  | .queue (.brpop l _) => l = k
  | _ => false

/-- How many steps a slot needs until its job is done. -/
def work : Slot → ℕ
  | .idle => 0
  | .finishing _ _ _ => 1
  | .running _ => 2
  | .starting _ => 3
  | .popped _ => 4

theorem work_le (slot : Slot) : work slot ≤ 4 := by
  cases slot <;> simp [work]

section
variable {q q' : JobQueue.State} {a : JobQueue.Action} {k : ℕ}

theorem slots_lpushJob (q : JobQueue.State) (job : Job) : (q.lpushJob job).slots = q.slots := by
  rw [State.lpushJob]
  split <;> rfl

theorem slots_markDone (q : JobQueue.State) (id : JobId) (result : JobResult) :
    (q.markDone id result).slots = q.slots := by
  simp only [State.markDone, State.lpushResult]
  split <;> rfl

/-- The other actions leave the slots alone. -/
theorem slots_of_none (h : JobQueue.step q a = some q') (ha : slotOf a = none) :
    q'.slots = q.slots := by
  cases a with
  | brpop k languages => cases ha
  | judgeAge k => cases ha
  | markRunning k => cases ha
  | execute k outcome => cases ha
  | markDone k => cases ha
  | tick d =>
    obtain rfl := Option.some.inj h
    rfl
  | expire id ofResult =>
    obtain rfl := Option.some.inj h
    split_ifs <;> rfl
  | push t =>
    simp only [JobQueue.step] at h
    split at h <;> [skip; cases h]
    obtain rfl := Option.some.inj h
    exact slots_lpushJob _ _
  | llen t id =>
    simp only [JobQueue.step] at h
    split at h <;> [skip; cases h]
    split_ifs at h <;> obtain rfl := Option.some.inj h <;> rfl
  | blpop t =>
    simp only [JobQueue.step] at h
    split at h <;> [skip; cases h]
    split at h <;> first | cases h; done | (obtain rfl := Option.some.inj h; rfl)
  | _ =>
    simp only [JobQueue.step] at h
    split at h <;> [skip; cases h]
    obtain rfl := Option.some.inj h
    rfl

/-- A step of a slot changes this slot only. It takes a job, or it comes closer to the end of
the job it has. -/
theorem slots_of_some (h : JobQueue.step q a = some q') (ha : slotOf a = some k) :
    (∀ l, l ≠ k → q'.slots l = q.slots l) ∧
      ((∃ languages, a = .brpop k languages ∧ q.slots k = .idle) ∨
        ((∀ languages, a ≠ .brpop k languages) ∧ work (q'.slots k) < work (q.slots k))) := by
  have hupdate : ∀ (p : JobQueue.State) (slot : Slot), p.slots = q.slots →
      work slot < work (q.slots k) → (∀ l, l ≠ k → (p.setSlot k slot).slots l = q.slots l) ∧
        work ((p.setSlot k slot).slots k) < work (q.slots k) := by
    intro p slot hp hlt
    refine ⟨fun l hl => ?_, by simpa [State.setSlot] using hlt⟩
    simp [State.setSlot, hl, hp]
  cases a with
  | brpop l languages =>
    obtain rfl : l = k := Option.some.inj ha
    simp only [JobQueue.step] at h
    split at h <;> [skip; cases h]
    rename_i hidle
    refine ⟨fun j hj => ?_, .inl ⟨languages, rfl, hidle⟩⟩
    split_ifs at h
    · obtain rfl := Option.some.inj h
      rfl
    · split at h <;> [cases h; skip]
      obtain rfl := Option.some.inj h
      simp [State.setSlot, hj, State.set]
  | judgeAge l =>
    obtain rfl : l = k := Option.some.inj ha
    simp only [JobQueue.step] at h
    split at h <;> [skip; cases h]
    rename_i job hslot
    split_ifs at h
    · obtain rfl := Option.some.inj h
      obtain ⟨hother, hwork⟩ := hupdate q
        (.finishing job false (expiredResult (q.now - job.enqueuedAt))) rfl (by simp [hslot, work])
      exact ⟨hother, .inr ⟨by simp, hwork⟩⟩
    · obtain rfl := Option.some.inj h
      obtain ⟨hother, hwork⟩ := hupdate q (.starting job) rfl (by simp [hslot, work])
      exact ⟨hother, .inr ⟨by simp, hwork⟩⟩
  | markRunning l =>
    obtain rfl : l = k := Option.some.inj ha
    simp only [JobQueue.step] at h
    split at h <;> [skip; cases h]
    rename_i job hslot
    obtain rfl := Option.some.inj h
    obtain ⟨hother, hwork⟩ := hupdate (q.setStatus job.id .running) (.running job) rfl
      (by simp [hslot, work])
    exact ⟨hother, .inr ⟨by simp, hwork⟩⟩
  | execute l outcome =>
    obtain rfl : l = k := Option.some.inj ha
    simp only [JobQueue.step] at h
    split at h <;> [skip; cases h]
    rename_i job hslot
    obtain rfl := Option.some.inj h
    obtain ⟨hother, hwork⟩ := hupdate q (.finishing job true (reportedResult outcome)) rfl
      (by simp [hslot, work])
    exact ⟨hother, .inr ⟨by simp, hwork⟩⟩
  | markDone l =>
    obtain rfl : l = k := Option.some.inj ha
    simp only [JobQueue.step] at h
    split at h <;> [skip; cases h]
    rename_i job started result hslot
    obtain rfl := Option.some.inj h
    obtain ⟨hother, hwork⟩ := hupdate _ .idle (slots_markDone q job.id result)
      (by simp [hslot, work])
    exact ⟨hother, .inr ⟨by simp, hwork⟩⟩
  | _ => cases ha

/-- A slot that has a job can take its next step. -/
theorem exists_queue_step (h : q.slots k ≠ .idle) :
    ∃ a, slotOf a = some k ∧ (∀ l languages, a ≠ .brpop l languages) ∧
      (JobQueue.step q a).isSome = true := by
  cases hslot : q.slots k with
  | idle => exact absurd hslot h
  | popped job =>
    refine ⟨.judgeAge k, rfl, by simp, ?_⟩
    simp only [JobQueue.step, hslot]
    split_ifs <;> rfl
  | starting job => exact ⟨.markRunning k, rfl, by simp, by simp [JobQueue.step, hslot]⟩
  | running job =>
    exact ⟨.execute k (.ok (.verdict (.accepted []))), rfl, by simp,
      by simp [JobQueue.step, hslot]⟩
  | finishing job started result =>
    exact ⟨.markDone k, rfl, by simp, by simp [JobQueue.step, hslot]⟩

end

/-- The queue agrees with stages of the jobs, a slot is in the body of its loop when it has a
job, and no reaper has ended. -/
structure Ok (s : State) : Prop where
  agrees : ∃ σ, Agrees σ s.queue
  inBody : ∀ k, s.slots k = .processing ↔ s.queue.slots k ≠ .idle
  reaping : ∀ w, s.reaper w ≠ .exited

theorem ok_initial : Ok initial where
  agrees := ⟨_, agrees_empty⟩
  inBody k := by simp [initial, State.empty]
  reaping w := by simp [initial]

theorem place_eq_processing {slot : Slot} : place slot = .processing ↔ slot ≠ .idle := by
  cases slot <;> simp [place]

section
variable {worker : ℕ → ℕ} {s t : State} {a : Action}

/-- What one step does to a slot: nothing, one of the three ways through the head of the loop,
or a step of the body. -/
inductive Moves (worker : ℕ → ℕ) (s t : State) (k : ℕ) : Action → Prop
  | rests {a : Action} (hown : own k a = false) (hslot : t.slots k = s.slots k)
      (hjob : t.queue.slots k = s.queue.slots k) : Moves worker s t k a
  | tests (hslot : s.slots k = .testing) (hslot' : t.slots k = tested (s.down (worker k)))
      (hjob : t.queue.slots k = s.queue.slots k) : Moves worker s t k (.test k)
  | wakes (hslot : s.slots k = .blocked) (hslot' : t.slots k = .testing)
      (hjob : t.queue.slots k = s.queue.slots k) : Moves worker s t k (.timeout k)
  | takes (languages : List Language) (hslot : s.slots k = .blocked)
      (hslot' : t.slots k = place (t.queue.slots k)) :
      Moves worker s t k (.queue (.brpop k languages))
  | works {a : JobQueue.Action} (ha : slotOf a = some k)
      (hpop : ∀ languages, a ≠ .brpop k languages) (hslot : s.slots k = .processing)
      (hslot' : t.slots k = place (t.queue.slots k))
      (hwork : work (t.queue.slots k) < work (s.queue.slots k)) : Moves worker s t k (.queue a)

theorem slots_queue {b : JobQueue.Action} (h : step worker s (.queue b) = some t) :
    enabled s.slots b = true ∧ JobQueue.step s.queue b = some t.queue ∧
      t.slots = (slotOf b).elim s.slots
        (fun k => Function.update s.slots k (place (t.queue.slots k))) ∧
      t.down = s.down ∧ t.reaper = s.reaper := by
  simp only [step] at h
  split_ifs at h with henabled
  obtain ⟨q, hq, rfl⟩ := Option.map_eq_some_iff.mp h
  exact ⟨henabled, hq, rfl, rfl, rfl⟩

theorem moves_queue (hok : Ok s) {b : JobQueue.Action} (h : step worker s (.queue b) = some t)
    (k : ℕ) : Moves worker s t k (.queue b) := by
  obtain ⟨henabled, hq, hslots, -, -⟩ := slots_queue h
  cases hb : slotOf b with
  | none =>
    rw [hb] at hslots
    exact .rests (by simp [own, hb]) (congrFun hslots k) (congrFun (slots_of_none hq hb) k)
  | some l =>
    rw [hb] at hslots
    obtain ⟨hother, hcases⟩ := slots_of_some hq hb
    by_cases hkl : k = l
    · subst hkl
      have hslot' : t.slots k = place (t.queue.slots k) := by simp [hslots]
      obtain ⟨languages, rfl, -⟩ | ⟨hpop, hwork⟩ := hcases
      · exact .takes languages (of_decide_eq_true henabled) hslot'
      · have hbusy : s.queue.slots k ≠ .idle := by
          intro hidle
          rw [hidle] at hwork
          exact absurd hwork (Nat.not_lt_zero _)
        exact .works hb hpop ((hok.inBody k).mpr hbusy) hslot' hwork
    · refine .rests ?_ ?_ (hother k hkl)
      · simp only [own, hb, Option.some.injEq, decide_eq_false_iff_not]
        exact Ne.symm hkl
      · simp [hslots, hkl]

theorem moves_step (hok : Ok s) (h : step worker s a = some t) (k : ℕ) :
    Moves worker s t k a := by
  cases a with
  | queue b => exact moves_queue hok h k
  | signal w =>
    obtain rfl := Option.some.inj h
    exact .rests rfl rfl rfl
  | prewarmed w =>
    obtain rfl := Option.some.inj h
    exact .rests rfl rfl rfl
  | test l =>
    simp only [step] at h
    split at h <;> [skip; cases h]
    rename_i hslot
    obtain rfl := Option.some.inj h
    by_cases hkl : k = l
    · subst hkl
      exact .tests hslot (by simp) rfl
    · exact .rests (by simpa [own] using Ne.symm hkl) (by simp [hkl]) rfl
  | timeout l =>
    simp only [step] at h
    split at h <;> [skip; cases h]
    rename_i hslot
    obtain rfl := Option.some.inj h
    by_cases hkl : k = l
    · subst hkl
      exact .wakes hslot (by simp) rfl
    · exact .rests (by simpa [own] using Ne.symm hkl) (by simp [hkl]) rfl
  | _ =>
    simp only [step] at h
    split at h <;> [skip; cases h]
    obtain rfl := Option.some.inj h
    exact .rests rfl rfl rfl

/-- No flag is taken back. -/
theorem down_step (h : step worker s a = some t) {w : ℕ} (hw : s.down w = true) :
    t.down w = true := by
  cases a with
  | queue b => rwa [(slots_queue h).2.2.2.1]
  | signal v =>
    obtain rfl := Option.some.inj h
    by_cases hvw : w = v
    · simp [hvw]
    · simpa [hvw] using hw
  | prewarmed v =>
    obtain rfl := Option.some.inj h
    exact hw
  | _ =>
    simp only [step] at h
    split at h <;> [skip; cases h]
    obtain rfl := Option.some.inj h
    exact hw

theorem agrees_of_step (hok : Ok s) (h : step worker s a = some t) :
    ∃ σ, Agrees σ t.queue := by
  obtain ⟨σ, hσ⟩ := hok.agrees
  cases a with
  | queue b => exact agrees_step hσ (slots_queue h).2.1
  | signal v =>
    obtain rfl := Option.some.inj h
    exact ⟨σ, hσ⟩
  | prewarmed v =>
    obtain rfl := Option.some.inj h
    exact ⟨σ, hσ⟩
  | _ =>
    simp only [step] at h
    split at h <;> [skip; cases h]
    obtain rfl := Option.some.inj h
    exact ⟨σ, hσ⟩

theorem reaping_step (hok : Ok s) (h : step worker s a = some t) (w : ℕ) :
    t.reaper w ≠ .exited := by
  have hupdate : ∀ v (place : Loop), place ≠ .exited →
      Function.update s.reaper v place w ≠ .exited := by
    intro v place hplace
    by_cases hvw : w = v
    · simpa [hvw] using hplace
    · simpa [hvw] using hok.reaping w
  cases a with
  | queue b => simpa only [(slots_queue h).2.2.2.2] using hok.reaping w
  | signal v =>
    obtain rfl := Option.some.inj h
    exact hok.reaping w
  | prewarmed v =>
    obtain rfl := Option.some.inj h
    exact hok.reaping w
  | reap v =>
    simp only [step] at h
    split at h <;> [skip; cases h]
    obtain rfl := Option.some.inj h
    exact hupdate v .processing (by simp)
  | reaped v =>
    simp only [step] at h
    split at h <;> [skip; cases h]
    obtain rfl := Option.some.inj h
    exact hupdate v .blocked (by simp)
  | _ =>
    simp only [step] at h
    split at h <;> [skip; cases h]
    obtain rfl := Option.some.inj h
    exact hok.reaping w

theorem ok_step (hok : Ok s) (h : step worker s a = some t) : Ok t where
  agrees := agrees_of_step hok h
  inBody k := by
    have hbody := hok.inBody k
    cases moves_step hok h k with
    | rests hown hslot hjob => rw [hslot, hjob, hbody]
    | tests hslot hslot' hjob =>
      rw [hslot', hjob, ← hbody, hslot, tested]
      split_ifs <;> simp
    | wakes hslot hslot' hjob => simp [hslot', hjob, ← hbody, hslot]
    | takes languages hslot hslot' => rw [hslot', place_eq_processing]
    | works ha hpop hslot hslot' hwork => rw [hslot', place_eq_processing]
  reaping := reaping_step hok h

end

/-- How many steps a slot may still make once the flag is set. -/
def State.left (s : State) (k : ℕ) : ℕ :=
  match s.slots k with
  | .exited => 0
  | .testing => 1
  | .processing => 1 + work (s.queue.slots k)
  | .blocked => 6

/-- How many jobs it may still take. -/
def State.mayTake (s : State) (k : ℕ) : ℕ := if s.slots k = .blocked then 1 else 0

theorem left_le (s : State) (k : ℕ) : s.left k ≤ 6 := by
  have hwork := work_le (s.queue.slots k)
  rw [State.left]
  split <;> omega

/-- At the end of a step of the body. -/
theorem left_of_place {s : State} {k : ℕ} (h : s.slots k = place (s.queue.slots k)) :
    s.left k = 1 + work (s.queue.slots k) := by
  rw [State.left, h]
  cases s.queue.slots k <;> rfl

section
variable {worker : ℕ → ℕ} {s t : State} {a : Action} {k : ℕ}

/-- The flag of the worker of a slot is set. -/
def Down (worker : ℕ → ℕ) (k : ℕ) (s : State) : Prop := Ok s ∧ s.down (worker k) = true

theorem down_of_step (h : Down worker k s) (hstep : step worker s a = some t) :
    Down worker k t :=
  ⟨ok_step h.1 hstep, down_step hstep h.2⟩

theorem left_step (h : Down worker k s) (hstep : step worker s a = some t) :
    (if own k a then 1 else 0) + t.left k ≤ s.left k := by
  cases moves_step h.1 hstep k with
  | rests hown hslot hjob => simp [hown, State.left, hslot, hjob]
  | tests hslot hslot' hjob => simp [own, State.left, hslot, hslot', tested, h.2]
  | wakes hslot hslot' hjob => simp [own, State.left, hslot, hslot']
  | takes languages hslot hslot' =>
    have hwork := work_le (t.queue.slots k)
    have hbefore : s.left k = 6 := by simp [State.left, hslot]
    rw [left_of_place hslot', hbefore]
    split_ifs <;> omega
  | works ha hpop hslot hslot' hwork =>
    have hbefore : s.left k = 1 + work (s.queue.slots k) := by simp [State.left, hslot]
    rw [left_of_place hslot', hbefore]
    split_ifs <;> omega

theorem mayTake_step (h : Down worker k s) (hstep : step worker s a = some t) :
    (if takes k a then 1 else 0) + t.mayTake k ≤ s.mayTake k := by
  have hplace : ∀ slot, place slot ≠ .blocked := by
    intro slot
    cases slot <;> simp [place]
  cases moves_step h.1 hstep k with
  | rests hown hslot hjob =>
    have htakes : takes k a = false := by
      cases a with
      | queue b =>
        cases b with
        | brpop l languages => simpa [own, takes, slotOf] using hown
        | _ => rfl
      | _ => rfl
    simp [htakes, State.mayTake, hslot]
  | tests hslot hslot' hjob => simp [takes, State.mayTake, hslot', tested, h.2]
  | wakes hslot hslot' hjob => simp [takes, State.mayTake, hslot']
  | takes languages hslot hslot' => simp [takes, State.mayTake, hslot, hslot', hplace]
  | @works b ha hpop hslot hslot' hwork =>
    have htakes : takes k (.queue b) = false := by
      cases b with
      | brpop l languages =>
        obtain rfl : l = k := Option.some.inj ha
        exact absurd rfl (hpop languages)
      | _ => rfl
    simp [htakes, State.mayTake, hslot', hplace]

/-- A slot that has not left its loop can go on by itself. -/
theorem exists_own_step (h : Ok s) (hslot : s.slots k ≠ .exited) :
    ∃ a, own k a = true ∧ (step worker s a).isSome = true := by
  cases hk : s.slots k with
  | exited => exact absurd hk hslot
  | testing => exact ⟨.test k, by simp [own], by simp [step, hk]⟩
  | blocked => exact ⟨.timeout k, by simp [own], by simp [step, hk]⟩
  | processing =>
    obtain ⟨b, hb, hpop, hsome⟩ := exists_queue_step ((h.inBody k).mp hk)
    refine ⟨.queue b, by simp [own, hb], ?_⟩
    have henabled : enabled s.slots b = true := by
      cases b with
      | brpop l languages => exact absurd rfl (hpop l languages)
      | _ => rfl
    simpa [step, henabled] using hsome

/-- So it leaves its loop, whatever the others do. -/
theorem exists_exit (h : Down worker k s) :
    ∃ rest t, (∀ a ∈ rest, own k a = true) ∧ (system worker).exec s rest = some t ∧
      t.slots k = .exited := by
  induction hn : s.left k using Nat.strong_induction_on generalizing s with
  | _ n ih =>
    by_cases hexit : s.slots k = .exited
    · exact ⟨[], s, by simp, rfl, hexit⟩
    · obtain ⟨a, hown, hsome⟩ : ∃ a, own k a = true ∧ (step worker s a).isSome = true :=
        exists_own_step h.1 hexit
      obtain ⟨u, hu⟩ := Option.isSome_iff_exists.mp hsome
      have hless := left_step h hu
      rw [if_pos hown] at hless
      obtain ⟨rest, t, hrest, hexec, ht⟩ := ih (u.left k) (by omega) (down_of_step h hu) rfl
      refine ⟨a :: rest, t, ?_, ?_, ht⟩
      · simpa [hown] using hrest
      · change ((system worker).step s a).bind _ = _
        rw [show (system worker).step s a = some u from hu]
        exact hexec

end

/-- What is left of a slot after the signal: few steps, at most the job for which it already
waits, a way out of the loop that needs nobody else, and nothing unfinished behind it. Every
job that has been queued still waits, is in the body of a loop, or has its result pushed. -/
structure Graceful (worker : ℕ → ℕ) (s : State) (after : List Action) (t : State) (k : ℕ) :
    Prop where
  steps : after.countP (own k) ≤ 6
  jobs : after.countP (takes k) ≤ if s.slots k = .blocked then 1 else 0
  exits : ∃ rest u, (∀ a ∈ rest, own k a = true) ∧ (system worker).exec t rest = some u ∧
    u.slots k = .exited
  finished : t.slots k = .exited →
    ∀ id, (k, id) ∈ t.queue.pops → (t.queue.pushes id).length = 1
  kept : ∀ id, t.queue.writes id ≠ [] → Queued t.queue id ∨
    (∃ l, Works t.queue l id ∧ t.slots l = .processing) ∨ (t.queue.pushes id).length = 1

theorem ok_exec {worker : ℕ → ℕ} {s t : State} {acts : List Action} (hs : Ok s)
    (h : (system worker).exec s acts = some t) : Ok t :=
  (system worker).history_invariant (g := fun _ _ => True) (P := fun _ s => Ok s)
    (fun _ _ _ _ hok _ hstep => ok_step hok hstep) [] hs
    ((system worker).guarded_of_forall (fun _ _ _ => trivial) _) h

theorem processing_of_works {s : State} (h : Ok s) {k : ℕ} {id : JobId}
    (hworks : Works s.queue k id) : s.slots k = .processing := by
  obtain ⟨job, started, hholds, -⟩ := hworks
  refine (h.inBody k).mpr fun hidle => ?_
  rw [hidle] at hholds
  cases hholds

/-- A job that a slot has popped is in the slot or has its result pushed. -/
theorem works_or_pushed {s : State} (h : Ok s) {k : ℕ} {id : JobId}
    (hpop : (k, id) ∈ s.queue.pops) :
    Works s.queue k id ∨ (s.queue.pushes id).length = 1 := by
  obtain ⟨σ, hσ⟩ := h.agrees
  have hmem : k ∈ (s.queue.pops.filter fun p => p.2 = id).map Prod.fst :=
    List.mem_map.mpr ⟨(k, id), by simpa using hpop, rfl⟩
  rw [hσ.history.pops id] at hmem
  rw [hσ.works_iff, hσ.history.pushes]
  cases hstage : σ id with
  | held l started =>
    rw [hstage] at hmem
    obtain rfl : k = l := by simpa [Stage.poppers] using hmem
    exact .inl ⟨started, rfl⟩
  | finished l started result => exact .inr rfl
  | _ => simp [hstage, Stage.poppers] at hmem

theorem kept_of_ok {s : State} (h : Ok s) {id : JobId} (hid : s.queue.writes id ≠ []) :
    Queued s.queue id ∨ (∃ l, Works s.queue l id ∧ s.slots l = .processing) ∨
      (s.queue.pushes id).length = 1 := by
  obtain ⟨σ, hσ⟩ := h.agrees
  obtain ⟨hqueued, -, -⟩ | ⟨l, hworks, -⟩ | ⟨hpushed, -⟩ := (hσ.once id).somewhere hid
  · exact .inl hqueued
  · exact .inr (.inl ⟨l, hworks, processing_of_works h hworks⟩)
  · exact .inr (.inr hpushed)

/-- A signal ends the slots of a worker gracefully, along every run and whatever the other
workers and the API do; but `_main` of the worker does not return, after a signal or before. -/
theorem shutdown_graceful (worker : ℕ → ℕ) (before after : List Action) (s t : State)
    (hbefore : (system worker).run before = some s)
    (hafter : (system worker).exec s after = some t) :
    (∀ k, s.down (worker k) = true → Graceful worker s after t k) ∧
      ∀ w, ¬ Gathered worker t w := by
  have hs : Ok s := ok_exec ok_initial hbefore
  have ht : Ok t := ok_exec hs hafter
  refine ⟨fun k hdown => ?_, fun w hgathered => ht.reaping w hgathered.1⟩
  have hsteps := (system worker).countP_add_le (own k)
    (fun s a t h hstep => down_of_step h hstep) (fun s a t h hstep => left_step h hstep)
    ⟨hs, hdown⟩ hafter
  have hjobs := (system worker).countP_add_le (takes k)
    (fun s a t h hstep => down_of_step h hstep) (fun s a t h hstep => mayTake_step h hstep)
    ⟨hs, hdown⟩ hafter
  have hstays : Down worker k t :=
    (system worker).history_invariant (g := fun _ _ => True) (P := fun _ s => Down worker k s)
      (fun _ _ _ _ h _ hstep => down_of_step h hstep) [] ⟨hs, hdown⟩
      ((system worker).guarded_of_forall (fun _ _ _ => trivial) _) hafter
  refine ⟨?_, ?_, exists_exit hstays, fun hexit id hpop => ?_, fun id hid => kept_of_ok ht hid⟩
  · have hleft := left_le s k
    omega
  · exact (Nat.le_add_right _ _).trans hjobs
  · obtain hworks | hpushed := works_or_pushed ht hpop
    · rw [processing_of_works ht hworks] at hexit
      cases hexit
    · exact hpushed

/-- A slot waits for a job when the signal comes, receives one and finishes it. -/
def lastJob : List Action :=
  [.queue (.brpop 3 [.go]), .queue (.judgeAge 3), .queue (.markRunning 3),
    .queue (.execute 3 (.ok (.verdict (.accepted [])))), .queue (.markDone 3), .test 3]

theorem shutdown_graceful_last_job :
    ∃ s t, (system fun _ => 0).run [.test 3, .queue (.enqueue 0 .go),
        .queue (.llen 0 ⟨"a", by decide⟩), .signal 0, .queue (.push 0)] = some s ∧
      (system fun _ => 0).exec s lastJob = some t ∧ t.slots 3 = .exited ∧
      Graceful (fun _ => 0) s lastJob t 3 :=
  ⟨_, _, rfl, rfl, rfl, (shutdown_graceful (fun _ => 0) [.test 3, .queue (.enqueue 0 .go),
    .queue (.llen 0 ⟨"a", by decide⟩), .signal 0, .queue (.push 0)] lastJob _ _ rfl rfl).1 3 rfl⟩

end ExecutionEngine.Shutdown
