import ExecutionEngine.JobQueue

/-!
# The life of a job

A job is drawn by an API task, queued, held by one slot and finished. The stage of
every job determines what has been written to its status, what has been pushed on
its result list and who popped it. The invariant says that there is an assignment
of stages with which the keyspace, the tasks and slots, and the histories agree.
Every action moves at most one job, and always forward.
-/
namespace ExecutionEngine.JobLifecycle
open Transition Pipeline JobQueue

inductive Stage
  | unborn
  | built (t : ℕ)
  | queued (job : Job)
  | held (k : ℕ) (started : Bool)
  | finished (k : ℕ) (started : Bool) (result : JobResult)

namespace Stage

/-- `queued` and, if the slot got that far, `running`. -/
def opening (started : Bool) : List Status :=
  if started then [.queued, .running] else [.queued]

def writes : Stage → List Status
  | .unborn => []
  | .built _ => []
  | .queued _ => [.queued]
  | .held _ started => opening started
  | .finished _ started result => opening started ++ [.done result]

def pushes : Stage → List JobResult
  | .finished _ _ result => [result]
  | _ => []

def poppers : Stage → List ℕ
  | .held k _ => [k]
  | .finished k _ _ => [k]
  | _ => []

end Stage

/-- The job a slot works on, and whether it has been marked as running. -/
def Slot.holds : Slot → Option (Job × Bool)
  | .idle => none
  | .popped job => some (job, false)
  | .starting job => some (job, false)
  | .running job => some (job, true)
  | .finishing job started _ => some (job, started)

/-- The jobs in the value of a queue key. -/
def entries : Value → List Job
  | .jobs l => l
  | _ => []

/-- The value of a key agrees with the stages. A status or a result list may also
have expired. -/
def Fits (σ : JobId → Stage) : Key → Value → Prop
  | .queue _, v => v = .absent ∨ ∃ l, v = .jobs l
  | .job id, v => v = .absent ∨ ∃ st, v = .status st ∧ (σ id).writes.getLast? = some st
  | .result id, v => v = .absent ∨ ∃ l, v = .results l ∧
      ∀ e ∈ l, e.1 = id ∧ ∃ k started, σ id = .finished k started e.2

structure RedisOk (σ : JobId → Stage) (redis : String → Value) : Prop where
  fits : ∀ k : Key, Fits σ k (redis k.render)
  inQueue : ∀ language, ∀ job ∈ entries (redis (Key.queue language).render),
    job.language = language ∧ σ job.id = .queued job
  nodup : ∀ language, (entries (redis (Key.queue language).render)).Nodup
  queued : ∀ id job, σ id = .queued job →
    job.id = id ∧ job ∈ entries (redis (Key.queue job.language).render)

structure PartiesOk (σ : JobId → Stage) (tasks : ℕ → ApiTask) (slots : ℕ → Slot)
    (drawn : List JobId) : Prop where
  fresh : ∀ id, id ∉ drawn → σ id = .unborn
  inTask : ∀ t job, tasks t = .pushing job → σ job.id = .built t
  inSlot : ∀ k job started, Slot.holds (slots k) = some (job, started) →
    σ job.id = .held k started
  held : ∀ id k started, σ id = .held k started →
    ∃ job, job.id = id ∧ Slot.holds (slots k) = some (job, started)

structure HistoryOk (σ : JobId → Stage) (s : State) : Prop where
  writes : ∀ id, s.writes id = (σ id).writes
  pushes : ∀ id, s.pushes id = (σ id).pushes
  pops : ∀ id, (s.pops.filter fun p => p.2 = id).map Prod.fst = (σ id).poppers
  received : ∀ x ∈ s.received, x.1 = x.2.1 ∧ ∃ k started, σ x.2.1 = .finished k started x.2.2

structure Agrees (σ : JobId → Stage) (s : State) : Prop where
  rightType : s.wrongType = false
  redis : RedisOk σ s.redis
  parties : PartiesOk σ s.tasks s.slots s.drawn
  history : HistoryOk σ s

theorem update_render (redis : String → Value) (k k' : Key) (v : Value) :
    Function.update redis k.render v k'.render = if k' = k then v else redis k'.render := by
  by_cases h : k' = k
  · subst k'
    simp
  · simp [h, Key.render_injective.ne h]

section
variable {σ : JobId → Stage} {redis : String → Value}

/-- Writing a status or a result list does not touch the queues. -/
theorem queue_update {k : Key} (hk : ∀ language, k ≠ .queue language) (v : Value)
    (language : Language) :
    Function.update redis k.render v (Key.queue language).render =
      redis (Key.queue language).render := by
  rw [update_render, if_neg (Ne.symm (hk language))]

/-- Writing a queue does not touch the other queues. -/
theorem entries_update (language : Language) (jobs : List Job) (l : Language) :
    entries (Function.update redis (Key.queue language).render (.jobs jobs) (Key.queue l).render) =
      if l = language then jobs else entries (redis (Key.queue l).render) := by
  rw [update_render]
  by_cases hl : l = language
  · simp [hl, entries]
  · simp [hl]

theorem RedisOk.set (h : RedisOk σ redis) {k : Key} {v : Value}
    (hk : ∀ language, k ≠ .queue language) (hv : Fits σ k v) :
    RedisOk σ (Function.update redis k.render v) := by
  have hqueue : ∀ language, Function.update redis k.render v (Key.queue language).render =
      redis (Key.queue language).render :=
    queue_update hk v
  refine ⟨fun k' => ?_, ?_, ?_, ?_⟩
  · rw [update_render]
    split_ifs with heq
    · subst k'
      exact hv
    · exact h.fits k'
  · intro language
    rw [hqueue]
    exact h.inQueue language
  · intro language
    rw [hqueue]
    exact h.nodup language
  · intro id job hid
    rw [hqueue]
    exact h.queued id job hid

/-- A new stage for a job that is not finished concerns its status key only. -/
theorem fits_restage {id : JobId} (h : ∀ k : Key, Fits σ k (redis k.render))
    (hunfinished : ∀ k started result, σ id ≠ .finished k started result) (st : Stage) {k : Key}
    (hk : k ≠ .job id) : Fits (Function.update σ id st) k (redis k.render) := by
  have hold := h k
  cases k with
  | queue language => exact hold
  | job i =>
    have hi : i ≠ id := fun heq => hk (by rw [heq])
    simpa [Fits, hi] using hold
  | result i =>
    by_cases hi : i = id
    · subst i
      refine hold.imp_right ?_
      rintro ⟨l, hl, hall⟩
      refine ⟨l, hl, fun e he => ?_⟩
      obtain ⟨-, k, started, hfin⟩ := hall e he
      exact absurd hfin (hunfinished k started e.2)
    · simpa [Fits, hi] using hold

/-- A job that neither is nor becomes queued moves on and its status is written. -/
theorem RedisOk.advance (h : RedisOk σ redis) (id : JobId) (st : Stage) {v : Value}
    (hq : ∀ job, σ id ≠ .queued job)
    (hunfinished : ∀ k started result, σ id ≠ .finished k started result)
    (hst : ∀ job, st ≠ .queued job) (hv : Fits (Function.update σ id st) (.job id) v) :
    RedisOk (Function.update σ id st) (Function.update redis (Key.job id).render v) := by
  have hqueue : ∀ language, Function.update redis (Key.job id).render v
      (Key.queue language).render = redis (Key.queue language).render :=
    queue_update (by simp) v
  refine ⟨fun k => ?_, ?_, ?_, ?_⟩
  · rw [update_render]
    split_ifs with heq
    · subst k
      exact hv
    · exact fits_restage h.fits hunfinished st heq
  · intro language job hjob
    rw [hqueue] at hjob
    obtain ⟨hlang, hstage⟩ := h.inQueue language job hjob
    have hne : job.id ≠ id := fun heq => hq job (heq ▸ hstage)
    exact ⟨hlang, by rwa [Function.update_of_ne hne]⟩
  · intro language
    rw [hqueue]
    exact h.nodup language
  · intro i job hi
    rw [hqueue]
    by_cases heq : i = id
    · subst i
      rw [Function.update_self] at hi
      exact absurd hi (hst job)
    · rw [Function.update_of_ne heq] at hi
      exact h.queued i job hi

/-- `LPUSH` of a new job and `SET` of its status. -/
theorem RedisOk.enqueue (h : RedisOk σ redis) {job : Job} (hq : ∀ j, σ job.id ≠ .queued j)
    (hunfinished : ∀ k started result, σ job.id ≠ .finished k started result) :
    RedisOk (Function.update σ job.id (.queued job))
      (Function.update (Function.update redis (Key.queue job.language).render
        (.jobs (job :: entries (redis (Key.queue job.language).render))))
        (Key.job job.id).render (.status .queued)) := by
  have hqueue : ∀ language, entries (Function.update (Function.update redis
      (Key.queue job.language).render (.jobs (job :: entries (redis
      (Key.queue job.language).render)))) (Key.job job.id).render (.status .queued)
      (Key.queue language).render) =
        if language = job.language then job :: entries (redis (Key.queue language).render)
        else entries (redis (Key.queue language).render) := by
    intro language
    rw [queue_update (by simp), entries_update]
    split_ifs with hl
    · rw [hl]
    · rfl
  have hnew : ∀ language, ∀ j ∈ entries (redis (Key.queue language).render), j.id ≠ job.id :=
    fun language j hj heq => hq j (heq ▸ (h.inQueue language j hj).2)
  refine ⟨fun k => ?_, fun language j hj => ?_, fun language => ?_, fun i j hi => ?_⟩
  · rw [update_render, update_render]
    split_ifs with hk hk'
    · subst k
      exact .inr ⟨.queued, rfl, by simp [Stage.writes]⟩
    · subst k
      exact .inr ⟨_, rfl⟩
    · exact fits_restage h.fits hunfinished _ hk
  · rw [hqueue] at hj
    have hcases : j = job ∧ language = job.language ∨
        j ∈ entries (redis (Key.queue language).render) := by
      split_ifs at hj with hl
      · exact (List.mem_cons.mp hj).imp_left fun heq => ⟨heq, hl⟩
      · exact .inr hj
    obtain ⟨rfl, rfl⟩ | hold := hcases
    · exact ⟨rfl, by simp⟩
    · rw [Function.update_of_ne (hnew language j hold)]
      exact h.inQueue language j hold
  · rw [hqueue]
    split_ifs with hl
    · exact List.nodup_cons.mpr ⟨fun hmem => hnew language job hmem rfl, h.nodup language⟩
    · exact h.nodup language
  · by_cases hid : i = job.id
    · subst i
      obtain rfl : job = j := by simpa using hi
      rw [hqueue]
      simp
    · rw [Function.update_of_ne hid] at hi
      obtain ⟨hji, hmem⟩ := h.queued i j hi
      rw [hqueue]
      split_ifs
      · exact ⟨hji, List.mem_cons_of_mem _ hmem⟩
      · exact ⟨hji, hmem⟩

/-- `RPOP` of a job that a slot now holds. -/
theorem RedisOk.dequeue (h : RedisOk σ redis) {language : Language} {job : Job}
    (hjob : (entries (redis (Key.queue language).render)).getLast? = some job) (k : ℕ) :
    RedisOk (Function.update σ job.id (.held k false))
      (Function.update redis (Key.queue language).render
        (.jobs (entries (redis (Key.queue language).render)).dropLast)) := by
  have hsplit := List.dropLast_append_getLast? job hjob
  have hmem : job ∈ entries (redis (Key.queue language).render) := by
    rw [← hsplit]
    simp
  obtain ⟨hlang, hstage⟩ := h.inQueue language job hmem
  have hnotin : job ∉ (entries (redis (Key.queue language).render)).dropLast := by
    have hnodup := h.nodup language
    rw [← hsplit, List.nodup_append] at hnodup
    exact fun hin => hnodup.2.2 job hin job (by simp) rfl
  have hqueue : ∀ l, entries (Function.update redis (Key.queue language).render
      (.jobs (entries (redis (Key.queue language).render)).dropLast) (Key.queue l).render) =
        if l = language then (entries (redis (Key.queue l).render)).dropLast
        else entries (redis (Key.queue l).render) := by
    intro l
    rw [entries_update]
    split_ifs with hl
    · rw [hl]
    · rfl
  refine ⟨fun key => ?_, fun l j hj => ?_, fun l => ?_, fun i j hi => ?_⟩
  · rw [update_render]
    split_ifs with hkey
    · subst key
      exact .inr ⟨_, rfl⟩
    · by_cases hid : key = .job job.id
      · subst key
        have hold := h.fits (.job job.id)
        simpa [Fits, hstage, Stage.writes, Stage.opening] using hold
      · exact fits_restage h.fits (by simp [hstage]) _ hid
  · rw [hqueue] at hj
    have hj' : j ∈ entries (redis (Key.queue l).render) ∧ j ≠ job := by
      split_ifs at hj with hl
      · subst l
        exact ⟨List.mem_of_mem_dropLast hj, fun heq => hnotin (heq ▸ hj)⟩
      · refine ⟨hj, fun heq => hl ?_⟩
        rw [← hlang, ← (h.inQueue l j hj).1, heq]
    obtain ⟨hjl, hjs⟩ := h.inQueue l j hj'.1
    have hid : j.id ≠ job.id := by
      intro heq
      rw [heq, hstage] at hjs
      exact hj'.2 (Stage.queued.inj hjs).symm
    exact ⟨hjl, by rwa [Function.update_of_ne hid]⟩
  · rw [hqueue]
    split_ifs
    · exact (List.dropLast_sublist _).nodup (h.nodup l)
    · exact h.nodup l
  · have hid : i ≠ job.id := by
      rintro rfl
      simp at hi
    rw [Function.update_of_ne hid] at hi
    obtain ⟨hji, hin⟩ := h.queued i j hi
    refine ⟨hji, ?_⟩
    rw [hqueue]
    split_ifs with hl
    · rw [hl, ← hsplit] at hin
      obtain hin | hin := List.mem_append.mp hin
      · rwa [hl]
      · obtain rfl : j = job := by simpa using hin
        exact absurd hji.symm hid
    · exact hin

end

section
variable {σ : JobId → Stage} {tasks : ℕ → ApiTask} {slots : ℕ → Slot} {drawn : List JobId}

theorem PartiesOk.setTask (h : PartiesOk σ tasks slots drawn) {t : ℕ} {task : ApiTask}
    (htask : ∀ job, task = .pushing job → σ job.id = .built t) :
    PartiesOk σ (Function.update tasks t task) slots drawn := by
  refine ⟨h.fresh, fun u job hu => ?_, h.inSlot, h.held⟩
  by_cases hut : u = t
  · subst u
    exact htask job (by simpa using hu)
  · exact h.inTask u job (by simpa [hut] using hu)

/-- A slot moves on with the same job. -/
theorem PartiesOk.setSlot (h : PartiesOk σ tasks slots drawn) {k : ℕ} {slot : Slot}
    (hslot : Slot.holds slot = Slot.holds (slots k)) :
    PartiesOk σ tasks (Function.update slots k slot) drawn := by
  have hsame : ∀ l, Slot.holds (Function.update slots k slot l) = Slot.holds (slots l) := by
    intro l
    by_cases hl : l = k
    · subst l
      simp [hslot]
    · simp [hl]
  refine ⟨h.fresh, h.inTask, fun l job started hl => ?_, fun id l started hid => ?_⟩
  · exact h.inSlot l job started (by rwa [hsame] at hl)
  · obtain ⟨job, hjob, hl⟩ := h.held id l started hid
    exact ⟨job, hjob, by rwa [hsame]⟩

/-- A job changes its stage together with the slot that holds it before or after. -/
theorem PartiesOk.moveSlot (h : PartiesOk σ tasks slots drawn) {k : ℕ} {slot : Slot} {id : JobId}
    {st : Stage} (hborn : σ id ≠ .unborn) (hbuilt : ∀ t, σ id ≠ .built t)
    (hold : ∀ job started, Slot.holds (slots k) = some (job, started) → job.id = id)
    (hheld : ∀ l started, σ id = .held l started → l = k)
    (hnew : (Slot.holds slot = none ∧ ∀ l started, st ≠ .held l started) ∨
      ∃ job started, Slot.holds slot = some (job, started) ∧ job.id = id ∧ st = .held k started) :
    PartiesOk (Function.update σ id st) tasks (Function.update slots k slot) drawn := by
  refine ⟨fun i hi => ?_, fun t job ht => ?_, fun l job started hl => ?_, fun i l started hi => ?_⟩
  · have hunborn := h.fresh i hi
    have hne : i ≠ id := fun heq => hborn (heq ▸ hunborn)
    rwa [Function.update_of_ne hne]
  · have hstage := h.inTask t job ht
    have hne : job.id ≠ id := fun heq => hbuilt t (heq ▸ hstage)
    rwa [Function.update_of_ne hne]
  · by_cases hlk : l = k
    · subst l
      rw [Function.update_self] at hl
      obtain ⟨hnone, -⟩ | ⟨job', started', hsome, hid, hst⟩ := hnew
      · rw [hnone] at hl
        cases hl
      · rw [hsome] at hl
        obtain ⟨rfl, rfl⟩ : job' = job ∧ started' = started := by simpa using hl
        rw [hid, Function.update_self, hst]
    · rw [Function.update_of_ne hlk] at hl
      have hstage := h.inSlot l job started hl
      have hne : job.id ≠ id := fun heq => hlk (hheld l started (heq ▸ hstage))
      rwa [Function.update_of_ne hne]
  · by_cases hid : i = id
    · subst i
      rw [Function.update_self] at hi
      obtain ⟨-, hnot⟩ | ⟨job, started', hsome, hid, hst⟩ := hnew
      · exact absurd hi (hnot l started)
      · obtain ⟨rfl, rfl⟩ : k = l ∧ started' = started := by simpa [hst] using hi
        exact ⟨job, hid, by rwa [Function.update_self]⟩
    · rw [Function.update_of_ne hid] at hi
      obtain ⟨job, hjob, hl⟩ := h.held i l started hi
      have hlk : l ≠ k := by
        rintro rfl
        exact hid (hjob ▸ hold job started hl)
      exact ⟨job, hjob, by rwa [Function.update_of_ne hlk]⟩

/-- A job changes its stage together with the task that builds it. -/
theorem PartiesOk.moveTask (h : PartiesOk σ tasks slots drawn) {t : ℕ} {task : ApiTask}
    {id : JobId} {st : Stage} {drawn' : List JobId}
    (hdrawn : ∀ i, i ∉ drawn' → i ∉ drawn ∧ i ≠ id)
    (hheld : ∀ l started, σ id ≠ .held l started) (hst : ∀ l started, st ≠ .held l started)
    (hbuilt : ∀ u, σ id = .built u → u = t)
    (htask : ∀ job, task = .pushing job → job.id = id ∧ st = .built t) :
    PartiesOk (Function.update σ id st) (Function.update tasks t task) slots drawn' := by
  refine ⟨fun i hi => ?_, fun u job hu => ?_, fun l job started hl => ?_, fun i l started hi => ?_⟩
  · obtain ⟨hnot, hne⟩ := hdrawn i hi
    rw [Function.update_of_ne hne]
    exact h.fresh i hnot
  · by_cases hut : u = t
    · subst u
      obtain ⟨hid, hstage⟩ := htask job (by simpa using hu)
      rw [hid, Function.update_self, hstage]
    · have hstage := h.inTask u job (by simpa [hut] using hu)
      have hne : job.id ≠ id := fun heq => hut (hbuilt u (heq ▸ hstage))
      rwa [Function.update_of_ne hne]
  · have hstage := h.inSlot l job started hl
    have hne : job.id ≠ id := fun heq => hheld l started (heq ▸ hstage)
    rwa [Function.update_of_ne hne]
  · have hid : i ≠ id := by
      rintro rfl
      rw [Function.update_self] at hi
      exact hst l started hi
    rw [Function.update_of_ne hid] at hi
    exact h.held i l started hi

end

/-- A history that the new stage of a job leaves as it is. -/
theorem eq_ite_of_eq {α : Type} {f : JobId → α} {id : JobId} {a : α} (h : f id = a) (i : JobId) :
    f i = if i = id then a else f i := by
  by_cases hi : i = id
  · rw [if_pos hi, hi, h]
  · rw [if_neg hi]

/-- The histories of the job that moves are those of its new stage. -/
theorem HistoryOk.move {σ : JobId → Stage} {s s' : State} (h : HistoryOk σ s) {id : JobId}
    {st : Stage} (hunfinished : ∀ k started result, σ id ≠ .finished k started result)
    (hwrites : ∀ i, s'.writes i = if i = id then st.writes else s.writes i)
    (hpushes : ∀ i, s'.pushes i = if i = id then st.pushes else s.pushes i)
    (hpops : ∀ i, (s'.pops.filter fun p => p.2 = i).map Prod.fst =
      if i = id then st.poppers else (s.pops.filter fun p => p.2 = i).map Prod.fst)
    (hreceived : s'.received = s.received) : HistoryOk (Function.update σ id st) s' := by
  refine ⟨fun i => ?_, fun i => ?_, fun i => ?_, fun x hx => ?_⟩
  · rw [hwrites]
    by_cases hi : i = id
    · simp [hi]
    · simp [hi, h.writes]
  · rw [hpushes]
    by_cases hi : i = id
    · simp [hi]
    · simp [hi, h.pushes]
  · rw [hpops]
    by_cases hi : i = id
    · simp [hi]
    · simp [hi, h.pops]
  · rw [hreceived] at hx
    obtain ⟨howner, k, started, hfin⟩ := h.received x hx
    have hne : x.2.1 ≠ id := fun heq => hunfinished k started x.2.2 (heq ▸ hfin)
    exact ⟨howner, k, started, by rwa [Function.update_of_ne hne]⟩

theorem lpushJob_eq {s : State} {σ : JobId → Stage} (h : RedisOk σ s.redis) (job : Job) :
    s.lpushJob job = s.set (.queue job.language)
      (.jobs (job :: entries (s.redis (Key.queue job.language).render))) := by
  obtain habsent | ⟨l, hl⟩ := h.fits (.queue job.language)
  · simp [State.lpushJob, State.get, habsent, entries]
  · simp [State.lpushJob, State.get, hl, entries]

theorem isQueue_of_fits {s : State} {σ : JobId → Stage} (h : RedisOk σ s.redis)
    (language : Language) : s.isQueue language = true := by
  obtain habsent | ⟨l, hl⟩ := h.fits (.queue language)
  · simp [State.isQueue, State.get, habsent]
  · simp [State.isQueue, State.get, hl]

theorem rpop_eq_some {s : State} {language : Language} {job : Job} {rest : List Job}
    (h : s.rpop language = some (job, rest)) :
    (entries (s.redis (Key.queue language).render)).getLast? = some job ∧
      rest = (entries (s.redis (Key.queue language).render)).dropLast := by
  unfold State.rpop at h
  split at h <;> [skip; cases h]
  rename_i l hl
  obtain ⟨j, hj, heq⟩ := Option.map_eq_some_iff.mp h
  obtain ⟨rfl, rfl⟩ := Prod.mk.inj heq
  rw [show s.redis _ = _ from hl]
  exact ⟨hj, rfl⟩

/-- The result list of a job that is not finished is empty or absent. -/
theorem lpushResult_eq {s : State} {σ : JobId → Stage} {id : JobId}
    (h : Fits σ (.result id) (s.redis (Key.result id).render))
    (hunfinished : ∀ k started result, σ id ≠ .finished k started result) (result : JobResult) :
    s.lpushResult id result =
      { s with pushes := Function.update s.pushes id (s.pushes id ++ [result]) }.set (.result id)
        (.results [(id, result)]) := by
  obtain habsent | ⟨l, hl, hall⟩ := h
  · simp [State.lpushResult, State.get, habsent]
  · obtain rfl : l = [] := by
      cases l with
      | nil => rfl
      | cons e l =>
        obtain ⟨-, k, started, hfin⟩ := hall e (by simp)
        exact absurd hfin (hunfinished k started e.2)
    simp [State.lpushResult, State.get, hl]

namespace Agrees
variable {σ : JobId → Stage} {s : State}

theorem setTask (h : Agrees σ s) {t : ℕ} {task : ApiTask}
    (htask : ∀ job, task = .pushing job → σ job.id = .built t) : Agrees σ (s.setTask t task) :=
  ⟨h.rightType, h.redis, h.parties.setTask htask,
    ⟨h.history.writes, h.history.pushes, h.history.pops, h.history.received⟩⟩

theorem setSlot (h : Agrees σ s) {k : ℕ} {slot : Slot}
    (hslot : Slot.holds slot = Slot.holds (s.slots k)) : Agrees σ (s.setSlot k slot) :=
  ⟨h.rightType, h.redis, h.parties.setSlot hslot,
    ⟨h.history.writes, h.history.pushes, h.history.pops, h.history.received⟩⟩

theorem set (h : Agrees σ s) {k : Key} {v : Value} (hk : ∀ language, k ≠ .queue language)
    (hv : Fits σ k v) : Agrees σ (s.set k v) :=
  ⟨h.rightType, h.redis.set hk hv, h.parties,
    ⟨h.history.writes, h.history.pushes, h.history.pops, h.history.received⟩⟩

/-- `LLEN` below the bound: the job gets a fresh id. -/
theorem draw (h : Agrees σ s) {id : JobId} (hid : id ∉ s.drawn) (t : ℕ) (language : Language) :
    Agrees (Function.update σ id (.built t))
      ({ s with drawn := id :: s.drawn }.setTask t (.pushing ⟨id, language, s.now⟩)) := by
  have hunborn := h.parties.fresh id hid
  refine ⟨h.rightType, ?_, ?_, ?_⟩
  · have hfits := h.redis.fits (.job id)
    have hadvance := h.redis.advance id (.built t) (v := s.redis (Key.job id).render)
      (by simp [hunborn]) (by simp [hunborn]) (by simp)
      (by simpa [Fits, hunborn, Stage.writes] using hfits)
    rwa [Function.update_eq_self] at hadvance
  · refine h.parties.moveTask (fun i hi => ?_) (by simp [hunborn]) (by simp) (by simp [hunborn]) ?_
    · obtain ⟨hne, hnot⟩ := not_or.mp (List.mem_cons.not.mp hi)
      exact ⟨hnot, hne⟩
    · rintro job heq
      obtain rfl := ApiTask.pushing.inj heq
      exact ⟨rfl, rfl⟩
  · refine h.history.move (by simp [hunborn]) (eq_ite_of_eq ?_) (eq_ite_of_eq ?_)
      (eq_ite_of_eq ?_) rfl
    · exact (h.history.writes id).trans (by rw [hunborn]; rfl)
    · exact (h.history.pushes id).trans (by rw [hunborn]; rfl)
    · exact (h.history.pops id).trans (by rw [hunborn]; rfl)

/-- The pipeline of `enqueue`. -/
theorem push (h : Agrees σ s) {t : ℕ} {job : Job} (ht : s.tasks t = .pushing job) :
    Agrees (Function.update σ job.id (.queued job))
      (((s.lpushJob job).setStatus job.id .queued).setTask t (.waiting job.id)) := by
  have hbuilt := h.parties.inTask t job ht
  rw [lpushJob_eq h.redis]
  refine ⟨h.rightType, h.redis.enqueue (by simp [hbuilt]) (by simp [hbuilt]), ?_, ?_⟩
  · refine h.parties.moveTask (fun i hi => ⟨hi, ?_⟩) (by simp [hbuilt]) (by simp) ?_ (by simp)
    · rintro rfl
      have hunborn := h.parties.fresh _ hi
      simp [hbuilt] at hunborn
    · intro u hu
      simpa [hbuilt] using hu.symm
  · have hwrites : s.writes job.id ++ [.queued] = (Stage.queued job).writes := by
      rw [h.history.writes, hbuilt]
      rfl
    refine h.history.move (by simp [hbuilt]) ?_ (eq_ite_of_eq ?_) (eq_ite_of_eq ?_) rfl
    · rw [← hwrites]
      exact Function.update_apply _ _ _
    · exact (h.history.pushes job.id).trans (by rw [hbuilt]; rfl)
    · exact (h.history.pops job.id).trans (by rw [hbuilt]; rfl)

/-- `BRPOP` -/
theorem pop (h : Agrees σ s) {k : ℕ} {language : Language} {job : Job} {rest : List Job}
    (hk : s.slots k = .idle) (hpop : s.rpop language = some (job, rest)) :
    Agrees (Function.update σ job.id (.held k false))
      { (s.set (.queue language) (.jobs rest)).setSlot k (.popped job) with
        pops := (k, job.id) :: s.pops } := by
  obtain ⟨hlast, rfl⟩ := rpop_eq_some hpop
  have hqueued : σ job.id = .queued job :=
    (h.redis.inQueue language job (List.mem_of_getLast? hlast)).2
  refine ⟨h.rightType, h.redis.dequeue hlast k, ?_, ?_⟩
  · refine h.parties.moveSlot (by simp [hqueued]) (by simp [hqueued]) ?_ (by simp [hqueued])
      (.inr ⟨job, false, rfl, rfl, rfl⟩)
    intro j started hj
    rw [hk] at hj
    cases hj
  · refine h.history.move (by simp [hqueued]) (eq_ite_of_eq ?_) (eq_ite_of_eq ?_)
      (fun i => ?_) rfl
    · exact (h.history.writes job.id).trans (by rw [hqueued]; rfl)
    · exact (h.history.pushes job.id).trans (by rw [hqueued]; rfl)
    · by_cases hi : i = job.id
      · have hpops := h.history.pops job.id
        rw [hqueued] at hpops
        simpa [hi, Stage.poppers] using hpops
      · simp [hi, Ne.symm hi]

/-- The slot that holds the job is the one that moves. -/
theorem moveSlot (h : Agrees σ s) {k : ℕ} {job : Job} {started : Bool}
    (hk : Slot.holds (s.slots k) = some (job, started)) {slot : Slot} {st : Stage}
    (hnew : (Slot.holds slot = none ∧ ∀ l started, st ≠ .held l started) ∨
      ∃ j started, Slot.holds slot = some (j, started) ∧ j.id = job.id ∧ st = .held k started) :
    PartiesOk (Function.update σ job.id st) s.tasks (Function.update s.slots k slot) s.drawn := by
  have hheld := h.parties.inSlot k job started hk
  refine h.parties.moveSlot (by simp [hheld]) (by simp [hheld]) (fun j b hj => ?_)
    (fun l b hl => ?_) hnew
  · obtain ⟨rfl, -⟩ : job = j ∧ started = b := by simpa [hk] using hj
    rfl
  · obtain ⟨rfl, -⟩ : k = l ∧ started = b := by simpa [hheld] using hl
    rfl

/-- `mark_running` -/
theorem markRunning (h : Agrees σ s) {k : ℕ} {job : Job} (hk : s.slots k = .starting job) :
    Agrees (Function.update σ job.id (.held k true))
      ((s.setStatus job.id .running).setSlot k (.running job)) := by
  have hholds : Slot.holds (s.slots k) = some (job, false) := by rw [hk]; rfl
  have hheld := h.parties.inSlot k job false hholds
  refine ⟨h.rightType, ?_, h.moveSlot hholds (.inr ⟨job, true, rfl, rfl, rfl⟩), ?_⟩
  · refine h.redis.advance job.id (.held k true) (by simp [hheld]) (by simp [hheld]) (by simp) ?_
    exact .inr ⟨.running, rfl, by simp [Stage.writes, Stage.opening]⟩
  · have hwrites : s.writes job.id ++ [.running] = (Stage.held k true).writes := by
      rw [h.history.writes, hheld]
      rfl
    refine h.history.move (by simp [hheld]) ?_ (eq_ite_of_eq ?_) (eq_ite_of_eq ?_) rfl
    · rw [← hwrites]
      exact Function.update_apply _ _ _
    · exact (h.history.pushes job.id).trans (by rw [hheld]; rfl)
    · exact (h.history.pops job.id).trans (by rw [hheld]; rfl)

/-- `mark_done` -/
theorem markDone (h : Agrees σ s) {k : ℕ} {job : Job} {started : Bool} {result : JobResult}
    (hk : s.slots k = .finishing job started result) :
    Agrees (Function.update σ job.id (.finished k started result))
      ((s.markDone job.id result).setSlot k .idle) := by
  have hholds : Slot.holds (s.slots k) = some (job, started) := by rw [hk]; rfl
  have hheld := h.parties.inSlot k job started hholds
  have hfits : Fits σ (.result job.id)
      ((s.setStatus job.id (.done result)).redis (Key.result job.id).render) := by
    have hother := update_render s.redis (.job job.id) (.result job.id) (.status (.done result))
    rw [if_neg (by simp)] at hother
    change Fits σ _ (Function.update s.redis (Key.job job.id).render _ (Key.result job.id).render)
    rw [hother]
    exact h.redis.fits (.result job.id)
  rw [State.markDone, lpushResult_eq hfits (by simp [hheld])]
  have hwrites : s.writes job.id ++ [.done result] =
      (Stage.finished k started result).writes := by
    rw [h.history.writes, hheld]
    rfl
  have hpushes : s.pushes job.id ++ [result] = (Stage.finished k started result).pushes := by
    rw [h.history.pushes, hheld]
    rfl
  refine ⟨h.rightType, ?_, h.moveSlot hholds (.inl ⟨rfl, by simp⟩), ?_⟩
  · have hstatus := h.redis.advance job.id (.finished k started result)
      (v := .status (.done result)) (by simp [hheld]) (by simp [hheld]) (by simp)
      (.inr ⟨.done result, rfl, by simp [Stage.writes]⟩)
    refine hstatus.set (k := .result job.id) (by simp) (.inr ⟨_, rfl, fun e he => ?_⟩)
    obtain rfl := List.mem_singleton.mp he
    exact ⟨rfl, k, started, by simp⟩
  · refine h.history.move (by simp [hheld]) ?_ ?_ (eq_ite_of_eq ?_) rfl
    · rw [← hwrites]
      exact Function.update_apply _ _ _
    · rw [← hpushes]
      exact Function.update_apply _ _ _
    · exact (h.history.pops job.id).trans (by rw [hheld]; rfl)

/-- `BLPOP` takes the head of the result list of the job waited for. -/
theorem blpop (h : Agrees σ s) {t : ℕ} {id owner : JobId} {result : JobResult}
    {rest : List (JobId × JobResult)}
    (hget : s.get (.result id) = .results ((owner, result) :: rest)) :
    Agrees σ { (s.set (.result id) (.results rest)).setTask t .idle with
      received := (id, owner, result) :: s.received } := by
  have hentries : ∀ e ∈ (owner, result) :: rest,
      e.1 = id ∧ ∃ k started, σ id = .finished k started e.2 := by
    obtain habsent | ⟨l, hl, hall⟩ := h.redis.fits (.result id)
    · rw [show s.redis _ = _ from hget] at habsent
      cases habsent
    · rw [show s.redis _ = _ from hget] at hl
      obtain rfl := Value.results.inj hl
      exact hall
  have hfits : Fits σ (.result id) (.results rest) :=
    .inr ⟨rest, rfl, fun e he => hentries e (List.mem_cons_of_mem _ he)⟩
  have hset : Agrees σ ((s.set (.result id) (.results rest)).setTask t .idle) :=
    (h.set (by simp) hfits).setTask (by simp)
  refine ⟨hset.rightType, hset.redis, hset.parties,
    ⟨hset.history.writes, hset.history.pushes, hset.history.pops, fun x hx => ?_⟩⟩
  obtain rfl | hx := List.mem_cons.mp hx
  · obtain ⟨howner, hfin⟩ := hentries (owner, result) (by simp)
    obtain rfl : owner = id := howner
    exact ⟨rfl, hfin⟩
  · exact h.history.received x hx

end Agrees

theorem agrees_step {σ : JobId → Stage} {s s' : State} {a : Action} (h : Agrees σ s)
    (hstep : step s a = some s') : ∃ σ', Agrees σ' s' := by
  cases a with
  | tick d =>
    obtain rfl := Option.some.inj hstep
    exact ⟨σ, h.rightType, h.redis, h.parties,
      ⟨h.history.writes, h.history.pushes, h.history.pops, h.history.received⟩⟩
  | enqueue t language =>
    simp only [step] at hstep
    split at hstep <;> [skip; cases hstep]
    obtain rfl := Option.some.inj hstep
    exact ⟨σ, h.setTask (by simp)⟩
  | llen t id =>
    simp only [step] at hstep
    split at hstep <;> [skip; cases hstep]
    rename_i language ht
    rw [if_neg (by simp [isQueue_of_fits h.redis])] at hstep
    split_ifs at hstep with hfull hid <;> obtain rfl := Option.some.inj hstep
    · exact ⟨σ, h.setTask (by simp)⟩
    · exact ⟨_, h.draw hid t language⟩
  | push t =>
    simp only [step] at hstep
    split at hstep <;> [skip; cases hstep]
    rename_i job ht
    obtain rfl := Option.some.inj hstep
    exact ⟨_, h.push ht⟩
  | waitForJobResult t id =>
    simp only [step] at hstep
    split at hstep <;> [skip; cases hstep]
    obtain rfl := Option.some.inj hstep
    exact ⟨σ, h.setTask (by simp)⟩
  | blpop t =>
    simp only [step] at hstep
    split at hstep <;> [skip; cases hstep]
    rename_i id ht
    have hfits := h.redis.fits (.result id)
    split at hstep <;> rename_i hget
    · obtain rfl := Option.some.inj hstep
      exact ⟨σ, h.blpop hget⟩
    · rw [show s.redis _ = _ from hget] at hfits
      simp [Fits] at hfits
    · rw [show s.redis _ = _ from hget] at hfits
      simp [Fits] at hfits
    · cases hstep
  | giveUp t =>
    simp only [step] at hstep
    split at hstep <;> [skip; cases hstep]
    obtain rfl := Option.some.inj hstep
    exact ⟨σ, h.setTask (by simp)⟩
  | brpop k languages =>
    simp only [step] at hstep
    split at hstep <;> [skip; cases hstep]
    rename_i hk
    have hall : languages.all s.isQueue = true :=
      List.all_eq_true.mpr fun language _ => isQueue_of_fits h.redis language
    rw [if_neg (by simp [hall])] at hstep
    split at hstep <;> [cases hstep; skip]
    rename_i language job rest hfind
    obtain rfl := Option.some.inj hstep
    obtain ⟨l, -, hl⟩ := List.exists_of_findSome?_eq_some hfind
    obtain ⟨p, hp, heq⟩ := Option.map_eq_some_iff.mp hl
    obtain ⟨rfl, rfl⟩ := Prod.mk.inj heq
    exact ⟨_, h.pop hk hp⟩
  | judgeAge k =>
    simp only [step] at hstep
    split at hstep <;> [skip; cases hstep]
    rename_i job hk
    split_ifs at hstep <;> obtain rfl := Option.some.inj hstep
    · exact ⟨σ, h.setSlot (by rw [hk]; rfl)⟩
    · exact ⟨σ, h.setSlot (by rw [hk]; rfl)⟩
  | markRunning k =>
    simp only [step] at hstep
    split at hstep <;> [skip; cases hstep]
    rename_i job hk
    obtain rfl := Option.some.inj hstep
    exact ⟨_, h.markRunning hk⟩
  | execute k outcome =>
    simp only [step] at hstep
    split at hstep <;> [skip; cases hstep]
    rename_i job hk
    obtain rfl := Option.some.inj hstep
    exact ⟨σ, h.setSlot (by rw [hk]; rfl)⟩
  | markDone k =>
    simp only [step] at hstep
    split at hstep <;> [skip; cases hstep]
    rename_i job started result hk
    obtain rfl := Option.some.inj hstep
    exact ⟨_, h.markDone hk⟩
  | expire id ofResult =>
    obtain rfl := Option.some.inj hstep
    split_ifs
    · exact ⟨σ, h.set (by simp) (.inl rfl)⟩
    · exact ⟨σ, h.set (by simp) (.inl rfl)⟩

theorem agrees_empty : Agrees (fun _ => .unborn) State.empty where
  rightType := rfl
  redis := by
    refine ⟨fun k => ?_, by simp [State.empty, entries], by simp [State.empty, entries], by simp⟩
    cases k <;> exact .inl rfl
  parties := by
    refine ⟨fun _ _ => rfl, by simp [State.empty], ?_, by simp⟩
    simp [State.empty, Slot.holds]
  history := by
    refine ⟨fun _ => rfl, fun _ => rfl, ?_, ?_⟩ <;> simp [State.empty, Stage.poppers]

theorem agrees_run {acts : List Action} {s : State} (hs : system.run acts = some s) :
    ∃ σ, Agrees σ s :=
  system.invariant (g := fun _ _ => True) (I := fun s => ∃ σ, Agrees σ s)
    (fun _ _ _ ⟨_, h⟩ _ hstep => agrees_step h hstep) ⟨_, agrees_empty⟩
    (system.guarded_of_forall (fun _ _ _ => trivial) _) hs

/-- The job is in the queue of some language. -/
def Queued (s : State) (id : JobId) : Prop :=
  ∃ language, ∃ job ∈ entries (s.get (.queue language)), job.id = id

/-- The slot works on the job. -/
def Works (s : State) (k : ℕ) (id : JobId) : Prop :=
  ∃ job started, Slot.holds (s.slots k) = some (job, started) ∧ job.id = id

/-- What happens to a job along a run. The slots that popped it are at most one.
The statuses written are `queued`, then perhaps `running`, then perhaps `done`. At
most one result has been pushed; it is the one of the status `done`. Once the job
has been queued it is in a queue, in a slot, or has its result pushed, and in only
one of these. -/
structure Once (s : State) (id : JobId) : Prop where
  popped : ((s.pops.filter fun p => p.2 = id).length ≤ 1)
  monotone : s.writes id = [] ∨ s.writes id = [.queued] ∨ s.writes id = [.queued, .running] ∨
    ∃ result, s.writes id = [.queued, .running, .done result] ∨
      s.writes id = [.queued, .done result]
  current : s.get (.job id) = .absent ∨
    ∃ st, s.get (.job id) = .status st ∧ (s.writes id).getLast? = some st
  pushed : ∀ result, .done result ∈ s.writes id ↔ s.pushes id = [result]
  atMostOne : (s.pushes id).length ≤ 1
  somewhere : s.writes id ≠ [] → (Queued s id ∧ (∀ k, ¬ Works s k id) ∧ s.pushes id = []) ∨
    (∃ k, Works s k id ∧ (∀ l, Works s l id → l = k) ∧ ¬ Queued s id ∧ s.pushes id = []) ∨
    ((s.pushes id).length = 1 ∧ ¬ Queued s id ∧ ∀ k, ¬ Works s k id)

theorem Agrees.queued_iff {σ : JobId → Stage} {s : State} (h : Agrees σ s) (id : JobId) :
    Queued s id ↔ ∃ job, σ id = .queued job := by
  constructor
  · rintro ⟨language, job, hjob, rfl⟩
    exact ⟨job, (h.redis.inQueue language job hjob).2⟩
  · rintro ⟨job, hjob⟩
    obtain ⟨hid, hmem⟩ := h.redis.queued id job hjob
    exact ⟨job.language, job, hmem, hid⟩

theorem Agrees.works_iff {σ : JobId → Stage} {s : State} (h : Agrees σ s) (k : ℕ) (id : JobId) :
    Works s k id ↔ ∃ started, σ id = .held k started := by
  constructor
  · rintro ⟨job, started, hholds, rfl⟩
    exact ⟨started, h.parties.inSlot k job started hholds⟩
  · rintro ⟨started, hheld⟩
    obtain ⟨job, hid, hholds⟩ := h.parties.held id k started hheld
    exact ⟨job, started, hholds, hid⟩

theorem Agrees.once {σ : JobId → Stage} {s : State} (h : Agrees σ s) (id : JobId) : Once s id := by
  have hwrites := h.history.writes id
  have hpushes := h.history.pushes id
  have hpops : (s.pops.filter fun p => p.2 = id).length = (σ id).poppers.length := by
    rw [← h.history.pops id, List.length_map]
  have hfits := h.redis.fits (.job id)
  refine ⟨?_, ?_, ?_, ?_, ?_, ?_⟩
  · rw [hpops]
    cases σ id <;> simp [Stage.poppers]
  · rw [hwrites]
    cases σ id with
    | held k started => cases started <;> simp [Stage.writes, Stage.opening]
    | finished k started result => cases started <;> simp [Stage.writes, Stage.opening]
    | _ => simp [Stage.writes]
  · rw [hwrites]
    exact hfits
  · intro result
    rw [hwrites, hpushes]
    cases σ id with
    | held k started => cases started <;> simp [Stage.writes, Stage.opening, Stage.pushes]
    | finished k started r =>
      cases started <;> simp [Stage.writes, Stage.opening, Stage.pushes, eq_comm]
    | _ => simp [Stage.writes, Stage.pushes]
  · rw [hpushes]
    cases σ id <;> simp [Stage.pushes]
  · simp only [hwrites, hpushes, h.queued_iff, h.works_iff]
    cases σ id with
    | unborn => simp [Stage.writes]
    | built t => simp [Stage.writes]
    | queued job => simp [Stage.pushes]
    | held k started =>
      refine fun _ => .inr (.inl ⟨k, ⟨started, rfl⟩, ?_, by simp, rfl⟩)
      rintro l ⟨b, hl⟩
      obtain ⟨rfl, -⟩ : k = l ∧ started = b := by simpa using hl
      rfl
    | finished k started result => simp [Stage.pushes]

theorem pushes_markDone (s : State) (id : JobId) (result : JobResult) :
    (s.markDone id result).pushes id = s.pushes id ++ [result] := by
  unfold State.markDone State.lpushResult
  dsimp only
  split <;> simp [State.set, State.setStatus]

/-- From the state some actions lead to the result of the job being pushed. -/
def CanFinish (s : State) (id : JobId) : Prop :=
  ∃ acts s', system.exec s acts = some s' ∧ 1 ≤ (s'.pushes id).length

theorem CanFinish.step {s t : State} {a : Action} {id : JobId} (hstep : step s a = some t)
    (h : CanFinish t id) : CanFinish s id := by
  obtain ⟨acts, s', hexec, hpushed⟩ := h
  exact ⟨a :: acts, s', by simpa [System.exec, system, hstep] using hexec, hpushed⟩

section
variable {s : State} {k : ℕ} {job : Job}

theorem canFinish_of_finishing {started : Bool} {result : JobResult}
    (hk : s.slots k = .finishing job started result) : CanFinish s job.id := by
  refine ⟨[.markDone k], (s.markDone job.id result).setSlot k .idle, ?_, ?_⟩
  · simp [System.exec, system, JobQueue.step, hk]
  · simp [State.setSlot, pushes_markDone]

theorem canFinish_of_running (hk : s.slots k = .running job) : CanFinish s job.id := by
  let outcome : Except PyExc JobResult := .ok (.verdict (.accepted []))
  have hstep : step s (.execute k outcome) =
      some (s.setSlot k (.finishing job true (reportedResult outcome))) := by
    simp [JobQueue.step, hk]
  have hslot : (s.setSlot k (.finishing job true (reportedResult outcome))).slots k =
      .finishing job true (reportedResult outcome) := by
    simp [State.setSlot]
  exact .step hstep (canFinish_of_finishing hslot)

theorem canFinish_of_starting (hk : s.slots k = .starting job) : CanFinish s job.id := by
  have hstep : step s (.markRunning k) =
      some ((s.setStatus job.id .running).setSlot k (.running job)) := by
    simp [JobQueue.step, hk]
  exact .step hstep (canFinish_of_running (k := k) (by simp [State.setSlot]))

theorem canFinish_of_popped (hk : s.slots k = .popped job) : CanFinish s job.id := by
  by_cases hage : s.now - job.enqueuedAt > jobMaxAge
  · have hstep : step s (.judgeAge k) =
        some (s.setSlot k (.finishing job false (expiredResult (s.now - job.enqueuedAt)))) := by
      simp only [JobQueue.step, hk, if_pos hage]
    have hslot : (s.setSlot k (.finishing job false (expiredResult (s.now - job.enqueuedAt)))).slots
        k = .finishing job false (expiredResult (s.now - job.enqueuedAt)) := by
      simp [State.setSlot]
    exact .step hstep (canFinish_of_finishing hslot)
  · have hstep : step s (.judgeAge k) = some (s.setSlot k (.starting job)) := by
      simp only [JobQueue.step, hk, if_neg hage]
    exact .step hstep (canFinish_of_starting (k := k) (by simp [State.setSlot]))

/-- A slot that works on a job can push its result by steps of its own. -/
theorem canFinish_of_works {id : JobId} (h : Works s k id) : CanFinish s id := by
  obtain ⟨job, started, hholds, rfl⟩ := h
  cases hk : s.slots k with
  | idle => simp [hk, Slot.holds] at hholds
  | popped j =>
    obtain ⟨rfl, -⟩ : j = job ∧ false = started := by simpa [hk, Slot.holds] using hholds
    exact canFinish_of_popped hk
  | starting j =>
    obtain ⟨rfl, -⟩ : j = job ∧ false = started := by simpa [hk, Slot.holds] using hholds
    exact canFinish_of_starting hk
  | running j =>
    obtain ⟨rfl, -⟩ : j = job ∧ true = started := by simpa [hk, Slot.holds] using hholds
    exact canFinish_of_running hk
  | finishing j b result =>
    obtain ⟨rfl, -⟩ : j = job ∧ b = started := by simpa [hk, Slot.holds] using hholds
    exact canFinish_of_finishing hk

end

/-- Along every run, whatever the order of the commands of any number of API tasks
and slots: no command meets a key of another type; every job goes its way once;
a slot that has a job can bring it to its end; and a waiter receives only the one
result pushed for the job it waits for. -/
theorem processed_once (acts : List Action) (s : State) (hs : system.run acts = some s) :
    s.wrongType = false ∧ (∀ id, Once s id) ∧
      (∀ k id, Works s k id → ∃ more s', system.exec s more = some s' ∧
        (s'.pushes id).length = 1) ∧
      ∀ x ∈ s.received, x.1 = x.2.1 ∧ s.pushes x.2.1 = [x.2.2] := by
  obtain ⟨σ, h⟩ := agrees_run hs
  refine ⟨h.rightType, h.once, fun k id hworks => ?_, fun x hx => ?_⟩
  · obtain ⟨more, s', hmore, hpushed⟩ := canFinish_of_works hworks
    obtain ⟨σ', h'⟩ := agrees_run (system.exec_append hs hmore)
    exact ⟨more, s', hmore, le_antisymm (h'.once id).atMostOne hpushed⟩
  · obtain ⟨howner, k, started, hfin⟩ := h.history.received x hx
    exact ⟨howner, by rw [h.history.pushes, hfin]; rfl⟩

/-- A job that was queued, popped, run and received by its waiter. -/
theorem processed_once_one_job :
    ∃ s, system.run [.enqueue 0 .go, .llen 0 ⟨"8f14e45f", by decide⟩, .push 0, .brpop 7 [.c, .go],
        .judgeAge 7, .markRunning 7, .execute 7 (.ok (.verdict (.accepted []))), .markDone 7,
        .blpop 0] = some s ∧
      s.received = [(⟨"8f14e45f", by decide⟩, ⟨"8f14e45f", by decide⟩, .verdict (.accepted []))] ∧
      ∀ id, Once s id :=
  ⟨_, rfl, rfl, (processed_once [.enqueue 0 .go, .llen 0 ⟨"8f14e45f", by decide⟩, .push 0,
    .brpop 7 [.c, .go], .judgeAge 7, .markRunning 7, .execute 7 (.ok (.verdict (.accepted []))),
    .markDone 7, .blpop 0] _ rfl).2.1⟩

end ExecutionEngine.JobLifecycle
