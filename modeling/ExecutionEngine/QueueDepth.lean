import ExecutionEngine.JobLifecycle

/-!
# The depth of a queue

`enqueue` reads the length of a queue and pushes its job in a later command. A
request that finds the queue full is refused, but the requests that passed the
test while there was room all push, however many they are. The bound holds along
the runs in which every push still finds room.
-/
namespace ExecutionEngine.QueueDepth
open Transition Pipeline JobQueue JobLifecycle

theorem llen_eq (s : State) (language : Language) :
    s.llen language = (entries (s.redis (Key.queue language).render)).length := by
  simp only [State.llen, State.get]
  cases s.redis (Key.queue language).render <;> rfl

theorem llen_set {k : Key} (hk : ∀ language, k ≠ .queue language) (s : State) (v : Value)
    (language : Language) : (s.set k v).llen language = s.llen language := by
  rw [llen_eq, llen_eq]
  exact congrArg (fun w => (entries w).length) (queue_update hk v language)

theorem llen_setQueue (s : State) (l : Language) (jobs : List Job) (language : Language) :
    (s.set (.queue l) (.jobs jobs)).llen language =
      if language = l then jobs.length else s.llen language := by
  rw [llen_eq, llen_eq]
  change (entries (Function.update s.redis (Key.queue l).render (.jobs jobs)
    (Key.queue language).render)).length = _
  rw [entries_update]
  split_ifs <;> rfl

theorem llen_setStatus (s : State) (id : JobId) (status : Status) (language : Language) :
    (s.setStatus id status).llen language = s.llen language :=
  llen_set (k := .job id) (by simp) s (.status status) language

theorem llen_lpushJob {s : State} {job : Job} (h : s.isQueue job.language = true)
    (language : Language) : (s.lpushJob job).llen language =
      s.llen language + if language = job.language then 1 else 0 := by
  rw [State.lpushJob]
  split
  · rename_i hv
    rw [llen_setQueue]
    split_ifs with hl
    · subst hl
      simp [State.llen, hv]
    · rfl
  · rename_i jobs hv
    rw [llen_setQueue]
    split_ifs with hl
    · subst hl
      simp [State.llen, hv]
    · rfl
  · rename_i habsent hjobs
    simp only [State.isQueue] at h
    cases hv : s.get (.queue job.language) <;> simp_all

theorem llen_lpushJob_le (s : State) (job : Job) (language : Language) :
    (s.lpushJob job).llen language ≤
      s.llen language + if language = job.language then 1 else 0 := by
  cases h : s.isQueue job.language with
  | true => exact (llen_lpushJob h language).le
  | false =>
    have hsame : s.lpushJob job = { s with wrongType := true } := by
      simp only [State.isQueue] at h
      rw [State.lpushJob]
      cases hv : s.get (.queue job.language) <;> simp_all
    rw [hsame]
    exact Nat.le_add_right _ _

theorem llen_lpushResult (s : State) (id : JobId) (result : JobResult) (language : Language) :
    (s.lpushResult id result).llen language = s.llen language := by
  simp only [State.lpushResult]
  split
  · rw [llen_set (by simp)]
    rfl
  · rw [llen_set (by simp)]
    rfl
  · rfl

theorem llen_rpop {s : State} {language : Language} {job : Job} {rest : List Job}
    (h : s.rpop language = some (job, rest)) : rest.length ≤ s.llen language := by
  rw [State.rpop] at h
  split at h
  · rename_i jobs hjobs
    obtain ⟨last, -, heq⟩ := Option.map_eq_some_iff.mp h
    obtain ⟨-, rfl⟩ := Prod.mk.inj heq
    simp [State.llen, hjobs]
  · cases h

/-- The queue that the action pushes to. -/
def pushesTo (s : State) : Action → Option Language
  | .push t =>
    match s.tasks t with
    | .pushing job => some job.language
    | _ => none
  | _ => none

/-- Only the push of a request makes a queue longer, by one job. -/
theorem llen_step {s s' : State} {a : Action} (h : step s a = some s') (language : Language) :
    s'.llen language ≤ s.llen language + if pushesTo s a = some language then 1 else 0 := by
  cases a with
  | push t =>
    simp only [step] at h
    split at h <;> [skip; cases h]
    rename_i job ht
    obtain rfl := Option.some.inj h
    have hpush := llen_lpushJob_le s job language
    have hstatus := llen_setStatus (s.lpushJob job) job.id .queued language
    have hto : pushesTo s (.push t) = some job.language := by simp [pushesTo, ht]
    rw [← hstatus] at hpush
    simp only [hto, Option.some.injEq, eq_comm (a := job.language)]
    exact hpush
  | brpop k languages =>
    simp only [step] at h
    split at h <;> [skip; cases h]
    split_ifs at h with htype
    · obtain rfl := Option.some.inj h
      exact Nat.le_add_right _ _
    · split at h
      · cases h
      · rename_i l job rest hfind
        obtain rfl := Option.some.inj h
        obtain ⟨l', hl', hpop⟩ := List.exists_of_findSome?_eq_some hfind
        obtain ⟨p, hp, heq⟩ := Option.map_eq_some_iff.mp hpop
        obtain ⟨rfl, rfl⟩ := Prod.mk.inj heq
        have hle := llen_rpop hp
        have hset := llen_setQueue s l' rest language
        refine (le_of_eq hset).trans (le_trans ?_ (Nat.le_add_right _ _))
        split_ifs with hl
        · rw [hl]
          exact hle
        · exact le_rfl
  | markRunning k =>
    simp only [step] at h
    split at h <;> [skip; cases h]
    rename_i job _
    obtain rfl := Option.some.inj h
    have hstatus := llen_setStatus s job.id .running language
    exact (hstatus.le).trans (Nat.le_add_right _ _)
  | markDone k =>
    simp only [step] at h
    split at h <;> [skip; cases h]
    rename_i job _ result _
    obtain rfl := Option.some.inj h
    have hpush := llen_lpushResult (s.setStatus job.id (.done result)) job.id result language
    have hstatus := llen_setStatus s job.id (.done result) language
    exact ((hpush.trans hstatus).le).trans (Nat.le_add_right _ _)
  | expire id ofResult =>
    obtain rfl := Option.some.inj h
    split
    · rw [llen_set (by simp)]
      omega
    · rw [llen_set (by simp)]
      omega
  | blpop t =>
    simp only [step] at h
    split at h <;> [skip; cases h]
    rename_i id _
    split at h
    · rename_i owner result rest _
      obtain rfl := Option.some.inj h
      have hset := llen_set (k := .result id) (by simp) s (.results rest) language
      exact hset.le.trans (Nat.le_add_right _ _)
    · obtain rfl := Option.some.inj h
      exact Nat.le_add_right _ _
    · obtain rfl := Option.some.inj h
      exact Nat.le_add_right _ _
    · cases h
  | llen t id =>
    simp only [step] at h
    split at h <;> [skip; cases h]
    split_ifs at h <;> obtain rfl := Option.some.inj h <;> exact Nat.le_add_right _ _
  | judgeAge k =>
    simp only [step] at h
    split at h <;> [skip; cases h]
    split_ifs at h <;> obtain rfl := Option.some.inj h <;> exact Nat.le_add_right _ _
  | tick d =>
    obtain rfl := Option.some.inj h
    exact Nat.le_add_right _ _
  | enqueue t l =>
    simp only [step] at h
    split at h <;> [skip; cases h]
    obtain rfl := Option.some.inj h
    exact Nat.le_add_right _ _
  | waitForJobResult t id =>
    simp only [step] at h
    split at h <;> [skip; cases h]
    obtain rfl := Option.some.inj h
    exact Nat.le_add_right _ _
  | giveUp t =>
    simp only [step] at h
    split at h <;> [skip; cases h]
    obtain rfl := Option.some.inj h
    exact Nat.le_add_right _ _
  | execute k outcome =>
    simp only [step] at h
    split at h <;> [skip; cases h]
    obtain rfl := Option.some.inj h
    exact Nat.le_add_right _ _

/-- What `enqueue` raises at the action. -/
def raises (s : State) : Action → Option PyExc
  | .llen t _ =>
    match s.tasks t with
    | .measuring language =>
      if maxQueueDepth ≤ s.llen language then some (.other "OverflowError" "Queue at capacity")
      else none
    | _ => none
  | _ => none

/-- A request pushes its job only while the queue still has room, although other
requests may have pushed since its depth test. -/
def PushesBelow (s : State) (a : Action) : Prop :=
  ∀ language ∈ pushesTo s a, s.llen language < maxQueueDepth

instance (s : State) (a : Action) : Decidable (PushesBelow s a) :=
  inferInstanceAs (Decidable (∀ language ∈ pushesTo s a, _))

theorem bounded_step {s s' : State} {a : Action}
    (hs : ∀ language, s.llen language ≤ maxQueueDepth) (ha : PushesBelow s a)
    (h : step s a = some s') (language : Language) : s'.llen language ≤ maxQueueDepth := by
  have hstep := llen_step h language
  have hold := hs language
  split_ifs at hstep with hto
  · have hroom := ha language hto
    omega
  · omega

/-- The condition is exact: a push that does not meet it makes the queue too long. -/
theorem below_of_bounded {s s' : State} {a : Action}
    (hs : ∀ language, s.isQueue language = true) (h : step s a = some s')
    (hs' : ∀ language, s'.llen language ≤ maxQueueDepth) : PushesBelow s a := by
  intro language hto
  cases a with
  | push t =>
    simp only [pushesTo] at hto
    split at hto <;> [skip; cases hto]
    rename_i job ht
    obtain rfl : job.language = language := by simpa using hto
    obtain rfl : ((s.lpushJob job).setStatus job.id .queued).setTask t (.waiting job.id) = s' := by
      simpa [step, ht] using h
    have hlen := llen_lpushJob (hs job.language) job.language
    rw [if_pos rfl] at hlen
    have hstatus := llen_setStatus (s.lpushJob job) job.id .queued job.language
    have hle : ((s.lpushJob job).setStatus job.id .queued).llen job.language ≤ maxQueueDepth :=
      hs' job.language
    omega
  | _ => simp [pushesTo] at hto

/-- In every run in which each push still finds room, no queue is longer than
`MAX_QUEUE_DEPTH`, and a request that finds a full queue raises `OverflowError`
and pushes nothing. -/
theorem queue_within_depth (acts : List Action) (s : State) (hrun : system.run acts = some s)
    (hbelow : system.Guarded PushesBelow State.empty acts) :
    (∀ language, s.llen language ≤ maxQueueDepth) ∧
      ∀ t id language, s.tasks t = .measuring language → s.llen language = maxQueueDepth →
        raises s (.llen t id) = some (.other "OverflowError" "Queue at capacity") ∧
          ∀ s', step s (.llen t id) = some s' → s'.tasks t = .idle ∧ s'.redis = s.redis := by
  have hinit : ∀ language, State.empty.llen language ≤ maxQueueDepth := fun _ => Nat.zero_le _
  have hbound := system.invariant (I := fun s => ∀ language, s.llen language ≤ maxQueueDepth)
    (fun s a s' hs ha h => bounded_step hs ha h) hinit hbelow hrun
  refine ⟨hbound, fun t id language ht hfull => ⟨?_, fun s' h => ?_⟩⟩
  · simp [raises, ht, hfull]
  · have hpos : 0 < maxQueueDepth := by decide
    have hqueue : s.isQueue language = true := by
      simp only [State.isQueue, State.llen] at hfull ⊢
      cases hv : s.get (.queue language) <;> simp_all
    obtain rfl : s.setTask t .idle = s' := by simpa [step, ht, hqueue, hfull] using h
    exact ⟨by simp [State.setTask], rfl⟩

def requestId (t : ℕ) : JobId :=
  ⟨String.ofList (List.replicate t 'x'), by simp⟩

/-- Of the requests below `n`, all of which found the queue empty, the first `k`
have pushed. -/
structure Overcommitted (k n : ℕ) (s : State) : Prop where
  depth : s.llen .python = k
  queue : s.isQueue .python = true
  pushing : ∀ t, k ≤ t → t < n → ∃ job, s.tasks t = .pushing job ∧ job.language = .python
  idle : ∀ t, n ≤ t → s.tasks t = .idle
  fresh : ∀ t, n ≤ t → requestId t ∉ s.drawn

theorem requestId_injective : Function.Injective requestId := by
  intro t u h
  have htext : String.ofList (List.replicate t 'x') = String.ofList (List.replicate u 'x') :=
    congrArg JobId.text h
  have hlist : List.replicate t 'x' = List.replicate u 'x' := String.ofList_injective htext
  simpa using congrArg List.length hlist

/-- One more request passes the test. -/
theorem Overcommitted.measure {n : ℕ} {s : State} (h : Overcommitted 0 n s) :
    ∃ s', system.exec s [.enqueue n .python, .llen n (requestId n)] = some s' ∧
      Overcommitted 0 (n + 1) s' := by
  let u := s.setTask n (.measuring .python)
  let job : Job := ⟨requestId n, .python, s.now⟩
  let v := { u with drawn := requestId n :: s.drawn }.setTask n (.pushing job)
  have hu : step s (.enqueue n .python) = some u := by
    simp [step, h.idle n le_rfl, u]
  have hv : step u (.llen n (requestId n)) = some v := by
    have htask : u.tasks n = .measuring .python := by simp [u, State.setTask]
    have hqueue : u.isQueue .python = true := h.queue
    have hdepth : u.llen .python = 0 := h.depth
    have hfresh : requestId n ∉ u.drawn := h.fresh n le_rfl
    have hroom : ¬ maxQueueDepth ≤ 0 := by decide
    simp only [step, htask, hqueue, hdepth, hfresh, hroom, if_false, Bool.true_eq_false]
    rfl
  have hother : ∀ t, t ≠ n → v.tasks t = s.tasks t := by
    intro t ht
    simp [v, u, State.setTask, ht]
  refine ⟨v, by simp [System.exec, system, hu, hv], h.depth, h.queue, ?_, ?_, ?_⟩
  · intro t hk ht
    by_cases htn : t = n
    · subst t
      exact ⟨job, by simp [v, State.setTask], rfl⟩
    · rw [hother t htn]
      exact h.pushing t hk (by omega)
  · intro t ht
    rw [hother t (by omega)]
    exact h.idle t (by omega)
  · intro t ht hmem
    obtain heq | hmem := List.mem_cons.mp hmem
    · have := requestId_injective heq
      omega
    · exact h.fresh t (by omega) hmem

/-- The next request pushes, whatever the others have pushed. -/
theorem Overcommitted.push {k n : ℕ} {s : State} (h : Overcommitted k n s) (hk : k < n) :
    ∃ s', system.exec s [.push k] = some s' ∧ Overcommitted (k + 1) n s' := by
  obtain ⟨job, htask, hlang⟩ := h.pushing k le_rfl hk
  have hqueue : s.isQueue job.language = true := by rw [hlang]; exact h.queue
  let v := ((s.lpushJob job).setStatus job.id .queued).setTask k (.waiting job.id)
  have hframe : (s.lpushJob job).tasks = s.tasks ∧ (s.lpushJob job).drawn = s.drawn := by
    rw [State.lpushJob]
    split <;> exact ⟨rfl, rfl⟩
  have hother : ∀ t, t ≠ k → v.tasks t = s.tasks t := by
    intro t ht
    have hv : v.tasks = Function.update (s.lpushJob job).tasks k (.waiting job.id) := rfl
    rw [hv, Function.update_of_ne ht, hframe.1]
  have hdepth : v.llen .python = k + 1 := by
    have hpush := llen_lpushJob hqueue .python
    have hstatus := llen_setStatus (s.lpushJob job) job.id .queued .python
    rw [h.depth, if_pos hlang.symm] at hpush
    exact hstatus.trans hpush
  refine ⟨v, by simp [System.exec, system, step, htask, v], hdepth, ?_, ?_, ?_, ?_⟩
  · by_contra hq
    have hzero : v.llen .python = 0 := by
      simp only [State.isQueue, State.llen] at hq ⊢
      cases hv : v.get (.queue .python) <;> simp_all
    omega
  · intro t hkt ht
    rw [hother t (by omega)]
    exact h.pushing t (by omega) ht
  · intro t ht
    rw [hother t (by omega)]
    exact h.idle t ht
  · intro t ht hmem
    have hdrawn : v.drawn = (s.lpushJob job).drawn := rfl
    rw [hdrawn, hframe.2] at hmem
    exact h.fresh t ht hmem

/-- Any number of requests may pass the test of an empty queue and push. -/
theorem overcommitted_reachable (k n : ℕ) (hk : k ≤ n) :
    ∃ acts s, system.run acts = some s ∧ Overcommitted k n s := by
  induction k with
  | zero =>
    clear hk
    induction n with
    | zero =>
      exact ⟨[], State.empty, rfl, rfl, rfl, fun t _ ht => absurd ht (Nat.not_lt_zero t),
        fun _ _ => rfl, fun _ _ => by simp [State.empty]⟩
    | succ n ih =>
      obtain ⟨acts, s, hrun, hs⟩ := ih
      obtain ⟨s', hexec, hs'⟩ := hs.measure
      exact ⟨_, s', system.exec_append hrun hexec, hs'⟩
  | succ k ih =>
    obtain ⟨acts, s, hrun, hs⟩ := ih (by omega)
    obtain ⟨s', hexec, hs'⟩ := hs.push (by omega)
    exact ⟨_, s', system.exec_append hrun hexec, hs'⟩

/-- 10001 requests test the depth of the empty queue before the first of them
pushes, and the queue ends with 10001 jobs. -/
theorem queue_beyond_depth :
    ¬ ∀ (acts : List Action) (s : State), system.run acts = some s →
      ∀ language, s.llen language ≤ maxQueueDepth := by
  intro h
  obtain ⟨acts, s, hrun, hs⟩ := overcommitted_reachable 10001 10001 le_rfl
  have hle := h acts s hrun .python
  rw [hs.depth] at hle
  exact absurd hle (by decide)

/-- Two requests with room for both. -/
theorem queue_within_depth_two :
    ∃ s, system.run [.enqueue 0 .go, .llen 0 (requestId 0), .enqueue 1 .go,
        .llen 1 (requestId 1), .push 0, .push 1] = some s ∧
      s.llen .go = 2 ∧ s.llen .go ≤ maxQueueDepth :=
  ⟨_, rfl, rfl, (queue_within_depth [.enqueue 0 .go, .llen 0 (requestId 0), .enqueue 1 .go,
    .llen 1 (requestId 1), .push 0, .push 1] _ rfl (by decide)).1 .go⟩

end ExecutionEngine.QueueDepth
