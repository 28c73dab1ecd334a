import ExecutionEngine.JobLifecycle

/-!
# The order of jobs

The jobs of a language are pushed on the left of its list and popped from the right. API
tasks that push and slots that pop interleave as they like, a slot serves several languages,
and other commands change other keys in between. Still the slots together receive the jobs
of each language in the order in which they were pushed.
-/
namespace ExecutionEngine.JobOrder
open Transition Pipeline JobQueue JobLifecycle

/-- The jobs in the queue of the language, the oldest first. -/
def waiting (language : Language) (s : State) : List Job :=
  (entries (s.get (.queue language))).reverse

/-- The job that the action pushes on the queue of the language. -/
def pushed (language : Language) (s : State) : Action → List Job
  | .push t =>
    match s.tasks t with
    | .pushing job => if job.language = language then [job] else []
    | _ => []
  | _ => []

/-- The job of the language that the action gives to a slot. -/
def popped (language : Language) (s : State) : Action → List Job
  | .brpop k languages =>
    match (step s (.brpop k languages)).map fun t : State => t.slots k with
    | some (.popped job) => if job.language = language then [job] else []
    | _ => []
  | _ => []

section
variable {language : Language}

theorem waiting_congr {s t : State} (h : t.get (.queue language) = s.get (.queue language)) :
    waiting language t = waiting language s := by
  rw [waiting, h, waiting]

theorem get_set {k : Key} (hk : ∀ language, k ≠ .queue language) (s : State) (v : Value) :
    (s.set k v).get (.queue language) = s.get (.queue language) :=
  queue_update hk v language

theorem get_lpushResult (s : State) (id : JobId) (result : JobResult) :
    (s.lpushResult id result).get (.queue language) = s.get (.queue language) := by
  simp only [State.lpushResult]
  split
  · rw [get_set (by simp)]
    rfl
  · rw [get_set (by simp)]
    rfl
  · rfl

/-- Only `LPUSH` of a job and `BRPOP` change a queue. -/
theorem get_step {s t : State} {a : Action} (h : step s a = some t)
    (hpush : ∀ u, a ≠ .push u) (hpop : ∀ k languages, a ≠ .brpop k languages) :
    t.get (.queue language) = s.get (.queue language) := by
  cases a with
  | push u => exact absurd rfl (hpush u)
  | brpop k languages => exact absurd rfl (hpop k languages)
  | blpop u =>
    simp only [step] at h
    split at h <;> [skip; cases h]
    rename_i id _
    split at h
    · rename_i owner result rest _
      obtain rfl := Option.some.inj h
      exact get_set (k := .result id) (by simp) s (.results rest)
    · obtain rfl := Option.some.inj h
      rfl
    · obtain rfl := Option.some.inj h
      rfl
    · cases h
  | markRunning k =>
    simp only [step] at h
    split at h <;> [skip; cases h]
    rename_i job _
    obtain rfl := Option.some.inj h
    exact get_set (k := .job job.id) (by simp) s (.status .running)
  | markDone k =>
    simp only [step] at h
    split at h <;> [skip; cases h]
    rename_i job started result hk
    obtain rfl := Option.some.inj h
    have hstatus : (s.setStatus job.id (.done result)).get (.queue language) =
        s.get (.queue language) :=
      get_set (k := .job job.id) (by simp) s (.status (.done result))
    exact (get_lpushResult _ job.id result).trans hstatus
  | expire id ofResult =>
    obtain rfl := Option.some.inj h
    split_ifs
    · exact get_set (by simp) s _
    · exact get_set (by simp) s _
  | tick d =>
    obtain rfl := Option.some.inj h
    rfl
  | llen u id =>
    simp only [step] at h
    split at h <;> [skip; cases h]
    split_ifs at h <;> obtain rfl := Option.some.inj h <;> rfl
  | judgeAge k =>
    simp only [step] at h
    split at h <;> [skip; cases h]
    split_ifs at h <;> obtain rfl := Option.some.inj h <;> rfl
  | _ =>
    simp only [step] at h
    split at h <;> [skip; cases h]
    obtain rfl := Option.some.inj h
    rfl

theorem waiting_push {σ : JobId → Stage} {s t : State} {u : ℕ} (h : Agrees σ s)
    (hstep : step s (.push u) = some t) :
    waiting language s ++ pushed language s (.push u) = waiting language t := by
  simp only [step] at hstep
  split at hstep <;> [skip; cases hstep]
  rename_i job hu
  obtain rfl := Option.some.inj hstep
  have hentries : entries ((((s.lpushJob job).setStatus job.id .queued).setTask u
      (.waiting job.id)).get (.queue language)) =
        if language = job.language then job :: entries (s.get (.queue language))
        else entries (s.get (.queue language)) := by
    have hset : (((s.lpushJob job).setStatus job.id .queued).setTask u (.waiting job.id)).get
        (.queue language) = (s.lpushJob job).get (.queue language) :=
      get_set (k := .job job.id) (by simp) (s.lpushJob job) (.status .queued)
    rw [hset, lpushJob_eq h.redis]
    refine (entries_update job.language _ language).trans ?_
    split_ifs with hl
    · rw [hl]
      rfl
    · rfl
  have hpushed : pushed language s (.push u) = if job.language = language then [job] else [] := by
    simp only [pushed, hu]
  rw [waiting, waiting, hentries, hpushed]
  by_cases hl : language = job.language
  · simp [hl]
  · simp [hl, Ne.symm hl]

theorem waiting_brpop {σ : JobId → Stage} {s t : State} {k : ℕ} {languages : List Language}
    (h : Agrees σ s) (hstep : step s (.brpop k languages) = some t) :
    waiting language s = popped language s (.brpop k languages) ++ waiting language t := by
  have hpopped : ∀ job, t.slots k = .popped job → popped language s (.brpop k languages) =
      if job.language = language then [job] else [] := by
    intro job hjob
    simp only [popped, hstep, Option.map_some, hjob]
  simp only [step] at hstep
  split at hstep <;> [skip; cases hstep]
  have hall : languages.all s.isQueue = true :=
    List.all_eq_true.mpr fun l _ => isQueue_of_fits h.redis l
  rw [if_neg (by simp [hall])] at hstep
  split at hstep <;> [cases hstep; skip]
  rename_i l job rest hfind
  obtain rfl := Option.some.inj hstep
  obtain ⟨l', -, hl'⟩ := List.exists_of_findSome?_eq_some hfind
  obtain ⟨p, hp, heq⟩ := Option.map_eq_some_iff.mp hl'
  obtain ⟨rfl, rfl⟩ := Prod.mk.inj heq
  obtain ⟨hlast, rfl⟩ := rpop_eq_some hp
  have hsplit := List.dropLast_append_getLast? job hlast
  have hlang : job.language = l' :=
    (h.redis.inQueue l' job (List.mem_of_getLast? hlast)).1
  rw [hpopped job (by simp [State.setSlot])]
  have hentries := @entries_update s.redis l' (entries (s.redis (Key.queue l').render)).dropLast
    language
  unfold waiting
  refine Eq.trans ?_ (congrArg (fun jobs => _ ++ List.reverse jobs) hentries.symm)
  by_cases hl : language = l'
  · subst hl
    rw [if_pos hlang, if_pos rfl, List.singleton_append, ← List.reverse_concat, hsplit]
    rfl
  · rw [if_neg (by rw [hlang]; exact Ne.symm hl), if_neg hl, List.nil_append]
    rfl

/-- One command: what is pushed joins the jobs that wait, what is popped is the oldest. -/
theorem waiting_step {σ : JobId → Stage} {s t : State} {a : Action} (h : Agrees σ s)
    (hstep : step s a = some t) :
    waiting language s ++ pushed language s a = popped language s a ++ waiting language t := by
  cases a with
  | push u => exact waiting_push h hstep
  | brpop k languages => exact (List.append_nil _).trans (waiting_brpop h hstep)
  | _ => 
    refine (List.append_nil _).trans (waiting_congr ?_).symm
    exact get_step hstep (by simp) (by simp)

end

/-- Along every run, whatever the order of the commands of any number of API tasks and
slots: the slots receive the jobs of a language in the order in which they were pushed, each
of them unchanged, and those that no slot has received wait in that order. -/
theorem jobs_in_order (language : Language) (acts : List Action) (s : State)
    (hrun : system.run acts = some s) :
    system.emitted (pushed language) State.empty acts =
      system.emitted (popped language) State.empty acts ++ waiting language s :=
  system.first_in_first_out (I := fun s => ∃ σ, Agrees σ s)
    (fun _ _ _ hs hstep => hs.elim fun _ h => agrees_step h hstep)
    (fun _ _ _ hs hstep => hs.elim fun _ h => waiting_step h hstep) ⟨_, agrees_empty⟩ hrun

/-- Two jobs of one language and one of another. -/
def threeJobs : List Action :=
  [.enqueue 0 .go, .llen 0 ⟨"a", by decide⟩, .enqueue 1 .c, .enqueue 2 .go,
    .llen 2 ⟨"b", by decide⟩, .llen 1 ⟨"c", by decide⟩, .push 0, .push 1, .push 2,
    .brpop 7 [.rust, .go], .brpop 8 [.c, .go]]

/-- Two of the jobs are popped, by different slots. -/
theorem jobs_in_order_three_jobs :
    ∃ s, system.run threeJobs = some s ∧ (waiting .go s).length = 1 ∧
      system.emitted (pushed .go) State.empty threeJobs =
        system.emitted (popped .go) State.empty threeJobs ++ waiting .go s :=
  ⟨_, rfl, rfl, jobs_in_order .go threeJobs _ rfl⟩

end ExecutionEngine.JobOrder
