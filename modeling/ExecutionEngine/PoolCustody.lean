import ExecutionEngine.PoolLedger

/-!
# Custody of warm containers

Every step of the pool is a step of the ledger (`step_refines`), so that the
invariants of the ledger hold along every run of the pool in which the reapers
rewrite their lists under the conditions of the ledger. The conditions are
restated here on the states of the pool.
-/
namespace ExecutionEngine.PoolCustody
open Transition ContainerPool PoolLedger

def claim : Task → Claim
  | .judging _ e => .popped e
  | .inspecting _ e => .checked e.containerId
  | .holding _ c => .held c.containerId
  | .sanitizing _ c => .held c.containerId
  | .releasing _ e => .held e.containerId
  | .prewarmed _ _ _ e => .held e.containerId
  | .scanning now => .scan now
  | .sifting now image raws => .view now image raws
  | .rebuilding now image raws keep => .plan now image raws keep
  | _ => .none

def ledger (s : State) : Ledger where
  now := s.now
  pool := s.pool
  started := s.started
  killed := s.kills.map Prod.fst
  owed := s.owed
  claims := fun t => claim (s.tasks t)

def label : Action → Option ℕ
  | .rebuild t => some t
  | _ => none

theorem ledger_become (s : State) (t : ℕ) (task : Task) :
    ledger (s.become t task) = (ledger s).become t (claim task) := by
  simp only [ledger, State.become, Ledger.become, Ledger.mk.injEq, true_and]
  funext u
  by_cases hu : u = t
  · subst u; simp
  · simp [hu]

/-- A step between two program points at which the task has the same in hand. -/
theorem ledger_become_same {s : State} {t : ℕ} {task : Task}
    (h : claim task = claim (s.tasks t)) : ledger (s.become t task) = ledger s := by
  rw [ledger_become, h]
  simp [Ledger.become, ledger]

@[simp] theorem ledger_setLock (s : State) (image : String) (l : Option Lock) :
    ledger (s.setLock image l) = ledger s := rfl

@[simp] theorem ledger_killContainer (s : State) (c : Container) :
    ledger (s.killContainer c) = (ledger s).kill c.containerId := rfl

theorem ledger_killAll (s : State) (entries : List Entry) :
    ledger (s.killAll entries) = (ledger s).killMany (entries.map fun e => e.containerId) := by
  induction entries generalizing s with
  | nil => rfl
  | cons e es ih =>
    simp only [State.killAll, Ledger.killMany, List.foldl_cons, List.map_cons] at ih ⊢
    rw [ih, ledger_killContainer]

theorem ledger_handOut (s : State) (t : ℕ) (image : String) (c : Container) :
    ledger (s.handOut t image c) =
      ((ledger s).settle c.containerId).become t (.held c.containerId) := by
  have h := ledger_become { s with owed := Function.update s.owed c.containerId none } t
    (.holding image c)
  exact h

/-- The task moves on with the same in hand. -/
theorem step_same {limits : Limits} {s : State} {t : ℕ} {task : Task}
    (h : claim task = claim (s.tasks t)) :
    Step limits (ledger s) none (ledger (s.become t task)) := by
  rw [ledger_become_same h]
  exact .skip

theorem step_cappedPush {limits : Limits} {s : State} {t : ℕ} {task : Task} {image : String}
    {e : Entry} (ht : claim (s.tasks t) = .held e.containerId) (hk : claim task = .none) :
    Step limits (ledger s) none (ledger ((s.cappedPush limits image e).become t task)) := by
  rw [ledger_become, hk]
  unfold State.cappedPush
  split_ifs with hcap
  · exact .discard (c := e.containerId) (by simp [ledger, ht, Claim.custody])
  · exact .push ht (not_le.mp hcap)

theorem refines_dockerRun {limits : Limits} {s s' : State} {t : ℕ} {c : Option Container}
    (h : afterDockerRun s t c = some s') : Step limits (ledger s) none (ledger s') := by
  cases c with
  | none =>
    simp only [afterDockerRun] at h
    split at h <;> rename_i ht
    · obtain rfl := Option.some.inj h
      exact step_same (by simp [ht, claim])
    · obtain rfl := Option.some.inj h
      exact step_same (by simp [ht, claim])
    · cases h
  | some c =>
    simp only [afterDockerRun] at h
    split_ifs at h with hc
    split at h <;> rename_i ht
    · obtain rfl := Option.some.inj h
      rw [ledger_become]
      exact .start (by simp [ledger, ht, claim]) hc
    · obtain rfl := Option.some.inj h
      rw [ledger_become]
      exact .start (by simp [ledger, ht, claim]) hc
    · cases h

/-- Every step of the pool is a step of the ledger, under the same label. -/
theorem step_refines {limits : Limits} {s s' : State} {a : Action}
    (h : step limits s a = some s') : Step limits (ledger s) (label a) (ledger s') := by
  cases a with
  | tick d =>
    obtain rfl := Option.some.inj h
    exact .tick d
  | acquire t image =>
    simp only [step] at h
    split at h <;> [skip; cases h]
    rename_i ht
    obtain rfl := Option.some.inj h
    exact step_same (by simp [ht, claim])
  | rpop t =>
    simp only [step] at h
    split at h <;> [skip; cases h]
    rename_i image ht
    split at h <;> rename_i he <;> obtain rfl := Option.some.inj h
    · exact step_same (by simp [ht, claim])
    · rw [ledger_become]
      exact .pop (by simp [ledger, ht, claim]) he
  | judgeAge t =>
    simp only [step] at h
    split at h <;> [skip; cases h]
    rename_i image e ht
    split_ifs at h with he <;> obtain rfl := Option.some.inj h <;> rw [ledger_become]
    · exact .discard (c := e.containerId) (by simp [ledger, ht, claim, Claim.custody])
    · exact .pass (by simp [ledger, ht, claim]) (eq_false_of_ne_true he)
  | containerIsUsable t usable =>
    simp only [step] at h
    split at h <;> [skip; cases h]
    rename_i image e ht
    split_ifs at h with he <;> obtain rfl := Option.some.inj h
    · rw [ledger_handOut]
      exact .hand (by simp [ledger, ht, claim])
    · rw [ledger_become]
      exact .discard (c := e.containerId) (by simp [ledger, ht, claim, Claim.custody])
  | dockerRun t c => exact refines_dockerRun h
  | release t =>
    simp only [step] at h
    split at h <;> [skip; cases h]
    rename_i ht
    obtain rfl := Option.some.inj h
    exact step_same (by simp [ht, claim])
  | sanitize t alive =>
    simp only [step] at h
    split at h <;> [skip; cases h]
    rename_i image c ht
    split_ifs at h <;> obtain rfl := Option.some.inj h
    · exact step_same (by simp [ht, claim])
    · rw [ledger_become]
      exact .drop (c := c.containerId) (by simp [ledger, ht, claim])
  | cappedPush t =>
    simp only [step] at h
    split at h <;> [skip; skip; cases h] <;> rename_i ht <;> obtain rfl := Option.some.inj h
    · exact step_cappedPush (by simp [ht, claim]) rfl
    · exact step_cappedPush (by simp [ht, claim]) rfl
  | ensurePoolTarget t image target =>
    simp only [step] at h
    split at h <;> [skip; cases h]
    rename_i ht
    split_ifs at h <;> obtain rfl := Option.some.inj h
    · exact .skip
    · exact step_same (by simp [ht, claim])
  | setLock t =>
    simp only [step] at h
    split at h <;> [skip; cases h]
    rename_i ht
    split at h <;> obtain rfl := Option.some.inj h
    · exact step_same (by simp [ht, claim])
    · rw [ledger_become_same (by simp [ht, claim, State.setLock]), ledger_setLock]
      exact .skip
  | llen t =>
    simp only [step] at h
    split at h <;> [skip; cases h]
    rename_i ht
    obtain rfl := Option.some.inj h
    exact step_same (by rw [ht, prewarmLoop]; split_ifs <;> rfl)
  | queueBusy t =>
    simp only [step] at h
    split at h <;> [skip; cases h]
    rename_i ht
    obtain rfl := Option.some.inj h
    exact step_same (by simp [ht, claim])
  | getLock t =>
    simp only [step] at h
    split at h <;> [skip; cases h]
    rename_i ht
    split_ifs at h <;> obtain rfl := Option.some.inj h
    · exact step_same (by simp [ht, claim])
    · exact step_same (by simp [ht, claim])
  | deleteLock t =>
    simp only [step] at h
    split at h <;> [skip; cases h]
    rename_i ht
    obtain rfl := Option.some.inj h
    rw [ledger_become_same (by simp [ht, claim, State.setLock]), ledger_setLock]
    exact .skip
  | expireLock image =>
    simp only [step] at h
    split at h <;> [skip; cases h]
    split_ifs at h
    obtain rfl := Option.some.inj h
    exact .skip
  | reapOnce t =>
    simp only [step] at h
    split at h <;> [skip; cases h]
    rename_i ht
    obtain rfl := Option.some.inj h
    rw [ledger_become]
    exact .reap (by simp [ledger, ht, claim])
  | lrange t image =>
    simp only [step] at h
    split at h <;> [skip; cases h]
    rename_i ht
    split_ifs at h <;> obtain rfl := Option.some.inj h
    · exact .skip
    · rw [ledger_become]
      exact .look image (by simp [ledger, ht, claim])
  | sift t =>
    simp only [step] at h
    split at h <;> [skip; cases h]
    rename_i ht
    obtain rfl := Option.some.inj h
    rw [siftEntries, ledger_become, ledger_killAll]
    exact .sift (by simp [ledger, ht, claim])
  | rebuild t =>
    simp only [step] at h
    split at h <;> [skip; cases h]
    rename_i now image raws keep ht
    obtain rfl := Option.some.inj h
    rw [ledger_become]
    exact @Step.rebuild limits (ledger s) t now image raws keep (by simp [ledger, ht, claim])
  | endReap t =>
    simp only [step] at h
    split at h <;> [skip; cases h]
    rename_i now ht
    obtain rfl := Option.some.inj h
    rw [ledger_become]
    exact .stop (n := now) (by simp [ledger, ht, claim])

/-- The container held by a job: from the return of `acquire` or `docker run`
until `release` pushes it, schedules its kill or finds it dead. -/
def heldByJob : Task → Option String
  | .holding _ c => some c.containerId
  | .sanitizing _ c => some c.containerId
  | .releasing _ e => some e.containerId
  | _ => none

/-- A container held by a job is in no pool list, is not held by a second job
and has no kill scheduled. -/
def Exclusive (s : State) : Prop :=
  ∀ t c, heldByJob (s.tasks t) = some c →
    (∀ image, ∀ e ∈ s.pool image, e.containerId ≠ c) ∧
      (∀ u, heldByJob (s.tasks u) = some c → u = t) ∧ ∀ k ∈ s.kills, k.1 ≠ c

/-- A container that `acquire` has popped and neither handed out nor discarded. -/
def beingDecided : Task → Option String
  | .judging _ e => some e.containerId
  | .inspecting _ e => some e.containerId
  | _ => none

/-- A container that was pushed into a list, and has since neither been handed to
a job nor been scheduled for a kill, is in that list exactly once. The only
exception is the time in which an `acquire` that popped it makes up its mind. -/
def NoneLost (s : State) : Prop :=
  ∀ c image, s.owed c = some image →
    (∃ t, beingDecided (s.tasks t) = some c) ∨ (ids (s.pool image)).count c = 1

/-- A list about to be replaced, with the snapshot and the new content. -/
structure Rewrite where
  image : String
  rawEntries : List Entry
  keep : List Entry

/-- The `MULTI`/`EXEC` pipeline that the action runs, if it is that of a reaper. -/
def rewriting (s : State) : Action → Option Rewrite
  | .rebuild t =>
    match s.tasks t with
    | .rebuilding _ image rawEntries keep => some ⟨image, rawEntries, keep⟩
    | _ => none
  | _ => none

/-- A reaper rewrites a list only while every entry it writes back is still in
the list. All other steps are unrestricted. -/
def RewritesPresent (s : State) (a : Action) : Prop :=
  ∀ r ∈ rewriting s a, ∀ e ∈ r.keep, e ∈ s.pool r.image

/-- In addition, every entry of the list is in the snapshot of the reaper. -/
def RewritesCurrent (s : State) (a : Action) : Prop :=
  ∀ r ∈ rewriting s a,
    (∀ e ∈ r.keep, e ∈ s.pool r.image) ∧ ∀ e ∈ s.pool r.image, e ∈ r.rawEntries

instance (s : State) (a : Action) : Decidable (RewritesPresent s a) :=
  inferInstanceAs (Decidable (∀ r ∈ rewriting s a, _))

instance (s : State) (a : Action) : Decidable (RewritesCurrent s a) :=
  inferInstanceAs (Decidable (∀ r ∈ rewriting s a, _))

theorem tasks_of_plan {s : State} {t : ℕ} {n : ℤ} {image : String} {raws keep : List Entry}
    (h : (ledger s).claims t = .plan n image raws keep) :
    s.tasks t = .rebuilding n image raws keep := by
  have hc : claim (s.tasks t) = .plan n image raws keep := h
  cases htask : s.tasks t <;> rw [htask] at hc <;> simp_all [claim]

theorem rewriting_of_plan {s : State} {a : Action} {t : ℕ} {n : ℤ} {image : String}
    {raws keep : List Entry} (ha : label a = some t)
    (h : (ledger s).claims t = .plan n image raws keep) :
    rewriting s a = some ⟨image, raws, keep⟩ := by
  obtain rfl : a = .rebuild t := by
    cases a <;> simp_all [label]
  simp [rewriting, tasks_of_plan h]

theorem writesBackPresent_of_rewrites {s : State} {a : Action} (h : RewritesPresent s a) :
    ∀ t, label a = some t → WritesBackPresent (ledger s) t :=
  fun _ ht _ _ _ _ hplan => h _ (rewriting_of_plan ht hplan)

theorem snapshotCurrent_of_rewrites {s : State} {a : Action} (h : RewritesCurrent s a) :
    ∀ t, label a = some t → SnapshotCurrent (ledger s) t :=
  fun _ ht => ⟨fun _ _ _ _ hplan => (h _ (rewriting_of_plan ht hplan)).1,
    fun _ _ _ _ hplan => (h _ (rewriting_of_plan ht hplan)).2⟩

theorem RewritesCurrent.present {s : State} {a : Action} (h : RewritesCurrent s a) :
    RewritesPresent s a := fun r hr => (h r hr).1

theorem inv_empty (limits : Limits) : Inv limits (ledger State.empty) where
  known := by
    rintro c (image | t) h <;> simp_all [At, ledger, State.empty, claim, Claim.custody]
  known_killed := by simp [ledger, State.empty]
  single := by
    rintro c (image | t) q h <;> simp_all [At, ledger, State.empty, claim, Claim.custody]
  nodup := by simp [ids, ledger, State.empty]
  alive := by simp [ledger, State.empty]
  doomed := by simp [ledger, State.empty]
  sound := fun _ => trivial

theorem kept_empty : Kept (ledger State.empty) where
  present := by simp [ledger, State.empty]
  settled := by simp [ledger, State.empty]
  covered := by simp [ledger, State.empty, claim]

theorem custody_of_heldByJob {s : State} {t : ℕ} {c : String}
    (h : heldByJob (s.tasks t) = some c) : ((ledger s).claims t).live = some c := by
  change (claim (s.tasks t)).live = some c
  cases htask : s.tasks t <;> rw [htask] at h <;> simp_all [heldByJob, claim, Claim.live]

theorem exclusive_of_inv {limits : Limits} {s : State} (h : Inv limits (ledger s)) :
    Exclusive s := by
  intro t c ht
  have hlive := custody_of_heldByJob ht
  have hat : At (ledger s) c (.task t) := Claim.custody_of_live hlive
  refine ⟨fun image e he hid => ?_, fun u hu => ?_, fun k hk hid => ?_⟩
  · have := h.single c _ (.pool image) hat ⟨e, he, hid⟩
    simp at this
  · have := h.single c _ (.task u) hat (Claim.custody_of_live (custody_of_heldByJob hu))
    simpa using this.symm
  · exact h.alive t c hlive (List.mem_map.mpr ⟨k, hk, hid⟩)

theorem noneLost_of_kept {limits : Limits} {s : State} (h : Inv limits (ledger s))
    (hk : Kept (ledger s)) : NoneLost s := by
  intro c image hc
  obtain ⟨t, ht⟩ | hin := hk.present c image hc
  · refine .inl ⟨t, ?_⟩
    have hd : (claim (s.tasks t)).deciding = some c := ht
    cases htask : s.tasks t <;> rw [htask] at hd <;>
      simp_all [beingDecided, claim, Claim.deciding]
  · exact .inr (List.count_eq_one_of_mem (h.nodup image) hin)

theorem inv_run {limits : Limits} {acts : List Action} {s : State}
    (hg : (system limits).Guarded RewritesPresent (system limits).init acts)
    (hs : (system limits).run acts = some s) : Inv limits (ledger s) :=
  (system limits).invariant (I := fun s => Inv limits (ledger s))
    (fun _ _ _ hi hga hst => inv_step hi (step_refines hst) (writesBackPresent_of_rewrites hga))
    (inv_empty limits) hg hs

/-- In every run in which each reaper writes back only entries that are still in
the list, a container held by a job is in no list, is held by no second job and
has no kill scheduled. -/
theorem held_exclusively (limits : Limits) (acts : List Action) (s : State)
    (hg : (system limits).Guarded RewritesPresent (system limits).init acts)
    (hs : (system limits).run acts = some s) : Exclusive s :=
  exclusive_of_inv (inv_run hg hs)

/-- A container is started for a job and released, and a reaper rewrites the list. -/
def releaseAndReap : List Action :=
  [.acquire 0 "go-sandbox:latest", .rpop 0, .dockerRun 0 (some ⟨"c", "/t", "/h"⟩), .release 0,
    .sanitize 0 true, .cappedPush 0, .reapOnce 1, .lrange 1 "go-sandbox:latest", .sift 1,
    .rebuild 1]

/-- The next job takes the container from the rewritten list. -/
theorem held_exclusively_after_reap :
    ∃ s, (system ⟨60, 50⟩).run (releaseAndReap ++ [.acquire 2 "go-sandbox:latest", .rpop 2,
        .judgeAge 2, .containerIsUsable 2 true]) = some s ∧
      heldByJob (s.tasks 2) = some "c" ∧ Exclusive s :=
  ⟨_, rfl, rfl, held_exclusively ⟨60, 50⟩ (releaseAndReap ++ [.acquire 2 "go-sandbox:latest",
    .rpop 2, .judgeAge 2, .containerIsUsable 2 true]) _ (by decide) rfl⟩

/-- The reaper of another process takes its snapshot, a job pops the entry, and
the rebuild puts the container of the job back into the list. -/
theorem not_held_exclusively :
    ¬ ∀ (limits : Limits) (acts : List Action) (s : State),
      (system limits).run acts = some s → Exclusive s := by
  intro h
  have hexcl := h ⟨60, 50⟩
    [.acquire 0 "go-sandbox:latest", .rpop 0, .dockerRun 0 (some ⟨"c", "/t", "/h"⟩),
      .release 0, .sanitize 0 true, .cappedPush 0, .reapOnce 1, .lrange 1 "go-sandbox:latest",
      .acquire 2 "go-sandbox:latest", .rpop 2, .judgeAge 2, .containerIsUsable 2 true, .sift 1,
      .rebuild 1] _ rfl 2 "c" rfl
  exact hexcl.1 "go-sandbox:latest" ⟨⟨"c", "/t", "/h"⟩, 0⟩ (List.mem_singleton.mpr rfl) rfl

/-- In every run in which each reaper moreover finds no entry that its snapshot
does not have, no warm container is lost or duplicated. -/
theorem pushed_not_lost (limits : Limits) (acts : List Action) (s : State)
    (hg : (system limits).Guarded RewritesCurrent (system limits).init acts)
    (hs : (system limits).run acts = some s) : NoneLost s := by
  have h := (system limits).invariant
    (I := fun s => Inv limits (ledger s) ∧ Kept (ledger s))
    (fun s a s' hi hga hst =>
      ⟨inv_step hi.1 (step_refines hst) (writesBackPresent_of_rewrites hga.present),
        kept_step hi.1 hi.2 (step_refines hst) (snapshotCurrent_of_rewrites hga)⟩)
    ⟨inv_empty limits, kept_empty⟩ hg hs
  exact noneLost_of_kept h.1 h.2

/-- The reaper kept the container that was pushed. -/
theorem pushed_not_lost_after_reap :
    ∃ s, (system ⟨60, 50⟩).run releaseAndReap = some s ∧
      s.owed "c" = some "go-sandbox:latest" ∧ NoneLost s :=
  ⟨_, rfl, rfl, pushed_not_lost ⟨60, 50⟩ releaseAndReap _ (by decide) rfl⟩

/-- The container `d` is pushed between the snapshot of the reaper and its
rebuild, which drops it: no list has it, no task has it and no kill is scheduled. -/
theorem not_pushed_not_lost :
    ¬ ∀ (limits : Limits) (acts : List Action) (s : State),
      (system limits).run acts = some s → NoneLost s := by
  intro h
  have hlost := h ⟨60, 50⟩
    [.acquire 0 "go-sandbox:latest", .rpop 0, .dockerRun 0 (some ⟨"c", "/t", "/h"⟩),
      .acquire 1 "go-sandbox:latest", .rpop 1, .dockerRun 1 (some ⟨"d", "/u", "/i"⟩),
      .release 0, .sanitize 0 true, .cappedPush 0, .reapOnce 2, .lrange 2 "go-sandbox:latest",
      .release 1, .sanitize 1 true, .cappedPush 1, .sift 2, .rebuild 2] _ rfl
    "d" "go-sandbox:latest" rfl
  obtain ⟨t, ht⟩ | hcount := hlost
  · match t with
    | 0 => cases ht
    | 1 => cases ht
    | 2 => cases ht
    | _ + 3 => cases ht
  · cases hcount

/-- In every run, with any number of reapers and snapshots of any age, no pool list
is longer than the cap. -/
theorem pool_within_capacity (limits : Limits) (hcap : 0 ≤ limits.maxPerImage)
    (acts : List Action) (s : State) (hs : (system limits).run acts = some s)
    (image : String) : ((s.pool image).length : ℤ) ≤ limits.maxPerImage := by
  have hinit : Bounded limits (ledger State.empty) :=
    ⟨by simpa [ledger, State.empty] using hcap,
      by simpa [ledger, State.empty, claim, Claim.entries] using hcap⟩
  have h := (system limits).invariant (g := fun _ _ => True)
    (I := fun s => Bounded limits (ledger s))
    (fun _ _ _ hi _ hst => bounded_step hi (step_refines hst)) hinit
    ((system limits).guarded_of_forall (fun _ _ _ => trivial) _) hs
  exact h.pool image

/-- A job takes the entry and another job releases a second container before the
reaper writes its snapshot back. -/
def rebuildFromStale : List Action :=
  releaseAndReap.take 8 ++ [.acquire 2 "go-sandbox:latest", .rpop 2,
    .acquire 3 "go-sandbox:latest", .rpop 3, .dockerRun 3 (some ⟨"d", "/u", "/i"⟩), .release 3,
    .sanitize 3 true, .cappedPush 3, .sift 1, .rebuild 1]

/-- With room for one container, the list is full before and after the rebuild. -/
theorem pool_within_capacity_stale :
    ∃ s, (system ⟨60, 1⟩).run rebuildFromStale = some s ∧
      (s.pool "go-sandbox:latest").length = 1 ∧
      ((s.pool "go-sandbox:latest").length : ℤ) ≤ 1 :=
  ⟨_, rfl, rfl,
    pool_within_capacity ⟨60, 1⟩ (by decide) rebuildFromStale _ rfl "go-sandbox:latest"⟩

end ExecutionEngine.PoolCustody
