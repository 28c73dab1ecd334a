import ExecutionEngine.ContainerPool

/-!
# Who releases the prewarm lock

A call of `ensure_pool_target` sets the lock of the image to the time it has read
and, when it is done, compares the stored value with its own by `GET` and removes
the lock by a later `DELETE`. Redis drops a lock after 900 seconds, also while the
call that set it is still at work. The invariant below says which calls may take a
lock for their own; only the step that sets a lock can break it.
-/
namespace ExecutionEngine.ContainerPool
open Transition

/-- What a call of `ensure_pool_target` does with the lock from here on: compare it
with its own value, or delete it. -/
inductive LockRole
  | comparing (image : String) (lockValue : ℤ)
  | deleting (image : String)
  deriving DecidableEq, Repr

def lockRole : Task → Option LockRole
  | .measuring image _ value => some (.comparing image value)
  | .prewarming image _ value _ => some (.comparing image value)
  | .prewarmed image _ value _ => some (.comparing image value)
  | .unlocking image value => some (.comparing image value)
  | .deleting image => some (.deleting image)
  | _ => none

/-- The lock that a call is about to delete is its own, unless it has expired. -/
def OwnersOnly (s : State) : Prop :=
  ∀ t image l, s.tasks t = .deleting image → s.lock image = some l → s.now < l.expiresAt →
    l.owner = t

/-- No other call takes a lock that is set now to the value `lockValue` for its own. -/
def Unclaimed (s : State) (t : ℕ) (image : String) (lockValue : ℤ) : Prop :=
  ∀ u, u ≠ t → lockRole (s.tasks u) ≠ some (.comparing image lockValue) ∧
    lockRole (s.tasks u) ≠ some (.deleting image)

/-- A call that takes the free lock finds no other call of the image between its
`GET` and its `DELETE`, and none at work that has read the same time. -/
def SetsUnclaimed (s : State) : Action → Prop
  | .setLock t =>
    match s.tasks t with
    | .locking image _ value => s.lock image = none → Unclaimed s t image value
    | _ => True
  | _ => True

/-- Every lock that a call would take for its own is its own. -/
def LockInv (s : State) : Prop :=
  ∀ t image l, s.lock image = some l →
    lockRole (s.tasks t) = some (.comparing image l.value) ∨
      lockRole (s.tasks t) = some (.deleting image) → l.owner = t

/-- No lock changes and no call gains a claim. -/
structure Keeps (s s' : State) : Prop where
  lock : s'.lock = s.lock
  role : ∀ u, lockRole (s'.tasks u) = none ∨ lockRole (s'.tasks u) = lockRole (s.tasks u)

theorem Keeps.become {s s₁ : State} {t : ℕ} {task : Task} (hlock : s₁.lock = s.lock)
    (htasks : s₁.tasks = s.tasks)
    (h : lockRole task = none ∨ lockRole task = lockRole (s.tasks t)) :
    Keeps s (s₁.become t task) where
  lock := hlock
  role := by
    intro u
    by_cases hu : u = t
    · subst hu
      simpa [State.become] using h
    · right
      simp [State.become, htasks, hu]

@[simp] theorem killAll_lock (s : State) (entries : List Entry) :
    (s.killAll entries).lock = s.lock := (killAll_frame s entries).2.1

@[simp] theorem killAll_tasks (s : State) (entries : List Entry) :
    (s.killAll entries).tasks = s.tasks := (killAll_frame s entries).2.2.2

@[simp] theorem cappedPush_lock (s : State) (limits : Limits) (image : String) (e : Entry) :
    (s.cappedPush limits image e).lock = s.lock := by
  unfold State.cappedPush
  split_ifs <;> rfl

@[simp] theorem cappedPush_tasks (s : State) (limits : Limits) (image : String) (e : Entry) :
    (s.cappedPush limits image e).tasks = s.tasks := by
  unfold State.cappedPush
  split_ifs <;> rfl

/-- The steps that matter: a lock is set, a call recognises the lock as its own, a
lock is dropped. -/
inductive LockStep (s s' : State) : Action → Prop
  | keep {a : Action} : Keeps s s' → LockStep s s' a
  | set {t : ℕ} {image : String} {target value : ℤ} : s.tasks t = .locking image target value →
      s.lock image = none →
      s' = (s.setLock image (some ⟨value, s.now + lockSeconds, t⟩)).become t
        (.measuring image target value) →
      LockStep s s' (.setLock t)
  | recognise {t : ℕ} {image : String} {value : ℤ} : s.tasks t = .unlocking image value →
      (s.lock image).map Lock.value = some value → s' = s.become t (.deleting image) →
      LockStep s s' (.getLock t)
  | delete {t : ℕ} {image : String} : s.tasks t = .deleting image →
      s' = (s.setLock image none).become t .idle → LockStep s s' (.deleteLock t)
  | expire {image : String} : s' = s.setLock image none → LockStep s s' (.expireLock image)

theorem lockStep_dockerRun {s s' : State} {t : ℕ} {c : Option Container}
    (h : afterDockerRun s t c = some s') : LockStep s s' (.dockerRun t c) := by
  cases c with
  | none =>
    simp only [afterDockerRun] at h
    split at h <;> [skip; skip; cases h] <;> rename_i ht <;> obtain rfl := Option.some.inj h
    · exact .keep (.become rfl rfl (.inl rfl))
    · exact .keep (.become rfl rfl (.inr (by simp [ht, lockRole])))
  | some c =>
    simp only [afterDockerRun] at h
    split_ifs at h with hc
    split at h <;> [skip; skip; cases h] <;> rename_i ht <;> obtain rfl := Option.some.inj h
    · exact .keep (.become rfl rfl (.inl rfl))
    · exact .keep (.become rfl rfl (.inr (by simp [ht, lockRole])))

theorem lockStep_of_step {limits : Limits} {s s' : State} {a : Action}
    (h : step limits s a = some s') : LockStep s s' a := by
  cases a with
  | tick d =>
    obtain rfl := Option.some.inj h
    exact .keep ⟨rfl, fun _ => .inr rfl⟩
  | acquire t image =>
    simp only [step] at h
    split at h <;> [skip; cases h]
    obtain rfl := Option.some.inj h
    exact .keep (.become rfl rfl (.inl rfl))
  | rpop t =>
    simp only [step] at h
    split at h <;> [skip; cases h]
    split at h <;> obtain rfl := Option.some.inj h
    · exact .keep (.become rfl rfl (.inl rfl))
    · exact .keep (.become rfl rfl (.inl rfl))
  | judgeAge t =>
    simp only [step] at h
    split at h <;> [skip; cases h]
    split_ifs at h <;> obtain rfl := Option.some.inj h
    · exact .keep (.become rfl rfl (.inl rfl))
    · exact .keep (.become rfl rfl (.inl rfl))
  | containerIsUsable t usable =>
    simp only [step] at h
    split at h <;> [skip; cases h]
    rename_i image e ht
    split_ifs at h <;> obtain rfl := Option.some.inj h
    · have hkeep : Keeps s (s.become t (.holding image e.toContainer)) :=
        .become rfl rfl (.inl rfl)
      exact .keep ⟨hkeep.lock, hkeep.role⟩
    · exact .keep (.become rfl rfl (.inl rfl))
  | dockerRun t c => exact lockStep_dockerRun h
  | release t =>
    simp only [step] at h
    split at h <;> [skip; cases h]
    obtain rfl := Option.some.inj h
    exact .keep (.become rfl rfl (.inl rfl))
  | sanitize t alive =>
    simp only [step] at h
    split at h <;> [skip; cases h]
    split_ifs at h <;> obtain rfl := Option.some.inj h
    · exact .keep (.become rfl rfl (.inl rfl))
    · exact .keep (.become rfl rfl (.inl rfl))
  | cappedPush t =>
    simp only [step] at h
    split at h <;> [skip; skip; cases h] <;> rename_i ht <;> obtain rfl := Option.some.inj h
    · exact .keep (.become (by simp) (by simp) (.inl rfl))
    · exact .keep (.become (by simp) (by simp) (.inr (by simp [ht, lockRole])))
  | ensurePoolTarget t image target =>
    simp only [step] at h
    split at h <;> [skip; cases h]
    split_ifs at h <;> obtain rfl := Option.some.inj h
    · exact .keep ⟨rfl, fun _ => .inr rfl⟩
    · exact .keep (.become rfl rfl (.inl rfl))
  | setLock t =>
    simp only [step] at h
    split at h <;> [skip; cases h]
    rename_i ht
    split at h <;> rename_i hl <;> obtain rfl := Option.some.inj h
    · exact .keep (.become rfl rfl (.inl rfl))
    · exact .set ht hl rfl
  | llen t =>
    simp only [step] at h
    split at h <;> [skip; cases h]
    rename_i ht
    obtain rfl := Option.some.inj h
    exact .keep (.become rfl rfl (.inr (by rw [ht, prewarmLoop]; split_ifs <;> rfl)))
  | queueBusy t =>
    simp only [step] at h
    split at h <;> [skip; cases h]
    rename_i ht
    obtain rfl := Option.some.inj h
    exact .keep (.become rfl rfl (.inr (by simp [ht, lockRole])))
  | getLock t =>
    simp only [step] at h
    split at h <;> [skip; cases h]
    rename_i ht
    split_ifs at h with hv <;> obtain rfl := Option.some.inj h
    · exact .recognise ht hv rfl
    · exact .keep (.become rfl rfl (.inl rfl))
  | deleteLock t =>
    simp only [step] at h
    split at h <;> [skip; cases h]
    rename_i ht
    obtain rfl := Option.some.inj h
    exact .delete ht rfl
  | expireLock image =>
    simp only [step] at h
    split at h <;> [skip; cases h]
    split_ifs at h
    obtain rfl := Option.some.inj h
    exact .expire rfl
  | reapOnce t =>
    simp only [step] at h
    split at h <;> [skip; cases h]
    obtain rfl := Option.some.inj h
    exact .keep (.become rfl rfl (.inl rfl))
  | lrange t image =>
    simp only [step] at h
    split at h <;> [skip; cases h]
    split_ifs at h <;> obtain rfl := Option.some.inj h
    · exact .keep ⟨rfl, fun _ => .inr rfl⟩
    · exact .keep (.become rfl rfl (.inl rfl))
  | sift t =>
    simp only [step] at h
    split at h <;> [skip; cases h]
    obtain rfl := Option.some.inj h
    exact .keep (.become (by simp) (by simp) (.inl rfl))
  | rebuild t =>
    simp only [step] at h
    split at h <;> [skip; cases h]
    obtain rfl := Option.some.inj h
    exact .keep (.become rfl rfl (.inl rfl))
  | endReap t =>
    simp only [step] at h
    split at h <;> [skip; cases h]
    obtain rfl := Option.some.inj h
    exact .keep (.become rfl rfl (.inl rfl))

theorem LockInv.keeps {s s' : State} (h : LockInv s) (hk : Keeps s s') : LockInv s' := by
  intro t image l hl hrole
  rw [hk.lock] at hl
  obtain hnone | hsame := hk.role t
  · simp [hnone] at hrole
  · rw [hsame] at hrole
    exact h t image l hl hrole

/-- A lock that is dropped cannot be claimed. -/
theorem LockInv.drop {s : State} (h : LockInv s) (image : String) :
    LockInv (s.setLock image none) := by
  intro t image' l hl hrole
  by_cases himage : image' = image
  · subst himage
    simp [State.setLock] at hl
  · have hl' : s.lock image' = some l := by simpa [State.setLock, himage] using hl
    exact h t image' l hl' hrole

theorem LockInv.set {s : State} (h : LockInv s) {t : ℕ} {image : String} {target value : ℤ}
    (hfree : Unclaimed s t image value) :
    LockInv ((s.setLock image (some ⟨value, s.now + lockSeconds, t⟩)).become t
      (.measuring image target value)) := by
  intro u image' l hl hrole
  by_cases himage : image' = image
  · subst himage
    have hnew : l = ⟨value, s.now + lockSeconds, t⟩ := by
      simpa [State.setLock, State.become] using hl.symm
    subst hnew
    by_contra hne
    have hu : u ≠ t := fun heq => hne heq.symm
    simp only [State.become, State.setLock, Function.update_of_ne hu] at hrole
    obtain hcomparing | hdeleting := hrole
    · exact (hfree u hu).1 hcomparing
    · exact (hfree u hu).2 hdeleting
  · have hl' : s.lock image' = some l := by
      simpa [State.setLock, State.become, himage] using hl
    by_cases hu : u = t
    · -- the call that sets this lock claims no other
      subst hu
      have hne : image ≠ image' := fun heq => himage heq.symm
      simp [State.become, lockRole, hne] at hrole
    · simp only [State.become, State.setLock, Function.update_of_ne hu] at hrole
      exact h u image' l hl' hrole

theorem LockInv.recognise {s : State} (h : LockInv s) {t : ℕ} {image : String} {value : ℤ}
    (ht : s.tasks t = .unlocking image value)
    (hv : (s.lock image).map Lock.value = some value) :
    LockInv (s.become t (.deleting image)) := by
  intro u image' l hl hrole
  have hl' : s.lock image' = some l := hl
  by_cases hu : u = t
  · subst hu
    have himage : image = image' := by simpa [State.become, lockRole] using hrole
    subst himage
    have hvalue : l.value = value := by simpa [hl'] using hv
    exact h u image l hl' (.inl (by simp [ht, lockRole, hvalue]))
  · simp only [State.become, Function.update_of_ne hu] at hrole
    exact h u image' l hl' hrole

theorem lockInv_step {limits : Limits} {s s' : State} {a : Action} (h : LockInv s)
    (hg : SetsUnclaimed s a) (hs : step limits s a = some s') : LockInv s' := by
  cases lockStep_of_step hs with
  | keep hk => exact h.keeps hk
  | set ht hl heq =>
    subst heq
    simp only [SetsUnclaimed, ht] at hg
    exact h.set (hg hl)
  | recognise ht hv heq =>
    subst heq
    exact h.recognise ht hv
  | delete ht heq =>
    subst heq
    exact (h.drop _).keeps (.become rfl rfl (.inl rfl))
  | expire heq =>
    subst heq
    exact h.drop _

/-- In every run in which a lock is only set while no other call of the image stands
between its `GET` and its `DELETE` or has read the same time, a `DELETE` removes the
lock of its own call or one that has expired. -/
theorem lock_released_by_owner (limits : Limits) (acts : List Action) (s : State)
    (hrun : (system limits).run acts = some s)
    (hset : (system limits).Guarded SetsUnclaimed (system limits).init acts) :
    OwnersOnly s := by
  have hinv : LockInv s := (system limits).invariant (I := LockInv)
    (fun _ _ _ h hg hs => lockInv_step h hg hs)
    (fun t image l hl => by cases hl) hset hrun
  intro t image l ht hl _
  exact hinv t image l hl (.inr (by simp [ht, lockRole]))

/-- A call whose lock is free and that runs alone meets the condition. -/
theorem setsUnclaimed_of_idle {s : State} {t : ℕ} (h : ∀ u, u ≠ t → s.tasks u = .idle) :
    SetsUnclaimed s (.setLock t) := by
  simp only [SetsUnclaimed]
  split
  · intro _ u hu
    simp [h u hu, lockRole]
  · trivial

/-- A prewarm from the `LLEN` after the lock is taken to the `GET` before it is
released. -/
def prewarmBody : List Action :=
  [.llen 1, .dockerRun 1 (some ⟨"c", "/tmp/c", "/host/c"⟩), .cappedPush 1, .llen 1, .getLock 1]

def prewarmOnce : List Action :=
  .ensurePoolTarget 1 "go-sandbox:latest" 1 :: .setLock 1 :: prewarmBody

theorem prewarmOnce_guarded :
    (system ⟨100, 5⟩).Guarded SetsUnclaimed (system ⟨100, 5⟩).init prewarmOnce := by
  have hbody : ∀ s, ∀ a ∈ prewarmBody, SetsUnclaimed s a := by
    simp [prewarmBody, SetsUnclaimed]
  refine ⟨trivial, ?_, ?_⟩
  · apply setsUnclaimed_of_idle
    intro u hu
    simp [State.become, hu, system, State.empty]
  · exact (system _).guarded_of_forall hbody _

/-- The call is about to delete the lock that it has set. -/
theorem lock_released_by_owner_once :
    ∃ s, (system ⟨100, 5⟩).run prewarmOnce = some s ∧
      s.tasks 1 = .deleting "go-sandbox:latest" ∧ OwnersOnly s :=
  ⟨_, rfl, by decide, lock_released_by_owner ⟨100, 5⟩ prewarmOnce _ rfl prewarmOnce_guarded⟩

/-- The first call waits 900 seconds between its `GET` and its `DELETE`, and a second
call has set the lock again. -/
def lockTakenOver : List Action :=
  prewarmOnce ++ [.tick 900, .expireLock "go-sandbox:latest",
    .ensurePoolTarget 2 "go-sandbox:latest" 2, .setLock 2]

/-- The `DELETE` of the first call removes the lock of the second. -/
theorem not_lock_released_by_owner :
    ¬ ∀ (limits : Limits) (acts : List Action) (s : State),
      (system limits).run acts = some s → OwnersOnly s := by
  intro h
  have hown := h ⟨100, 5⟩ lockTakenOver _ rfl 1 "go-sandbox:latest" ⟨900, 1800, 2⟩
    (by decide) (by decide)
    (by decide)
  exact absurd hown (by decide)

end ExecutionEngine.ContainerPool
