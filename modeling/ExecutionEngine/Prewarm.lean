import ExecutionEngine.PrewarmLock

/-!
# Whether `ensure_pool_target` returns

The loop of `ensure_pool_target` starts a container, pushes it and reads the length
of the list again, until the length has reached the target. The push is refused when
the list has reached the cap. The call is followed from its first step on, in runs in
which the queues stay empty, every `docker run` succeeds and no other task touches
the list.
-/
namespace ExecutionEngine.ContainerPool
open Transition

/-- The task that takes the step. -/
def Action.task : Action → Option ℕ
  | .tick _ => none
  | .expireLock _ => none
  | .acquire t _ | .rpop t | .judgeAge t | .containerIsUsable t _ | .dockerRun t _ | .release t
  | .sanitize t _ | .cappedPush t | .ensurePoolTarget t _ _ | .setLock t | .llen t | .queueBusy t
  | .getLock t | .deleteLock t | .reapOnce t | .lrange t _ | .sift t | .rebuild t | .endReap t =>
    some t

/-- A step while the call of task `t` is at work: the call finds the queues empty and
its `docker run` succeeds; any other step leaves the list as it is. -/
def Undisturbed (limits : Limits) (t : ℕ) (image : String) (s : State) (a : Action) : Prop :=
  if a.task = some t then s.tasks t ≠ .idle ∧ a ≠ .queueBusy t ∧ a ≠ .dockerRun t none
  else ∀ s', step limits s a = some s' → s'.pool image = s.pool image

/-- The step starts a container for task `t`. -/
def starting (t : ℕ) : Action → Bool
  | .dockerRun u (some _) => decide (u = t)
  | _ => false

/-- The containers that task `t` has started. -/
def starts (t : ℕ) (acts : List Action) : ℕ := acts.countP (starting t)

/-- The steps that task `t` has taken. -/
def ownSteps (t : ℕ) (acts : List Action) : ℕ :=
  acts.countP fun a => decide (a.task = some t)

/-- The call starts at most the missing containers and returns: it takes a bounded
number of steps, and while it has not returned it can take one. -/
def Returns (limits : Limits) (t : ℕ) (image : String) (target : ℤ) (s : State) : Prop :=
  ∃ bound, ∀ acts s₁ s', step limits s (.ensurePoolTarget t image target) = some s₁ →
    (system limits).Guarded (Undisturbed limits t image) s₁ acts →
    (system limits).exec s₁ acts = some s' →
      (starts t acts : ℤ) ≤ max 0 (target - (s.pool image).length) ∧
      ownSteps t acts ≤ bound ∧
      (s'.tasks t ≠ .idle → ∃ a u, a.task = some t ∧ Undisturbed limits t image s' a ∧
        step limits s' a = some u)

theorem tasks_become_of_ne {s s₁ : State} {t u : ℕ} {task : Task} (htasks : s₁.tasks = s.tasks)
    (h : u ≠ t) : (s₁.become u task).tasks t = s.tasks t := by
  simp [State.become, htasks, h.symm]

/-- A step of another task leaves the call where it is. -/
theorem tasks_frame {limits : Limits} {s s' : State} {a : Action} {t : ℕ}
    (h : step limits s a = some s') (ha : a.task ≠ some t) : s'.tasks t = s.tasks t := by
  cases a with
  | tick d =>
    obtain rfl := Option.some.inj h
    rfl
  | expireLock image =>
    simp only [step] at h
    split at h <;> [skip; cases h]
    split_ifs at h
    obtain rfl := Option.some.inj h
    rfl
  | dockerRun u c =>
    have hu : u ≠ t := by simpa [Action.task] using ha
    cases c with
    | none =>
      simp only [step, afterDockerRun] at h
      split at h <;> [skip; skip; cases h] <;> obtain rfl := Option.some.inj h <;>
        exact tasks_become_of_ne rfl hu
    | some c =>
      simp only [step, afterDockerRun] at h
      split_ifs at h
      split at h <;> [skip; skip; cases h] <;> obtain rfl := Option.some.inj h <;>
        exact tasks_become_of_ne rfl hu
  | containerIsUsable u usable =>
    have hu : u ≠ t := by simpa [Action.task] using ha
    simp only [step] at h
    split at h <;> [skip; cases h]
    split_ifs at h <;> obtain rfl := Option.some.inj h
    · exact tasks_become_of_ne (s := s) rfl hu
    · exact tasks_become_of_ne rfl hu
  | cappedPush u =>
    have hu : u ≠ t := by simpa [Action.task] using ha
    simp only [step] at h
    split at h <;> [skip; skip; cases h] <;> obtain rfl := Option.some.inj h <;>
      exact tasks_become_of_ne (by simp) hu
  | sift u =>
    have hu : u ≠ t := by simpa [Action.task] using ha
    simp only [step] at h
    split at h <;> [skip; cases h]
    obtain rfl := Option.some.inj h
    exact tasks_become_of_ne (by simp) hu
  | rpop u | setLock u =>
    have hu : u ≠ t := by simpa [Action.task] using ha
    simp only [step] at h
    split at h <;> [skip; cases h]
    split at h <;> obtain rfl := Option.some.inj h <;> exact tasks_become_of_ne rfl hu
  | judgeAge u | sanitize u _ | getLock u =>
    have hu : u ≠ t := by simpa [Action.task] using ha
    simp only [step] at h
    split at h <;> [skip; cases h]
    split_ifs at h <;> obtain rfl := Option.some.inj h <;> exact tasks_become_of_ne rfl hu
  | ensurePoolTarget u _ _ | lrange u _ =>
    have hu : u ≠ t := by simpa [Action.task] using ha
    simp only [step] at h
    split at h <;> [skip; cases h]
    split_ifs at h <;> obtain rfl := Option.some.inj h
    · rfl
    · exact tasks_become_of_ne rfl hu
  | acquire u _ | release u | llen u | queueBusy u | deleteLock u | reapOnce u | rebuild u
  | endReap u =>
    have hu : u ≠ t := by simpa [Action.task] using ha
    simp only [step] at h
    split at h <;> [skip; cases h]
    obtain rfl := Option.some.inj h
    exact tasks_become_of_ne rfl hu

/-- The call as a machine of its own: where it stands, how long the list is and
whether the step starts a container. -/
inductive CallStep (limits : Limits) (image : String) (target : ℤ) :
    Task → ℕ → Bool → Task → ℕ → Prop
  | refused {value : ℤ} {n : ℕ} :
      CallStep limits image target (.locking image target value) n false .idle n
  | locked {value : ℤ} {n : ℕ} :
      CallStep limits image target (.locking image target value) n false
        (.measuring image target value) n
  | measured {value : ℤ} {n : ℕ} :
      CallStep limits image target (.measuring image target value) n false
        (prewarmLoop image target value n) n
  | started {value current : ℤ} {n : ℕ} {e : Entry} :
      CallStep limits image target (.prewarming image target value current) n true
        (.prewarmed image target value e) n
  | pushed {value : ℤ} {n : ℕ} {e : Entry} (h : (n : ℤ) < limits.maxPerImage) :
      CallStep limits image target (.prewarmed image target value e) n false
        (.measuring image target value) (n + 1)
  | full {value : ℤ} {n : ℕ} {e : Entry} (h : (n : ℤ) ≥ limits.maxPerImage) :
      CallStep limits image target (.prewarmed image target value e) n false
        (.measuring image target value) n
  | compared {value : ℤ} {n : ℕ} :
      CallStep limits image target (.unlocking image value) n false .idle n
  | recognised {value : ℤ} {n : ℕ} :
      CallStep limits image target (.unlocking image value) n false (.deleting image) n
  | deleted {n : ℕ} : CallStep limits image target (.deleting image) n false .idle n

/-- The task is at work on a call for the image with the target. -/
def InCall (image : String) (target : ℤ) : Task → Prop
  | .locking i g _ | .measuring i g _ | .prewarming i g _ _ | .prewarmed i g _ _ =>
    i = image ∧ g = target
  | .unlocking i _ | .deleting i => i = image
  | _ => False

@[simp] theorem tasks_become_self (s : State) (t : ℕ) (task : Task) :
    (s.become t task).tasks t = task := by
  simp [State.become]

@[simp] theorem pool_become (s : State) (t : ℕ) (task : Task) :
    (s.become t task).pool = s.pool := rfl

@[simp] theorem pool_setLock (s : State) (image : String) (l : Option Lock) :
    (s.setLock image l).pool = s.pool := rfl

theorem callStep_cappedPush {limits : Limits} {s : State} {image : String} {target value : ℤ}
    {e : Entry} :
    CallStep limits image target (.prewarmed image target value e) (s.pool image).length false
      (.measuring image target value) ((s.cappedPush limits image e).pool image).length := by
  by_cases hfull : ((s.pool image).length : ℤ) ≥ limits.maxPerImage
  · have hpool : (s.cappedPush limits image e).pool image = s.pool image := by
      simp [State.cappedPush, hfull, State.killContainer]
    rw [hpool]
    exact .full hfull
  · have hpool : (s.cappedPush limits image e).pool image = e :: s.pool image := by
      simp [State.cappedPush, hfull, State.setPool]
    rw [hpool]
    exact .pushed (by omega)

theorem callStep_of_step {limits : Limits} {s s' : State} {a : Action} {t : ℕ} {image : String}
    {target : ℤ} (hcall : InCall image target (s.tasks t)) (ha : a.task = some t)
    (hu : Undisturbed limits t image s a) (h : step limits s a = some s') :
    CallStep limits image target (s.tasks t) (s.pool image).length (starting t a)
      (s'.tasks t) (s'.pool image).length := by
  rw [Undisturbed, if_pos ha] at hu
  obtain ⟨-, hbusy, hfail⟩ := hu
  cases a with
  | tick d => cases ha
  | expireLock i => cases ha
  | setLock u =>
    obtain rfl : u = t := by simpa [Action.task] using ha
    simp only [step] at h
    split at h <;> [skip; cases h]
    rename_i ht
    rw [ht] at hcall ⊢
    obtain ⟨rfl, rfl⟩ := hcall
    split at h <;> obtain rfl := Option.some.inj h <;>
      simp only [tasks_become_self, pool_become, pool_setLock]
    · exact .refused
    · exact .locked
  | llen u =>
    obtain rfl : u = t := by simpa [Action.task] using ha
    simp only [step] at h
    split at h <;> [skip; cases h]
    rename_i ht
    rw [ht] at hcall ⊢
    obtain ⟨rfl, rfl⟩ := hcall
    obtain rfl := Option.some.inj h
    simp only [tasks_become_self, pool_become]
    exact .measured
  | queueBusy u =>
    obtain rfl : u = t := by simpa [Action.task] using ha
    exact absurd rfl hbusy
  | dockerRun u c =>
    obtain rfl : u = t := by simpa [Action.task] using ha
    cases c with
    | none => exact absurd rfl hfail
    | some c =>
      simp only [step, afterDockerRun] at h
      split_ifs at h
      split at h <;> [skip; skip; cases h] <;> rename_i ht <;> rw [ht] at hcall ⊢
      · cases hcall
      · obtain ⟨rfl, rfl⟩ := hcall
        obtain rfl := Option.some.inj h
        simp only [tasks_become_self, pool_become, starting, decide_true]
        exact .started
  | cappedPush u =>
    obtain rfl : u = t := by simpa [Action.task] using ha
    simp only [step] at h
    split at h <;> [skip; skip; cases h] <;> rename_i ht <;> rw [ht] at hcall ⊢
    · cases hcall
    · obtain ⟨rfl, rfl⟩ := hcall
      obtain rfl := Option.some.inj h
      simp only [tasks_become_self, pool_become]
      exact callStep_cappedPush
  | getLock u =>
    obtain rfl : u = t := by simpa [Action.task] using ha
    simp only [step] at h
    split at h <;> [skip; cases h]
    rename_i ht
    rw [ht] at hcall ⊢
    obtain rfl := hcall
    split_ifs at h <;> obtain rfl := Option.some.inj h <;>
      simp only [tasks_become_self, pool_become]
    · exact .recognised
    · exact .compared
  | deleteLock u =>
    obtain rfl : u = t := by simpa [Action.task] using ha
    simp only [step] at h
    split at h <;> [skip; cases h]
    rename_i ht
    rw [ht] at hcall ⊢
    obtain rfl := hcall
    obtain rfl := Option.some.inj h
    simp only [tasks_become_self, pool_become, pool_setLock]
    exact .deleted
  | acquire u _ | rpop u | judgeAge u | containerIsUsable u _ | release u | sanitize u _
  | ensurePoolTarget u _ _ | reapOnce u | lrange u _ | sift u | rebuild u | endReap u =>
    -- these need a task that is not in a call
    obtain rfl : u = t := by simpa [Action.task] using ha
    simp only [step] at h
    split at h <;> [skip; cases h]
    rename_i ht
    rw [ht] at hcall
    cases hcall

/-- How far the call has come: `k` containers started, `n` steps taken, from a list of
length `initial`. The steps after the last `LLEN` are bounded only. -/
def Progress (target : ℤ) (initial : ℕ) (task : Task) (length k n : ℕ) : Prop :=
  (k : ℤ) ≤ max 0 (target - initial) ∧
    match task with
    | .locking _ _ _ => length = initial ∧ k = 0 ∧ n = 0
    | .measuring _ _ _ => length = initial + k ∧ n = 3 * k + 1
    | .prewarming _ _ _ _ => length = initial + k ∧ (length : ℤ) < target ∧ n = 3 * k + 2
    | .prewarmed _ _ _ _ =>
      length + 1 = initial + k ∧ 1 ≤ k ∧ (length : ℤ) < target ∧ n = 3 * k
    | .unlocking _ _ => n ≤ 3 * k + 2
    | .deleting _ => n ≤ 3 * k + 3
    | _ => n ≤ 3 * k + 4

theorem Progress.step {limits : Limits} {image : String} {target : ℤ} {initial : ℕ}
    {task task' : Task} {length length' k n : ℕ} {b : Bool}
    (hroom : target ≤ initial ∨ target ≤ limits.maxPerImage)
    (h : Progress target initial task length k n)
    (hs : CallStep limits image target task length b task' length') :
    Progress target initial task' length' (k + b.toNat) (n + 1) := by
  obtain ⟨hk, h⟩ := h
  cases hs with
  | refused => exact ⟨by simpa using hk, by simp at h ⊢; omega⟩
  | locked => exact ⟨by simpa using hk, by simp at h ⊢; omega⟩
  | measured =>
    refine ⟨by simpa using hk, ?_⟩
    unfold prewarmLoop
    split_ifs with hlt
    · simp at h ⊢; omega
    · simp at h ⊢; omega
  | started =>
    simp only at h
    exact ⟨by simp; omega, by simp; omega⟩
  | pushed hroom' => exact ⟨by simpa using hk, by simp at h ⊢; omega⟩
  | full hfull =>
    -- the list is shorter than the target, which is at most the cap
    simp only at h
    omega
  | compared => exact ⟨by simpa using hk, by simp at h ⊢; omega⟩
  | recognised => exact ⟨by simpa using hk, by simp at h ⊢; omega⟩
  | deleted => exact ⟨by simpa using hk, by simp at h ⊢; omega⟩

theorem InCall.step {limits : Limits} {image : String} {target : ℤ} {task task' : Task}
    {length length' : ℕ} {b : Bool}
    (hs : CallStep limits image target task length b task' length') :
    InCall image target task' ∨ task' = .idle := by
  cases hs with
  | refused | compared | deleted => exact .inr rfl
  | measured =>
    unfold prewarmLoop
    split_ifs <;> simp [InCall]
  | _ => exact .inl (by simp [InCall])

/-- The state of the call in a run: it is at work or has returned, and it has come as
far as its steps say. -/
def CallState (image : String) (target : ℤ) (initial : ℕ) (t : ℕ) (past : List Action)
    (s : State) : Prop :=
  (InCall image target (s.tasks t) ∨ s.tasks t = .idle) ∧
    Progress target initial (s.tasks t) (s.pool image).length (starts t past) (ownSteps t past)

theorem starts_frame {t : ℕ} {a : Action} (ha : a.task ≠ some t) (past : List Action) :
    starts t (past ++ [a]) = starts t past := by
  have hno : starting t a = false := by
    cases a with
    | dockerRun u c => cases c <;> simp_all [starting, Action.task]
    | _ => rfl
  simp [starts, List.countP_append, hno]

theorem ownSteps_frame {t : ℕ} {a : Action} (ha : a.task ≠ some t) (past : List Action) :
    ownSteps t (past ++ [a]) = ownSteps t past := by
  simp [ownSteps, List.countP_append, ha]

theorem CallState.step {limits : Limits} {image : String} {target : ℤ} {initial t : ℕ}
    {past : List Action} {s s' : State} {a : Action}
    (hroom : target ≤ initial ∨ target ≤ limits.maxPerImage)
    (h : CallState image target initial t past s) (hu : Undisturbed limits t image s a)
    (hs : step limits s a = some s') : CallState image target initial t (past ++ [a]) s' := by
  by_cases ha : a.task = some t
  · have hwork : s.tasks t ≠ .idle := by
      rw [Undisturbed, if_pos ha] at hu
      exact hu.1
    have hcall : InCall image target (s.tasks t) := h.1.resolve_right hwork
    have hstep := callStep_of_step hcall ha hu hs
    have hstarts : starts t (past ++ [a]) = starts t past + (starting t a).toNat := by
      cases hb : starting t a <;> simp [starts, List.countP_append, hb]
    have hown : ownSteps t (past ++ [a]) = ownSteps t past + 1 := by
      simp [ownSteps, List.countP_append, ha]
    rw [CallState, hstarts, hown]
    exact ⟨InCall.step hstep, h.2.step hroom hstep⟩
  · have hpool : s'.pool image = s.pool image := by
      rw [Undisturbed, if_neg ha] at hu
      exact hu s' hs
    rw [CallState, tasks_frame hs ha, hpool, starts_frame ha, ownSteps_frame ha]
    exact h

theorem exists_fresh (ids : List String) : ∃ c : Container, c.containerId ∉ ids := by
  obtain ⟨id, hid⟩ := Infinite.exists_notMem_finset ids.toFinset
  exact ⟨⟨id, "", ""⟩, by simpa using hid⟩

/-- A call at work can take its next step. -/
theorem can_step {limits : Limits} {image : String} {target : ℤ} {t : ℕ} {s : State}
    (h : InCall image target (s.tasks t)) :
    ∃ a u, a.task = some t ∧ Undisturbed limits t image s a ∧ step limits s a = some u := by
  have hwork : s.tasks t ≠ .idle := by
    intro hidle
    rw [hidle] at h
    cases h
  have hnext : ∃ a : Action, a.task = some t ∧ (a ≠ .queueBusy t ∧ a ≠ .dockerRun t none) ∧
      (step limits s a).isSome := by
    cases ht : s.tasks t with
    | locking i g v =>
      exact ⟨.setLock t, rfl, by simp, by cases hl : s.lock i <;> simp [step, ht, hl]⟩
    | measuring i g v => exact ⟨.llen t, rfl, by simp, by simp [step, ht]⟩
    | prewarming i g v current =>
      obtain ⟨c, hc⟩ := exists_fresh s.started
      exact ⟨.dockerRun t (some c), rfl, by simp, by simp [step, afterDockerRun, hc, ht]⟩
    | prewarmed i g v e => exact ⟨.cappedPush t, rfl, by simp, by simp [step, ht]⟩
    | unlocking i v =>
      refine ⟨.getLock t, rfl, by simp, ?_⟩
      simp only [step, ht]
      split_ifs <;> rfl
    | deleting i => exact ⟨.deleteLock t, rfl, by simp, by simp [step, ht]⟩
    | _ =>
      rw [ht] at h
      cases h
  obtain ⟨a, ha, hkind, hsome⟩ := hnext
  obtain ⟨u, hu⟩ := Option.isSome_iff_exists.mp hsome
  refine ⟨a, u, ha, ?_, hu⟩
  rw [Undisturbed, if_pos ha]
  exact ⟨hwork, hkind⟩

theorem ownSteps_le {target : ℤ} {initial : ℕ} {task : Task} {length k n : ℕ}
    (h : Progress target initial task length k n) :
    n ≤ 3 * (max 0 (target - initial)).toNat + 4 := by
  obtain ⟨hk, h⟩ := h
  have hk' : k ≤ (max 0 (target - initial)).toNat := by omega
  cases task <;> simp only at h <;> omega

theorem returns_of_room {limits : Limits} {t : ℕ} {image : String} {target : ℤ} {s : State}
    (hidle : s.tasks t = .idle)
    (hroom : target ≤ (s.pool image).length ∨ target ≤ limits.maxPerImage) :
    Returns limits t image target s := by
  refine ⟨3 * (max 0 (target - ((s.pool image).length : ℤ))).toNat + 4, ?_⟩
  intro acts s₁ s' hcall hund hexec
  have hstart : CallState image target (s.pool image).length t [] s₁ := by
    simp only [step, hidle] at hcall
    split_ifs at hcall <;> obtain rfl := Option.some.inj hcall
    · exact ⟨.inr hidle, by simp [Progress, hidle, starts, ownSteps]⟩
    · exact ⟨.inl (by simp [InCall]), by simp [Progress, starts, ownSteps]⟩
  have hend := (system limits).history_invariant
    (P := CallState image target (s.pool image).length t)
    (fun _ _ _ _ h hu hs => h.step hroom hu hs) [] hstart hund hexec
  rw [List.nil_append] at hend
  exact ⟨hend.2.1, ownSteps_le hend.2, fun hwork => can_step (hend.1.resolve_right hwork)⟩

/-- Without a prewarm spec the call returns at once. -/
theorem returns_of_no_spec {limits : Limits} {t : ℕ} {image : String} {target : ℤ} {s : State}
    (hidle : s.tasks t = .idle) (hspec : image ∉ prewarmSpecs) :
    Returns limits t image target s := by
  refine ⟨0, ?_⟩
  intro acts s₁ s' hcall hund hexec
  have hsame : s₁ = s := by
    simp only [step, hidle, if_pos (Or.inr hspec : target ≤ 0 ∨ image ∉ prewarmSpecs)] at hcall
    exact (Option.some.inj hcall).symm
  have hend := (system limits).history_invariant
    (P := fun past s => s.tasks t = .idle ∧ starts t past = 0 ∧ ownSteps t past = 0)
    (by
      intro past s a s' hpast hu hs
      obtain ⟨htask, hstarts, hown⟩ := hpast
      have ha : a.task ≠ some t := by
        intro ha
        rw [Undisturbed, if_pos ha] at hu
        exact hu.1 htask
      rw [tasks_frame hs ha, starts_frame ha, ownSteps_frame ha]
      exact ⟨htask, hstarts, hown⟩) [] ⟨hsame ▸ hidle, rfl, rfl⟩ hund hexec
  rw [List.nil_append] at hend
  obtain ⟨htask, hstarts, hown⟩ := hend
  exact ⟨by simp [hstarts], by omega, fun hwork => absurd htask hwork⟩

/-- The run can be prolonged undisturbed, with `k` more containers started. -/
def Prolongs (limits : Limits) (t : ℕ) (image : String) (s s' : State) (k : ℕ) : Prop :=
  ∃ acts, (system limits).Guarded (Undisturbed limits t image) s acts ∧
    (system limits).exec s acts = some s' ∧ starts t acts = k

theorem Prolongs.trans {limits : Limits} {t : ℕ} {image : String} {s s₁ s₂ : State} {k₁ k₂ : ℕ}
    (h₁ : Prolongs limits t image s s₁ k₁) (h₂ : Prolongs limits t image s₁ s₂ k₂) :
    Prolongs limits t image s s₂ (k₁ + k₂) := by
  obtain ⟨as, hg₁, he₁, hk₁⟩ := h₁
  obtain ⟨bs, hg₂, he₂, hk₂⟩ := h₂
  refine ⟨as ++ bs, (system limits).guarded_append hg₁ he₁ hg₂,
    (system limits).exec_append he₁ he₂, ?_⟩
  rw [← hk₁, ← hk₂, starts, List.countP_append]
  rfl

theorem Prolongs.single {limits : Limits} {t : ℕ} {image : String} {s s' : State} {a : Action}
    (hu : Undisturbed limits t image s a) (hs : step limits s a = some s') :
    Prolongs limits t image s s' (starting t a).toNat := by
  refine ⟨[a], ⟨hu, by simp [system, hs, System.Guarded]⟩, by simp [System.exec, system, hs], ?_⟩
  cases hb : starting t a <;> simp [starts, hb]

/-- One step of the call. -/
theorem Prolongs.own {limits : Limits} {t : ℕ} {image : String} {s s' : State} {a : Action}
    (ha : a.task = some t) (hkind : a ≠ .queueBusy t ∧ a ≠ .dockerRun t none)
    (hwork : s.tasks t ≠ .idle) (hs : step limits s a = some s') :
    Prolongs limits t image s s' (starting t a).toNat := by
  apply Prolongs.single _ hs
  rw [Undisturbed, if_pos ha]
  exact ⟨hwork, hkind⟩

/-- One step of the clock or of Redis. -/
theorem Prolongs.env {limits : Limits} {t : ℕ} {image : String} {s s' : State} {a : Action}
    (ha : a.task = none) (hpool : s'.pool = s.pool) (hs : step limits s a = some s') :
    Prolongs limits t image s s' (starting t a).toNat := by
  apply Prolongs.single _ hs
  rw [Undisturbed, if_neg (by simp [ha])]
  intro s₁ hs₁
  rw [hs] at hs₁
  rw [← Option.some.inj hs₁, hpool]

/-- The lock becomes free at the latest when it expires. -/
theorem prolongs_locked (limits : Limits) {t : ℕ} {image : String} {target value : ℤ} {s : State}
    (ht : s.tasks t = .locking image target value) :
    ∃ s', s'.tasks t = .measuring image target value ∧ s'.pool = s.pool ∧
      Prolongs limits t image s s' 0 := by
  -- from a state in which the lock is free
  have hfree : ∀ s₁ : State, s₁.tasks t = .locking image target value → s₁.lock image = none →
      ∃ s', s'.tasks t = .measuring image target value ∧ s'.pool = s₁.pool ∧
        Prolongs limits t image s₁ s' 0 := by
    intro s₁ ht₁ hl₁
    have hs : step limits s₁ (.setLock t) =
        some ((s₁.setLock image (some ⟨value, s₁.now + lockSeconds, t⟩)).become t
          (.measuring image target value)) := by
      simp only [step, ht₁, hl₁]
    exact ⟨_, by simp, by simp, .own (a := .setLock t) rfl (by simp) (by simp [ht₁]) hs⟩
  cases hl : s.lock image with
  | none => exact hfree s ht hl
  | some l =>
    have htick : step limits s (.tick (l.expiresAt - s.now).toNat) =
        some { s with now := s.now + (l.expiresAt - s.now).toNat } := rfl
    let s₁ : State := { s with now := s.now + (l.expiresAt - s.now).toNat }
    have hexpire : step limits s₁ (.expireLock image) = some (s₁.setLock image none) := by
      have hdue : l.expiresAt ≤ s₁.now := by
        change l.expiresAt ≤ s.now + ((l.expiresAt - s.now).toNat : ℤ)
        omega
      have hl₁ : s₁.lock image = some l := hl
      simp only [step, hl₁, if_pos hdue]
    obtain ⟨s', hs', hpool, hrest⟩ := hfree (s₁.setLock image none) ht (by simp [State.setLock])
    have hwait : Prolongs limits t image s s₁ 0 := .env (a := .tick _) rfl rfl htick
    have hgone : Prolongs limits t image s₁ (s₁.setLock image none) 0 :=
      .env (a := .expireLock image) rfl rfl hexpire
    exact ⟨s', hs', hpool, (hwait.trans hgone).trans hrest⟩

/-- One iteration of the loop: the list is still shorter than the target. -/
theorem prolongs_iteration {limits : Limits} {t : ℕ} {image : String} {target value : ℤ}
    {s : State} (ht : s.tasks t = .measuring image target value)
    (hlen : ((s.pool image).length : ℤ) < target) (hcap : limits.maxPerImage < target) :
    ∃ s', s'.tasks t = .measuring image target value ∧
      ((s'.pool image).length : ℤ) < target ∧ Prolongs limits t image s s' 1 := by
  let s₁ := s.become t (.prewarming image target value (s.pool image).length)
  have h₁ : step limits s (.llen t) = some s₁ := by
    simp only [step, ht, prewarmLoop, if_pos hlen]
    rfl
  have ht₁ : s₁.tasks t = .prewarming image target value (s.pool image).length :=
    tasks_become_self _ _ _
  obtain ⟨c, hc⟩ := exists_fresh s₁.started
  let e : Entry := ⟨c, s₁.now⟩
  let s₂ := ({ s₁ with started := c.containerId :: s₁.started } : State).become t
    (.prewarmed image target value e)
  have h₂ : step limits s₁ (.dockerRun t (some c)) = some s₂ := by
    simp only [step, afterDockerRun, if_neg hc, ht₁]
    rfl
  have ht₂ : s₂.tasks t = .prewarmed image target value e := tasks_become_self _ _ _
  let s₃ := (s₂.cappedPush limits image e).become t (.measuring image target value)
  have h₃ : step limits s₂ (.cappedPush t) = some s₃ := by
    simp only [step, ht₂]
    rfl
  have hlen₃ : ((s₃.pool image).length : ℤ) < target := by
    have hpool : s₂.pool image = s.pool image := rfl
    simp only [s₃, pool_become, State.cappedPush]
    split_ifs with hfull
    · simpa [State.killContainer, hpool] using hlen
    · simp only [hpool, State.setPool, Function.update_self, List.length_cons] at hfull ⊢
      push_cast
      omega
  refine ⟨s₃, tasks_become_self _ _ _, hlen₃, ?_⟩
  have hp₁ : Prolongs limits t image s s₁ 0 := .own (a := .llen t) rfl (by simp) (by simp [ht]) h₁
  have hp₂ : Prolongs limits t image s₁ s₂ 1 := by
    have hown : Prolongs limits t image s₁ s₂ (starting t (.dockerRun t (some c))).toNat :=
      .own rfl (by simp) (by simp [ht₁]) h₂
    simpa [starting] using hown
  have hp₃ : Prolongs limits t image s₂ s₃ 0 :=
    .own (a := .cappedPush t) rfl (by simp) (by simp [ht₂]) h₃
  exact (hp₁.trans hp₂).trans hp₃

/-- The loop goes on for ever, with a container for each iteration. -/
theorem prolongs_forever {limits : Limits} {t : ℕ} {image : String} {target value : ℤ}
    (hcap : limits.maxPerImage < target) (k : ℕ) {s : State}
    (ht : s.tasks t = .measuring image target value)
    (hlen : ((s.pool image).length : ℤ) < target) :
    ∃ s', Prolongs limits t image s s' k := by
  induction k generalizing s with
  | zero => exact ⟨s, [], trivial, rfl, rfl⟩
  | succ k ih =>
    obtain ⟨s₁, ht₁, hlen₁, hfirst⟩ := prolongs_iteration ht hlen hcap
    obtain ⟨s₂, hrest⟩ := ih ht₁ hlen₁
    have hboth := hfirst.trans hrest
    rw [Nat.add_comm] at hboth
    exact ⟨s₂, hboth⟩

theorem not_returns_of_beyond {limits : Limits} {t : ℕ} {image : String} {target : ℤ} {s : State}
    (hidle : s.tasks t = .idle) (hspec : image ∈ prewarmSpecs)
    (hlen : ((s.pool image).length : ℤ) < target) (hcap : limits.maxPerImage < target) :
    ¬ Returns limits t image target s := by
  intro ⟨bound, h⟩
  have hcall : step limits s (.ensurePoolTarget t image target) =
      some (s.become t (.locking image target s.now)) := by
    have hskip : ¬ (target ≤ 0 ∨ image ∉ prewarmSpecs) := by
      rintro (hle | hno)
      · omega
      · exact hno hspec
    simp only [step, hidle, if_neg hskip]
  obtain ⟨s₁, ht₁, hpool, hlocked⟩ := prolongs_locked limits
    (tasks_become_self s t (.locking image target s.now))
  have hlen₁ : ((s₁.pool image).length : ℤ) < target := by
    rw [hpool]
    exact hlen
  obtain ⟨s₂, hloop⟩ := prolongs_forever hcap (target.toNat + 1) ht₁ hlen₁
  obtain ⟨acts, hguarded, hexec, hcount⟩ := hlocked.trans hloop
  have hbound := (h acts _ s₂ hcall hguarded hexec).1
  rw [hcount] at hbound
  omega

/-- The call starts at most the missing containers and returns exactly when the image
has no prewarm spec, the list has reached the target already or the target is at most
the cap of the list. -/
theorem prewarm_returns_iff (limits : Limits) (t : ℕ) (image : String) (target : ℤ) (s : State)
    (hidle : s.tasks t = .idle) :
    Returns limits t image target s ↔
      image ∉ prewarmSpecs ∨ target ≤ (s.pool image).length ∨ target ≤ limits.maxPerImage := by
  constructor
  · intro h
    by_contra hno
    push Not at hno
    exact not_returns_of_beyond hidle hno.1 (by omega) (by omega) h
  · rintro (hspec | hroom)
    · exact returns_of_no_spec hidle hspec
    · exact returns_of_room hidle hroom

theorem prewarm_returns_below_cap :
    State.empty.tasks 1 = .idle ∧ Returns ⟨100, 5⟩ 1 "go-sandbox:latest" 3 State.empty :=
  ⟨rfl, (prewarm_returns_iff ⟨100, 5⟩ 1 "go-sandbox:latest" 3 State.empty rfl).mpr
    (.inr (.inr (by decide)))⟩

/-- With a cap of one container and a target of two, the second container is started
and killed again and again. -/
theorem prewarm_beyond_cap :
    ¬ ∀ (limits : Limits) (t : ℕ) (image : String) (target : ℤ) (s : State),
      s.tasks t = .idle → Returns limits t image target s := by
  intro h
  have hmem : "go-sandbox:latest" ∈ prewarmSpecs := by decide
  have hnot : ¬ Returns ⟨100, 1⟩ 1 "go-sandbox:latest" 2 State.empty :=
    not_returns_of_beyond rfl hmem (by decide) (by decide)
  exact hnot (h _ _ _ _ _ rfl)

end ExecutionEngine.ContainerPool
