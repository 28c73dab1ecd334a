import ExecutionEngine.DockerSemaphore

/-!
# Nobody waits in vain for the semaphore

A context whose `BRPOP` finds the list empty is blocked, and Redis gives the elements that
are pushed later to the contexts that have been blocked for the longest time. As long as
Redis keeps its data and nobody dies with a slot, a context that waits can always enter
after a few commands: those of the context that creates the slots, its own, and one exit
from a body for itself and for each context that was blocked before it. In particular the
three commands with which the slots are created never lock the semaphore, whoever comes in
between. A context gives up only while all slots are taken or are being created.
-/
namespace ExecutionEngine.DockerSemaphore
open Transition

/-- The semaphore with the contexts that are blocked in `BRPOP`, the longest waiting first. -/
structure QueuedState where
  base : State
  line : List ℕ
  deriving DecidableEq, Repr

/-- Redis serves blocked contexts while the list has elements. -/
def serve (sem : Semaphore) (s : State) : List ℕ → QueuedState
  | [] => ⟨s, []⟩
  | i :: rest =>
    match step sem s (.brpop i) with
    | some t => serve sem t rest
    | none => ⟨s, i :: rest⟩

/-- A context that gives up or dies leaves the line. A Redis that has lost its data has no
blocked clients. -/
def queuedStep (sem : Semaphore) (s : QueuedState) : Action → Option QueuedState
  | .brpop i =>
    if i ∈ s.line then none
    else if 0 < s.base.tokens then (step sem s.base (.brpop i)).map fun t => ⟨t, s.line⟩
    else if s.base.contexts[i]? = some .brpop then some ⟨s.base, s.line ++ [i]⟩
    else none
  | .timeout i =>
    if i ∈ s.line then (step sem s.base (.timeout i)).map fun t => ⟨t, s.line.erase i⟩ else none
  | .rpush i => (step sem s.base (.rpush i)).map fun t => serve sem t s.line
  | .lpush i raised => (step sem s.base (.lpush i raised)).map fun t => serve sem t s.line
  | .loseData => (step sem s.base .loseData).map fun t => ⟨t, []⟩
  | .die i => (step sem s.base (.die i)).map fun t => ⟨t, s.line.erase i⟩
  | a => (step sem s.base a).map fun t => ⟨t, s.line⟩

def queued (sem : Semaphore) : System QueuedState Action := ⟨⟨State.empty, []⟩, queuedStep sem⟩

/-- Everything a step can do to the line. -/
inductive Queues (sem : Semaphore) (s : QueuedState) : Action → QueuedState → Prop
  | keeps {a u} (hstep : DockerSemaphore.step sem s.base a = some u)
      (ha : a = .use ∨ (∃ i, a = .setnx i ∨ a = .del i) ∨
        0 < s.base.tokens ∧ ∃ i, a = .brpop i) : Queues sem s a ⟨u, s.line⟩
  | joins {i} (hi : s.base.contexts[i]? = some .brpop) (hnew : i ∉ s.line)
      (ht : s.base.tokens = 0) : Queues sem s (.brpop i) ⟨s.base, s.line ++ [i]⟩
  | drops {a u i} (hstep : DockerSemaphore.step sem s.base a = some u) (ha : a = .timeout i ∨ a = .die i) :
      Queues sem s a ⟨u, s.line.erase i⟩
  | serves {a u} (hstep : DockerSemaphore.step sem s.base a = some u)
      (ha : ∃ i, a = .rpush i ∨ ∃ raised, a = .lpush i raised) :
      Queues sem s a (serve sem u s.line)
  | loses {u} (hstep : DockerSemaphore.step sem s.base .loseData = some u) : Queues sem s .loseData ⟨u, []⟩

theorem queuedStep_queues {sem : Semaphore} {s t : QueuedState} {a : Action}
    (h : queuedStep sem s a = some t) : Queues sem s a t := by
  cases a with
  | use =>
    simp only [queuedStep, Option.map_eq_some_iff] at h
    obtain ⟨u, hu, rfl⟩ := h
    exact .keeps hu (.inl rfl)
  | setnx i =>
    obtain ⟨u, hu, rfl⟩ := Option.map_eq_some_iff.mp h
    exact .keeps hu (.inr (.inl ⟨i, .inl rfl⟩))
  | del i =>
    obtain ⟨u, hu, rfl⟩ := Option.map_eq_some_iff.mp h
    exact .keeps hu (.inr (.inl ⟨i, .inr rfl⟩))
  | rpush i =>
    obtain ⟨u, hu, rfl⟩ := Option.map_eq_some_iff.mp h
    exact .serves hu ⟨i, .inl rfl⟩
  | lpush i raised =>
    obtain ⟨u, hu, rfl⟩ := Option.map_eq_some_iff.mp h
    exact .serves hu ⟨i, .inr ⟨raised, rfl⟩⟩
  | loseData =>
    simp only [queuedStep, Option.map_eq_some_iff] at h
    obtain ⟨u, hu, rfl⟩ := h
    exact .loses hu
  | die i =>
    obtain ⟨u, hu, rfl⟩ := Option.map_eq_some_iff.mp h
    exact .drops hu (.inr rfl)
  | timeout i =>
    simp only [queuedStep] at h
    split_ifs at h
    obtain ⟨u, hu, rfl⟩ := Option.map_eq_some_iff.mp h
    exact .drops hu (.inl rfl)
  | brpop i =>
    simp only [queuedStep] at h
    split_ifs at h with hmem ht hi
    · obtain ⟨u, hu, rfl⟩ := Option.map_eq_some_iff.mp h
      exact .keeps hu (.inr (.inr ⟨ht, i, rfl⟩))
    · obtain rfl := Option.some.inj h
      exact .joins hi hmem (Nat.eq_zero_of_not_pos ht)

/-- The contexts of the line are different ones, and each has issued its `BRPOP`. -/
structure Lined (contexts : List Context) (line : List ℕ) : Prop where
  nodup : line.Nodup
  blocked : ∀ i ∈ line, contexts[i]? = some .brpop

section
variable {sem : Semaphore} {s t : State} {line : List ℕ} {i j : ℕ} {c d : Context}

theorem lt_of_context (h : s.contexts[i]? = some c) : i < s.contexts.length :=
  (List.getElem?_eq_some_iff.mp h).1

theorem contexts_put (h : s.contexts[i]? = some c) (d : Context) :
    (s.put i d).contexts[i]? = some d := by
  simp [State.put, lt_of_context h]

theorem contexts_put_ne (hij : j ≠ i) (d : Context) :
    (s.put j d).contexts[i]? = s.contexts[i]? := by
  simp [State.put, hij]

theorem Lined.not_mem (h : Lined s.contexts line) (hj : s.contexts[j]? = some c) (hc : c ≠ .brpop) :
    j ∉ line :=
  fun hmem => hc (Option.some.inj (hj.symm.trans (h.blocked j hmem)))

/-- What happens to a context out of the line does not touch the line. -/
theorem Lined.put (h : Lined s.contexts line) (hj : j ∉ line) (d : Context) :
    Lined (s.put j d).contexts line where
  nodup := h.nodup
  blocked i hi := by
    have hij : j ≠ i := fun heq => hj (heq ▸ hi)
    rw [contexts_put_ne hij]
    exact h.blocked i hi

theorem Lined.mono (h : Lined s.contexts line) {line' : List ℕ} (hsub : line'.Sublist line) :
    Lined s.contexts line' :=
  ⟨h.nodup.sublist hsub, fun i hi => h.blocked i (hsub.subset hi)⟩

/-- Redis has served the first contexts of the line, which are now in their bodies, and the list
is empty where others are left. -/
structure Served (sem : Semaphore) (s : State) (line served : List ℕ) (t : QueuedState) :
    Prop where
  line_eq : line = served ++ t.line
  exec_eq : (system sem).exec s (served.map .brpop) = some t.base
  lined : Lined t.base.contexts t.line
  drained : t.line ≠ [] → t.base.tokens = 0
  tokens_eq : t.base.tokens + served.length = s.tokens
  epoch_eq : t.base.epoch = s.epoch
  inside : ∀ i ∈ served, t.base.contexts[i]? = some (.inside t.base.epoch)
  others : ∀ i ∉ served, t.base.contexts[i]? = s.contexts[i]?

theorem exists_served (sem : Semaphore) (h : Lined s.contexts line) :
    ∃ served, Served sem s line served (serve sem s line) := by
  induction line generalizing s with
  | nil => exact ⟨[], rfl, rfl, h, by simp [serve], rfl, rfl, by simp, fun _ _ => rfl⟩
  | cons i rest ih =>
    have hi := h.blocked i List.mem_cons_self
    obtain ⟨hnew, -⟩ := List.nodup_cons.mp h.nodup
    by_cases ht : 0 < s.tokens
    · let u : State := { s.put i (.inside s.epoch) with tokens := s.tokens - 1 }
      have hstep : step sem s (.brpop i) = some u := if_pos ⟨hi, ht⟩
      have hlined : Lined u.contexts rest :=
        (h.mono (List.sublist_cons_self i rest)).put hnew (.inside s.epoch)
      obtain ⟨served, hserved⟩ := ih hlined
      have heq : serve sem s (i :: rest) = serve sem u rest := by rw [serve, hstep]
      have hlost : i ∉ served := fun hmem =>
        hnew (hserved.line_eq ▸ List.mem_append_left _ hmem)
      rw [heq]
      refine ⟨i :: served, by rw [List.cons_append, ← hserved.line_eq], ?_, hserved.lined,
        hserved.drained, ?_, hserved.epoch_eq, ?_, ?_⟩
      · change (step sem s (.brpop i)).bind _ = _
        rw [hstep]
        exact hserved.exec_eq
      · have htokens := hserved.tokens_eq
        change _ = s.tokens - 1 at htokens
        rw [List.length_cons]
        omega
      · intro k hk
        obtain rfl | hk := List.mem_cons.mp hk
        · rw [hserved.others k hlost, hserved.epoch_eq]
          exact contexts_put hi _
        · exact hserved.inside k hk
      · intro k hk
        rw [List.mem_cons, not_or] at hk
        rw [hserved.others k hk.2]
        exact contexts_put_ne (Ne.symm hk.1) _
    · have hstep : step sem s (.brpop i) = none := if_neg fun hpos => ht hpos.2
      have heq : serve sem s (i :: rest) = ⟨s, i :: rest⟩ := by rw [serve, hstep]
      rw [heq]
      exact ⟨[], rfl, rfl, h, fun _ => Nat.eq_zero_of_not_pos ht, rfl, rfl, by simp,
        fun _ _ => rfl⟩

end

/-- Nobody is blocked while the list has an element. -/
structure Queued (s : QueuedState) : Prop where
  lined : Lined s.base.contexts s.line
  drained : s.line ≠ [] → s.base.tokens = 0

section
variable {sem : Semaphore} {s t : QueuedState} {a : Action}

/-- Pushing leaves the line as it is, until Redis serves it. -/
theorem Queued.pushed (hs : Queued s) {u : State}
    (h : DockerSemaphore.step sem s.base a = some u)
    (ha : ∃ i, a = .rpush i ∨ ∃ raised, a = .lpush i raised) : Lined u.contexts s.line := by
  obtain ⟨i, rfl | ⟨raised, rfl⟩⟩ := ha
  · cases step_moves h with
    | fill hi => exact hs.lined.put (hs.lined.not_mem hi (by simp)) .brpop
  · cases step_moves h with
    | leave hi => exact hs.lined.put (hs.lined.not_mem hi (by simp)) (.exited raised)

theorem Queued.step (hs : Queued s) (h : Queues sem s a t) : Queued t := by
  cases h with
  | keeps hstep ha =>
    cases step_moves hstep with
    | use =>
      refine ⟨⟨hs.lined.nodup, fun i hi => ?_⟩, hs.drained⟩
      have hblocked := hs.lined.blocked i hi
      exact (List.getElem?_append_left (lt_of_context hblocked)).trans hblocked
    | join hi _ => exact ⟨hs.lined.put (hs.lined.not_mem hi (by simp)) .brpop, hs.drained⟩
    | seize hi _ => exact ⟨hs.lined.put (hs.lined.not_mem hi (by simp)) .del, hs.drained⟩
    | clear hi => exact ⟨hs.lined.put (hs.lined.not_mem hi (by simp)) .rpush, fun _ => rfl⟩
    | enter hi ht =>
      have hline : s.line = [] := by
        by_contra hne
        have := hs.drained hne
        omega
      rw [hline]
      exact ⟨⟨List.nodup_nil, by simp⟩, by simp⟩
    | _ => simp at ha
  | joins hi hnew ht =>
    refine ⟨⟨?_, fun k hk => ?_⟩, fun _ => ht⟩
    · exact List.nodup_append.mpr ⟨hs.lined.nodup, List.nodup_singleton _, by grind⟩
    · obtain hk | hk := List.mem_append.mp hk
      · exact hs.lined.blocked k hk
      · obtain rfl := List.mem_singleton.mp hk
        exact hi
  | @drops a u i hstep ha =>
    have hsub : (s.line.erase i).Sublist s.line := List.erase_sublist
    have hlined := (hs.lined.mono hsub).put hs.lined.nodup.not_mem_erase
    have hdrained : s.line.erase i ≠ [] → s.base.tokens = 0 := fun hne =>
      hs.drained fun hnil => hne (by rw [hnil]; rfl)
    obtain rfl | rfl := ha
    · cases step_moves hstep with
      | giveUp hi ht => exact ⟨hlined .timedOut, hdrained⟩
    · cases step_moves hstep with
      | die hi => exact ⟨hlined .dead, hdrained⟩
  | serves hstep ha =>
    obtain ⟨served, hserved⟩ := exists_served sem (hs.pushed hstep ha)
    exact ⟨hserved.lined, hserved.drained⟩
  | loses hstep => exact ⟨⟨List.nodup_nil, by simp⟩, by simp⟩

/-- Serving is a number of `BRPOP`s. -/
theorem guarded_served (u : State) (served : List ℕ) :
    (system sem).Guarded Harmless u (served.map .brpop) := by
  refine (system sem).guarded_of_forall (fun _ a ha => ?_) u
  obtain ⟨i, -, rfl⟩ := List.mem_map.mp ha
  trivial

/-- Every step is made of commands of the semaphore as it is without the line. -/
theorem Queued.simulated (hs : Queued s) (ha : Harmless s.base a) (h : Queues sem s a t) :
    ∃ acts, (system sem).exec s.base acts = some t.base ∧
      (system sem).Guarded Harmless s.base acts := by
  have hone : ∀ {u}, DockerSemaphore.step sem s.base a = some u →
      (system sem).exec s.base [a] = some u ∧ (system sem).Guarded Harmless s.base [a] := by
    intro u hstep
    have hstep' : (system sem).step s.base a = some u := hstep
    refine ⟨?_, ha, ?_⟩
    · simp [System.exec, hstep']
    · simp [System.Guarded, hstep']
  cases h with
  | keeps hstep => exact ⟨_, hone hstep⟩
  | joins => exact ⟨[], rfl, trivial⟩
  | drops hstep => exact ⟨_, hone hstep⟩
  | loses hstep => exact ⟨_, hone hstep⟩
  | serves hstep hpush =>
    obtain ⟨hexec, hguarded⟩ := hone hstep
    obtain ⟨served, hserved⟩ := exists_served sem (hs.pushed hstep hpush)
    exact ⟨_, (system sem).exec_append hexec hserved.exec_eq,
      (system sem).guarded_append hguarded hexec (guarded_served _ served)⟩

end

/-- The slots are conserved or not yet created, and nobody waits for one before the init key is
set. -/
structure Sound (sem : Semaphore) (s : State) : Prop where
  conserved : Filled sem s ∨ Unfilled s
  unset : s.initKey = false → .brpop ∉ s.contexts

section
variable {sem : Semaphore} {s t : State}

theorem Sound.initKey_of_initialising (hs : Sound sem s) {i : ℕ} {c : Context}
    (hi : s.contexts[i]? = some c) (hc : c.initialising = true) : s.initKey = true := by
  have hpos := State.initialisers_pos hi hc
  obtain ⟨hkey, -, -⟩ | ⟨-, -, hinit⟩ := hs.conserved
  · exact hkey
  · by_contra hkey
    simp [hkey] at hinit
    omega

theorem Sound.step {a : Action} (hs : Sound sem s) (ha : Harmless s a) (h : Moves sem s a t) :
    Sound sem t where
  conserved := by
    obtain hfilled | hunfilled := hs.conserved
    · exact .inl (filled_step hfilled ha h)
    · have hnext := unfilled_step hunfilled ha h
      split_ifs at hnext
      · exact .inl hnext
      · exact .inr hnext
  unset := by
    have hput : ∀ {i : ℕ} {c : Context}, c ≠ .brpop → s.initKey = false →
        .brpop ∉ (s.put i c).contexts := by
      intro i c hc hkey hmem
      obtain hmem | rfl := List.mem_or_eq_of_mem_set hmem
      · exact hs.unset hkey hmem
      · exact hc rfl
    cases h with
    | use =>
      intro hkey hmem
      obtain hmem | hmem := List.mem_append.mp hmem
      · exact hs.unset hkey hmem
      · simp at hmem
    | join hi hk =>
      intro hkey
      rw [State.put, hk] at hkey
      cases hkey
    | seize hi hk =>
      intro hkey
      cases hkey
    | clear hi => exact hput (by simp)
    | fill hi =>
      intro hkey
      rw [State.put, hs.initKey_of_initialising hi rfl] at hkey
      cases hkey
    | enter hi ht => exact hput (by simp)
    | giveUp hi ht => exact hput (by simp)
    | leave hi => exact hput (by simp)
    | lose => exact ha.elim
    | die hi => exact hput (by simp)

theorem sound_run {acts : List Action} (hrun : (system sem).run acts = some s)
    (hg : (system sem).Guarded Harmless State.empty acts) : Sound sem s :=
  (system sem).invariant (fun _ _ _ hs ha hstep => hs.step ha (step_moves hstep))
    ⟨.inr ⟨rfl, rfl, rfl⟩, by simp [system, State.empty]⟩ hg hrun

end


/-- What holds of the semaphore and its line along a run. -/
theorem queued_run {sem : Semaphore} {acts : List Action} {s : QueuedState}
    (hrun : (queued sem).run acts = some s)
    (hg : (queued sem).Guarded (fun s a => Harmless s.base a) (queued sem).init acts) :
    Queued s ∧ Sound sem s.base := by
  have hboth : Queued s ∧ ∃ acts, (system sem).run acts = some s.base ∧
      (system sem).Guarded Harmless State.empty acts := by
    refine (queued sem).invariant (I := fun s => Queued s ∧ ∃ acts,
      (system sem).run acts = some s.base ∧ (system sem).Guarded Harmless State.empty acts)
      (fun s a t hs ha hstep => ?_) ?_ hg hrun
    · obtain ⟨hqueued, before, hbefore, hguarded⟩ := hs
      have hqueues := queuedStep_queues hstep
      obtain ⟨acts, hexec, hguarded'⟩ := hqueued.simulated ha hqueues
      exact ⟨hqueued.step hqueues, before ++ acts, (system sem).exec_append hbefore hexec,
        (system sem).guarded_append hguarded hbefore hguarded'⟩
    · exact ⟨⟨⟨List.nodup_nil, by simp [queued]⟩, by simp [queued]⟩, [], rfl, trivial⟩
  obtain ⟨hqueued, acts, hbase, hguarded⟩ := hboth
  exact ⟨hqueued, sound_run hbase hguarded⟩

/-- The context has been opened and has neither entered nor failed. -/
def Context.waiting : Context → Bool
  | .setnx => true
  | .del => true
  | .rpush => true
  | .brpop => true
  | _ => false

/-- The commands of the semaphore itself: no new context, no timeout, no fault. -/
def Action.helps : Action → Bool
  | .setnx _ => true
  | .del _ => true
  | .rpush _ => true
  | .brpop _ => true
  | .lpush _ _ => true
  | _ => false

def Action.leaves : Action → Bool
  | .lpush _ _ => true
  | _ => false

/-- The number of contexts that are served before this one: all of the line, if it is not in
it. -/
def QueuedState.ahead (s : QueuedState) (i : ℕ) : ℕ := s.line.idxOf i

/-- The context can enter after at most the given number of commands, among which at most the
given number of exits. -/
def CanEnter (sem : Semaphore) (i steps exits : ℕ) (s : QueuedState) : Prop :=
  ∃ more t, more.length ≤ steps ∧ more.countP Action.leaves ≤ exits ∧
    (∀ a ∈ more, a.helps = true) ∧ (queued sem).exec s more = some t ∧
    t.base.contexts[i]? = some (.inside t.base.epoch)

section
variable {sem : Semaphore} {s t : QueuedState} {i j steps exits : ℕ} {c : Context}

theorem CanEnter.mono (h : CanEnter sem i steps exits s) {steps' exits' : ℕ}
    (hsteps : steps ≤ steps') (hexits : exits ≤ exits') : CanEnter sem i steps' exits' s := by
  obtain ⟨more, t, hlength, hcount, hhelps, hexec, henter⟩ := h
  exact ⟨more, t, hlength.trans hsteps, hcount.trans hexits, hhelps, hexec, henter⟩

theorem canEnter_inside (h : s.base.contexts[i]? = some (.inside s.base.epoch)) :
    CanEnter sem i 0 0 s :=
  ⟨[], s, le_rfl, le_rfl, by simp, rfl, h⟩

/-- One command first. -/
theorem CanEnter.after {a : Action} (h : CanEnter sem i steps exits t)
    (hstep : queuedStep sem s a = some t) (ha : a.helps = true) :
    CanEnter sem i (steps + 1) (exits + if a.leaves then 1 else 0) s := by
  obtain ⟨more, u, hlength, hcount, hhelps, hexec, henter⟩ := h
  refine ⟨a :: more, u, ?_, ?_, ?_, ?_, henter⟩
  · simpa using hlength
  · rw [List.countP_cons]
    omega
  · simpa [ha] using hhelps
  · change (queuedStep sem s a).bind _ = _
    rw [hstep]
    exact hexec

theorem exists_context {s : State} {p : Context → Bool} (h : 0 < s.contexts.countP p) :
    ∃ (j : ℕ) (c : Context), s.contexts[j]? = some c ∧ p c = true := by
  obtain ⟨c, hmem, hc⟩ := List.countP_pos_iff.mp h
  obtain ⟨j, hj⟩ := List.getElem?_of_mem hmem
  exact ⟨j, c, hj, hc⟩

theorem filled_served {u v : State} (hf : Filled sem u) {served : List ℕ}
    (h : (system sem).exec u (served.map .brpop) = some v) : Filled sem v :=
  (system sem).history_invariant (P := fun _ s => Filled sem s)
    (fun _ _ _ _ hs ha hstep => filled_step hs ha (step_moves hstep)) [] hf
    (guarded_served u served) h

/-- A body leaves, and the first context of the line enters. -/
theorem exists_exit (hs : Queued s) (hf : Filled sem s.base) (hne : s.line ≠ []) :
    ∃ j head t, s.line = head :: t.line ∧ queuedStep sem s (.lpush j false) = some t ∧
      t.base.contexts[head]? = some (.inside t.base.epoch) ∧ Queued t ∧ Filled sem t.base := by
  have htokens := hs.drained hne
  have hentered : 0 < s.base.entered := by
    have hpos := sem.pos
    have hsum := hf.2.2
    omega
  obtain ⟨j, d, hj, hd⟩ := exists_context hentered
  obtain ⟨e, rfl⟩ : ∃ e, d = .inside e := by
    cases d <;> simp_all [Context.entered]
  let u : State := { s.base.put j (.exited false) with tokens := s.base.tokens + 1 }
  have hstep : step sem s.base (.lpush j false) = some u := by simp only [step, hj, u]
  have hmove : queuedStep sem s (.lpush j false) = some (serve sem u s.line) := by
    simp only [queuedStep, hstep, Option.map_some]
  obtain ⟨served, hserved⟩ :=
    exists_served sem (hs.pushed hstep ⟨j, .inr ⟨false, rfl⟩⟩)
  have hsum : (serve sem u s.line).base.tokens + served.length = 1 := by
    rw [hserved.tokens_eq]
    change s.base.tokens + 1 = 1
    omega
  obtain ⟨head, rfl⟩ : ∃ head, served = [head] := by
    cases served with
    | nil =>
      have hall : (serve sem u s.line).line ≠ [] := fun hnil =>
        hne (by rw [hserved.line_eq, hnil]; rfl)
      have hdrained := hserved.drained hall
      simp [hdrained] at hsum
    | cons head rest =>
      obtain rfl : rest = [] := List.eq_nil_of_length_eq_zero (by simp at hsum; omega)
      exact ⟨head, rfl⟩
  have hfilled := filled_step hf (harmless_of_fault rfl) (step_moves hstep)
  exact ⟨j, head, _, hserved.line_eq, hmove, hserved.inside head List.mem_cons_self,
    ⟨hserved.lined, hserved.drained⟩, filled_served hfilled hserved.exec_eq⟩

/-- The context is blocked: the contexts before it are served first, one with each exit. -/
theorem canEnter_blocked {n : ℕ} (hs : Queued s) (hf : Filled sem s.base) (hi : i ∈ s.line)
    (hn : s.ahead i = n) : CanEnter sem i (n + 1) (n + 1) s := by
  induction n generalizing s with
  | zero =>
    obtain ⟨j, head, t, hline, hstep, hinside, -, -⟩ := exists_exit hs hf (List.ne_nil_of_mem hi)
    have hhead : head = i := by
      by_contra hne
      rw [QueuedState.ahead, hline, List.idxOf_cons_ne _ hne] at hn
      cases hn
    exact (canEnter_inside (hhead ▸ hinside)).after hstep rfl
  | succ n ih =>
    obtain ⟨j, head, t, hline, hstep, -, ht, hfilled⟩ :=
      exists_exit hs hf (List.ne_nil_of_mem hi)
    have hne : head ≠ i := by
      rintro rfl
      rw [QueuedState.ahead, hline, List.idxOf_cons_self] at hn
      cases hn
    have hrest : i ∈ t.line := by
      rw [hline] at hi
      exact List.mem_of_ne_of_mem hne.symm hi
    have hnext : t.ahead i = n := by
      rw [QueuedState.ahead, hline, List.idxOf_cons_ne _ hne] at hn
      exact Nat.succ.inj hn
    exact (ih ht hfilled hrest hnext).after hstep rfl

/-- The context issues its `BRPOP`, and is blocked if there is no slot. -/
theorem canEnter_brpop (hs : Queued s) (hf : Filled sem s.base)
    (h : s.base.contexts[i]? = some .brpop) (hi : i ∉ s.line) :
    CanEnter sem i (s.ahead i + 2) (s.ahead i + 1) s := by
  by_cases ht : 0 < s.base.tokens
  · let u : State := { s.base.put i (.inside s.base.epoch) with tokens := s.base.tokens - 1 }
    have hstep : step sem s.base (.brpop i) = some u := if_pos ⟨h, ht⟩
    have hmove : queuedStep sem s (.brpop i) = some ⟨u, s.line⟩ := by
      simp only [queuedStep, if_neg hi, if_pos ht, hstep, Option.map_some]
    have hinside : CanEnter sem i 0 0 ⟨u, s.line⟩ := canEnter_inside (contexts_put h _)
    exact (hinside.after hmove rfl).mono (by omega) (Nat.zero_le _)
  · have hmove : queuedStep sem s (.brpop i) = some ⟨s.base, s.line ++ [i]⟩ := by
      simp only [queuedStep, if_neg hi, if_neg ht, if_pos h]
    have hqueued := hs.step (queuedStep_queues hmove)
    have hlast : QueuedState.ahead ⟨s.base, s.line ++ [i]⟩ i = s.ahead i := by
      rw [QueuedState.ahead, QueuedState.ahead, List.idxOf_append_of_notMem hi,
        List.idxOf_cons_self, List.idxOf_of_notMem hi, Nat.add_zero]
    exact (canEnter_blocked hqueued hf (by simp) hlast).after hmove rfl

/-- A context that has not issued its `SETNX` takes one command more. -/
def Context.lead : Context → ℕ
  | .setnx => 1
  | _ => 0

/-- The slots have been created. -/
theorem canEnter_filled (hs : Queued s) (hf : Filled sem s.base)
    (h : s.base.contexts[i]? = some c) (hc : c.waiting = true) :
    CanEnter sem i (s.ahead i + 2 + c.lead) (s.ahead i + 1) s := by
  have hnot : c.initialising = false := by
    by_contra hinitialising
    have hpos := State.initialisers_pos h (by simpa using hinitialising)
    have hinit := hf.2.1
    omega
  cases c with
  | setnx =>
    have hstep : step sem s.base (.setnx i) = some (s.base.put i .brpop) := by
      rw [step, if_pos h, if_pos hf.1]
    have hmove : queuedStep sem s (.setnx i) = some ⟨s.base.put i .brpop, s.line⟩ := by
      simp only [queuedStep, hstep, Option.map_some]
    have hfilled := filled_step hf (harmless_of_fault rfl) (step_moves hstep)
    exact (canEnter_brpop (hs.step (queuedStep_queues hmove)) hfilled (contexts_put h .brpop)
      (hs.lined.not_mem h (by simp))).after hmove rfl
  | brpop =>
    by_cases hi : i ∈ s.line
    · exact (canEnter_blocked hs hf hi rfl).mono (by omega) le_rfl
    · exact canEnter_brpop hs hf h hi
  | del | rpush => cases hnot
  | inside | exited | timedOut | dead => cases hc

/-- Some context pushes the slots next, and the first contexts of the line enter. -/
theorem canEnter_rpush (hs : Queued s) (hu : Unfilled s.base)
    (hj : s.base.contexts[j]? = some .rpush)
    (h : (s.base.put j .brpop).contexts[i]? = some c) (hc : c.waiting = true) :
    CanEnter sem i (s.ahead i + 3 + c.lead) (s.ahead i + 1) s := by
  let u : State := { s.base.put j .brpop with tokens := s.base.tokens + sem.concurrency }
  have hstep : step sem s.base (.rpush j) = some u := if_pos hj
  have hmove : queuedStep sem s (.rpush j) = some (serve sem u s.line) := by
    simp only [queuedStep, hstep, Option.map_some]
  obtain ⟨served, hserved⟩ := exists_served sem (hs.pushed hstep ⟨j, .inl rfl⟩)
  have hfilled : Filled sem u := unfilled_step hu (harmless_of_fault rfl) (step_moves hstep)
  by_cases hi : i ∈ served
  · exact ((canEnter_inside (hserved.inside i hi)).after hmove rfl).mono (by omega) (Nat.zero_le _)
  · have hahead : s.ahead i = served.length + (serve sem u s.line).ahead i :=
      (congrArg (List.idxOf i) hserved.line_eq).trans (List.idxOf_append_of_notMem hi)
    have hcontext : (serve sem u s.line).base.contexts[i]? = some c :=
      (hserved.others i hi).trans h
    have hnext := canEnter_filled ⟨hserved.lined, hserved.drained⟩
      (filled_served hfilled hserved.exec_eq) hcontext hc
    exact (hnext.after hmove rfl).mono (by omega) (by simp [Action.leaves]; omega)

theorem canEnter_del (hs : Queued s) (hu : Unfilled s.base)
    (hj : s.base.contexts[j]? = some .del)
    (h : (s.base.put j .brpop).contexts[i]? = some c) (hc : c.waiting = true) :
    CanEnter sem i (s.ahead i + 4 + c.lead) (s.ahead i + 1) s := by
  let u : State := { s.base.put j .rpush with tokens := 0 }
  have hstep : step sem s.base (.del j) = some u := if_pos hj
  have hmove : queuedStep sem s (.del j) = some ⟨u, s.line⟩ := by
    simp only [queuedStep, hstep, Option.map_some]
  have hunfilled : Unfilled u := unfilled_step hu (harmless_of_fault rfl) (step_moves hstep)
  have hagain : (u.put j .brpop).contexts = (s.base.put j .brpop).contexts := List.set_set _
  have hnext : CanEnter sem i (s.ahead i + 3 + c.lead) (s.ahead i + 1) ⟨u, s.line⟩ :=
    canEnter_rpush (hs.step (queuedStep_queues hmove)) hunfilled (contexts_put hj .rpush)
      (hagain ▸ h) hc
  exact (hnext.after hmove rfl).mono (by omega) le_rfl

/-- The slots are being created, or will be by this context. -/
theorem canEnter_unfilled (hs : Queued s) (hu : Unfilled s.base)
    (hunset : s.base.initKey = false → .brpop ∉ s.base.contexts)
    (h : s.base.contexts[i]? = some c) (hc : c.waiting = true) :
    CanEnter sem i (s.ahead i + 5) (s.ahead i + 1) s := by
  have hinit := hu.2.2
  cases hkey : s.base.initKey with
  | false =>
    have hnot : c.initialising = false := by
      by_contra hinitialising
      have hpos := State.initialisers_pos h (by simpa using hinitialising)
      simp [hkey] at hinit
      omega
    have hbrpop : c ≠ .brpop := by
      rintro rfl
      exact hunset hkey (List.mem_of_getElem? h)
    obtain rfl : c = .setnx := by
      cases c <;> simp_all [Context.waiting, Context.initialising]
    let u : State := { s.base.put i .del with initKey := true }
    have hstep : step sem s.base (.setnx i) = some u := by
      rw [step, if_pos h, if_neg (by simp [hkey])]
    have hmove : queuedStep sem s (.setnx i) = some ⟨u, s.line⟩ := by
      simp only [queuedStep, hstep, Option.map_some]
    have hunfilled : Unfilled u := unfilled_step hu (harmless_of_fault rfl) (step_moves hstep)
    have hagain : (u.put i .brpop).contexts[i]? = some .brpop :=
      contexts_put (contexts_put h .del) .brpop
    exact (canEnter_del (hs.step (queuedStep_queues hmove)) hunfilled (contexts_put h .del) hagain
      rfl).after hmove rfl
  | true =>
    have hinitialiser : 0 < s.base.initialisers := by simp [hinit, hkey]
    obtain ⟨j, d, hj, hd⟩ := exists_context hinitialiser
    obtain ⟨c', hc', hwaiting, hlead⟩ : ∃ c', (s.base.put j .brpop).contexts[i]? = some c' ∧
        c'.waiting = true ∧ c'.lead ≤ 1 := by
      by_cases hij : j = i
      · exact ⟨.brpop, hij ▸ contexts_put hj .brpop, rfl, Nat.zero_le 1⟩
      · exact ⟨c, (contexts_put_ne hij _).trans h, hc, by cases c <;> simp [Context.lead]⟩
    cases d with
    | del => exact (canEnter_del hs hu hj hc' hwaiting).mono (by omega) le_rfl
    | rpush => exact (canEnter_rpush hs hu hj hc' hwaiting).mono (by omega) le_rfl
    | _ => cases hd

end

/-- In every state that is reached while Redis keeps its data and nobody dies between `SETNX`
and `RPUSH` or in a body: a context times out only while all slots are taken or one context is
creating them, and every context that waits can enter after at most five commands, of which
at most one is the exit of a body, and one exit more for each context that is blocked before
it. -/
theorem waiting_can_enter (sem : Semaphore) (acts : List Action) (s : QueuedState)
    (hrun : (queued sem).run acts = some s)
    (hg : (queued sem).Guarded (fun s a => Harmless s.base a) (queued sem).init acts) :
    (∀ i t, queuedStep sem s (.timeout i) = some t →
        s.base.entered = sem.concurrency ∨ s.base.initialisers = 1) ∧
      ∀ (i : ℕ) (c : Context), s.base.contexts[i]? = some c → c.waiting = true →
        CanEnter sem i (s.ahead i + 5) (s.ahead i + 1) s := by
  obtain ⟨hqueued, hs⟩ := queued_run hrun hg
  refine ⟨fun i t htimeout => ?_, fun i c hi hc => ?_⟩
  · cases queuedStep_queues htimeout with
    | keeps _ ha => simp at ha
    | serves _ ha => simp at ha
    | drops hstep =>
      cases step_moves hstep with
      | giveUp hi htokens =>
        obtain ⟨-, -, hsum⟩ | ⟨-, -, hinit⟩ := hs.conserved
        · exact .inl (by omega)
        · have hkey : s.base.initKey = true := by
            by_contra hkey
            exact hs.unset (by simpa using hkey) (List.mem_of_getElem? hi)
          exact .inr (by simp [hinit, hkey])
  · obtain hfilled | hunfilled := hs.conserved
    · have hlead : c.lead ≤ 1 := by cases c <;> simp [Context.lead]
      exact (canEnter_filled hqueued hfilled hi hc).mono (by omega) le_rfl
    · exact canEnter_unfilled hqueued hunfilled hs.unset hi hc

/-- One context holds the only slot, one is blocked and another one has just come. -/
theorem waiting_can_enter_third :
    ∃ s, (queued ⟨1, by decide⟩).run [.use, .use, .setnx 1, .setnx 0, .del 1, .rpush 1,
        .brpop 0, .brpop 1, .use] = some s ∧ s.ahead 2 = 1 ∧ CanEnter ⟨1, by decide⟩ 2 6 2 s :=
  ⟨⟨⟨true, 0, 0, [.inside 0, .brpop, .setnx]⟩, [1]⟩, by decide, by decide,
    (waiting_can_enter ⟨1, by decide⟩ [.use, .use, .setnx 1, .setnx 0, .del 1, .rpush 1,
      .brpop 0, .brpop 1, .use] ⟨⟨true, 0, 0, [.inside 0, .brpop, .setnx]⟩, [1]⟩ (by decide)
      (by decide)).2 2 .setnx rfl rfl⟩

end ExecutionEngine.DockerSemaphore
