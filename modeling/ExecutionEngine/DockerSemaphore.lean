import ExecutionEngine.Transition

/-!
# The Redis counting semaphore of `execution/docker_semaphore.py`

`_make_semaphore(key, concurrency)` keeps its free slots as the elements of the
Redis list `key`, and remembers in `<key>:init` that the list has been filled.
Every entry into the context manager issues `SETNX`, on success `DEL` and
`RPUSH`, then `BRPOP`; every exit issues `LPUSH`. Each of these commands is one
atomic action here, and the contexts of all processes interleave freely. All
list elements are the string "t", so the list is represented by its length.

Redis runs without persistence (`docker-compose.yml`), so losing all data is an
action of its own, and so is the death of the process that holds a context. The
field `epoch` counts the losses. It is a history variable: no command reads it,
and a context only remembers the epoch in which its `BRPOP` succeeded.
-/
namespace ExecutionEngine.DockerSemaphore
open Transition

/-- `_make_semaphore` is called with at least one slot: an `RPUSH` without
elements would be rejected by Redis. -/
structure Semaphore where
  concurrency : ℕ
  pos : 1 ≤ concurrency

/-- Where one use of the context manager stands, named after its next command. -/
inductive Context
  | setnx
  | del
  | rpush
  | brpop
  | inside (epoch : ℕ)
  | exited (raised : Bool)
  | timedOut
  | dead
  deriving DecidableEq, Repr

/-- `SETNX` succeeded and the tokens are not pushed yet. -/
def Context.initialising : Context → Bool
  | .del => true
  | .rpush => true
  | _ => false

def Context.entered : Context → Bool
  | .inside _ => true
  | _ => false

/-- Entered by a `BRPOP` of the given epoch. -/
def Context.enteredIn (epoch : ℕ) : Context → Bool
  | .inside e => e == epoch
  | _ => false

structure State where
  initKey : Bool
  tokens : ℕ
  epoch : ℕ
  contexts : List Context
  deriving DecidableEq, Repr

namespace State

/-- An empty Redis and no use of the semaphore yet. -/
def empty : State := ⟨false, 0, 0, []⟩

def initialisers (s : State) : ℕ := s.contexts.countP Context.initialising

/-- The number of bodies that are running. -/
def entered (s : State) : ℕ := s.contexts.countP Context.entered

/-- The bodies entered since the most recent data loss. -/
def enteredSince (s : State) : ℕ := s.contexts.countP (Context.enteredIn s.epoch)

def put (s : State) (i : ℕ) (c : Context) : State :=
  { s with contexts := s.contexts.set i c }

end State

/-- `use` opens a new context; the index names a context. A timeout of `BRPOP`
needs an empty list, because Redis would have served the client otherwise. -/
inductive Action
  | use
  | setnx (i : ℕ)
  | del (i : ℕ)
  | rpush (i : ℕ)
  | brpop (i : ℕ)
  | timeout (i : ℕ)
  | lpush (i : ℕ) (raised : Bool)
  | loseData
  | die (i : ℕ)
  deriving DecidableEq, Repr

/-- One Redis command, or one event of the environment. The `finally` of the
context manager pushes the token back whether or not the body raised. -/
def step (sem : Semaphore) (s : State) : Action → Option State
  | .use => some { s with contexts := s.contexts ++ [.setnx] }
  | .setnx i =>
    if s.contexts[i]? = some .setnx then
      if s.initKey then some (s.put i .brpop)
      else some { s.put i .del with initKey := true }
    else none
  | .del i =>
    if s.contexts[i]? = some .del then some { s.put i .rpush with tokens := 0 } else none
  | .rpush i =>
    if s.contexts[i]? = some .rpush then
      some { s.put i .brpop with tokens := s.tokens + sem.concurrency }
    else none
  | .brpop i =>
    if s.contexts[i]? = some .brpop ∧ 0 < s.tokens then
      some { s.put i (.inside s.epoch) with tokens := s.tokens - 1 }
    else none
  | .timeout i =>
    if s.contexts[i]? = some .brpop ∧ s.tokens = 0 then some (s.put i .timedOut) else none
  | .lpush i raised =>
    match s.contexts[i]? with
    | some (.inside _) => some { s.put i (.exited raised) with tokens := s.tokens + 1 }
    | _ => none
  | .loseData => some { s with initKey := false, tokens := 0, epoch := s.epoch + 1 }
  | .die i =>
    if i < s.contexts.length then some (s.put i .dead) else none

def system (sem : Semaphore) : System State Action := ⟨State.empty, step sem⟩

/-- Everything a step can do, one constructor for each branch of `step`. -/
inductive Moves (sem : Semaphore) (s : State) : Action → State → Prop
  | use : Moves sem s .use { s with contexts := s.contexts ++ [.setnx] }
  | join {i} (hi : s.contexts[i]? = some .setnx) (hk : s.initKey = true) :
      Moves sem s (.setnx i) (s.put i .brpop)
  | seize {i} (hi : s.contexts[i]? = some .setnx) (hk : s.initKey = false) :
      Moves sem s (.setnx i) { s.put i .del with initKey := true }
  | clear {i} (hi : s.contexts[i]? = some .del) :
      Moves sem s (.del i) { s.put i .rpush with tokens := 0 }
  | fill {i} (hi : s.contexts[i]? = some .rpush) :
      Moves sem s (.rpush i) { s.put i .brpop with tokens := s.tokens + sem.concurrency }
  | enter {i} (hi : s.contexts[i]? = some .brpop) (ht : 0 < s.tokens) :
      Moves sem s (.brpop i) { s.put i (.inside s.epoch) with tokens := s.tokens - 1 }
  | giveUp {i} (hi : s.contexts[i]? = some .brpop) (ht : s.tokens = 0) :
      Moves sem s (.timeout i) (s.put i .timedOut)
  | leave {i e raised} (hi : s.contexts[i]? = some (.inside e)) :
      Moves sem s (.lpush i raised) { s.put i (.exited raised) with tokens := s.tokens + 1 }
  | lose : Moves sem s .loseData { s with initKey := false, tokens := 0, epoch := s.epoch + 1 }
  | die {i c} (hi : s.contexts[i]? = some c) : Moves sem s (.die i) (s.put i .dead)

theorem step_moves {sem : Semaphore} {s t : State} {a : Action}
    (h : step sem s a = some t) : Moves sem s a t := by
  cases a with
  | use =>
    obtain rfl := Option.some.inj h
    exact .use
  | setnx i =>
    simp only [step] at h
    split_ifs at h with hi hk
    · obtain rfl := Option.some.inj h
      exact .join hi hk
    · obtain rfl := Option.some.inj h
      exact .seize hi (by simpa using hk)
  | del i =>
    simp only [step] at h
    split_ifs at h with hi
    obtain rfl := Option.some.inj h
    exact .clear hi
  | rpush i =>
    simp only [step] at h
    split_ifs at h with hi
    obtain rfl := Option.some.inj h
    exact .fill hi
  | brpop i =>
    simp only [step] at h
    split_ifs at h with hi
    obtain rfl := Option.some.inj h
    exact .enter hi.1 hi.2
  | timeout i =>
    simp only [step] at h
    split_ifs at h with hi
    obtain rfl := Option.some.inj h
    exact .giveUp hi.1 hi.2
  | lpush i raised =>
    simp only [step] at h
    split at h
    · rename_i e hi
      obtain rfl := Option.some.inj h
      exact .leave hi
    · simp at h
  | loseData =>
    obtain rfl := Option.some.inj h
    exact .lose
  | die i =>
    simp only [step] at h
    split_ifs at h with hi
    obtain rfl := Option.some.inj h
    exact .die (List.getElem?_eq_getElem hi)

namespace State

@[simp] theorem put_tokens (s : State) (i : ℕ) (c : Context) :
    (s.put i c).tokens = s.tokens := rfl

/-- The counts depend on the contexts only (and on the epoch, for the last one),
so a write to Redis leaves them alone. -/
@[simp] theorem initialisers_mk (s : State) (k : Bool) (n e : ℕ) :
    (State.mk k n e s.contexts).initialisers = s.initialisers := rfl

@[simp] theorem entered_mk (s : State) (k : Bool) (n e : ℕ) :
    (State.mk k n e s.contexts).entered = s.entered := rfl

theorem initialisers_put {s : State} {i : ℕ} {c : Context} (d : Context)
    (h : s.contexts[i]? = some c) :
    (s.put i d).initialisers + (if c.initialising then 1 else 0) =
      s.initialisers + (if d.initialising then 1 else 0) :=
  countP_set_add _ d h

theorem entered_put {s : State} {i : ℕ} {c : Context} (d : Context)
    (h : s.contexts[i]? = some c) :
    (s.put i d).entered + (if c.entered then 1 else 0) =
      s.entered + (if d.entered then 1 else 0) :=
  countP_set_add _ d h

theorem enteredSince_put {s : State} {i : ℕ} {c : Context} (d : Context)
    (h : s.contexts[i]? = some c) :
    (s.put i d).enteredSince + (if c.enteredIn s.epoch then 1 else 0) =
      s.enteredSince + (if d.enteredIn s.epoch then 1 else 0) :=
  countP_set_add _ d h

theorem initialisers_dead {s : State} {i : ℕ} {c : Context} (h : s.contexts[i]? = some c) :
    (s.put i .dead).initialisers + (if c.initialising then 1 else 0) = s.initialisers :=
  initialisers_put .dead h

theorem entered_dead {s : State} {i : ℕ} {c : Context} (h : s.contexts[i]? = some c) :
    (s.put i .dead).entered + (if c.entered then 1 else 0) = s.entered :=
  entered_put .dead h

theorem initialisers_pos {s : State} {i : ℕ} {c : Context} (h : s.contexts[i]? = some c)
    (hc : c.initialising = true) : 0 < s.initialisers :=
  List.countP_pos_iff.mpr ⟨c, List.mem_of_getElem? h, hc⟩

theorem entered_pos {s : State} {i : ℕ} {c : Context} (h : s.contexts[i]? = some c)
    (hc : c.entered = true) : 0 < s.entered :=
  List.countP_pos_iff.mpr ⟨c, List.mem_of_getElem? h, hc⟩

end State

/-- The fate of the Redis server and of the processes is not one of the
semaphore's own commands. -/
def Action.fault : Action → Bool
  | .loseData => true
  | .die _ => true
  | _ => false

def Action.fills : Action → Bool
  | .rpush _ => true
  | _ => false

/-- A step that takes no slot away: Redis keeps its data, and only a process that
stands neither between `SETNX` and `RPUSH` nor inside a body dies. -/
def Harmless (s : State) : Action → Prop
  | .loseData => False
  | .die i => ∀ c ∈ s.contexts[i]?, c.initialising = false ∧ c.entered = false
  | _ => True

instance (s : State) : (a : Action) → Decidable (Harmless s a)
  | .loseData => inferInstanceAs (Decidable False)
  | .die i => inferInstanceAs (Decidable (∀ c ∈ s.contexts[i]?, _))
  | .use | .setnx _ | .del _ | .rpush _ | .brpop _ | .timeout _ | .lpush _ _ =>
    inferInstanceAs (Decidable True)

theorem harmless_of_fault {s : State} {a : Action} (h : a.fault = false) : Harmless s a := by
  cases a <;> simp_all [Harmless, Action.fault]

/-- Before the initialising `RPUSH` there is nothing to conserve, and the init
key belongs to exactly one initialiser. -/
def Unfilled (s : State) : Prop :=
  s.tokens = 0 ∧ s.entered = 0 ∧ s.initialisers = if s.initKey then 1 else 0

/-- After it nobody initialises any more and the slots are conserved. -/
def Filled (sem : Semaphore) (s : State) : Prop :=
  s.initKey = true ∧ s.initialisers = 0 ∧ s.tokens + s.entered = sem.concurrency

theorem filled_step {sem : Semaphore} {s t : State} {a : Action}
    (hs : Filled sem s) (ha : Harmless s a) (h : Moves sem s a t) : Filled sem t := by
  obtain ⟨hkey, hinit, hsum⟩ := hs
  cases h with
  | use =>
    exact ⟨hkey, by simpa [State.initialisers, Context.initialising] using hinit,
      by simpa [State.entered, Context.entered] using hsum⟩
  | join hi _ =>
    have hn := State.initialisers_put .brpop hi
    have he := State.entered_put .brpop hi
    simp [Context.initialising, Context.entered] at hn he
    exact ⟨hkey, by omega, by rw [State.put_tokens]; omega⟩
  | seize hi hk => simp [hkey] at hk
  | clear hi => have := State.initialisers_pos hi rfl; omega
  | fill hi => have := State.initialisers_pos hi rfl; omega
  | enter hi ht =>
    have hn := State.initialisers_put (.inside s.epoch) hi
    have he := State.entered_put (.inside s.epoch) hi
    simp [Context.initialising, Context.entered] at hn he
    exact ⟨hkey, by simpa using hn.trans hinit, by simp only [State.entered_mk]; omega⟩
  | giveUp hi _ =>
    have hn := State.initialisers_put .timedOut hi
    have he := State.entered_put .timedOut hi
    simp [Context.initialising, Context.entered] at hn he
    exact ⟨hkey, by omega, by rw [State.put_tokens]; omega⟩
  | @leave i e raised hi =>
    have hn := State.initialisers_put (.exited raised) hi
    have he := State.entered_put (.exited raised) hi
    simp [Context.initialising, Context.entered] at hn he
    exact ⟨hkey, by simpa using hn.trans hinit, by simp only [State.entered_mk]; omega⟩
  | lose => exact ha.elim
  | die hi =>
    obtain ⟨hinit', hent'⟩ := ha _ hi
    have hn := State.initialisers_dead hi
    have he := State.entered_dead hi
    simp [hinit', hent'] at hn he
    exact ⟨hkey, by omega, by rw [State.put_tokens]; omega⟩

theorem unfilled_step {sem : Semaphore} {s t : State} {a : Action}
    (hs : Unfilled s) (ha : Harmless s a) (h : Moves sem s a t) :
    if a.fills then Filled sem t else Unfilled t := by
  obtain ⟨htok, hent, hinit⟩ := hs
  cases h with
  | use =>
    exact ⟨htok, by simpa [State.entered, Context.entered] using hent,
      by simpa [State.initialisers, Context.initialising] using hinit⟩
  | join hi _ =>
    have hn := State.initialisers_put .brpop hi
    have he := State.entered_put .brpop hi
    simp [Context.initialising, Context.entered] at hn he
    exact ⟨htok, by omega, by rw [hn]; exact hinit⟩
  | seize hi hk =>
    have hn := State.initialisers_put .del hi
    have he := State.entered_put .del hi
    simp [Context.initialising, Context.entered] at hn he
    exact ⟨htok, by simpa using he.trans hent, by simp [hn, hinit, hk]⟩
  | clear hi =>
    have hn := State.initialisers_put .rpush hi
    have he := State.entered_put .rpush hi
    simp [Context.initialising, Context.entered] at hn he
    exact ⟨rfl, he.trans hent, hn.trans hinit⟩
  | fill hi =>
    have hpos := State.initialisers_pos hi rfl
    have hn := State.initialisers_put .brpop hi
    have he := State.entered_put .brpop hi
    simp [Context.initialising, Context.entered] at hn he
    have hkey : s.initKey = true := by
      by_contra hk
      simp [hk] at hinit
      omega
    simp [hkey] at hinit
    exact ⟨hkey, by simp only [State.initialisers_mk]; omega,
      by simp only [State.entered_mk]; omega⟩
  | enter hi ht => omega
  | giveUp hi _ =>
    have hn := State.initialisers_put .timedOut hi
    have he := State.entered_put .timedOut hi
    simp [Context.initialising, Context.entered] at hn he
    exact ⟨htok, by omega, by rw [hn]; exact hinit⟩
  | leave hi => have := State.entered_pos hi rfl; omega
  | lose => exact ha.elim
  | die hi =>
    obtain ⟨hinit', hent'⟩ := ha _ hi
    have hn := State.initialisers_dead hi
    have he := State.entered_dead hi
    simp [hinit', hent'] at hn he
    exact ⟨htok, by omega, by rw [hn]; exact hinit⟩

/-- The initialising `RPUSH` is among the commands executed so far. -/
def initialised (past : List Action) : Bool := past.any Action.fills

theorem conservation {sem : Semaphore} {acts : List Action} {s : State}
    (hrun : (system sem).run acts = some s)
    (hf : (system sem).Guarded Harmless State.empty acts) :
    if initialised acts then Filled sem s else Unfilled s := by
  refine (system sem).history_invariant (g := Harmless)
    (P := fun past s => if initialised past then Filled sem s else Unfilled s)
    ?_ [] ?_ hf hrun
  · intro past s a t hs ha hst
    have hpast : initialised (past ++ [a]) = (initialised past || a.fills) := by
      simp [initialised]
    rw [hpast]
    cases hp : initialised past with
    | true =>
      simp only [hp, if_true] at hs
      simpa using filled_step hs ha (step_moves hst)
    | false =>
      simp only [hp, Bool.false_eq_true, if_false] at hs
      simpa using unfilled_step hs ha (step_moves hst)
  · exact ⟨rfl, rfl, rfl⟩

/-- In every interleaving of the commands of any number of contexts, starting
from an empty Redis that keeps its data, the free slots and the running bodies
add up to nothing before the initialising `RPUSH` and to the configured number
afterwards. Bodies that raise and acquires that time out are included. -/
theorem slots_conserved (sem : Semaphore) (acts : List Action) (s : State)
    (hrun : (system sem).run acts = some s) (hf : ∀ a ∈ acts, a.fault = false) :
    (s.tokens + s.entered = if initialised acts then sem.concurrency else 0) ∧
      s.entered ≤ sem.concurrency := by
  have hg : (system sem).Guarded Harmless State.empty acts :=
    (system sem).guarded_of_forall (fun _ a ha => harmless_of_fault (hf a ha)) _
  have h := conservation hrun hg
  cases hp : initialised acts with
  | true =>
    simp only [hp, if_true] at h ⊢
    obtain ⟨_, _, hsum⟩ := h
    exact ⟨hsum, by omega⟩
  | false =>
    simp only [hp, Bool.false_eq_true, if_false] at h ⊢
    obtain ⟨htok, hent, _⟩ := h
    exact ⟨by omega, by omega⟩

/-- Two contexts race for one slot: the second waits for the tokens of the first
one's initialisation, enters and leaves through an exception. -/
theorem slots_conserved_race :
    ∃ s, (system ⟨2, by decide⟩).run [.use, .setnx 0, .use, .setnx 1, .del 0, .rpush 0,
        .brpop 1, .brpop 0, .lpush 1 true] = some s ∧
      s.tokens + s.entered = 2 ∧ s.entered ≤ 2 :=
  ⟨⟨true, 1, 0, [.inside 0, .exited true]⟩, by decide,
    slots_conserved ⟨2, by decide⟩ [.use, .setnx 0, .use, .setnx 1, .del 0, .rpush 0,
      .brpop 1, .brpop 0, .lpush 1 true] ⟨true, 1, 0, [.inside 0, .exited true]⟩
      (by decide) (by decide)⟩

/-- No context that was entered before the most recent loss is still inside. -/
def State.oldExited (s : State) : Prop := s.entered = s.enteredSince

instance (s : State) : Decidable s.oldExited := inferInstanceAs (Decidable (_ = _))

/-- A semaphore is settled when its init key is present and nobody stands
between `SETNX` and `RPUSH`. -/
def State.settled (s : State) : Prop := s.initKey = true ∧ s.initialisers = 0

instance (s : State) : Decidable s.settled := inferInstanceAs (Decidable (_ ∧ _))

/-- The condition under which a step leaves the recreated semaphore exact. A body
entered before the most recent loss gives its slot back only while the semaphore
is not settled, so that a later `DEL` still removes the stale token. A `RPUSH`
that completes the initialisation (no other initialiser is under way and the
init key has not been lost meanwhile) finds the list empty and no body that was
entered since the loss. -/
def Exact (s : State) : Action → Prop
  | .lpush i _ => (s.contexts[i]?.any fun c => c.entered && !c.enteredIn s.epoch) → ¬ s.settled
  | .rpush _ => s.initKey = true → s.initialisers = 1 → s.tokens = 0 ∧ s.enteredSince = 0
  | .die _ => False
  | _ => True

instance (s : State) : (a : Action) → Decidable (Exact s a)
  | .lpush _ _ => inferInstanceAs (Decidable (_ → _))
  | .rpush _ => inferInstanceAs (Decidable (_ → _ → _))
  | .die _ => inferInstanceAs (Decidable False)
  | .use | .setnx _ | .del _ | .brpop _ | .timeout _ | .loseData =>
    inferInstanceAs (Decidable True)

def Recovered (sem : Semaphore) (s : State) : Prop :=
  s.settled → s.tokens + s.enteredSince = sem.concurrency

theorem recovered_step {sem : Semaphore} {s t : State} {a : Action}
    (hs : Recovered sem s) (ha : Exact s a) (h : Moves sem s a t) : Recovered sem t := by
  intro ht
  cases h with
  | use =>
    have hset : s.settled := by
      simpa [State.settled, State.initialisers, Context.initialising] using ht
    simpa [State.enteredSince, Context.enteredIn] using hs hset
  | join hi hk =>
    have hn := State.initialisers_put .brpop hi
    have he := State.enteredSince_put .brpop hi
    simp [Context.initialising, Context.enteredIn] at hn he
    rw [State.put_tokens, he]
    exact hs ⟨hk, hn ▸ ht.2⟩
  | @seize i hi hk =>
    have hn := State.initialisers_put .del hi
    have hz : (s.put i .del).initialisers = 0 := ht.2
    simp [Context.initialising] at hn
    omega
  | @clear i hi =>
    have hn := State.initialisers_put .rpush hi
    have hpos := State.initialisers_pos hi rfl
    have hz : (s.put i .rpush).initialisers = 0 := ht.2
    simp [Context.initialising] at hn
    omega
  | @fill i hi =>
    have hn := State.initialisers_put .brpop hi
    have he := State.enteredSince_put .brpop hi
    have hz : (s.put i .brpop).initialisers = 0 := ht.2
    simp [Context.initialising, Context.enteredIn] at hn he
    obtain ⟨htok, hsince⟩ := ha ht.1 (by omega)
    change s.tokens + sem.concurrency + (s.put i .brpop).enteredSince = _
    omega
  | @enter i hi hpos =>
    have hn := State.initialisers_put (.inside s.epoch) hi
    have he := State.enteredSince_put (.inside s.epoch) hi
    have hz : (s.put i (.inside s.epoch)).initialisers = 0 := ht.2
    simp [Context.initialising, Context.enteredIn] at hn he
    have hsum := hs ⟨ht.1, by omega⟩
    change s.tokens - 1 + (s.put i (.inside s.epoch)).enteredSince = _
    omega
  | giveUp hi hk =>
    have hn := State.initialisers_put .timedOut hi
    have he := State.enteredSince_put .timedOut hi
    simp [Context.initialising, Context.enteredIn] at hn he
    rw [State.put_tokens, he]
    exact hs ⟨ht.1, hn ▸ ht.2⟩
  | @leave i e raised hi =>
    have hn := State.initialisers_put (.exited raised) hi
    have he := State.enteredSince_put (.exited raised) hi
    have hz : (s.put i (.exited raised)).initialisers = 0 := ht.2
    simp [Context.initialising, Context.enteredIn] at hn he
    have hset : s.settled := ⟨ht.1, by omega⟩
    have hcur : e = s.epoch := by
      by_contra hne
      exact ha (by simp [hi, Context.entered, Context.enteredIn, hne]) hset
    have hsum := hs hset
    change s.tokens + 1 + (s.put i (.exited raised)).enteredSince = _
    simp [hcur] at he
    omega
  | lose => simp [State.settled] at ht
  | die _ => exact ha.elim

/-- The condition is exact: a step that does not meet it leaves a settled
semaphore with a wrong number of slots, and no later command corrects it before
the next initialisation. -/
theorem exact_of_recovered {sem : Semaphore} {s t : State} {a : Action}
    (hs : Recovered sem s) (hd : ∀ i, a ≠ .die i) (h : Moves sem s a t)
    (ht : Recovered sem t) : Exact s a := by
  cases h with
  | @fill i hi =>
    intro hkey hone
    have hn := State.initialisers_put .brpop hi
    have he := State.enteredSince_put .brpop hi
    simp [Context.initialising, Context.enteredIn] at hn he
    have hsum : s.tokens + sem.concurrency + (s.put i .brpop).enteredSince = sem.concurrency :=
      ht ⟨hkey, show (s.put i .brpop).initialisers = 0 by omega⟩
    exact ⟨by omega, by omega⟩
  | @leave i e raised hi =>
    intro hstale hset
    have hn := State.initialisers_put (.exited raised) hi
    have he := State.enteredSince_put (.exited raised) hi
    simp [hi, Context.initialising, Context.entered, Context.enteredIn] at hstale hn he
    have hbefore := hs hset
    have hafter : s.tokens + 1 + (s.put i (.exited raised)).enteredSince = sem.concurrency :=
      ht ⟨hset.1, show (s.put i (.exited raised)).initialisers = 0 by rw [hn]; exact hset.2⟩
    simp [hstale] at he
    omega
  | die _ => exact (hd _ rfl).elim
  | _ => trivial

/-- In every run whose steps all meet `Exact`, the recreated semaphore has
neither more nor fewer slots than configured once it is settled and every body
from before the most recent loss has exited. -/
theorem recreated_slots_exact (sem : Semaphore) (acts : List Action) (s : State)
    (hrun : (system sem).run acts = some s)
    (hexact : (system sem).Guarded Exact State.empty acts)
    (hsettled : s.settled) (hold : s.oldExited) :
    s.tokens + s.entered = sem.concurrency := by
  have h := (system sem).invariant (I := Recovered sem)
    (fun s a t hs ha hst => recovered_step hs ha (step_moves hst))
    (by simp [Recovered, State.settled, system, State.empty]) hexact hrun
  rw [hold]
  exact h hsettled

/-- A loss while a body is inside is harmless when the body leaves before the
recreating `DEL`. -/
theorem recreated_slots_exact_after_loss :
    ∃ s, (system ⟨1, by decide⟩).run [.use, .setnx 0, .del 0, .rpush 0, .brpop 0, .loseData,
        .use, .setnx 1, .lpush 0 false, .del 1, .rpush 1] = some s ∧
      s.settled ∧ s.tokens + s.entered = 1 :=
  ⟨⟨true, 1, 1, [.exited false, .brpop]⟩, by decide, by decide,
    recreated_slots_exact ⟨1, by decide⟩ [.use, .setnx 0, .del 0, .rpush 0, .brpop 0, .loseData,
      .use, .setnx 1, .lpush 0 false, .del 1, .rpush 1]
      ⟨true, 1, 1, [.exited false, .brpop]⟩ (by decide) (by decide) (by decide) (by decide)⟩

/-- The body entered before the loss leaves after the semaphore has been
recreated, and its token is one too many. -/
theorem recreated_slots_not_exact :
    ¬ ∀ (sem : Semaphore) (acts : List Action) (s : State),
      (system sem).run acts = some s → (∀ i, Action.die i ∉ acts) →
      s.settled → s.oldExited → s.tokens + s.entered = sem.concurrency := by
  intro h
  have hbad := h ⟨1, by decide⟩
    [.use, .setnx 0, .del 0, .rpush 0, .brpop 0, .loseData, .use, .setnx 1, .del 1, .rpush 1,
      .lpush 0 false]
    ⟨true, 2, 1, [.exited false, .brpop]⟩ (by decide) (by simp) (by decide) (by decide)
  exact absurd hbad (by decide)

/-- What dies outside the two windows takes no slot along: in every run of this
kind in which Redis keeps its data, a settled semaphore has all its slots, and when
none is free a running body will give one back. -/
theorem slots_survive_death (sem : Semaphore) (acts : List Action) (s : State)
    (hrun : (system sem).run acts = some s)
    (hsafe : (system sem).Guarded Harmless State.empty acts) (hsettled : s.settled) :
    s.tokens + s.entered = sem.concurrency ∧ (s.tokens = 0 → 0 < s.entered) := by
  have h := conservation hrun hsafe
  have hsum : s.tokens + s.entered = sem.concurrency := by
    split_ifs at h
    · exact h.2.2
    · obtain ⟨-, -, hinit⟩ := h
      rw [hsettled.1, hsettled.2] at hinit
      simp at hinit
  have hpos := sem.pos
  exact ⟨hsum, by omega⟩

/-- The condition is exact: after any other death a settled semaphore has fewer
slots than configured. -/
theorem harmless_of_survives {sem : Semaphore} {s t : State} {i : ℕ}
    (hs : Filled sem s ∨ Unfilled s) (h : Moves sem s (.die i) t)
    (ht : t.settled → t.tokens + t.entered = sem.concurrency) : Harmless s (.die i) := by
  have hpos := sem.pos
  cases h with
  | @die _ c hi =>
    intro d hd
    obtain rfl : c = d := Option.some.inj (hi.symm.trans hd)
    have hn := State.initialisers_dead hi
    have he := State.entered_dead hi
    have hafter : s.initKey = true → (s.put i .dead).initialisers = 0 →
        s.tokens + (s.put i .dead).entered = sem.concurrency := fun hk hz => ht ⟨hk, hz⟩
    obtain ⟨hkey, hinit, hsum⟩ | ⟨htok, hent, hinit⟩ := hs
    · have hsum' := hafter hkey (by omega)
      cases hc : c.initialising <;> cases hc' : c.entered <;> simp [hc, hc'] at hn he ⊢ <;> omega
    · cases hc : c.initialising with
      | false =>
        refine ⟨rfl, ?_⟩
        cases hc' : c.entered with
        | false => rfl
        | true => simp [hc'] at he; omega
      | true =>
        have hkey : s.initKey = true := by
          by_contra hk
          simp [hk] at hinit
          simp [hc] at hn
          omega
        simp [hkey] at hinit
        simp [hc] at hn
        have hsum' := hafter hkey (by omega)
        omega

/-- A process dies while it waits for its slot. -/
theorem slots_survive_death_waiting :
    ∃ s, (system ⟨1, by decide⟩).run [.use, .setnx 0, .del 0, .rpush 0, .brpop 0, .use, .setnx 1,
        .die 1, .lpush 0 false] = some s ∧
      s.settled ∧ s.tokens + s.entered = 1 ∧ (s.tokens = 0 → 0 < s.entered) :=
  ⟨⟨true, 1, 0, [.exited false, .dead]⟩, by decide, by decide,
    slots_survive_death ⟨1, by decide⟩ [.use, .setnx 0, .del 0, .rpush 0, .brpop 0, .use,
      .setnx 1, .die 1, .lpush 0 false] ⟨true, 1, 0, [.exited false, .dead]⟩
      (by decide) (by decide) (by decide)⟩

/-- The process that holds the only slot dies, and no slot is left. -/
theorem slots_lost_by_death :
    ¬ ∀ (sem : Semaphore) (acts : List Action) (s : State),
      (system sem).run acts = some s → Action.loseData ∉ acts → s.settled →
      s.tokens + s.entered = sem.concurrency := by
  intro h
  have hbad := h ⟨1, by decide⟩ [.use, .setnx 0, .del 0, .rpush 0, .brpop 0, .die 0]
    ⟨true, 0, 0, [.dead]⟩ (by decide) (by decide) (by decide)
  exact absurd hbad (by decide)

end ExecutionEngine.DockerSemaphore
