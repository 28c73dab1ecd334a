import ExecutionEngine.ContainerPool

/-!
# The ledger of warm containers

A container is in the custody of one pool list or of one task, or it has been
given up. The ledger forgets everything about the tasks of the pool except what
they have in hand: a popped entry, a container that passed the age test, a
container in use, or the snapshot and the plan of a reaper. The invariants are
proved here over the few ways in which custody can change.

The rebuild of a list from a snapshot is the only step that can break custody.
It is the labelled one, with two conditions on it: the entries written back are
still in the list, and nothing was pushed since the snapshot.
-/
namespace ExecutionEngine.PoolLedger
open ContainerPool

/-- What a task has in hand. `view` is the snapshot of a reaper, `plan` the list
it is about to write. -/
inductive Claim
  | none
  | popped (entry : Entry)
  | checked (containerId : String)
  | held (containerId : String)
  | scan (now : ℤ)
  | view (now : ℤ) (image : String) (rawEntries : List Entry)
  | plan (now : ℤ) (image : String) (rawEntries keep : List Entry)

/-- The container in the custody of a task. -/
def Claim.custody : Claim → Option String
  | .popped e => some e.containerId
  | .checked c => some c
  | .held c => some c
  | _ => Option.none

/-- The task lets its container live: the age test is behind it. -/
def Claim.live : Claim → Option String
  | .checked c => some c
  | .held c => some c
  | _ => Option.none

structure Ledger where
  now : ℤ
  pool : String → List Entry
  started : List String
  killed : List String
  owed : String → Option String
  claims : ℕ → Claim

namespace Ledger

def become (L : Ledger) (t : ℕ) (k : Claim) : Ledger :=
  { L with claims := Function.update L.claims t k }

def setPool (L : Ledger) (image : String) (entries : List Entry) : Ledger :=
  { L with pool := Function.update L.pool image entries }

def settle (L : Ledger) (c : String) : Ledger :=
  { L with owed := Function.update L.owed c none }

def kill (L : Ledger) (c : String) : Ledger :=
  { L.settle c with killed := c :: L.killed }

def killMany (L : Ledger) (cs : List String) : Ledger := cs.foldl kill L

def deposit (L : Ledger) (image : String) (e : Entry) : Ledger :=
  { L.setPool image (e :: L.pool image) with
    owed := Function.update L.owed e.containerId (some image) }

def start (L : Ledger) (c : String) : Ledger := { L with started := c :: L.started }

end Ledger

/-- How custody changes. The label names the task that rebuilds a list. -/
inductive Step (limits : Limits) (L : Ledger) : Option ℕ → Ledger → Prop
  | skip : Step limits L none L
  | tick (d : ℕ) : Step limits L none { L with now := L.now + d }
  | pop {t image e} (ht : L.claims t = .none) (he : (L.pool image).getLast? = some e) :
      Step limits L none ((L.setPool image (L.pool image).dropLast).become t (.popped e))
  | pass {t e} (ht : L.claims t = .popped e) (he : expired limits L.now e = false) :
      Step limits L none (L.become t (.checked e.containerId))
  | discard {t c} (ht : (L.claims t).custody = some c) :
      Step limits L none ((L.kill c).become t .none)
  | hand {t c} (ht : L.claims t = .checked c) :
      Step limits L none ((L.settle c).become t (.held c))
  | start {t c} (ht : L.claims t = .none) (hc : c ∉ L.started) :
      Step limits L none ((L.start c).become t (.held c))
  | drop {t c} (ht : L.claims t = .held c) : Step limits L none (L.become t .none)
  | push {t image e} (ht : L.claims t = .held e.containerId)
      (hcap : ((L.pool image).length : ℤ) < limits.maxPerImage) :
      Step limits L none ((L.deposit image e).become t .none)
  | reap {t} (ht : L.claims t = .none) : Step limits L none (L.become t (.scan L.now))
  | stop {t n} (ht : L.claims t = .scan n) : Step limits L none (L.become t .none)
  | look {t n} (image) (ht : L.claims t = .scan n) :
      Step limits L none (L.become t (.view n image (L.pool image)))
  | sift {t n image raws} (ht : L.claims t = .view n image raws) :
      Step limits L none ((L.killMany ((raws.filter (expired limits n)).map
        fun e => e.containerId)).become t
        (.plan n image raws (raws.filter fun e => !expired limits n e)))
  | rebuild {t n image raws keep} (ht : L.claims t = .plan n image raws keep) :
      Step limits L (some t) ((L.setPool image keep).become t (.scan n))

inductive Place
  | pool (image : String)
  | task (t : ℕ)
  deriving DecidableEq

/-- Container `c` is in the custody of the place. -/
def At (L : Ledger) (c : String) : Place → Prop
  | .pool image => ∃ e ∈ L.pool image, e.containerId = c
  | .task t => (L.claims t).custody = some c

/-- An entry whose age `acquire` has still to test. -/
def Pending (L : Ledger) (e : Entry) : Prop :=
  (∃ image, e ∈ L.pool image) ∨ ∃ t, L.claims t = .popped e

/-- No task lets the container of `e` live, and no other entry for it is pending.
An `acquire` that meets the container will therefore test the age of `e` itself. -/
def Condemned (L : Ledger) (e : Entry) : Prop :=
  (∀ t, (L.claims t).live ≠ some e.containerId) ∧
    ∀ e', Pending L e' → e'.containerId = e.containerId → e' = e

abbrev ids (entries : List Entry) : List String := entries.map fun e => e.containerId

/-- What the claim of a reaper says about the present. -/
def Claim.Sound (limits : Limits) (L : Ledger) : Claim → Prop
  | .scan n => n ≤ L.now
  | .view n _ raws => n ≤ L.now ∧ (ids raws).Nodup ∧
      ∀ e ∈ raws, e.containerId ∈ L.started ∧ (expired limits n e = true → Condemned L e)
  | .plan n _ _ keep => n ≤ L.now ∧ (ids keep).Nodup
  | _ => True

/-- Every container has at most one custodian, and a container that a task lets
live is not scheduled for a kill. -/
structure Inv (limits : Limits) (L : Ledger) : Prop where
  known : ∀ c p, At L c p → c ∈ L.started
  known_killed : ∀ c ∈ L.killed, c ∈ L.started
  single : ∀ c p q, At L c p → At L c q → p = q
  nodup : ∀ image, (ids (L.pool image)).Nodup
  alive : ∀ t c, (L.claims t).live = some c → c ∉ L.killed
  doomed : ∀ e, Pending L e → e.containerId ∈ L.killed → expired limits L.now e = true
  sound : ∀ t, (L.claims t).Sound limits L

theorem Pending.exists_at {L : Ledger} {e : Entry} (h : Pending L e) :
    ∃ p, At L e.containerId p := by
  obtain ⟨image, he⟩ | ⟨t, ht⟩ := h
  · exact ⟨.pool image, e, he, rfl⟩
  · exact ⟨.task t, by simp [At, ht, Claim.custody]⟩

theorem Claim.custody_of_live {k : Claim} {c : String} (h : k.live = some c) :
    k.custody = some c := by
  cases k <;> simp_all [Claim.live, Claim.custody]

theorem expired_mono {limits : Limits} {m n : ℤ} {e : Entry} (hmn : m ≤ n)
    (h : expired limits m e = true) : expired limits n e = true := by
  simp only [expired, decide_eq_true_eq] at h ⊢
  omega

theorem Claim.Sound.mono {limits : Limits} {L L' : Ledger} {k : Claim}
    (h : k.Sound limits L) (hnow : L.now ≤ L'.now) (hst : ∀ c ∈ L.started, c ∈ L'.started)
    (hcond : ∀ n image raws, k = .view n image raws → ∀ e ∈ raws, expired limits n e = true →
      Condemned L e → Condemned L' e) : k.Sound limits L' := by
  cases k with
  | scan n => exact le_trans h hnow
  | view n image raws =>
    obtain ⟨hn, hnd, hraws⟩ := h
    refine ⟨hn.trans hnow, hnd, fun e he => ⟨hst _ (hraws e he).1, fun hexp => ?_⟩⟩
    exact hcond n image raws rfl e he hexp ((hraws e he).2 hexp)
  | plan n image raws keep => exact ⟨h.1.trans hnow, h.2⟩
  | _ => trivial

theorem claims_become_of_ne {L : Ledger} {t u : ℕ} {k : Claim} (h : u ≠ t) :
    (L.become t k).claims u = L.claims u := by
  simp [Ledger.become, h]

@[simp] theorem claims_become_self (L : Ledger) (t : ℕ) (k : Claim) :
    (L.become t k).claims t = k := by
  simp [Ledger.become]

theorem at_become_cases {L : Ledger} {t : ℕ} {k : Claim} {c : String} {p : Place}
    (h : At (L.become t k) c p) : (p = .task t ∧ k.custody = some c) ∨ At L c p := by
  cases p with
  | pool image => exact .inr h
  | task u =>
    by_cases hu : u = t
    · subst u
      exact .inl ⟨rfl, by simpa [At] using h⟩
    · exact .inr (by simpa [At, claims_become_of_ne hu] using h)

theorem pending_become_cases {L : Ledger} {t : ℕ} {k : Claim} {e : Entry}
    (h : Pending (L.become t k) e) : k = .popped e ∨ Pending L e := by
  obtain h | ⟨u, hu⟩ := h
  · exact .inr (.inl h)
  · by_cases hut : u = t
    · subst u
      exact .inl (by simpa using hu)
    · exact .inr (.inr ⟨u, by rwa [claims_become_of_ne hut] at hu⟩)

theorem live_become_cases {L : Ledger} {t u : ℕ} {k : Claim} {c : String}
    (h : ((L.become t k).claims u).live = some c) :
    k.live = some c ∨ (L.claims u).live = some c := by
  by_cases hu : u = t
  · subst u
    exact .inl (by simpa using h)
  · exact .inr (by rwa [claims_become_of_ne hu] at h)

theorem Condemned.become {L : Ledger} {e : Entry} (h : Condemned L e) {t : ℕ} {k : Claim}
    (hk : k.custody = some e.containerId → k = .popped e) : Condemned (L.become t k) e := by
  refine ⟨fun u hu => ?_, fun e' he' hid => ?_⟩
  · obtain hl | hl := live_become_cases hu
    · rw [hk (Claim.custody_of_live hl)] at hl
      simp [Claim.live] at hl
    · exact h.1 u hl
  · obtain rfl | he' := pending_become_cases he'
    · simpa using hk (by simpa [Claim.custody] using hid)
    · exact h.2 e' he' hid

theorem mem_deposit_cases {L : Ledger} {image image' : String} {e e' : Entry}
    (h : e' ∈ (L.deposit image e).pool image') :
    (image' = image ∧ e' = e) ∨ e' ∈ L.pool image' := by
  by_cases hi : image' = image
  · subst image'
    simp only [Ledger.deposit, Ledger.setPool, Function.update_self, List.mem_cons] at h
    exact h.imp_left fun heq => ⟨rfl, heq⟩
  · exact .inr (by simpa [Ledger.deposit, Ledger.setPool, hi] using h)

theorem at_deposit_cases {L : Ledger} {image c : String} {e : Entry} {p : Place}
    (h : At (L.deposit image e) c p) : (p = .pool image ∧ c = e.containerId) ∨ At L c p := by
  cases p with
  | pool image' =>
    obtain ⟨e', he', rfl⟩ := h
    obtain ⟨rfl, rfl⟩ | he' := mem_deposit_cases he'
    · exact .inl ⟨rfl, rfl⟩
    · exact .inr ⟨e', he', rfl⟩
  | task t => exact .inr h

theorem pending_deposit_cases {L : Ledger} {image : String} {e e' : Entry}
    (h : Pending (L.deposit image e) e') : e' = e ∨ Pending L e' := by
  obtain ⟨image', he'⟩ | ht := h
  · exact (mem_deposit_cases he').imp (fun h => h.2) fun h => .inl ⟨image', h⟩
  · exact .inr (.inr ht)

namespace Inv

variable {limits : Limits} {L : Ledger}

theorem sound_become (h : Inv limits L) {t : ℕ} {k : Claim}
    (hk : k.Sound limits (L.become t k))
    (hcond : ∀ u n image raws, L.claims u = .view n image raws → ∀ e ∈ raws,
      expired limits n e = true → k.custody = some e.containerId → k = .popped e) (u : ℕ) :
    ((L.become t k).claims u).Sound limits (L.become t k) := by
  by_cases hu : u = t
  · subst u
    simpa using hk
  · rw [claims_become_of_ne hu]
    refine (h.sound u).mono le_rfl (fun _ hc => hc) ?_
    intro n image raws hview e he hexp hcd
    exact hcd.become (hcond u n image raws hview e he hexp)

/-- A task may take a container that has no custodian, provided that no reaper
has condemned it. -/
theorem take (h : Inv limits L) {t : ℕ} {k : Claim} {c : String} (hk : k.custody = some c)
    (hc : c ∈ L.started) (hfree : ∀ p, ¬ At L c p) (hlive : k.live = some c → c ∉ L.killed)
    (hpop : ∀ e, k = .popped e → c ∈ L.killed → expired limits L.now e = true)
    (hcond : ∀ u n image raws, L.claims u = .view n image raws → ∀ e ∈ raws,
      expired limits n e = true → e.containerId = c → k = .popped e) :
    Inv limits (L.become t k) where
  known := by
    intro d p hp
    obtain ⟨_, hd⟩ | hd := at_become_cases hp
    · obtain rfl : c = d := by simpa [hk] using hd
      exact hc
    · exact h.known d p hd
  known_killed := h.known_killed
  single := by
    intro d p q hp hq
    obtain ⟨rfl, hd⟩ | hp := at_become_cases hp <;>
      obtain ⟨rfl, hd'⟩ | hq := at_become_cases hq
    · rfl
    · obtain rfl : c = d := by simpa [hk] using hd
      exact (hfree q hq).elim
    · obtain rfl : c = d := by simpa [hk] using hd'
      exact (hfree p hp).elim
    · exact h.single d p q hp hq
  nodup := h.nodup
  alive := by
    intro u d hd
    obtain hd | hd := live_become_cases hd
    · obtain rfl : c = d := by simpa [hk] using Claim.custody_of_live hd
      exact hlive hd
    · exact h.alive u d hd
  doomed := by
    intro e he hkill
    obtain rfl | he := pending_become_cases he
    · obtain rfl : e.containerId = c := by simpa [Claim.custody] using hk
      exact hpop e rfl hkill
    · exact h.doomed e he hkill
  sound := by
    refine h.sound_become ?_ ?_
    · cases k <;> simp_all [Claim.custody, Claim.Sound]
    · intro u n image raws hu e he hexp hce
      exact hcond u n image raws hu e he hexp (by simpa [hk, eq_comm] using hce)

/-- A task may put down what it has in hand and turn to a sound claim that
involves no custody. -/
theorem putDown (h : Inv limits L) {t : ℕ} {k : Claim} (hk : k.custody = none)
    (hs : k.Sound limits (L.become t k)) : Inv limits (L.become t k) where
  known := by
    intro d p hp
    obtain ⟨_, hd⟩ | hd := at_become_cases hp
    · simp [hk] at hd
    · exact h.known d p hd
  known_killed := h.known_killed
  single := by
    intro d p q hp hq
    obtain ⟨_, hd⟩ | hp := at_become_cases hp
    · simp [hk] at hd
    obtain ⟨_, hd⟩ | hq := at_become_cases hq
    · simp [hk] at hd
    exact h.single d p q hp hq
  nodup := h.nodup
  alive := by
    intro u d hd
    obtain hd | hd := live_become_cases hd
    · have := Claim.custody_of_live hd
      simp [hk] at this
    · exact h.alive u d hd
  doomed := by
    intro e he hkill
    obtain rfl | he := pending_become_cases he
    · simp [Claim.custody] at hk
    · exact h.doomed e he hkill
  sound := h.sound_become hs (fun u n image raws _ e _ _ hce => by simp [hk] at hce)

/-- A container nobody lets live may be killed if every pending entry for it is
expired already. -/
theorem kill (h : Inv limits L) {c : String} (hc : c ∈ L.started)
    (hlive : ∀ t, (L.claims t).live ≠ some c)
    (hpend : ∀ e, Pending L e → e.containerId = c → expired limits L.now e = true) :
    Inv limits (L.kill c) where
  known := h.known
  known_killed := by
    intro d hd
    obtain rfl | hd := List.mem_cons.mp hd
    · exact hc
    · exact h.known_killed d hd
  single := h.single
  nodup := h.nodup
  alive := by
    intro t d hd hkill
    obtain rfl | hkill := List.mem_cons.mp hkill
    · exact hlive t hd
    · exact h.alive t d hd hkill
  doomed := by
    intro e he hkill
    obtain hid | hkill := List.mem_cons.mp hkill
    · exact hpend e he hid
    · exact h.doomed e he hkill
  sound := fun t => (h.sound t).mono le_rfl (fun _ hd => hd) (fun _ _ _ _ _ _ _ hcd => hcd)

theorem killMany (h : Inv limits L) {cs : List String}
    (hcs : ∀ c ∈ cs, c ∈ L.started ∧ (∀ t, (L.claims t).live ≠ some c) ∧
      ∀ e, Pending L e → e.containerId = c → expired limits L.now e = true) :
    Inv limits (L.killMany cs) := by
  induction cs generalizing L with
  | nil => exact h
  | cons c cs ih =>
    obtain ⟨hc, hlive, hpend⟩ := hcs c (by simp)
    exact ih (h.kill hc hlive hpend) (fun d hd => hcs d (by simp [hd]))

/-- A list may be replaced by some of its entries. -/
theorem shrink (h : Inv limits L) {image : String} {entries : List Entry}
    (hsub : ∀ e ∈ entries, e ∈ L.pool image) (hnd : (ids entries).Nodup) :
    Inv limits (L.setPool image entries) := by
  have hmem : ∀ {image' : String} {e : Entry}, e ∈ (L.setPool image entries).pool image' →
      e ∈ L.pool image' := by
    intro image' e he
    by_cases hi : image' = image
    · subst image'
      exact hsub e (by simpa [Ledger.setPool] using he)
    · simpa [Ledger.setPool, hi] using he
  have hat : ∀ {c : String} {p : Place}, At (L.setPool image entries) c p → At L c p := by
    intro c p hp
    cases p with
    | pool image' =>
      obtain ⟨e, he, hid⟩ := hp
      exact ⟨e, hmem he, hid⟩
    | task t => exact hp
  have hpend : ∀ {e : Entry}, Pending (L.setPool image entries) e → Pending L e := by
    rintro e (⟨image', he⟩ | ht)
    · exact .inl ⟨image', hmem he⟩
    · exact .inr ht
  exact {
    known := fun c p hp => h.known c p (hat hp)
    known_killed := h.known_killed
    single := fun c p q hp hq => h.single c p q (hat hp) (hat hq)
    nodup := by
      intro image'
      by_cases hi : image' = image
      · subst image'
        simpa [Ledger.setPool] using hnd
      · simpa [Ledger.setPool, hi] using h.nodup image'
    alive := h.alive
    doomed := fun e he hk => h.doomed e (hpend he) hk
    sound := fun t => (h.sound t).mono le_rfl (fun _ hc => hc)
      fun _ _ _ _ e _ _ hcd => ⟨hcd.1, fun e' he' hid => hcd.2 e' (hpend he') hid⟩ }

/-- A container without custodian may be pushed, if it is neither killed nor
about to be killed by a reaper. -/
theorem deposit (h : Inv limits L) {image : String} {e : Entry}
    (hc : e.containerId ∈ L.started) (hfree : ∀ p, ¬ At L e.containerId p)
    (hkill : e.containerId ∉ L.killed)
    (hcond : ∀ u n image raws, L.claims u = .view n image raws → ∀ e' ∈ raws,
      expired limits n e' = true → e'.containerId ≠ e.containerId) :
    Inv limits (L.deposit image e) where
  known := by
    intro c p hp
    obtain ⟨_, rfl⟩ | hp := at_deposit_cases hp
    · exact hc
    · exact h.known c p hp
  known_killed := h.known_killed
  single := by
    intro c p q hp hq
    obtain ⟨rfl, rfl⟩ | hp := at_deposit_cases hp <;>
      obtain ⟨rfl, hd⟩ | hq := at_deposit_cases hq
    · rfl
    · exact (hfree q hq).elim
    · exact (hfree p (hd ▸ hp)).elim
    · exact h.single c p q hp hq
  nodup := by
    intro image'
    by_cases hi : image' = image
    · subst image'
      have hnew : e.containerId ∉ ids (L.pool image) := by
        intro hin
        obtain ⟨e', he', hid⟩ := List.mem_map.mp hin
        exact hfree (.pool image) ⟨e', he', hid⟩
      have hall : (ids (e :: L.pool image)).Nodup := List.nodup_cons.mpr ⟨hnew, h.nodup image⟩
      simpa [Ledger.deposit, Ledger.setPool] using hall
    · simpa [Ledger.deposit, Ledger.setPool, hi] using h.nodup image'
  alive := h.alive
  doomed := by
    intro e' he' hk
    obtain rfl | he' := pending_deposit_cases he'
    · exact (hkill hk).elim
    · exact h.doomed e' he' hk
  sound := by
    intro t
    refine (h.sound t).mono le_rfl (fun _ hd => hd) ?_
    intro n image' raws hv e' he' hexp hcd
    refine ⟨hcd.1, fun e'' he'' hid => ?_⟩
    obtain rfl | he'' := pending_deposit_cases he''
    · exact (hcond t n image' raws hv e' he' hexp hid.symm).elim
    · exact hcd.2 e'' he'' hid

theorem start (h : Inv limits L) (c : String) : Inv limits (L.start c) where
  known := fun d p hp => List.mem_cons_of_mem _ (h.known d p hp)
  known_killed := fun d hd => List.mem_cons_of_mem _ (h.known_killed d hd)
  single := h.single
  nodup := h.nodup
  alive := h.alive
  doomed := h.doomed
  sound := fun t => (h.sound t).mono le_rfl (fun _ hd => List.mem_cons_of_mem _ hd)
    (fun _ _ _ _ _ _ _ hcd => hcd)

theorem tick (h : Inv limits L) (d : ℕ) : Inv limits { L with now := L.now + d } where
  known := h.known
  known_killed := h.known_killed
  single := h.single
  nodup := h.nodup
  alive := h.alive
  doomed := fun e he hk => expired_mono (by simp) (h.doomed e he hk)
  sound := fun t => (h.sound t).mono (by simp) (fun _ hc => hc) (fun _ _ _ _ _ _ _ hcd => hcd)

/-- After a task has put down a container, the container has no custodian. -/
theorem free_of_putDown (h : Inv limits L) {t : ℕ} {c : String}
    (ht : (L.claims t).custody = some c) (p : Place) : ¬ At (L.become t .none) c p := by
  intro hp
  cases p with
  | pool image =>
    have := h.single c (.task t) (.pool image) ht hp
    simp at this
  | task u =>
    by_cases hu : u = t
    · subst u
      simp [At, Claim.custody] at hp
    · have hpu : At L c (.task u) := by simpa [At, claims_become_of_ne hu] using hp
      exact hu (by simpa [eq_comm] using h.single c (.task t) (.task u) ht hpu)

end Inv

/-- Scheduling kills touches nothing but the kills and what is owed. -/
theorem killMany_frame (L : Ledger) (cs : List String) :
    (L.killMany cs).now = L.now ∧ (L.killMany cs).pool = L.pool ∧
      (L.killMany cs).claims = L.claims := by
  induction cs generalizing L with
  | nil => exact ⟨rfl, rfl, rfl⟩
  | cons c cs ih => exact ih (L.kill c)

theorem killMany_now (L : Ledger) (cs : List String) : (L.killMany cs).now = L.now :=
  (killMany_frame L cs).1

theorem become_become (L : Ledger) (t : ℕ) (k k' : Claim) :
    (L.become t k).become t k' = L.become t k' := by
  simp [Ledger.become]

theorem claims_of_putDown {L : Ledger} {t u : ℕ} {k : Claim}
    (h : (L.become t .none).claims u = k) (hk : k ≠ .none) : L.claims u = k := by
  by_cases hu : u = t
  · subst u
    exact (hk (by simpa using h.symm)).elim
  · rwa [claims_become_of_ne hu] at h

namespace Inv

variable {limits : Limits} {L : Ledger}

theorem condemned (h : Inv limits L) {t : ℕ} {n : ℤ} {image : String} {raws : List Entry}
    (ht : L.claims t = .view n image raws) {e : Entry} (he : e ∈ raws)
    (hexp : expired limits n e = true) : Condemned L e ∧ expired limits L.now e = true := by
  have hs := h.sound t
  rw [ht] at hs
  exact ⟨(hs.2.2 e he).2 hexp, expired_mono hs.1 hexp⟩

/-- The last entry of a list leaves it: no custodian of its container remains. -/
theorem free_of_pop (h : Inv limits L) {image : String} {e : Entry}
    (he : (L.pool image).getLast? = some e) (p : Place) :
    ¬ At (L.setPool image (L.pool image).dropLast) e.containerId p := by
  have hsplit : (L.pool image).dropLast ++ [e] = L.pool image :=
    List.dropLast_append_getLast? e he
  have hat : At L e.containerId (.pool image) := ⟨e, by rw [← hsplit]; simp, rfl⟩
  intro hp
  cases p with
  | task u =>
    have := h.single e.containerId (.pool image) (.task u) hat hp
    simp at this
  | pool image' =>
    obtain ⟨e', he', hid⟩ := hp
    by_cases hi : image' = image
    · subst image'
      have hnd := h.nodup image
      rw [← hsplit, ids, List.map_append, List.nodup_append] at hnd
      refine hnd.2.2 e'.containerId ?_ e.containerId (by simp) hid
      exact List.mem_map_of_mem (by simpa [Ledger.setPool] using he')
    · have hat' : At L e.containerId (.pool image') :=
        ⟨e', by simpa [Ledger.setPool, hi] using he', hid⟩
      have := h.single e.containerId (.pool image) (.pool image') hat hat'
      exact hi (by simpa [eq_comm] using this)

theorem pop (h : Inv limits L) {t : ℕ} {image : String} {e : Entry}
    (he : (L.pool image).getLast? = some e) :
    Inv limits ((L.setPool image (L.pool image).dropLast).become t (.popped e)) := by
  have hpend : Pending L e := .inl ⟨image, List.mem_of_getLast? he⟩
  have hsub : ∀ e' ∈ (L.pool image).dropLast, e' ∈ L.pool image :=
    fun e' he' => List.dropLast_subset _ he'
  have hnd : (ids (L.pool image).dropLast).Nodup :=
    ((List.dropLast_sublist _).map _).nodup (h.nodup image)
  obtain ⟨p, hp⟩ := hpend.exists_at
  refine (h.shrink hsub hnd).take (c := e.containerId) rfl (h.known _ p hp) (h.free_of_pop he)
    (by simp [Claim.live]) ?_ ?_
  · rintro e' he' hk
    obtain rfl : e = e' := by simpa using he'
    exact h.doomed e hpend hk
  · intro u n image' raws hu e' he' hexp hid
    rw [(h.condemned hu he' hexp).1.2 e hpend hid.symm]

/-- A popped entry that passes the age test is not condemned: the reaper that
condemned it would have read an earlier time. -/
theorem pass (h : Inv limits L) {t : ℕ} {e : Entry} (ht : L.claims t = .popped e)
    (he : expired limits L.now e = false) :
    Inv limits (L.become t (.checked e.containerId)) := by
  have hc : (L.claims t).custody = some e.containerId := by simp [ht, Claim.custody]
  have hpend : Pending L e := .inr ⟨t, ht⟩
  have hput := h.putDown (t := t) (k := .none) rfl trivial
  rw [← become_become L t .none]
  refine hput.take rfl (h.known _ (.task t) hc) (h.free_of_putDown hc) ?_ (by simp) ?_
  · intro _ hk
    simp [h.doomed e hpend hk] at he
  · intro u n image raws hu e' he' hexp hid
    obtain ⟨hcd, hnow⟩ := h.condemned (claims_of_putDown hu (by simp)) he' hexp
    rw [hcd.2 e hpend hid.symm, hnow] at he
    exact absurd he (by simp)

/-- A task that lets its container live goes on with it. -/
theorem keep (h : Inv limits L) {t : ℕ} {c : String} (ht : (L.claims t).live = some c) :
    Inv limits (L.become t (.held c)) := by
  have hc := Claim.custody_of_live ht
  have hput := h.putDown (t := t) (k := .none) rfl trivial
  rw [← become_become L t .none]
  refine hput.take rfl (h.known _ (.task t) hc) (h.free_of_putDown hc)
    (fun _ => h.alive t c ht) (by simp) ?_
  intro u n image raws hu e he hexp hid
  obtain ⟨hcd, _⟩ := h.condemned (claims_of_putDown hu (by simp)) he hexp
  exact (hcd.1 t (by rw [hid]; exact ht)).elim

theorem settle (h : Inv limits L) (c : String) : Inv limits (L.settle c) where
  known := h.known
  known_killed := h.known_killed
  single := h.single
  nodup := h.nodup
  alive := h.alive
  doomed := h.doomed
  sound := fun t => (h.sound t).mono le_rfl (fun _ hd => hd) (fun _ _ _ _ _ _ _ hcd => hcd)

/-- Giving a container up and scheduling its kill. -/
theorem discard (h : Inv limits L) {t : ℕ} {c : String} (ht : (L.claims t).custody = some c) :
    Inv limits ((L.kill c).become t .none) := by
  have hput := h.putDown (t := t) (k := .none) rfl trivial
  have hfree := h.free_of_putDown ht
  change Inv limits ((L.become t .none).kill c)
  refine hput.kill (h.known c (.task t) ht) ?_ ?_
  · intro u hu
    exact hfree (.task u) (Claim.custody_of_live hu)
  · rintro e he rfl
    obtain ⟨p, hp⟩ := he.exists_at
    exact (hfree p hp).elim

theorem push (h : Inv limits L) {t : ℕ} {image : String} {e : Entry}
    (ht : L.claims t = .held e.containerId) :
    Inv limits ((L.deposit image e).become t .none) := by
  have hlive : (L.claims t).live = some e.containerId := by simp [ht, Claim.live]
  have hput := h.putDown (t := t) (k := .none) rfl trivial
  change Inv limits ((L.become t .none).deposit image e)
  refine hput.deposit (h.known _ (.task t) (Claim.custody_of_live hlive))
    (h.free_of_putDown (Claim.custody_of_live hlive)) (h.alive t _ hlive) ?_
  intro u n image' raws hu e' he' hexp hid
  obtain ⟨hcd, _⟩ := h.condemned (claims_of_putDown hu (by simp)) he' hexp
  exact hcd.1 t (by rw [hid]; exact hlive)

/-- A fresh snapshot. An entry in it that is expired for the reaper is in a list,
so no task has its container, and the list has no second entry for it. -/
theorem look (h : Inv limits L) {t : ℕ} {n : ℤ} (image : String) (ht : L.claims t = .scan n) :
    Inv limits (L.become t (.view n image (L.pool image))) := by
  have hn : n ≤ L.now := by
    have hs := h.sound t
    rwa [ht] at hs
  refine h.putDown rfl ⟨hn, h.nodup image, fun e he => ?_⟩
  have hat : At L e.containerId (.pool image) := ⟨e, he, rfl⟩
  refine ⟨h.known _ _ hat, fun _ => Condemned.become ⟨?_, ?_⟩ (by simp [Claim.custody])⟩
  · intro u hu
    have := h.single _ _ (.task u) hat (Claim.custody_of_live hu)
    simp at this
  · rintro e' (⟨image', he'⟩ | ⟨u, hu⟩) hid
    · have hsame := h.single _ _ (.pool image') hat ⟨e', he', hid⟩
      obtain rfl : image = image' := by simpa using hsame
      exact List.inj_on_of_nodup_map (h.nodup image) he' he hid
    · have := h.single _ _ (.task u) hat (by simp [At, hu, Claim.custody, hid])
      simp at this

theorem sift (h : Inv limits L) {t : ℕ} {n : ℤ} {image : String} {raws : List Entry}
    (ht : L.claims t = .view n image raws) :
    Inv limits ((L.killMany (ids (raws.filter (expired limits n)))).become t
      (.plan n image raws (raws.filter fun e => !expired limits n e))) := by
  have hs := h.sound t
  rw [ht] at hs
  obtain ⟨hn, hnd, hraws⟩ := hs
  have hkill : Inv limits (L.killMany (ids (raws.filter (expired limits n)))) := by
    refine h.killMany fun c hc => ?_
    obtain ⟨e, he, rfl⟩ := List.mem_map.mp hc
    obtain ⟨he, hexp⟩ := List.mem_filter.mp he
    obtain ⟨hcd, hnow⟩ := h.condemned ht he hexp
    exact ⟨(hraws e he).1, hcd.1, fun e' he' hid => by rw [hcd.2 e' he' hid]; exact hnow⟩
  refine hkill.putDown rfl ⟨?_, ((List.filter_sublist).map _).nodup hnd⟩
  change n ≤ (L.killMany _).now
  rwa [killMany_now]

end Inv

/-- The condition on a rebuild under which custody stays exclusive: every entry
the reaper writes back is still in the list, so that none of them has been
popped or evicted since the snapshot. -/
def WritesBackPresent (L : Ledger) (t : ℕ) : Prop :=
  ∀ n image raws keep, L.claims t = .plan n image raws keep → ∀ e ∈ keep, e ∈ L.pool image

theorem inv_step {limits : Limits} {L L' : Ledger} {l : Option ℕ} (h : Inv limits L)
    (hstep : Step limits L l L') (hl : ∀ t, l = some t → WritesBackPresent L t) :
    Inv limits L' := by
  cases hstep with
  | skip => exact h
  | tick d => exact h.tick d
  | pop ht he => exact h.pop he
  | pass ht he => exact h.pass ht he
  | discard ht => exact h.discard ht
  | hand ht => exact (h.settle _).keep (by simp [Ledger.settle, ht, Claim.live])
  | @start t c ht hc =>
    refine (h.start c).take rfl (by simp [Ledger.start])
      (fun p hp => hc (h.known c p hp)) (fun _ hk => hc (h.known_killed c hk)) (by simp) ?_
    rintro u n image raws hu e he _ rfl
    have hs := h.sound u
    rw [show L.claims u = _ from hu] at hs
    exact (hc (hs.2.2 e he).1).elim
  | drop ht => exact h.putDown rfl trivial
  | push ht hcap => exact h.push ht
  | reap ht => exact h.putDown rfl le_rfl
  | stop ht => exact h.putDown rfl trivial
  | look image ht => exact h.look image ht
  | sift ht => exact h.sift ht
  | @rebuild t n image raws keep ht =>
    have hs := h.sound t
    rw [ht] at hs
    have hshrink := h.shrink (hl t rfl n image raws keep ht) hs.2
    exact hshrink.putDown rfl hs.1

/-- The container an `acquire` has popped and not decided about. -/
def Claim.deciding : Claim → Option String
  | .popped e => some e.containerId
  | .checked c => some c
  | _ => Option.none

theorem Claim.custody_of_deciding {k : Claim} {c : String} (h : k.deciding = some c) :
    k.custody = some c := by
  cases k <;> simp_all [Claim.deciding, Claim.custody]

/-- What is owed is in its list or being decided about; a container scheduled for
a kill is not owed; and a reaper has scheduled a kill for every entry of its
snapshot that it does not write back. -/
structure Kept (L : Ledger) : Prop where
  present : ∀ c image, L.owed c = some image →
    (∃ t, (L.claims t).deciding = some c) ∨ c ∈ ids (L.pool image)
  settled : ∀ c ∈ L.killed, L.owed c = none
  covered : ∀ t n image raws keep, L.claims t = .plan n image raws keep →
    ∀ e ∈ raws, e ∈ keep ∨ e.containerId ∈ L.killed

/-- The condition on a rebuild under which no entry is lost: in addition, every
entry now in the list was in the snapshot, so that nothing has been pushed since. -/
def SnapshotCurrent (L : Ledger) (t : ℕ) : Prop :=
  WritesBackPresent L t ∧
    ∀ n image raws keep, L.claims t = .plan n image raws keep → ∀ e ∈ L.pool image, e ∈ raws

namespace Kept

variable {L : Ledger}

theorem covered_become (h : Kept L) {t : ℕ} {k : Claim}
    (hk : ∀ n image raws keep, k = .plan n image raws keep →
      ∀ e ∈ raws, e ∈ keep ∨ e.containerId ∈ L.killed) :
    ∀ u n image raws keep, (L.become t k).claims u = .plan n image raws keep →
      ∀ e ∈ raws, e ∈ keep ∨ e.containerId ∈ L.killed := by
  intro u n image raws keep hu
  by_cases hut : u = t
  · subst u
    exact hk n image raws keep (by simpa using hu)
  · exact h.covered u n image raws keep (by rwa [claims_become_of_ne hut] at hu)

/-- A task may change its claim as long as it does not forget a container it is
deciding about. -/
theorem become (h : Kept L) {t : ℕ} {k : Claim}
    (hd : ∀ c, (L.claims t).deciding = some c → k.deciding = some c ∨ L.owed c = none)
    (hk : ∀ n image raws keep, k = .plan n image raws keep →
      ∀ e ∈ raws, e ∈ keep ∨ e.containerId ∈ L.killed) : Kept (L.become t k) where
  present := by
    intro c image hc
    obtain ⟨u, hu⟩ | hin := h.present c image hc
    · by_cases hut : u = t
      · subst u
        obtain hkd | hnone := hd c hu
        · exact .inl ⟨t, by simpa using hkd⟩
        · simp [show L.owed c = some image from hc] at hnone
      · exact .inl ⟨u, by rwa [claims_become_of_ne hut]⟩
    · exact .inr hin
  settled := h.settled
  covered := h.covered_become hk

theorem settle (h : Kept L) (c : String) : Kept (L.settle c) where
  present := by
    intro d image hd
    by_cases hdc : d = c
    · subst d
      simp [Ledger.settle] at hd
    · exact h.present d image (by simpa [Ledger.settle, hdc] using hd)
  settled := by
    intro d hd
    by_cases hdc : d = c
    · subst d
      simp [Ledger.settle]
    · simpa [Ledger.settle, hdc] using h.settled d hd
  covered := h.covered

theorem kill (h : Kept L) (c : String) : Kept (L.kill c) where
  present := (h.settle c).present
  settled := by
    intro d hd
    obtain rfl | hd := List.mem_cons.mp hd
    · simp [Ledger.kill, Ledger.settle]
    · exact (h.settle c).settled d hd
  covered := fun t n image raws keep ht e he =>
    (h.covered t n image raws keep ht e he).imp id (List.mem_cons_of_mem _)

theorem killMany (h : Kept L) (cs : List String) : Kept (L.killMany cs) := by
  induction cs generalizing L with
  | nil => exact h
  | cons c cs ih => exact ih (h.kill c)

/-- The popped container is now being decided about. -/
theorem pop (h : Kept L) {t : ℕ} {image : String} {e : Entry} (ht : L.claims t = .none)
    (he : (L.pool image).getLast? = some e) :
    Kept ((L.setPool image (L.pool image).dropLast).become t (.popped e)) where
  present := by
    intro c image' hc
    obtain ⟨u, hu⟩ | hin := h.present c image' hc
    · have hut : u ≠ t := by
        rintro rfl
        simp [ht, Claim.deciding] at hu
      exact .inl ⟨u, by rw [claims_become_of_ne hut]; exact hu⟩
    by_cases hce : c = e.containerId
    · exact .inl ⟨t, by simp [Claim.deciding, hce]⟩
    refine .inr ?_
    by_cases hi : image' = image
    · subst image'
      rw [← List.dropLast_append_getLast? e he] at hin
      simpa [ids, Ledger.become, Ledger.setPool, hce, eq_comm] using hin
    · simpa [Ledger.become, Ledger.setPool, hi] using hin
  settled := h.settled
  covered := h.covered_become (by simp)

theorem push (h : Kept L) {t : ℕ} {image : String} {e : Entry}
    (ht : L.claims t = .held e.containerId) (hk : e.containerId ∉ L.killed) :
    Kept ((L.deposit image e).become t .none) where
  present := by
    intro c image' hc
    by_cases hce : c = e.containerId
    · subst c
      obtain rfl : image = image' := by
        simpa [Ledger.become, Ledger.deposit, Ledger.setPool] using hc
      exact .inr (by simp [ids, Ledger.become, Ledger.deposit, Ledger.setPool])
    · have hold : L.owed c = some image' := by
        simpa [Ledger.become, Ledger.deposit, Ledger.setPool, hce] using hc
      obtain ⟨u, hu⟩ | hin := h.present c image' hold
      · have hut : u ≠ t := by
          rintro rfl
          simp [ht, Claim.deciding] at hu
        exact .inl ⟨u, by rw [claims_become_of_ne hut]; exact hu⟩
      · refine .inr ?_
        by_cases hi : image' = image
        · subst image'
          simpa [ids, Ledger.become, Ledger.deposit, Ledger.setPool] using .inr (by simpa using hin)
        · simpa [Ledger.become, Ledger.deposit, Ledger.setPool, hi] using hin
  settled := by
    intro c hc
    have hce : c ≠ e.containerId := fun h => hk (h ▸ hc)
    simpa [Ledger.become, Ledger.deposit, Ledger.setPool, hce] using h.settled c hc
  covered := h.covered_become (by simp)

/-- The rebuild drops only entries for which a kill has been scheduled. -/
theorem rebuild (h : Kept L) {t : ℕ} {n : ℤ} {image : String} {raws keep : List Entry}
    (ht : L.claims t = .plan n image raws keep) (hcur : ∀ e ∈ L.pool image, e ∈ raws) :
    Kept ((L.setPool image keep).become t (.scan n)) where
  present := by
    intro c image' hc
    obtain ⟨u, hu⟩ | hin := h.present c image' hc
    · have hut : u ≠ t := by
        rintro rfl
        simp [ht, Claim.deciding] at hu
      exact .inl ⟨u, by rw [claims_become_of_ne hut]; exact hu⟩
    refine .inr ?_
    by_cases hi : image' = image
    · subst image'
      obtain ⟨e, he, rfl⟩ := List.mem_map.mp hin
      obtain hkeep | hkill := h.covered t n image raws keep ht e (hcur e he)
      · have hnew : e.containerId ∈ ids keep := List.mem_map_of_mem hkeep
        simpa [Ledger.become, Ledger.setPool] using hnew
      · have hnone := h.settled _ hkill
        simp [show L.owed e.containerId = some image from hc] at hnone
    · simpa [Ledger.become, Ledger.setPool, hi] using hin
  settled := h.settled
  covered := h.covered_become (by simp)

end Kept

theorem mem_killed_killMany {L : Ledger} {cs : List String} {c : String} :
    c ∈ (L.killMany cs).killed ↔ c ∈ cs ∨ c ∈ L.killed := by
  induction cs generalizing L with
  | nil => simp [Ledger.killMany]
  | cons d cs ih =>
    have hrec : c ∈ ((L.kill d).killMany cs).killed ↔ c ∈ cs ∨ c ∈ (L.kill d).killed := ih
    have hd : c ∈ (L.kill d).killed ↔ c = d ∨ c ∈ L.killed := List.mem_cons
    change c ∈ ((L.kill d).killMany cs).killed ↔ _
    rw [hrec, hd, List.mem_cons]
    tauto

theorem kept_step {limits : Limits} {L L' : Ledger} {l : Option ℕ} (hi : Inv limits L)
    (h : Kept L) (hstep : Step limits L l L') (hl : ∀ t, l = some t → SnapshotCurrent L t) :
    Kept L' := by
  cases hstep with
  | skip => exact h
  | tick d => exact ⟨h.present, h.settled, h.covered⟩
  | pop ht he => exact h.pop ht he
  | pass ht he => exact h.become (by simp [ht, Claim.deciding]) (by simp)
  | @discard t c ht =>
    refine (h.kill c).become ?_ (by simp)
    intro d hd
    have hcustody : (L.claims t).custody = some d := Claim.custody_of_deciding hd
    obtain rfl : c = d := by simpa [ht] using hcustody
    exact .inr (by simp [Ledger.kill, Ledger.settle])
  | @hand t c ht =>
    refine (h.settle c).become ?_ (by simp)
    intro d hd
    obtain rfl : c = d := by simpa [Ledger.settle, ht, Claim.deciding] using hd
    exact .inr (by simp [Ledger.settle])
  | @start t c ht hc =>
    have hst : Kept (L.start c) := ⟨h.present, h.settled, h.covered⟩
    exact hst.become (by simp [Ledger.start, ht, Claim.deciding]) (by simp)
  | drop ht => exact h.become (by simp [ht, Claim.deciding]) (by simp)
  | @push t image e ht hcap =>
    exact h.push ht (hi.alive t _ (by simp [ht, Claim.live]))
  | reap ht => exact h.become (by simp [ht, Claim.deciding]) (by simp)
  | stop ht => exact h.become (by simp [ht, Claim.deciding]) (by simp)
  | look image ht => exact h.become (by simp [ht, Claim.deciding]) (by simp)
  | @sift t n image raws ht =>
    refine (h.killMany _).become ?_ ?_
    · rw [(killMany_frame _ _).2.2]
      simp [ht, Claim.deciding]
    · intro n' image' raws' keep' hplan e he
      obtain ⟨rfl, rfl, rfl, rfl⟩ := Claim.plan.inj hplan
      by_cases hexp : expired limits n e = true
      · refine .inr (mem_killed_killMany.mpr (.inl ?_))
        exact List.mem_map_of_mem (List.mem_filter.mpr ⟨he, hexp⟩)
      · exact .inl (List.mem_filter.mpr ⟨he, by simpa using hexp⟩)
  | @rebuild t n image raws keep ht =>
    exact h.rebuild ht ((hl t rfl).2 n image raws keep ht)

/-- The entries that a task may still write into a list. -/
def Claim.entries : Claim → List Entry
  | .view _ _ raws => raws
  | .plan _ _ _ keep => keep
  | _ => []

/-- Neither a list nor what a reaper has read of one is longer than the cap. A list
can therefore be overwritten from any snapshot, however old. -/
structure Bounded (limits : Limits) (L : Ledger) : Prop where
  pool : ∀ image, ((L.pool image).length : ℤ) ≤ limits.maxPerImage
  claims : ∀ t, ((L.claims t).entries.length : ℤ) ≤ limits.maxPerImage

namespace Bounded

variable {limits : Limits} {L : Ledger}

theorem become (h : Bounded limits L) (t : ℕ) {k : Claim}
    (hk : (k.entries.length : ℤ) ≤ limits.maxPerImage) : Bounded limits (L.become t k) where
  pool := h.pool
  claims := by
    intro u
    by_cases hu : u = t
    · subst u
      simpa using hk
    · rw [claims_become_of_ne hu]
      exact h.claims u

/-- A task that takes nothing in hand to write back. -/
theorem becomeEmpty (h : Bounded limits L) (t : ℕ) {k : Claim} (hk : k.entries = []) :
    Bounded limits (L.become t k) := by
  have hcap : (0 : ℤ) ≤ limits.maxPerImage := (Int.natCast_nonneg _).trans (h.pool "")
  exact h.become t (by simpa [hk] using hcap)

theorem setPool (h : Bounded limits L) {image : String} {entries : List Entry}
    (hlen : (entries.length : ℤ) ≤ limits.maxPerImage) :
    Bounded limits (L.setPool image entries) where
  pool := by
    intro image'
    by_cases hi : image' = image
    · subst image'
      simpa [Ledger.setPool] using hlen
    · simpa [Ledger.setPool, hi] using h.pool image'
  claims := h.claims

end Bounded

/-- Every step keeps the bound; the rebuild needs no condition, since the snapshot
was bounded when it was taken and sifting does not make it longer. -/
theorem bounded_step {limits : Limits} {L L' : Ledger} {l : Option ℕ} (h : Bounded limits L)
    (hstep : Step limits L l L') : Bounded limits L' := by
  cases hstep with
  | skip => exact h
  | tick d => exact ⟨h.pool, h.claims⟩
  | @pop t image e ht he =>
    have hlen : (((L.pool image).dropLast.length : ℕ) : ℤ) ≤ limits.maxPerImage := by
      have := h.pool image
      rw [List.length_dropLast]
      omega
    exact (h.setPool hlen).becomeEmpty t rfl
  | pass ht he => exact h.becomeEmpty _ rfl
  | @discard t c ht =>
    have hkill : Bounded limits (L.kill c) := ⟨h.pool, h.claims⟩
    exact hkill.becomeEmpty t rfl
  | @hand t c ht =>
    have hsettle : Bounded limits (L.settle c) := ⟨h.pool, h.claims⟩
    exact hsettle.becomeEmpty t rfl
  | @start t c ht hc =>
    have hstart : Bounded limits (L.start c) := ⟨h.pool, h.claims⟩
    exact hstart.becomeEmpty t rfl
  | drop ht => exact h.becomeEmpty _ rfl
  | @push t image e ht hcap =>
    have hlen : (((e :: L.pool image).length : ℕ) : ℤ) ≤ limits.maxPerImage := by
      rw [List.length_cons]
      push_cast
      omega
    have hset : Bounded limits (L.setPool image (e :: L.pool image)) := h.setPool hlen
    have hdeposit : Bounded limits (L.deposit image e) := ⟨hset.pool, hset.claims⟩
    exact hdeposit.becomeEmpty t rfl
  | reap ht => exact h.becomeEmpty _ rfl
  | stop ht => exact h.becomeEmpty _ rfl
  | look image ht => exact h.become _ (h.pool image)
  | @sift t n image raws ht =>
    have hraws : (raws.length : ℤ) ≤ limits.maxPerImage := by
      have := h.claims t
      simpa [ht, Claim.entries] using this
    obtain ⟨hnow, hpool, hclaims⟩ :=
      killMany_frame L ((raws.filter (expired limits n)).map fun e => e.containerId)
    have hkilled : Bounded limits
        (L.killMany ((raws.filter (expired limits n)).map fun e => e.containerId)) :=
      ⟨by rw [hpool]; exact h.pool, by rw [hclaims]; exact h.claims⟩
    refine hkilled.become t ?_
    have hle := List.length_filter_le (fun e => !expired limits n e) raws
    simp only [Claim.entries]
    omega
  | @rebuild t n image raws keep ht =>
    have hkeep : (keep.length : ℤ) ≤ limits.maxPerImage := by
      have := h.claims t
      simpa [ht, Claim.entries] using this
    exact (h.setPool hkeep).becomeEmpty t rfl

end ExecutionEngine.PoolLedger
