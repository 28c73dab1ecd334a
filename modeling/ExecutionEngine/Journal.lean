import ExecutionEngine.Effect

/-!
# Computations that keep a journal

A triple says what holds of the outcome and of the final state of a computation,
whether it returns or raises. A journal is a list in the state to which a command
adds one entry: what it was asked and how it ended.

An account reads a journal as gains and settlements of resources. Some entries are
faults. The books of a journal are balanced when everything gained is settled, in
hand, or lost, and something is lost exactly when there was a fault.
-/
namespace ExecutionEngine.Effect.Comp

variable {ε σ τ κ α β : Type}

/-- From a state with `P`, the computation ends with `Q`. -/
def Triple (P : σ → Prop) (x : Comp ε σ α) (Q : Except ε α → σ → Prop) : Prop :=
  ∀ s, P s → Q (x s).1 (x s).2

/-- The computation keeps `I`, whether it returns or raises. -/
def Keeps (I : σ → Prop) (x : Comp ε σ α) : Prop := Triple I x fun _ => I

/-- A function of the value leaves the state as it is. -/
theorem map_state (f : α → β) (x : Comp ε σ α) (s : σ) : ((f <$> x) s).2 = (x s).2 := by
  change ((x >>= fun a => pure (f a)) s).2 = (x s).2
  rw [bind_apply]
  rcases x s with ⟨e | a, s'⟩
  · rfl
  · rfl

section
variable {P : σ → Prop} {I : σ → Prop} {x : Comp ε σ α}

theorem triple_mono {P' : σ → Prop} {Q Q' : Except ε α → σ → Prop} (hx : Triple P x Q)
    (hP : ∀ s, P' s → P s) (hQ : ∀ r s, Q r s → Q' r s) : Triple P' x Q' := by
  intro s hs
  exact hQ _ _ (hx s (hP s hs))

theorem triple_bind {f : α → Comp ε σ β} {R : Except ε α → σ → Prop}
    {Q : Except ε β → σ → Prop} (hx : Triple P x R) (hf : ∀ a, Triple (R (.ok a)) (f a) Q)
    (he : ∀ e s, R (.error e) s → Q (.error e) s) : Triple P (x >>= f) Q := by
  intro s hs
  have hr := hx s hs
  rw [bind_apply]
  rcases h : x s with ⟨e | a, s'⟩
  · rw [h] at hr
    exact he e s' hr
  · rw [h] at hr
    exact hf a s' hr

theorem triple_read_bind {g : σ → α} {f : α → Comp ε σ β} {Q : Except ε β → σ → Prop}
    (hf : ∀ a, Triple P (f a) Q) : Triple P (read g >>= f) Q := fun s hs => hf (g s) s hs

theorem triple_update_bind {g : σ → σ} {f : Unit → Comp ε σ β} {R : σ → Prop}
    {Q : Except ε β → σ → Prop} (hg : ∀ s, P s → R (g s)) (hf : Triple R (f ()) Q) :
    Triple P (update g >>= f) Q := fun s hs => hf (g s) (hg s hs)

theorem triple_lift_bind {r : Except ε α} {f : α → Comp ε σ β} {Q : Except ε β → σ → Prop}
    (hf : ∀ a, Triple P (f a) Q) (he : ∀ e s, P s → Q (.error e) s) :
    Triple P (lift r >>= f) Q := by
  intro s hs
  cases r with
  | ok a => exact hf a s hs
  | error e => exact he e s hs

/-- The second computation runs in any case. -/
theorem triple_finallyDo {fin : Comp ε σ Unit} {R : Except ε α → σ → Prop}
    {Q : Except ε α → σ → Prop} (hx : Triple P x R)
    (hfin : ∀ r, Triple (R r) fin fun r' s => (∀ e, r' = .error e → Q (.error e) s) ∧
      (r' = .ok () → Q r s)) : Triple P (x.finallyDo fin) Q := by
  intro s hs
  have hr := hfin (x s).1 (x s).2 (hx s hs)
  rw [finallyDo_apply]
  rcases h : fin (x s).2 with ⟨e | u, s'⟩
  · rw [h] at hr
    exact hr.1 e rfl
  · rw [h] at hr
    exact hr.2 rfl

theorem keeps_pure (a : α) : Keeps I (pure a : Comp ε σ α) := fun _ hs => hs

theorem keeps_raise (e : ε) : Keeps I (raise e : Comp ε σ α) := fun _ hs => hs

theorem keeps_lift (r : Except ε α) : Keeps I (lift r : Comp ε σ α) := fun _ hs => hs

theorem keeps_read (f : σ → α) : Keeps I (read f : Comp ε σ α) := fun _ hs => hs

theorem triple_attempt (hx : Triple P x fun _ => I) : Triple P x.attempt fun _ => I :=
  fun s hs => hx s hs

/-- The first computation establishes the invariant, what follows keeps it. -/
theorem triple_bind_keeps {f : α → Comp ε σ β} (hx : Triple P x fun _ => I)
    (hf : ∀ a, Keeps I (f a)) : Triple P (x >>= f) fun _ => I :=
  triple_bind hx hf fun _ _ hs => hs

theorem keeps_bind {f : α → Comp ε σ β} (hx : Keeps I x) (hf : ∀ a, Keeps I (f a)) :
    Keeps I (x >>= f) := triple_bind_keeps hx hf

end

/-- The computation beside a journal that it does not write to. -/
def unnoted (x : Comp ε σ α) : Comp ε (σ × List κ) α := fun s =>
  ((x s.1).1, ((x s.1).2, s.2))

/-- The computation with one journal entry for its start and its outcome. -/
def noted (x : Comp ε σ α) (entry : σ → Except ε α → κ) : Comp ε (σ × List κ) α := fun s =>
  ((x s.1).1, ((x s.1).2, s.2 ++ [entry s.1 (x s.1).1]))

/-- A statement about the journal. -/
def Logged (J : List κ → Prop) (t : σ × List κ) : Prop := J t.2

section
variable {J : List κ → Prop} {x : Comp ε σ α}

theorem keeps_unnoted : Keeps (Logged J) (x.unnoted : Comp ε (σ × List κ) α) := fun _ hs => hs

theorem triple_noted {entry : σ → Except ε α → κ} {K : Except ε α → List κ → Prop}
    (h : ∀ s r log, J log → K r (log ++ [entry s r])) :
    Triple (Logged J) (x.noted entry) fun r => Logged (K r) :=
  fun _ hs => h _ _ _ hs

end

end ExecutionEngine.Effect.Comp

namespace ExecutionEngine.Journal

/-- How the entries of a journal are read: the resources that an entry gains, the
ones it settles, the ones it hands back to their owner, and whether it is a fault. -/
structure Account (κ ρ : Type) where
  gained : κ → List ρ
  settled : κ → List ρ
  returned : κ → List ρ
  fault : κ → Bool

namespace Account

variable {κ ρ : Type} [DecidableEq ρ] (A : Account κ ρ)

def Faultless (log : List κ) : Prop := ∀ k ∈ log, A.fault k = false

/-- Everything gained is settled, in hand or lost, and there is a loss exactly when
there was a fault. What is pending has been gained more often than handed back. -/
structure Balanced (log : List κ) (held pending : List ρ) : Prop where
  covered : ∃ lost : List ρ,
    (∀ r, (log.flatMap A.gained).count r =
      (log.flatMap A.settled).count r + held.count r + lost.count r) ∧
    (lost = [] ↔ A.Faultless log)
  returned_le : ∀ r, (log.flatMap A.returned).count r + pending.count r ≤
    (log.flatMap A.gained).count r

/-- Something is in hand, or something has been lost. -/
def Standing (log : List κ) (held : List ρ) : Prop :=
  A.Balanced log held held ∧ (held = [] → ¬ A.Faultless log)

variable {A} {log : List κ} {k : κ} {held held' pending pending' : List ρ}

omit [DecidableEq ρ] in
theorem faultless_append : A.Faultless (log ++ [k]) ↔ A.Faultless log ∧ A.fault k = false := by
  simp [Faultless, or_imp, forall_and]

theorem balanced_nil : A.Balanced [] [] [] where
  covered := ⟨[], by simp, by simp [Faultless]⟩
  returned_le := by simp

/-- An entry that is no fault moves resources between gain, hand and settlement. -/
theorem Balanced.move (h : A.Balanced log held pending) (hk : A.fault k = false)
    (hheld : ∀ r, (A.gained k).count r + held.count r = (A.settled k).count r + held'.count r)
    (hpending : ∀ r, (A.returned k).count r + pending'.count r ≤
      (A.gained k).count r + pending.count r) :
    A.Balanced (log ++ [k]) held' pending' := by
  obtain ⟨lost, hlost, hiff⟩ := h.covered
  refine ⟨⟨lost, ?_, ?_⟩, ?_⟩
  · intro r
    have h₁ := hlost r
    have h₂ := hheld r
    simp only [List.flatMap_append, List.flatMap_singleton, List.count_append]
    omega
  · rw [hiff, faultless_append]
    simp [hk]
  · intro r
    have h₁ := h.returned_le r
    have h₂ := hpending r
    simp only [List.flatMap_append, List.flatMap_singleton, List.count_append]
    omega

/-- A fault loses something. -/
theorem Balanced.lose (h : A.Balanced log held pending) (hk : A.fault k = true)
    (lost : List ρ) (hne : lost ≠ [])
    (hheld : ∀ r, (A.gained k).count r + held.count r =
      (A.settled k).count r + held'.count r + lost.count r)
    (hpending : ∀ r, (A.returned k).count r + pending'.count r ≤
      (A.gained k).count r + pending.count r) :
    A.Balanced (log ++ [k]) held' pending' := by
  obtain ⟨before, hbefore, hiff⟩ := h.covered
  refine ⟨⟨before ++ lost, ?_, ?_⟩, ?_⟩
  · intro r
    have h₁ := hbefore r
    have h₂ := hheld r
    simp only [List.flatMap_append, List.flatMap_singleton, List.count_append]
    omega
  · rw [faultless_append]
    simp [hne, hk]
  · intro r
    have h₁ := h.returned_le r
    have h₂ := hpending r
    simp only [List.flatMap_append, List.flatMap_singleton, List.count_append]
    omega

/-- An entry without effect changes nothing. -/
theorem Balanced.quiet (h : A.Balanced log held pending) (hk : A.fault k = false)
    (hgained : A.gained k = []) (hsettled : A.settled k = []) (hreturned : A.returned k = []) :
    A.Balanced (log ++ [k]) held pending :=
  h.move hk (by simp [hgained, hsettled]) (by simp [hgained, hreturned])

/-- A fault loses what it gains and what is in hand. -/
theorem Balanced.loseAll (h : A.Balanced log held pending) (hk : A.fault k = true)
    (hne : held ≠ []) (hsettled : A.settled k = []) (hreturned : A.returned k = []) :
    A.Standing (log ++ [k]) [] := by
  refine ⟨h.lose hk (A.gained k ++ held) (by simp [hne]) ?_ (by simp [hreturned]), ?_⟩
  · intro r
    simp [hsettled, List.count_append]
  · rw [faultless_append]
    simp [hk]

theorem Standing.quiet (h : A.Standing log held) (hk : A.fault k = false)
    (hgained : A.gained k = []) (hsettled : A.settled k = []) (hreturned : A.returned k = []) :
    A.Standing (log ++ [k]) held := by
  refine ⟨h.1.quiet hk hgained hsettled hreturned, fun hheld => ?_⟩
  rw [faultless_append]
  exact fun hl => h.2 hheld hl.1

/-- After a loss, a further fault makes no difference. -/
theorem Standing.fault (h : A.Standing log held) (hk : A.fault k = true)
    (hgained : A.gained k = []) (hsettled : A.settled k = []) (hreturned : A.returned k = []) :
    A.Standing (log ++ [k]) [] := by
  by_cases hne : held = []
  · subst hne
    obtain ⟨lost, hlost, hiff⟩ := h.1.covered
    have hf : ¬ A.Faultless (log ++ [k]) := by
      rw [faultless_append]
      simp [hk]
    refine ⟨⟨⟨lost, ?_, ?_⟩, ?_⟩, fun _ => hf⟩
    · intro r
      simpa [hgained, hsettled] using hlost r
    · simp [hf, hiff, h.2 rfl]
    · intro r
      simpa [hgained, hreturned] using h.1.returned_le r
  · exact h.1.loseAll hk hne hsettled hreturned

/-- With nothing in hand, the books close exactly when there was no fault. -/
theorem Balanced.closed_iff (h : A.Balanced log [] pending) :
    (∀ r, (log.flatMap A.settled).count r = (log.flatMap A.gained).count r) ↔
      A.Faultless log := by
  obtain ⟨lost, hlost, hiff⟩ := h.covered
  rw [← hiff]
  constructor
  · intro hclosed
    rw [List.eq_nil_iff_forall_not_mem]
    intro r hr
    have h₁ := hlost r
    have h₂ := hclosed r
    have h₃ := List.count_pos_iff.mpr hr
    simp only [List.count_nil, add_zero] at h₁
    omega
  · rintro rfl r
    simpa using (hlost r).symm

end Account

end ExecutionEngine.Journal
