import ExecutionEngine.Comparison

/-!
# What the comparison returns

`_values_match` has its relation `Alike`, which is about the values alone, and
raises exactly where it visits a pair that raises: a float with an integer beyond
the range of floats, or a pair for whose call there is no room. `_outputs_match`
adds the pairs that are left when outer lists of one item are taken off.
-/
namespace ExecutionEngine.Comparison
open Binary64 Pipeline PyRepr FloatText Decision

/-- The pairs that `_values_match` goes on with, for two lists or two objects. -/
def parts : Json → Json → Option (List (Json × Json))
  | .arr as, .arr es => if as.length = es.length then some (as.zip es) else none
  | .obj as, .obj es => if sameKeys as es then some (valuePairs as es) else none
  | _, _ => none

/-- What `_values_match` does with other pairs that are not equal. -/
def leafMatch : Json → Json → Except PyExc Bool
  | .null, .arr [] => .ok true
  | .arr [], .null => .ok true
  | .float a, .float e => .ok (floatsClose a e)
  | .float a, .int n => do .ok (floatsClose a (← floatOfInt n))
  | .int n, .float e => do .ok (floatsClose (← floatOfInt n) e)
  | _, _ => .ok false

theorem valuesMatch_succ (room : ℕ) (a e : Json) :
    valuesMatch (room + 1) a e =
      if pyEq a e then .ok true
      else match parts a e with
        | some pairs => allOf (fun p => valuesMatch room p.1 p.2) pairs
        | none => leafMatch a e := by
  conv_lhs => unfold valuesMatch
  congr 1
  cases a with
  | arr as =>
    cases e with
    | arr es =>
      simp only [parts]
      split_ifs with h
      · cases as <;> rfl
      · cases as <;> rfl
    | null => cases as <;> rfl
    | _ => cases as <;> rfl
  | obj as =>
    cases e with
    | obj es =>
      simp only [parts]
      split_ifs <;> rfl
    | _ => rfl
  | null =>
    cases e with
    | arr es => cases es <;> rfl
    | _ => rfl
  | _ => cases e <;> rfl

theorem leafMatch_of_parts {a e : Json} {pairs : List (Json × Json)} (h : parts a e = some pairs) :
    leafMatch a e = .ok false := by
  cases a with
  | arr as =>
    cases e with
    | arr es => cases as <;> rfl
    | _ => cases h
  | obj as =>
    cases e with
    | obj es => rfl
    | _ => cases h
  | _ => cases h

/-- The comparison of the pair raises `OverflowError`. -/
def Overflows : Json → Json → Prop
  | .float _, .int n => Float64.ofInt n = none
  | .int n, .float _ => Float64.ofInt n = none
  | _, _ => False

theorem Overflows.parts {a e : Json} (h : Overflows a e) : parts a e = none := by
  cases a with
  | float x =>
    cases e with
    | int n => rfl
    | _ => cases h
  | int n =>
    cases e with
    | float x => rfl
    | _ => cases h
  | _ => cases h

/-- An integer that equals a float is in the range of floats. -/
theorem ofInt_of_eqInt {x : Float64} {n : ℤ} (h : x.eqInt n = true) : Float64.ofInt n ≠ none := by
  cases x with
  | finite x =>
    have hunits : x.units = n * one := of_decide_eq_true h
    have habs : (n * (one : ℤ)).natAbs = x.mantissa * 2 ^ x.shift := by
      rw [← hunits, x.natAbs_units]
    obtain ⟨y, hy, -⟩ := ofUnits_exact habs x.valid.1 x.valid.2.1
    rw [ofInt_of_ofUnits hy]
    simp
  | _ => cases h

theorem Overflows.not_eq {a e : Json} (h : Overflows a e) : pyEq a e = false := by
  cases a with
  | float x =>
    cases e with
    | int n =>
      rw [Bool.eq_false_iff]
      exact fun heq => ofInt_of_eqInt heq h
    | _ => cases h
  | int n =>
    cases e with
    | float x =>
      rw [Bool.eq_false_iff]
      exact fun heq => ofInt_of_eqInt heq h
    | _ => cases h
  | _ => cases h

/-- The comparison of a pair that is not followed raises, or returns. -/
theorem leafMatch_outcome (a e : Json) :
    (leafMatch a e = .error overflowError ∧ Overflows a e) ∨
      ((∃ b, leafMatch a e = .ok b) ∧ ¬ Overflows a e) := by
  have hint : ∀ (n : ℤ) (close : Float64 → Bool),
      ((do .ok (close (← floatOfInt n))) = (.error overflowError : Except PyExc Bool) ∧
        Float64.ofInt n = none) ∨
      ((∃ b, (do .ok (close (← floatOfInt n))) = (.ok b : Except PyExc Bool)) ∧
        ¬ Float64.ofInt n = none) := by
    intro n close
    unfold floatOfInt
    cases hn : Float64.ofInt n with
    | none => exact .inl ⟨rfl, rfl⟩
    | some x => exact .inr ⟨⟨close x, rfl⟩, by simp⟩
  cases a with
  | null =>
    cases e with
    | arr es => cases es <;> exact .inr ⟨⟨_, rfl⟩, id⟩
    | _ => exact .inr ⟨⟨_, rfl⟩, id⟩
  | arr as => cases as <;> cases e <;> exact .inr ⟨⟨_, rfl⟩, id⟩
  | int n =>
    cases e with
    | float x => exact hint n fun y => floatsClose y x
    | _ => exact .inr ⟨⟨_, rfl⟩, id⟩
  | float x =>
    cases e with
    | int n => exact hint n fun y => floatsClose x y
    | _ => exact .inr ⟨⟨_, rfl⟩, id⟩
  | _ => cases e <;> exact .inr ⟨⟨_, rfl⟩, id⟩

/-- What `_values_match` accepts. -/
inductive Alike : Json → Json → Prop
  | equal {a e : Json} (h : pyEq a e = true) : Alike a e
  | leaf {a e : Json} (h : leafMatch a e = .ok true) : Alike a e
  | parts {a e : Json} {pairs : List (Json × Json)} (hparts : parts a e = some pairs)
    (h : ∀ p ∈ pairs, Alike p.1 p.2) : Alike a e

/-- A call of `_values_match` on the first pair makes one on the second pair, which is so
many calls below it. A pair is reached when those before it are accepted. -/
inductive Visits : Json → Json → ℕ → Json → Json → Prop
  | here {a e : Json} : Visits a e 0 a e
  | part {a e x y u v : Json} {before after : List (Json × Json)} {depth : ℕ}
    (hne : pyEq a e = false) (hparts : parts a e = some (before ++ (x, y) :: after))
    (hbefore : ∀ p ∈ before, Alike p.1 p.2) (h : Visits x y depth u v) :
    Visits a e (depth + 1) u v

/-- `_values_match` raises: for want of room, or because of an integer. -/
def Raises (room : ℕ) (a e : Json) : Prop :=
  ∃ depth u v, Visits a e depth u v ∧ (depth = room ∨ Overflows u v)

theorem raises_succ {room : ℕ} {a e : Json} :
    Raises (room + 1) a e ↔ Overflows a e ∨
      pyEq a e = false ∧ ∃ pairs, parts a e = some pairs ∧
        Stuck (fun p => Raises room p.1 p.2) (fun p => Alike p.1 p.2) pairs := by
  constructor
  · rintro ⟨depth, u, v, hvisits, h⟩
    cases hvisits with
    | here =>
      rcases h with h | h
      · omega
      · exact .inl h
    | part hne hparts hbefore hvisits =>
      refine .inr ⟨hne, _, hparts, _, _, _, rfl, hbefore, _, u, v, hvisits, ?_⟩
      exact h.imp_left Nat.succ.inj
  · rintro (h | ⟨hne, pairs, hparts, before, x, after, rfl, hbefore, depth, u, v, hvisits, h⟩)
    · exact ⟨0, a, e, .here, .inr h⟩
    · exact ⟨depth + 1, u, v, .part hne hparts hbefore hvisits, h.imp_left (congrArg Nat.succ)⟩

/-- What a call of `_values_match` does. -/
theorem valuesMatch_decides (room : ℕ) (a e : Json) :
    Decides (valuesMatch room a e) (Raises room a e) (Alike a e) := by
  induction room generalizing a e with
  | zero => exact .inl ⟨⟨recursionError, rfl⟩, 0, a, e, .here, .inl rfl⟩
  | succ room ih =>
    unfold Decides
    rw [valuesMatch_succ, raises_succ]
    by_cases heq : pyEq a e = true
    · have hover : ¬ Overflows a e := fun h => by rw [h.not_eq] at heq; cases heq
      rw [if_pos heq]
      exact .inr ⟨true, rfl, by simp [hover, heq], iff_of_true rfl (.equal heq)⟩
    · rw [if_neg heq]
      have hne : pyEq a e = false := Bool.eq_false_iff.mpr heq
      cases hparts : parts a e with
      | none =>
        dsimp only
        rcases leafMatch_outcome a e with ⟨herror, hover⟩ | ⟨⟨b, hb⟩, hover⟩
        · exact .inl ⟨⟨overflowError, herror⟩, .inl hover⟩
        · refine .inr ⟨b, hb, by simp [hover], ?_⟩
          constructor
          · rintro rfl
            exact .leaf hb
          · intro h
            cases h with
            | equal h => exact absurd h heq
            | leaf h => exact Except.ok.inj (hb.symm.trans h)
            | parts h => rw [hparts] at h; cases h
      | some pairs =>
        dsimp only
        have hover : ¬ Overflows a e := fun h => by rw [h.parts] at hparts; cases hparts
        rcases allOf_decides (fun p : Json × Json => ih p.1 p.2) pairs with
          ⟨hexc, hstuck⟩ | ⟨b, hb, hstuck, hall⟩
        · exact .inl ⟨hexc, .inr ⟨hne, pairs, rfl, hstuck⟩⟩
        · refine .inr ⟨b, hb, by simp [hover, hstuck], hall.trans ?_⟩
          constructor
          · exact .parts hparts
          · intro h
            cases h with
            | equal h => exact absurd h heq
            | leaf h => rw [leafMatch_of_parts hparts] at h; cases h
            | parts h hpairs =>
              rw [hparts] at h
              obtain rfl := Option.some.inj h
              exact hpairs

section
variable (printable : CodePoint → Bool)

/-- What `_outputs_match` accepts before it takes lists of one item for their items. -/
def Direct (a e : Json) : Prop := Alike a e ∨ textsMatch printable a e = true

/-- What `_outputs_match` accepts. -/
inductive Accepts : Json → Json → Prop
  | direct {a e : Json} (h : Direct printable a e) : Accepts a e
  | actual {a e item : Json} (hitem : onlyItem a = some item) (h : Accepts item e) : Accepts a e
  | expected {a e item : Json} (hitem : onlyItem e = some item) (h : Accepts a item) : Accepts a e

/-- A call of `_outputs_match` on the first pair makes a call on the second pair, which is so
many calls below it: of `_values_match`, or of `_outputs_match` on the item of a list. -/
inductive Calls : Json → Json → ℕ → Json → Json → Prop
  | here {a e : Json} : Calls a e 0 a e
  | values {a e u v : Json} {depth : ℕ} (h : Visits a e depth u v) : Calls a e (depth + 1) u v
  | actual {a e item u v : Json} {depth : ℕ} (hitem : onlyItem a = some item)
    (hdirect : ¬ Direct printable a e) (h : Calls item e depth u v) : Calls a e (depth + 1) u v
  | expected {a e item u v : Json} {depth : ℕ} (hitem : onlyItem e = some item)
    (hdirect : ¬ Direct printable a e)
    (hactual : ∀ other, onlyItem a = some other → ¬ Accepts printable other e)
    (h : Calls a item depth u v) : Calls a e (depth + 1) u v

/-- `_outputs_match` raises: for want of room, or because of an integer. -/
def CallsRaise (room : ℕ) (a e : Json) : Prop :=
  ∃ depth u v, Calls printable a e depth u v ∧ (depth = room ∨ Overflows u v)

variable {printable}

theorem callsRaise_succ {room : ℕ} {a e : Json} :
    CallsRaise printable (room + 1) a e ↔ Raises room a e ∨ ¬ Alike a e ∧
      (False ∨ ¬ textsMatch printable a e = true ∧
        ((∃ item, onlyItem a = some item ∧ CallsRaise printable room item e) ∨
          ¬ (∃ item, onlyItem a = some item ∧ Accepts printable item e) ∧
          ∃ item, onlyItem e = some item ∧ CallsRaise printable room a item)) := by
  have hdirect : ¬ Direct printable a e ↔ ¬ Alike a e ∧ ¬ textsMatch printable a e = true := not_or
  constructor
  · rintro ⟨depth, u, v, hcalls, h⟩
    cases hcalls with
    | here =>
      rcases h with h | h
      · omega
      · exact .inl ⟨0, a, e, .here, .inr h⟩
    | values hvisits => exact .inl ⟨_, u, v, hvisits, h.imp_left Nat.succ.inj⟩
    | actual hitem hnot hcalls =>
      obtain ⟨hvalues, htexts⟩ := hdirect.mp hnot
      exact .inr ⟨hvalues, .inr ⟨htexts, .inl ⟨_, hitem, _, u, v, hcalls, h.imp_left Nat.succ.inj⟩⟩⟩
    | expected hitem hnot hactual hcalls =>
      obtain ⟨hvalues, htexts⟩ := hdirect.mp hnot
      refine .inr ⟨hvalues, .inr ⟨htexts, .inr ⟨?_, _, hitem, _, u, v, hcalls,
        h.imp_left Nat.succ.inj⟩⟩⟩
      rintro ⟨other, hother, haccepts⟩
      exact hactual other hother haccepts
  · rintro (⟨depth, u, v, hvisits, h⟩ | ⟨hvalues, hfalse | ⟨htexts, h⟩⟩)
    · exact ⟨depth + 1, u, v, .values hvisits, h.imp_left (congrArg Nat.succ)⟩
    · exact hfalse.elim
    · have hnot := hdirect.mpr ⟨hvalues, htexts⟩
      rcases h with ⟨item, hitem, depth, u, v, hcalls, h⟩ |
        ⟨hactual, item, hitem, depth, u, v, hcalls, h⟩
      · exact ⟨depth + 1, u, v, .actual hitem hnot hcalls, h.imp_left (congrArg Nat.succ)⟩
      · refine ⟨depth + 1, u, v, .expected hitem hnot ?_ hcalls, h.imp_left (congrArg Nat.succ)⟩
        exact fun other hother haccepts => hactual ⟨other, hother, haccepts⟩

theorem accepts_iff {a e : Json} :
    Accepts printable a e ↔ Alike a e ∨ textsMatch printable a e = true ∨
      (∃ item, onlyItem a = some item ∧ Accepts printable item e) ∨
      ∃ item, onlyItem e = some item ∧ Accepts printable a item := by
  constructor
  · intro h
    cases h with
    | direct h => exact h.imp_right .inl
    | actual hitem h => exact .inr (.inr (.inl ⟨_, hitem, h⟩))
    | expected hitem h => exact .inr (.inr (.inr ⟨_, hitem, h⟩))
  · rintro (h | h | ⟨item, hitem, h⟩ | ⟨item, hitem, h⟩)
    · exact .direct (.inl h)
    · exact .direct (.inr h)
    · exact .actual hitem h
    · exact .expected hitem h

theorem onlyItem_decides {outcome : Json → Except PyExc Bool} {raises accepts : Json → Prop}
    (h : ∀ item, Decides (outcome item) (raises item) (accepts item)) (v : Json) :
    Decides (match onlyItem v with
        | some item => outcome item
        | none => .ok false)
      (∃ item, onlyItem v = some item ∧ raises item)
      (∃ item, onlyItem v = some item ∧ accepts item) := by
  cases onlyItem v with
  | none => exact .inr ⟨false, rfl, by simp, by simp⟩
  | some item => simpa using h item

/-- What a call of `_outputs_match` does. -/
theorem outputsMatch_decides (room : ℕ) (a e : Json) :
    Decides (outputsMatch printable room a e) (CallsRaise printable room a e)
      (Accepts printable a e) := by
  induction room generalizing a e with
  | zero => exact .inl ⟨⟨recursionError, rfl⟩, 0, a, e, .here, .inl rfl⟩
  | succ room ih =>
    rw [outputsMatch, callsRaise_succ, accepts_iff]
    exact either_decides (valuesMatch_decides room a e)
      (either_decides (decides_ok (textsMatch printable a e))
        (either_decides (onlyItem_decides (fun item => ih item e) a)
          (onlyItem_decides (fun item => ih a item) e)))

/-- `_outputs_match` returns a Boolean exactly when no pair that it comes to is a float
with an integer beyond the range of floats, or needs a call for which there is no room. -/
theorem outputsMatch_returns_iff (printable : CodePoint → Bool) (room : ℕ) (a e : Json) :
    (∃ b, outputsMatch printable room a e = .ok b) ↔
      ∀ depth u v, Calls printable a e depth u v → depth ≠ room ∧ ¬ Overflows u v := by
  rw [(outputsMatch_decides room a e).returns_iff]
  simp only [CallsRaise, not_exists, not_and, not_or, ne_eq]

theorem Overflows.callsRaise {a e : Json} (h : Overflows a e) (room : ℕ) :
    CallsRaise printable room a e := ⟨0, a, e, .here, .inr h⟩

/-- `float(10 ** 400)` raises. -/
theorem overflows_long : Overflows (.int (10 ^ 400)) (.float (ofDecimal false 15 (-1))) :=
  show Float64.ofInt (10 ^ 400) = none by decide +kernel

/-- The comparison of `10 ** 400` with `1.5` raises. -/
theorem long_integer_raises :
    ¬ ∃ b, outputsMatch (fun _ => true) 1000 (.int (10 ^ 400)) (.float (ofDecimal false 15 (-1))) =
      .ok b := by
  rw [(outputsMatch_decides 1000 _ _).returns_iff, not_not]
  exact overflows_long.callsRaise 1000

/-- The value inside so many lists of one item. -/
def nest : ℕ → Json → Json
  | 0, v => v
  | n + 1, v => .arr [nest n v]

theorem pyEq_nest (n : ℕ) : pyEq (nest n (.int 1)) (nest n (.int 2)) = false := by
  induction n with
  | zero => decide
  | succ n ih =>
    have hidentical : identical (nest n (.int 1)) (nest n (.int 2)) = false := by
      cases n <;> rfl
    simp [nest, pyEq, itemsEq, ih, hidentical]

theorem visits_nest (n : ℕ) : Visits (nest n (.int 1)) (nest n (.int 2)) n (.int 1) (.int 2) := by
  induction n with
  | zero => exact .here
  | succ n ih =>
    have hparts : parts (nest (n + 1) (.int 1)) (nest (n + 1) (.int 2)) =
        some ([] ++ (nest n (.int 1), nest n (.int 2)) :: []) := rfl
    exact .part (pyEq_nest (n + 1)) hparts (by simp) ih

/-- No room is enough for all values: there are lists of one item around different
integers. -/
theorem outputsMatch_nest (room : ℕ) : ¬ ∃ b, outputsMatch printable (room + 1)
    (nest room (.int 1)) (nest room (.int 2)) = .ok b := by
  rw [(outputsMatch_decides (room + 1) _ _).returns_iff, not_not]
  exact ⟨room + 1, _, _, .values (visits_nest room), .inl rfl⟩

end

end ExecutionEngine.Comparison
