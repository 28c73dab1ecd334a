import ExecutionEngine.AnswerRules
import ExecutionEngine.ValueRelation

/-!
# The comparison is symmetric

The docstring of `_outputs_match` states its rules in both directions. The code tries
the item of the actual output before the item of the expected one and goes through the
members of an object in the order of the actual output, so the two directions make
different calls. What is accepted is the same.
-/
namespace ExecutionEngine.Comparison
open Binary64 Pipeline PyRepr FloatText Decision

/-- A finite number is known by its sign and its magnitude. -/
theorem finite_ext {x y : Finite} (hsign : x.negative = y.negative)
    (h : x.magnitude = y.magnitude) : x = y := by
  have hx := round_exact x
  have hy := round_exact y
  rw [← hsign] at hy
  exact Float64.finite.inj (hx.symm.trans ((congrArg (round x.negative · 1) h).trans hy))

theorem abs_round (s t : Bool) (num den : ℕ) :
    (round s num den).abs = (round t num den).abs := by
  have hparts : ∀ m k, (ofParts s m k).abs = (ofParts t m k).abs := by
    intro m k
    unfold ofParts
    split_ifs <;> rfl
  unfold Binary64.round
  dsimp only
  split_ifs
  · exact hparts _ _
  · exact hparts _ _

theorem units_neg (x : Finite) : Finite.units { x with negative := !x.negative } = -x.units := by
  unfold Finite.units
  cases x.negative <;> simp

theorem abs_sub_comm (x y : Float64) : (x.sub y).abs = (y.sub x).abs := by
  cases x with
  | nan => cases y <;> rfl
  | infinity s =>
    cases y with
    | infinity t => cases s <;> cases t <;> rfl
    | _ => rfl
  | finite x =>
    cases y with
    | finite y =>
      simp only [Float64.sub, Float64.neg, Float64.add, units_neg]
      by_cases h : x.units = y.units
      · rw [if_pos (by omega), if_pos (by omega)]
        unfold ofParts
        split_ifs <;> rfl
      · rw [if_neg (by omega), if_neg (by omega)]
        have habs : (x.units + -y.units).natAbs = (y.units + -x.units).natAbs := by omega
        unfold ofUnits
        rw [habs]
        exact abs_round _ _ _ _
    | _ => rfl

/-- The larger of two numbers in units, as `max` chooses it. -/
def later (x y : Finite) : Finite := if x.units < y.units then y else x

theorem max_finite (x y : Finite) : (Float64.finite x).max (.finite y) = .finite (later x y) := by
  simp only [Float64.max, Float64.lt, later, decide_eq_true_eq]
  split_ifs <;> rfl

theorem later_comm {one x y : Finite} (hx : x.negative = false) (hy : y.negative = false) :
    later (later one x) y = later (later one y) x := by
  have hsame : x.units = y.units → x = y := by
    intro h
    apply finite_ext (hx.trans hy.symm)
    have hunits : ∀ z : Finite, z.negative = false → z.units = (z.magnitude : ℤ) := by
      intro z hz
      simp [Finite.units, hz, Finite.magnitude]
    rw [hunits x hx, hunits y hy] at h
    exact_mod_cast h
  unfold later
  split_ifs
  all_goals first | rfl | omega | exact hsame (by omega)

/-- The largest of one and two absolute values. -/
theorem max_abs_comm (x y : Float64) :
    ((ofDecimal false 1 0).max x.abs).max y.abs = ((ofDecimal false 1 0).max y.abs).max x.abs := by
  rw [one_eq]
  -- an infinity is the largest and a NaN never is
  have hnan : ∀ z : Float64, z.max .nan = z := by
    intro z
    cases z <;> rfl
  have hinfinity : ∀ z : Finite, (Float64.finite z).max (.infinity false) = .infinity false :=
    fun _ => rfl
  have hkeep : ∀ z : Finite, (Float64.infinity false).max (.finite z) = .infinity false :=
    fun _ => rfl
  cases x with
  | nan => cases y <;> simp only [Float64.abs, hnan]
  | infinity s =>
    cases y with
    | nan => simp only [Float64.abs, hnan]
    | infinity t => rfl
    | finite y => simp only [Float64.abs, hinfinity, hkeep, max_finite]
  | finite x =>
    cases y with
    | nan => simp only [Float64.abs, hnan]
    | infinity t => simp only [Float64.abs, hinfinity, hkeep, max_finite]
    | finite y =>
      simp only [Float64.abs, max_finite]
      rw [later_comm rfl rfl]

theorem floatsClose_comm (x y : Float64) : floatsClose x y = floatsClose y x := by
  unfold floatsClose
  rw [abs_sub_comm, max_abs_comm]

theorem identical_comm (a e : Json) : identical a e = identical e a := by
  cases a with
  | float x =>
    cases e with
    | float y => cases x <;> cases y <;> rfl
    | _ => cases x <;> rfl
  | _ =>
    cases e with
    | float y => cases y <;> rfl
    | _ => rfl

theorem scalarEq_comm (a e : Json) : scalarEq a e = scalarEq e a := by
  have hint : ∀ {a e : Json} {m n : ℤ}, asInt a = some m → asInt e = some n →
      scalarEq a e = scalarEq e a := by
    intro a e m n ha he
    rw [scalarEq_int ha he, scalarEq_int he ha]
    exact decide_eq_decide.mpr eq_comm
  cases a with
  | float x =>
    cases e with
    | float y => exact Float64.eq_comm x y
    | _ => rfl
  | str s =>
    cases e with
    | str t => exact decide_eq_decide.mpr eq_comm
    | _ => rfl
  | bool b =>
    cases e with
    | bool c => exact hint (rfl : asInt (.bool b) = some _) (rfl : asInt (.bool c) = some _)
    | int n => exact hint (rfl : asInt (.bool b) = some _) (rfl : asInt (.int n) = some _)
    | _ => rfl
  | int m =>
    cases e with
    | bool c => exact hint (rfl : asInt (.int m) = some _) (rfl : asInt (.bool c) = some _)
    | int n => exact hint (rfl : asInt (.int m) = some _) (rfl : asInt (.int n) = some _)
    | _ => rfl
  | _ => cases e <;> rfl

theorem leafMatch_comm (a e : Json) : leafMatch a e = leafMatch e a := by
  cases a with
  | null =>
    cases e with
    | arr es => cases es <;> rfl
    | _ => rfl
  | arr as =>
    cases as <;> cases e with
    | arr es => cases es <;> rfl
    | _ => rfl
  | float x =>
    cases e with
    | float y => simp only [leafMatch, floatsClose_comm]
    | int n => simp only [leafMatch, floatsClose_comm]
    | arr es => cases es <;> rfl
    | _ => rfl
  | int n =>
    cases e with
    | float y => simp only [leafMatch, floatsClose_comm]
    | arr es => cases es <;> rfl
    | _ => rfl
  | _ =>
    cases e with
    | arr es => cases es <;> rfl
    | _ => rfl

/-- Every dictionary in the value has each key once. -/
inductive KeysOnce : Json → Prop
  | null : KeysOnce .null
  | bool (b : Bool) : KeysOnce (.bool b)
  | int (n : ℤ) : KeysOnce (.int n)
  | float (x : Float64) : KeysOnce (.float x)
  | str (s : PyStr) : KeysOnce (.str s)
  | arr {items : List Json} (h : ∀ item ∈ items, KeysOnce item) : KeysOnce (.arr items)
  | obj {items : List (PyStr × Json)} (hkeys : (items.map Prod.fst).Nodup)
    (h : ∀ member ∈ items, KeysOnce member.2) : KeysOnce (.obj items)

/-- A value as the interpreter can hold it. -/
structure PyValue where
  value : Json
  keysOnce : KeysOnce value

theorem KeysOnce.child {j c : Json} (hj : KeysOnce j) (h : Child j c) : KeysOnce c := by
  cases hj with
  | arr hitems => exact hitems c h
  | obj _ hmembers =>
    obtain ⟨member, hmember, rfl⟩ := h
    exact hmembers member hmember
  | _ => exact h.elim

theorem KeysOnce.parts {a e : Json} (ha : KeysOnce a) (he : KeysOnce e)
    {pairs : List (Json × Json)} (h : parts a e = some pairs) :
    ∀ p ∈ pairs, KeysOnce p.1 ∧ KeysOnce p.2 :=
  fun p hp => ⟨ha.child (parts_children h p hp).1, he.child (parts_children h p hp).2⟩

theorem sameKeys_comm {as es : Dict} (has : (as.map Prod.fst).Nodup)
    (hes : (es.map Prod.fst).Nodup) (h : sameKeys as es = true) : sameKeys es as = true := by
  rw [sameKeys_iff has hes] at h
  rw [sameKeys_iff hes has]
  exact fun key => (h key).symm

/-- The same values are paired, whichever object gives the order. -/
theorem mem_valuePairs_swap {as es : Dict} (hes : (es.map Prod.fst).Nodup)
    (hkeys : sameKeys es as = true) {p : Json × Json} (h : p ∈ valuePairs es as) :
    p.swap ∈ valuePairs as es := by
  obtain ⟨member, hmember, rfl⟩ := List.mem_map.mp h
  have has : (member.1, Dict.getD as member.1 .null) ∈ as :=
    getD_mem (sameKeys_contains hkeys hmember)
  have hget : Dict.getD es member.1 .null = member.2 := by
    unfold Dict.getD
    rw [lookup_of_mem hes hmember]
    rfl
  refine List.mem_map.mpr ⟨_, has, ?_⟩
  rw [hget]
  rfl

/-- The other way round, a pair of values has the same parts, each turned round. -/
theorem parts_swap {a e : Json} (ha : KeysOnce a) (he : KeysOnce e) {pairs : List (Json × Json)}
    (h : parts a e = some pairs) :
    ∃ turned, parts e a = some turned ∧ ∀ p ∈ turned, p.swap ∈ pairs := by
  cases ha with
  | arr has =>
    cases he with
    | arr hes =>
      simp only [parts] at h ⊢
      split_ifs at h with hlength
      obtain rfl := Option.some.inj h
      refine ⟨_, if_pos hlength.symm, ?_⟩
      intro p hp
      rw [← List.zip_swap] at hp
      obtain ⟨q, hq, rfl⟩ := List.mem_map.mp hp
      simpa using hq
    | _ => cases h
  | obj has _ =>
    cases he with
    | obj hes _ =>
      simp only [parts] at h ⊢
      split_ifs at h with hkeys
      obtain rfl := Option.some.inj h
      have hturned := sameKeys_comm has hes hkeys
      exact ⟨_, if_pos hturned, fun p hp => mem_valuePairs_swap hes hturned hp⟩
    | _ => cases h
  | _ => cases h

theorem parts_none_swap {a e : Json} (ha : KeysOnce a) (he : KeysOnce e)
    (h : parts a e = none) : parts e a = none := by
  cases hparts : parts e a with
  | none => rfl
  | some pairs =>
    obtain ⟨turned, hturned, -⟩ := parts_swap he ha hparts
    rw [h] at hturned
    cases hturned

theorem pyEq_symm {a e : Json} (ha : KeysOnce a) (he : KeysOnce e) (h : pyEq a e = true) :
    pyEq e a = true := by
  induction a, e using parts_induct with
  | step a e ih =>
    cases hparts : parts a e with
    | none =>
      rw [pyEq_of_no_parts (parts_none_swap ha he hparts), scalarEq_comm,
        ← pyEq_of_no_parts hparts]
      exact h
    | some pairs =>
      obtain ⟨turned, hturned, hswap⟩ := parts_swap ha he hparts
      rw [pyEq_parts hparts] at h
      rw [pyEq_parts hturned]
      intro p hp
      have hp' := hswap p hp
      obtain ⟨h₁, h₂⟩ := ha.parts he hparts _ hp'
      obtain hsame | heq := h _ hp'
      · exact .inl ((identical_comm p.1 p.2).trans hsame)
      · exact .inr (ih pairs hparts _ hp' h₁ h₂ heq)

theorem Alike.symm {a e : Json} (h : Alike a e) (ha : KeysOnce a) (he : KeysOnce e) :
    Alike e a := by
  induction h with
  | equal h => exact .equal (pyEq_symm ha he h)
  | leaf h => exact .leaf ((leafMatch_comm _ _).trans h)
  | parts hparts _ ih =>
    obtain ⟨turned, hturned, hswap⟩ := parts_swap ha he hparts
    refine .parts hturned fun p hp => ?_
    have hp' := hswap p hp
    obtain ⟨h₁, h₂⟩ := ha.parts he hparts _ hp'
    exact ih _ hp' h₁ h₂

theorem KeysOnce.item {v item : Json} (h : KeysOnce v) (hitem : onlyItem v = some item) :
    KeysOnce item := by
  obtain rfl := onlyItem_eq_some.mp hitem
  cases h with
  | arr h => exact h item (by simp)

theorem Accepts.symm {printable : CodePoint → Bool} {a e : Json} (h : Accepts printable a e)
    (ha : KeysOnce a) (he : KeysOnce e) : Accepts printable e a := by
  induction h with
  | direct h =>
    rcases h with hvalues | htexts
    · exact .direct (.inl (hvalues.symm ha he))
    · exact .direct (.inr (textsMatch_symm htexts))
  | actual hitem _ ih => exact .expected hitem (ih (ha.item hitem) he)
  | expected hitem _ ih => exact .actual hitem (ih ha (he.item hitem))

/-- Whenever neither call raises, the comparison gives the same answer when the actual
and the expected output change places. -/
theorem comparison_symmetric (printable : CodePoint → Bool) (room : ℕ) (a e : PyValue)
    (answer swapped : Bool) (h : outputsMatch printable room a.value e.value = .ok answer)
    (hswapped : outputsMatch printable room e.value a.value = .ok swapped) :
    answer = swapped := by
  have haccepts := (outputsMatch_decides room a.value e.value).answer_iff h
  have hturned := (outputsMatch_decides room e.value a.value).answer_iff hswapped
  rw [Bool.eq_iff_iff, haccepts, hturned]
  exact ⟨fun h => h.symm a.keysOnce e.keysOnce, fun h => h.symm e.keysOnce a.keysOnce⟩

/-- `[1]` in place of `1`, and the other way round. -/
theorem comparison_symmetric_item :
    ∃ answer swapped, outputsMatch (fun _ => true) 10 (.arr [.int 1]) (.int 1) = .ok answer ∧
      outputsMatch (fun _ => true) 10 (.int 1) (.arr [.int 1]) = .ok swapped ∧
      answer = swapped := by
  have hlist : KeysOnce (.arr [.int 1]) := .arr (by simpa using KeysOnce.int 1)
  refine ⟨true, true, rfl, rfl, ?_⟩
  exact comparison_symmetric (fun _ => true) 10 ⟨.arr [.int 1], hlist⟩ ⟨.int 1, .int 1⟩
    true true rfl rfl

end ExecutionEngine.Comparison
