import ExecutionEngine.ArgumentBinding

/-!
# Which value each parameter is given

Go's `pickArg`, `judge::Input::arg` of C++ and C and `__judge::pick` of Rust share
one rule: a parameter receives the value stored under its name, and where the test
case has no such key the value at its position. The rule is applied to each
parameter on its own, so a value that one parameter has by name may be the value
that another has by position.
-/
namespace ExecutionEngine.ArgumentBinding

variable {β : Type}

/-- The three copies of the rule. -/
inductive Lookup
  | pickArg
  | inputArg
  | judgePick
  deriving DecidableEq, Repr

/-- What a parameter receives from a test case. -/
def lookup (items : Items β) (skipPos : Bool) (name : PyStr) (index : ℕ) : Lookup → Option β
  | .pickArg => pickArg items (items.map Prod.fst) name index skipPos
  | .inputArg => inputArg (items.map Prod.fst) (values items) skipPos name index
  | .judgePick => judgePick (items.map Prod.fst) (values items) name index skipPos

/-- The keys that have a position: `pos` has none in a linked-list problem. -/
def positional (skipPos : Bool) (keys : List PyStr) : List PyStr :=
  keys.filter fun k => !(skipPos && decide (k = posKey))

/-- The key whose value a parameter receives: the lookup in the test case in which
every value is its own key. -/
def receivedKey (keys : List PyStr) (skipPos : Bool) (name : PyStr) (index : ℕ)
    (rule : Lookup) : Option PyStr :=
  lookup (keys.map fun k => (k, k)) skipPos name index rule

/-- The map from the parameters to the keys. -/
def assignment (keys : List PyStr) (skipPos : Bool) (params : List PyStr) (rule : Lookup)
    (i : Fin params.length) : Option PyStr :=
  receivedKey keys skipPos params[i] i rule

/-- Every key that has a position goes to exactly one parameter. -/
def UsedOnce (keys : List PyStr) (skipPos : Bool) (params : List PyStr) (rule : Lookup) : Prop :=
  Set.BijOn (assignment keys skipPos params rule) Set.univ
    {k | k ∈ (positional skipPos keys).map some}

theorem stored_map_self (keys : List PyStr) (name : PyStr) :
    stored (keys.map fun k => (k, k)) name = if name ∈ keys then some name else none := by
  induction keys with
  | nil => rfl
  | cons k keys ih =>
    by_cases hk : k = name
    · simp [stored, hk]
    · have hne : name ≠ k := fun h => hk h.symm
      simpa [stored, hk, hne] using ih

theorem stored_eq_none {items : Items β} {key : PyStr} :
    stored items key = none ↔ key ∉ items.map Prod.fst := by
  rw [stored, Option.map_eq_none_iff, List.find?_eq_none]
  simp only [decide_eq_true_eq, List.mem_map, not_exists, not_and]

/-- A value at its position is the value stored under the key at that position. -/
theorem stored_of_mem {items : Items β} (h : (items.map Prod.fst).Nodup) {item : PyStr × β}
    (hitem : item ∈ items) : stored items item.1 = some item.2 := by
  induction items with
  | nil => simp at hitem
  | cons head items ih =>
    rw [List.map_cons] at h
    obtain ⟨hhead, hrest⟩ := List.nodup_cons.mp h
    rcases List.mem_cons.mp hitem with rfl | hmem
    · simp [stored]
    · have hne : head.1 ≠ item.1 := fun heq =>
        hhead (heq ▸ List.mem_map_of_mem hmem)
      have := ih hrest hmem
      simpa [stored, hne] using this

theorem filter_keys (items : Items β) (skipPos : Bool) :
    (items.filter fun item => !(skipPos && decide (item.1 = posKey))).map Prod.fst =
      positional skipPos (items.map Prod.fst) := by
  rw [positional, List.filter_map]
  rfl

/-- All three copies compute the same function. -/
theorem lookup_eq {items : Items β} (h : (items.map Prod.fst).Nodup) (skipPos : Bool)
    (name : PyStr) (index : ℕ) (rule : Lookup) :
    lookup items skipPos name index rule =
      (if name ∈ items.map Prod.fst then some name
        else (positional skipPos (items.map Prod.fst))[index]?).bind (stored items) := by
  by_cases hname : name ∈ items.map Prod.fst
  · obtain ⟨v, hv⟩ := Option.isSome_iff_exists.mp (stored_isSome hname)
    cases rule <;> simp [lookup, pickArg, judgePick, inputArg, zip_values, hv, hname]
  · have hnone := stored_eq_none.mpr hname
    have harg : inputArg (items.map Prod.fst) (values items) skipPos name index =
        ((positional skipPos (items.map Prod.fst))[index]?).bind (stored items) := by
      rw [inputArg, zip_values, hnone, ← filter_keys, List.getElem?_map]
      cases hitem : (items.filter fun item =>
          !(skipPos && decide (item.1 = posKey)))[index]? with
      | none => rfl
      | some item =>
        have hmem : item ∈ items := List.mem_of_mem_filter (List.mem_of_getElem? hitem)
        exact (stored_of_mem h hmem).symm
    have hpick : pickArg items (items.map Prod.fst) name index skipPos =
        ((positional skipPos (items.map Prod.fst))[index]?).bind (stored items) := by
      rw [pickArg, hnone, positional]
      dsimp only
      generalize (List.filter _ (items.map Prod.fst))[index]? = key
      cases key <;> rfl
    rw [if_neg hname]
    cases rule with
    | pickArg => exact hpick
    | inputArg => exact harg
    | judgePick => exact harg

theorem receivedKey_eq {keys : List PyStr} (h : keys.Nodup) (skipPos : Bool)
    (name : PyStr) (index : ℕ) (rule : Lookup) :
    receivedKey keys skipPos name index rule =
      if name ∈ keys then some name else (positional skipPos keys)[index]? := by
  have hkeys : (keys.map fun k => (k, k)).map Prod.fst = keys := by
    rw [List.map_map]
    exact List.map_id keys
  rw [receivedKey, lookup_eq (by rwa [hkeys]), hkeys]
  split_ifs with hname
  · simp [stored_map_self, hname]
  · cases hk : (positional skipPos keys)[index]? with
    | none => rfl
    | some k =>
      have hmem : k ∈ keys := List.mem_of_mem_filter (List.mem_of_getElem? hk)
      simp [stored_map_self, hmem]

/-- The value a parameter receives is the value stored under its key. -/
theorem lookup_eq_stored {items : Items β} (h : (items.map Prod.fst).Nodup) (skipPos : Bool)
    (name : PyStr) (index : ℕ) (rule : Lookup) :
    lookup items skipPos name index rule =
      (receivedKey (items.map Prod.fst) skipPos name index rule).bind (stored items) := by
  rw [lookup_eq h, receivedKey_eq h]

/-- No parameter that has its value by position takes the value another has by name,
and no parameter takes the `pos` that has no position. -/
def Unshared (keys : List PyStr) (skipPos : Bool) (params : List PyStr) : Prop :=
  (∀ (i : Fin params.length) (k : PyStr), params[i] ∉ keys →
      (positional skipPos keys)[i.1]? = some k → k ∉ params) ∧
    ¬ (skipPos = true ∧ posKey ∈ keys ∧ posKey ∈ params)

theorem mem_positional {skipPos : Bool} {keys : List PyStr} {k : PyStr} :
    k ∈ positional skipPos keys ↔ k ∈ keys ∧ ¬ (skipPos = true ∧ k = posKey) := by
  rw [positional, List.mem_filter]
  cases skipPos <;> simp

section Rule

variable {keys params : List PyStr} {skipPos : Bool} (rule : Lookup)

theorem assignment_named (hk : keys.Nodup) {i : Fin params.length} (h : params[i] ∈ keys) :
    assignment keys skipPos params rule i = some params[i] := by
  rw [assignment, receivedKey_eq hk, if_pos h]

theorem assignment_positioned (hk : keys.Nodup) {i : Fin params.length}
    (h : params[i] ∉ keys) :
    assignment keys skipPos params rule i = (positional skipPos keys)[i.1]? := by
  rw [assignment, receivedKey_eq hk, if_neg h]

theorem assignment_injective (hk : keys.Nodup) (hp : params.Nodup)
    (hlen : params.length = (positional skipPos keys).length)
    (h : Unshared keys skipPos params) :
    Function.Injective (assignment keys skipPos params rule) := by
  have hget : ∀ i : Fin params.length, ∃ k, (positional skipPos keys)[i.1]? = some k :=
    fun i => ⟨_, List.getElem?_eq_getElem (hlen ▸ i.2)⟩
  -- A parameter found by name against one found by position.
  have hmixed : ∀ i j : Fin params.length, params[i] ∈ keys → params[j] ∉ keys →
      assignment keys skipPos params rule i ≠ assignment keys skipPos params rule j := by
    intro i j hi hj heq
    obtain ⟨k, hkey⟩ := hget j
    rw [assignment_named rule hk hi, assignment_positioned rule hk hj, hkey] at heq
    have hmem : k ∈ params := Option.some.inj heq ▸ List.getElem_mem i.2
    exact h.1 j k hj hkey hmem
  intro i j heq
  by_cases hi : params[i] ∈ keys
  · by_cases hj : params[j] ∈ keys
    · rw [assignment_named rule hk hi, assignment_named rule hk hj] at heq
      exact Fin.ext (hp.getElem_inj_iff.mp (Option.some.inj heq))
    · exact absurd heq (hmixed i j hi hj)
  · by_cases hj : params[j] ∈ keys
    · exact absurd heq.symm (hmixed j i hj hi)
    · rw [assignment_positioned rule hk hi, assignment_positioned rule hk hj] at heq
      have hnodup : (positional skipPos keys).Nodup := hk.filter _
      have hi' : i.1 < (positional skipPos keys).length := hlen ▸ i.2
      exact Fin.ext ((List.getElem?_inj hi' hnodup).mp heq)

theorem assignment_mem (hk : keys.Nodup)
    (hlen : params.length = (positional skipPos keys).length)
    (h : Unshared keys skipPos params) (i : Fin params.length) :
    assignment keys skipPos params rule i ∈ (positional skipPos keys).map some := by
  by_cases hi : params[i] ∈ keys
  · rw [assignment_named rule hk hi]
    refine List.mem_map_of_mem (mem_positional.mpr ⟨hi, ?_⟩)
    intro ⟨hskip, hpos⟩
    exact h.2 ⟨hskip, hpos ▸ hi, hpos ▸ List.getElem_mem i.2⟩
  · rw [assignment_positioned rule hk hi, List.getElem?_eq_getElem (hlen ▸ i.2)]
    exact List.mem_map_of_mem (List.getElem_mem _)

/-- An injection between sets of one size is onto. -/
theorem usedOnce_of_unshared (hk : keys.Nodup) (hp : params.Nodup)
    (hlen : params.length = (positional skipPos keys).length)
    (h : Unshared keys skipPos params) : UsedOnce keys skipPos params rule := by
  let f := assignment keys skipPos params rule
  have hinj : Function.Injective f := assignment_injective rule hk hp hlen h
  have hnodup : ((positional skipPos keys).map some).Nodup :=
    (hk.filter _).map (Option.some_injective _)
  have hsub : Finset.univ.image f ⊆ ((positional skipPos keys).map some).toFinset := by
    intro k hmem
    obtain ⟨i, -, rfl⟩ := Finset.mem_image.mp hmem
    exact List.mem_toFinset.mpr (assignment_mem rule hk hlen h i)
  have himage : Finset.univ.image f = ((positional skipPos keys).map some).toFinset := by
    apply Finset.eq_of_subset_of_card_le hsub
    rw [Finset.card_image_of_injective _ hinj, List.toFinset_card_of_nodup hnodup]
    simp [hlen]
  refine ⟨fun i _ => assignment_mem rule hk hlen h i, hinj.injOn, ?_⟩
  intro k hmem
  have : k ∈ Finset.univ.image f := himage ▸ List.mem_toFinset.mpr hmem
  obtain ⟨i, -, hi⟩ := Finset.mem_image.mp this
  exact ⟨i, trivial, hi⟩

theorem unshared_of_usedOnce (hk : keys.Nodup) (h : UsedOnce keys skipPos params rule) :
    Unshared keys skipPos params := by
  obtain ⟨hmaps, hinj, -⟩ := h
  constructor
  · intro i k hi hkey hmem
    obtain ⟨j, hj, rfl⟩ := List.getElem_of_mem hmem
    have hin : params[j] ∈ keys := List.mem_of_mem_filter (List.mem_of_getElem? hkey)
    have hsame : assignment keys skipPos params rule i =
        assignment keys skipPos params rule ⟨j, hj⟩ := by
      rw [assignment_positioned rule hk hi, assignment_named rule hk hin, hkey]
      rfl
    have hij := hinj trivial trivial hsame
    exact hi (hij ▸ hin)
  · rintro ⟨hskip, hpos, hmem⟩
    obtain ⟨j, hj, hname⟩ := List.getElem_of_mem hmem
    have hin : params[(⟨j, hj⟩ : Fin params.length)] ∈ keys := hname ▸ hpos
    have hmap := hmaps (Set.mem_univ (⟨j, hj⟩ : Fin params.length))
    rw [assignment_named rule hk hin] at hmap
    obtain ⟨k, hkmem, hkeq⟩ := List.mem_map.mp hmap
    exact (mem_positional.mp hkmem).2 ⟨hskip, (Option.some.inj hkeq).trans hname⟩

end Rule

/-- For every test case with as many positioned keys as the function has parameters,
each parameter receives the value of the key it is mapped to, and the map is a
bijection exactly when no value is shared between a name and a position. -/
theorem used_once_iff (rule : Lookup) (items : Items β) (skipPos : Bool) (params : List PyStr)
    (hp : params.Nodup) (hk : (items.map Prod.fst).Nodup)
    (hlen : params.length = (positional skipPos (items.map Prod.fst)).length) :
    (∀ i : Fin params.length, lookup items skipPos params[i] i rule =
        (assignment (items.map Prod.fst) skipPos params rule i).bind (stored items)) ∧
      (UsedOnce (items.map Prod.fst) skipPos params rule ↔
        Unshared (items.map Prod.fst) skipPos params) :=
  ⟨fun i => lookup_eq_stored hk skipPos params[i] i rule,
    unshared_of_usedOnce rule hk, usedOnce_of_unshared rule hk hp hlen⟩

/-- Two parameters found by name and one by its position. -/
theorem used_once_three :
    UsedOnce ["nums", "limit", "k"] false ["k", "bound", "nums"] .pickArg ↔
      Unshared ["nums", "limit", "k"] false ["k", "bound", "nums"] :=
  (used_once_iff .pickArg [("nums", 1), ("limit", 2), ("k", 3)] false ["k", "bound", "nums"]
    (by decide) (by decide) (by decide)).2

/-- The parameter `a` takes the value of `b` by its position, the parameter `b` takes
it by its name, and the value of `c` is dropped. -/
theorem value_used_twice :
    ¬ ∀ (rule : Lookup) (keys params : List PyStr) (skipPos : Bool), params.Nodup → keys.Nodup →
      params.length = (positional skipPos keys).length → UsedOnce keys skipPos params rule := by
  intro h
  have hinj := (h .pickArg ["b", "c"] ["a", "b"] false (by decide) (by decide) (by decide)).2.1
  have h01 := hinj (Set.mem_univ (0 : Fin 2)) (Set.mem_univ (1 : Fin 2)) (by decide)
  exact absurd h01 (by decide)

end ExecutionEngine.ArgumentBinding
