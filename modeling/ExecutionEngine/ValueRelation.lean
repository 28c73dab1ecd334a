import ExecutionEngine.AnswerRules

/-!
# The relation that `_values_match` is meant to be

`Related` is the comparison of the documentation on values with finite numbers: equal
values of one kind, null and the empty list, numbers of which one is a float within
the tolerance in exact arithmetic, and lists and objects part by part. `_values_match`
differs from it on pairs without parts only: `==` takes a Boolean for a number, and the
tolerance is computed in floating point. Both relations are brought to the pairs that
stand at the same place of the two values.
-/
namespace ExecutionEngine.Comparison
open Binary64 Pipeline PyRepr FloatText Decision JsonEncoder JsonRoundTrip

/-- The value of a number, in units of the smallest positive float. -/
def exactUnits : Json → Option ℤ
  | .int n => some (n * one)
  | .float (.finite x) => some x.units
  | _ => none

def finiteOf : Float64 → Option Finite
  | .finite x => some x
  | _ => none

/-- `float(v)` for a number. -/
def floatOf : Json → Option Finite
  | .int n => (Float64.ofInt n).bind finiteOf
  | .float x => finiteOf x
  | _ => none

def isFloat : Json → Bool
  | .float _ => true
  | _ => false

/-- `|x - y| <= 1e-5 * max(1, |x|, |y|)` in exact arithmetic. -/
def WithinTolerance (x y : Finite) : Prop :=
  100000 * |x.units - y.units| ≤ max (one : ℤ) (max |x.units| |y.units|)

/-- Pairs without parts that are related. -/
inductive LeafRelated : Json → Json → Prop
  | null : LeafRelated .null .null
  | bool (b : Bool) : LeafRelated (.bool b) (.bool b)
  | str (s : PyStr) : LeafRelated (.str s) (.str s)
  | number {a e : Json} {x : ℤ} (ha : exactUnits a = some x) (he : exactUnits e = some x) :
    LeafRelated a e
  | close {a e : Json} {x y : Finite} (ha : floatOf a = some x) (he : floatOf e = some y)
    (hfloat : isFloat a = true ∨ isFloat e = true) (h : WithinTolerance x y) : LeafRelated a e
  | nullEmpty : LeafRelated .null (.arr [])
  | emptyNull : LeafRelated (.arr []) .null

/-- The structural relation. -/
inductive Related : Json → Json → Prop
  | leaf {a e : Json} (h : LeafRelated a e) : Related a e
  | arr {as es : List Json} (hlength : as.length = es.length)
    (h : ∀ p ∈ as.zip es, Related p.1 p.2) : Related (.arr as) (.arr es)
  | obj {as es : Dict} (hkeys : ∀ key, Dict.contains as key = Dict.contains es key)
    (h : ∀ key a e, Dict.lookup as key = some a → Dict.lookup es key = some e → Related a e) :
    Related (.obj as) (.obj es)

/-- Finite floats, integers within the range of floats, and each key once. -/
inductive InRange : Json → Prop
  | null : InRange .null
  | bool (b : Bool) : InRange (.bool b)
  | int {n : ℤ} (h : Float64.ofInt n ≠ none) : InRange (.int n)
  | float (x : Finite) : InRange (.float (.finite x))
  | str (s : PyStr) : InRange (.str s)
  | arr {items : List Json} (h : ∀ item ∈ items, InRange item) : InRange (.arr items)
  | obj {items : List (PyStr × Json)} (hkeys : (items.map Prod.fst).Nodup)
    (h : ∀ member ∈ items, InRange member.2) : InRange (.obj items)

theorem lookup_of_mem {d : Dict} (hkeys : (d.map Prod.fst).Nodup) {member : PyStr × Json}
    (h : member ∈ d) : Dict.lookup d member.1 = some member.2 := by
  induction d with
  | nil => cases h
  | cons first rest ih =>
    rw [List.map_cons, List.nodup_cons] at hkeys
    rcases List.mem_cons.mp h with rfl | h
    · simp [Dict.lookup]
    · have hne : first.1 ≠ member.1 := fun heq => hkeys.1 (heq ▸ List.mem_map_of_mem h)
      have hrest := ih hkeys.2 h
      simpa [Dict.lookup, hne] using hrest

theorem mem_of_lookup {d : Dict} {key : PyStr} {v : Json} (h : Dict.lookup d key = some v) :
    (key, v) ∈ d := by
  obtain ⟨member, hfind, rfl⟩ := Option.map_eq_some_iff.mp h
  have hkey : member.1 = key := by simpa using List.find?_some hfind
  rw [← hkey]
  exact List.mem_of_find?_eq_some hfind

theorem contains_iff {d : Dict} {key : PyStr} :
    Dict.contains d key = true ↔ key ∈ d.map Prod.fst := by
  simp [Dict.contains, Dict.lookup]

/-- With each key once, as many keys that are all found are the same keys. -/
theorem sameKeys_iff {as es : Dict} (has : (as.map Prod.fst).Nodup)
    (hes : (es.map Prod.fst).Nodup) :
    sameKeys as es = true ↔ ∀ key, Dict.contains as key = Dict.contains es key := by
  have hmem : (∀ key, Dict.contains as key = Dict.contains es key) ↔
      ∀ key, key ∈ as.map Prod.fst ↔ key ∈ es.map Prod.fst :=
    forall_congr' fun key => Bool.eq_iff_iff.trans (iff_congr contains_iff contains_iff)
  rw [hmem, ← List.perm_ext_iff_of_nodup has hes, sameKeys, Bool.and_eq_true, decide_eq_true_iff,
    List.all_eq_true]
  constructor
  · rintro ⟨hlength, hall⟩
    have hsubset : as.map Prod.fst ⊆ es.map Prod.fst := by
      intro key hkey
      obtain ⟨member, hmember, rfl⟩ := List.mem_map.mp hkey
      exact contains_iff.mp (hall member hmember)
    exact (List.subperm_of_subset has hsubset).perm_of_length_le (by simp [hlength])
  · intro hperm
    refine ⟨by simpa using hperm.length_eq, fun member hmember => ?_⟩
    exact contains_iff.mpr (hperm.mem_iff.mp (List.mem_map_of_mem hmember))

/-- The parts of a value, on the left side, are smaller. -/
@[elab_as_elim]
theorem parts_induct {motive : Json → Json → Prop}
    (step : ∀ a e, (∀ pairs, parts a e = some pairs → ∀ p ∈ pairs, motive p.1 p.2) → motive a e)
    (a e : Json) : motive a e := by
  induction a using Json.induct generalizing e with
  | arr items ih =>
    refine step _ e fun pairs hpairs p hp => ?_
    cases e with
    | arr es =>
      simp only [parts] at hpairs
      split_ifs at hpairs
      obtain rfl := Option.some.inj hpairs
      exact ih p.1 (List.of_mem_zip hp).1 p.2
    | _ => cases hpairs
  | obj items ih =>
    refine step _ e fun pairs hpairs p hp => ?_
    cases e with
    | obj es =>
      simp only [parts] at hpairs
      split_ifs at hpairs
      obtain rfl := Option.some.inj hpairs
      obtain ⟨member, hmember, rfl⟩ := List.mem_map.mp hp
      exact ih member hmember _
    | _ => cases hpairs
  | _ => exact step _ e fun pairs hpairs => by cases hpairs

/-- The value of a key that is there. -/
theorem getD_mem {d : Dict} {key : PyStr} (h : Dict.contains d key = true) :
    (key, Dict.getD d key .null) ∈ d := by
  obtain ⟨v, hv⟩ := Option.isSome_iff_exists.mp h
  have hget : Dict.getD d key .null = v := by
    unfold Dict.getD
    rw [hv]
    rfl
  rw [hget]
  exact mem_of_lookup hv

theorem sameKeys_contains {as es : Dict} (h : sameKeys as es = true) {member : PyStr × Json}
    (hmember : member ∈ as) : Dict.contains es member.1 = true := by
  rw [sameKeys, Bool.and_eq_true, List.all_eq_true] at h
  exact h.2 member hmember

/-- An item of a list or a value of an object. -/
def Child : Json → Json → Prop
  | .arr items, c => c ∈ items
  | .obj members, c => ∃ member ∈ members, member.2 = c
  | _, _ => False

theorem parts_children {a e : Json} {pairs : List (Json × Json)} (h : parts a e = some pairs) :
    ∀ p ∈ pairs, Child a p.1 ∧ Child e p.2 := by
  intro p hp
  cases a with
  | arr as =>
    cases e with
    | arr es =>
      simp only [Comparison.parts] at h
      split_ifs at h
      obtain rfl := Option.some.inj h
      exact List.of_mem_zip hp
    | _ => cases h
  | obj as =>
    cases e with
    | obj es =>
      simp only [Comparison.parts] at h
      split_ifs at h with hkeys
      obtain rfl := Option.some.inj h
      obtain ⟨member, hmember, rfl⟩ := List.mem_map.mp hp
      exact ⟨⟨member, hmember, rfl⟩, _, getD_mem (sameKeys_contains hkeys hmember), rfl⟩
    | _ => cases h
  | _ => cases h

theorem InRange.child {j c : Json} (hj : InRange j) (h : Child j c) : InRange c := by
  cases hj with
  | arr hitems => exact hitems c h
  | obj _ hmembers =>
    obtain ⟨member, hmember, rfl⟩ := h
    exact hmembers member hmember
  | _ => exact h.elim

theorem InRange.parts {a e : Json} (ha : InRange a) (he : InRange e)
    {pairs : List (Json × Json)} (h : parts a e = some pairs) :
    ∀ p ∈ pairs, InRange p.1 ∧ InRange p.2 :=
  fun p hp => ⟨ha.child (parts_children h p hp).1, he.child (parts_children h p hp).2⟩

theorem itemsEq_iff {as es : List Json} :
    itemsEq as es = true ↔ as.length = es.length ∧
      ∀ p ∈ as.zip es, identical p.1 p.2 = true ∨ pyEq p.1 p.2 = true := by
  induction as generalizing es with
  | nil => cases es <;> simp [itemsEq]
  | cons a as ih =>
    cases es with
    | nil => simp [itemsEq]
    | cons e es =>
      rw [itemsEq, Bool.and_eq_true, Bool.or_eq_true, ih, List.zip_cons_cons,
        List.forall_mem_cons, List.length_cons, List.length_cons, Nat.add_right_cancel_iff]
      exact and_left_comm

theorem membersEq_iff {as es : Dict} :
    membersEq as es = true ↔ (∀ member ∈ as, Dict.contains es member.1 = true) ∧
      ∀ p ∈ valuePairs as es, identical p.1 p.2 = true ∨ pyEq p.1 p.2 = true := by
  induction as with
  | nil => simp [membersEq, valuePairs]
  | cons member rest ih =>
    obtain ⟨key, a⟩ := member
    have hpairs : valuePairs ((key, a) :: rest) es =
        (a, Dict.getD es key .null) :: valuePairs rest es := rfl
    rw [membersEq, Bool.and_eq_true, ih, hpairs, List.forall_mem_cons, List.forall_mem_cons]
    cases h : Dict.lookup es key with
    | none => simp [Dict.contains, h]
    | some e =>
      have hcontains : Dict.contains es key = true := by
        unfold Dict.contains
        rw [h]
        rfl
      have hget : Dict.getD es key .null = e := by
        unfold Dict.getD
        rw [h]
        rfl
      rw [hcontains, hget, Bool.or_eq_true]
      tauto

/-- `==` on values with parts. -/
theorem pyEq_parts {a e : Json} {pairs : List (Json × Json)} (h : parts a e = some pairs) :
    pyEq a e = true ↔ ∀ p ∈ pairs, identical p.1 p.2 = true ∨ pyEq p.1 p.2 = true := by
  cases a with
  | arr as =>
    cases e with
    | arr es =>
      simp only [parts] at h
      split_ifs at h with hlength
      obtain rfl := Option.some.inj h
      rw [pyEq, itemsEq_iff]
      exact and_iff_right hlength
    | _ => cases h
  | obj as =>
    cases e with
    | obj es =>
      simp only [parts] at h
      split_ifs at h with hkeys
      obtain rfl := Option.some.inj h
      have hlength : as.length = es.length := by
        rw [sameKeys, Bool.and_eq_true] at hkeys
        exact of_decide_eq_true hkeys.1
      rw [pyEq, Bool.and_eq_true, membersEq_iff, decide_eq_true_iff]
      exact ⟨fun h => h.2.2,
        fun h => ⟨hlength, fun _ hmember => sameKeys_contains hkeys hmember, h⟩⟩
    | _ => cases h
  | _ => cases h

/-- `==` on values without parts. -/
theorem pyEq_of_no_parts {a e : Json} (h : parts a e = none) : pyEq a e = scalarEq a e := by
  cases a with
  | arr as =>
    cases e with
    | arr es =>
      simp only [parts] at h
      split_ifs at h with hlength
      refine (Bool.eq_false_iff.mpr fun heq => ?_).trans (by rfl)
      rw [pyEq] at heq
      exact hlength (itemsEq_iff.mp heq).1
    | _ => rfl
  | obj as =>
    cases e with
    | obj es =>
      simp only [parts] at h
      split_ifs at h with hkeys
      refine (Bool.eq_false_iff.mpr fun heq => hkeys ?_).trans (by rfl)
      rw [pyEq, Bool.and_eq_true] at heq
      rw [sameKeys, Bool.and_eq_true, List.all_eq_true]
      exact ⟨heq.1, (membersEq_iff.mp heq.2).1⟩
    | _ => rfl
  | _ => cases e <;> rfl

/-- The second pair stands at one place of the first. -/
inductive Aligned : Json → Json → Json → Json → Prop
  | here {a e : Json} : Aligned a e a e
  | part {a e x y u v : Json} {pairs : List (Json × Json)} (hparts : parts a e = some pairs)
    (hp : (x, y) ∈ pairs) (h : Aligned x y u v) : Aligned a e u v

/-- All pairs without parts at the same place pass the test. -/
def Everywhere (leaf : Json → Json → Prop) (a e : Json) : Prop :=
  ∀ u v, Aligned a e u v → parts u v = none → leaf u v

section
variable {leaf relation : Json → Json → Prop} {a e : Json}

theorem everywhere_of_none (h : parts a e = none) : Everywhere leaf a e ↔ leaf a e := by
  constructor
  · exact fun hall => hall a e .here h
  · intro hleaf u v haligned _
    cases haligned with
    | here => exact hleaf
    | part hparts =>
      rw [h] at hparts
      cases hparts

theorem everywhere_of_some {pairs : List (Json × Json)} (h : parts a e = some pairs) :
    Everywhere leaf a e ↔ ∀ p ∈ pairs, Everywhere leaf p.1 p.2 := by
  constructor
  · exact fun hall p hp u v haligned hnone => hall u v (.part h hp haligned) hnone
  · intro hall u v haligned hnone
    cases haligned with
    | here =>
      rw [h] at hnone
      cases hnone
    | part hparts hp haligned =>
      rw [h] at hparts
      obtain rfl := Option.some.inj hparts
      exact hall _ hp u v haligned hnone

/-- A relation that is one of pairs without parts, and goes part by part otherwise. -/
theorem iff_everywhere
    (hnone : ∀ a e, InRange a → InRange e → parts a e = none → (relation a e ↔ leaf a e))
    (hsome : ∀ a e pairs, InRange a → InRange e → parts a e = some pairs →
      (relation a e ↔ ∀ p ∈ pairs, relation p.1 p.2))
    (ha : InRange a) (he : InRange e) : relation a e ↔ Everywhere leaf a e := by
  induction a, e using parts_induct with
  | step a e ih =>
    cases h : parts a e with
    | none => rw [hnone a e ha he h, everywhere_of_none h]
    | some pairs =>
      rw [hsome a e pairs ha he h, everywhere_of_some h]
      refine forall₂_congr fun p hp => ?_
      obtain ⟨hp₁, hp₂⟩ := ha.parts he h p hp
      exact ih pairs h p hp hp₁ hp₂

end

/-- Pairs without parts that `_values_match` accepts. -/
def LeafAlike (a e : Json) : Prop := scalarEq a e = true ∨ leafMatch a e = .ok true

theorem alike_iff_everywhere {a e : Json} (ha : InRange a) (he : InRange e) :
    Alike a e ↔ Everywhere LeafAlike a e := by
  refine iff_everywhere ?_ ?_ ha he
  · intro a e _ _ hnone
    constructor
    · intro h
      cases h with
      | equal h => exact .inl (pyEq_of_no_parts hnone ▸ h)
      | leaf h => exact .inr h
      | parts h =>
        rw [hnone] at h
        cases h
    · rintro (h | h)
      · exact .equal ((pyEq_of_no_parts hnone).trans h)
      · exact .leaf h
  · intro a e pairs ha he hsome
    constructor
    · intro h p hp
      cases h with
      | equal h =>
        rcases (pyEq_parts hsome).mp h p hp with hnan | h
        · -- there is no NaN in range
          have hrange := (ha.parts he hsome p hp).1
          rw [(eq_nan_of_identical hnan).1] at hrange
          cases hrange
        · exact .equal h
      | leaf h =>
        rw [leafMatch_of_parts hsome] at h
        cases h
      | parts hparts h =>
        rw [hsome] at hparts
        obtain rfl := Option.some.inj hparts
        exact h p hp
    · exact .parts hsome

theorem LeafRelated.no_parts {a e : Json} (h : LeafRelated a e) : parts a e = none := by
  cases h with
  | number ha he =>
    cases a with
    | arr as => cases ha
    | obj as => cases ha
    | _ => rfl
  | close ha he =>
    cases a with
    | arr as => cases ha
    | obj as => cases ha
    | _ => rfl
  | _ => rfl

/-- A pair without parts is related as a leaf. -/
theorem related_iff_leaf {a e : Json} (ha : InRange a) (he : InRange e) (hnone : parts a e = none) :
    Related a e ↔ LeafRelated a e := by
  constructor
  · intro h
    cases h with
    | leaf h => exact h
    | arr hlength =>
      simp only [parts] at hnone
      rw [if_pos hlength] at hnone
      cases hnone
    | obj hkeys =>
      cases ha with
      | obj has =>
        cases he with
        | obj hes =>
          simp only [parts] at hnone
          rw [if_pos ((sameKeys_iff has hes).mpr hkeys)] at hnone
          cases hnone
  · exact .leaf

/-- Related values have related parts. -/
theorem related_parts {a e : Json} {pairs : List (Json × Json)} (ha : InRange a) (he : InRange e)
    (hsome : parts a e = some pairs) (h : Related a e) : ∀ p ∈ pairs, Related p.1 p.2 := by
  cases h with
  | leaf h =>
    rw [h.no_parts] at hsome
    cases hsome
  | arr hlength h =>
    simp only [parts] at hsome
    rw [if_pos hlength] at hsome
    obtain rfl := Option.some.inj hsome
    exact h
  | obj hkeys h =>
    cases ha with
    | obj has =>
      cases he with
      | obj hes =>
        have hsame := (sameKeys_iff has hes).mpr hkeys
        simp only [parts] at hsome
        rw [if_pos hsame] at hsome
        obtain rfl := Option.some.inj hsome
        intro p hp
        obtain ⟨member, hmember, rfl⟩ := List.mem_map.mp hp
        exact h member.1 _ _ (lookup_of_mem has hmember)
          (lookup_of_mem hes (getD_mem (sameKeys_contains hsame hmember)))

/-- Values with related parts are related. -/
theorem related_of_parts {a e : Json} {pairs : List (Json × Json)} (ha : InRange a)
    (he : InRange e) (hsome : parts a e = some pairs) (h : ∀ p ∈ pairs, Related p.1 p.2) :
    Related a e := by
  cases a with
  | arr as =>
    cases e with
    | arr es =>
      simp only [parts] at hsome
      split_ifs at hsome with hlength
      obtain rfl := Option.some.inj hsome
      exact .arr hlength h
    | _ => cases hsome
  | obj as =>
    cases e with
    | obj es =>
      simp only [parts] at hsome
      split_ifs at hsome with hsame
      obtain rfl := Option.some.inj hsome
      cases ha with
      | obj has =>
        cases he with
        | obj hes =>
          refine .obj ((sameKeys_iff has hes).mp hsame) fun key x y hx hy => ?_
          have hget : Dict.getD es key .null = y := by
            unfold Dict.getD
            rw [hy]
            rfl
          have hp := h _ (List.mem_map_of_mem (mem_of_lookup hx))
          rw [← hget]
          exact hp
    | _ => cases hsome
  | _ => cases hsome

theorem related_iff_everywhere {a e : Json} (ha : InRange a) (he : InRange e) :
    Related a e ↔ Everywhere LeafRelated a e :=
  iff_everywhere (fun _ _ => related_iff_leaf)
    (fun _ _ _ ha he hsome => ⟨related_parts ha he hsome, related_of_parts ha he hsome⟩) ha he

/-- The value of a Boolean as a number. -/
def boolUnits (b : Bool) : ℤ := if b then one else 0

/-- A Boolean, and a number that is equal to it in Python. -/
def BoolNumber (a e : Json) : Prop :=
  (∃ b, a = .bool b ∧ exactUnits e = some (boolUnits b)) ∨
    ∃ b, e = .bool b ∧ exactUnits a = some (boolUnits b)

/-- Two numbers, one of them a float, and the floats that are compared. -/
structure FloatPair (a e : Json) (x y : Finite) : Prop where
  actual : floatOf a = some x
  expected : floatOf e = some y
  float : isFloat a = true ∨ isFloat e = true

/-- The value of a number or a Boolean. -/
def numberUnits : Json → Option ℤ
  | .bool b => some (boolUnits b)
  | v => exactUnits v

theorem one_ne_zero_units : (one : ℤ) ≠ 0 := by
  unfold one
  positivity

theorem asInt_units {v : Json} {n : ℤ} (h : asInt v = some n) : numberUnits v = some (n * one) := by
  cases v with
  | bool b =>
    obtain rfl := Option.some.inj h
    cases b with
    | false => exact congrArg some (zero_mul _).symm
    | true => exact congrArg some (one_mul _).symm
  | int m =>
    obtain rfl := Option.some.inj h
    rfl
  | _ => cases h

theorem scalarEq_int {a e : Json} {m n : ℤ} (ha : asInt a = some m) (he : asInt e = some n) :
    scalarEq a e = decide (m = n) := by
  cases a with
  | bool b =>
    obtain rfl := Option.some.inj ha
    cases e with
    | bool c =>
      obtain rfl := Option.some.inj he
      rfl
    | int n =>
      obtain rfl := Option.some.inj he
      rfl
    | _ => cases he
  | int m =>
    obtain rfl := Option.some.inj ha
    cases e with
    | bool c =>
      obtain rfl := Option.some.inj he
      rfl
    | int n =>
      obtain rfl := Option.some.inj he
      rfl
    | _ => cases he
  | _ => cases ha

theorem scalarEq_float_int {e : Json} {n : ℤ} (x : Finite) (he : asInt e = some n) :
    (scalarEq (.float (.finite x)) e = true ↔ x.units = n * one) ∧
      (scalarEq e (.float (.finite x)) = true ↔ n * one = x.units) := by
  have heq : scalarEq (.float (.finite x)) e = decide (x.units = n * one) ∧
      scalarEq e (.float (.finite x)) = decide (x.units = n * one) := by
    cases e with
    | bool b =>
      obtain rfl := Option.some.inj he
      exact ⟨rfl, rfl⟩
    | int m =>
      obtain rfl := Option.some.inj he
      exact ⟨rfl, rfl⟩
    | _ => cases he
  rw [heq.1, heq.2, decide_eq_true_iff]
  exact ⟨Iff.rfl, eq_comm⟩

/-- A number or a Boolean in range is an integer, or a finite float. -/
theorem number_cases {v : Json} {x : ℤ} (hv : InRange v) (h : numberUnits v = some x) :
    (∃ n, asInt v = some n ∧ x = n * one) ∨ ∃ y, v = .float (.finite y) ∧ x = y.units := by
  cases hv with
  | bool b =>
    have hn : asInt (.bool b) = some _ := rfl
    exact .inl ⟨_, hn, Option.some.inj (h.symm.trans (asInt_units hn))⟩
  | int hn =>
    obtain rfl := Option.some.inj h
    exact .inl ⟨_, rfl, rfl⟩
  | float y =>
    obtain rfl := Option.some.inj h
    exact .inr ⟨y, rfl, rfl⟩
  | _ => cases h

theorem scalarEq_number {a e : Json} {x y : ℤ} (ha : InRange a) (he : InRange e)
    (hx : numberUnits a = some x) (hy : numberUnits e = some y) :
    scalarEq a e = true ↔ x = y := by
  rcases number_cases ha hx with ⟨m, hm, rfl⟩ | ⟨f, rfl, rfl⟩
  · rcases number_cases he hy with ⟨n, hn, rfl⟩ | ⟨g, rfl, rfl⟩
    · rw [scalarEq_int hm hn, decide_eq_true_iff, mul_left_inj' one_ne_zero_units]
    · exact (scalarEq_float_int g hm).2
  · rcases number_cases he hy with ⟨n, hn, rfl⟩ | ⟨g, rfl, rfl⟩
    · exact (scalarEq_float_int f hn).1
    · exact decide_eq_true_iff

/-- `==` on scalars: the same null, the same string, or the same number, Booleans being
numbers. -/
theorem scalarEq_iff {a e : Json} (ha : InRange a) (he : InRange e) :
    scalarEq a e = true ↔ (a = .null ∧ e = .null) ∨ (∃ s, a = .str s ∧ e = .str s) ∨
      ∃ x, numberUnits a = some x ∧ numberUnits e = some x := by
  cases hx : numberUnits a with
  | some x =>
    cases hy : numberUnits e with
    | some y =>
      rw [scalarEq_number ha he hx hy]
      constructor
      · rintro rfl
        exact .inr (.inr ⟨x, rfl, rfl⟩)
      · rintro (⟨rfl, -⟩ | ⟨s, rfl, -⟩ | ⟨z, hz, hz'⟩)
        · cases hx
        · cases hx
        · exact Option.some.inj (hz.trans hz'.symm)
    | none =>
      -- Only numbers are equal to a number.
      refine iff_of_false ?_ ?_
      · cases ha <;> cases hx <;> cases he <;> cases hy <;> simp [scalarEq, asInt]
      · rintro (⟨rfl, -⟩ | ⟨s, rfl, -⟩ | ⟨z, -, hz⟩)
        · cases hx
        · cases hx
        · cases hz
  | none =>
    have hnot : ¬ ∃ x, (none : Option ℤ) = some x ∧ numberUnits e = some x := by simp
    rw [or_iff_left hnot]
    cases ha with
    | null =>
      cases he with
      | null => exact iff_of_true rfl (.inl ⟨rfl, rfl⟩)
      | _ => exact iff_of_false (by simp [scalarEq, asInt]) (by simp)
    | str s =>
      cases he with
      | str t => simp [scalarEq, eq_comm]
      | _ => exact iff_of_false (by simp [scalarEq, asInt]) (by simp)
    | arr _ => cases he <;> exact iff_of_false (by simp [scalarEq, asInt]) (by simp)
    | obj _ _ => cases he <;> exact iff_of_false (by simp [scalarEq, asInt]) (by simp)
    | _ => cases hx

theorem floatOf_units {v : Json} {x : Finite} (h : floatOf v = some x) :
    numberUnits v = exactUnits v ∧ ∃ z, exactUnits v = some z := by
  cases v with
  | int n => exact ⟨rfl, _, rfl⟩
  | float y =>
    cases y with
    | finite y => exact ⟨rfl, _, rfl⟩
    | _ => cases h
  | _ => cases h

theorem floatOf_int {n : ℤ} {x : Finite} :
    floatOf (.int n) = some x ↔ Float64.ofInt n = some (.finite x) := by
  rw [floatOf, Option.bind_eq_some_iff]
  constructor
  · rintro ⟨y, hy, hx⟩
    cases y with
    | finite y =>
      obtain rfl := Option.some.inj hx
      exact hy
    | _ => cases hx
  · exact fun h => ⟨_, h, rfl⟩

theorem leafMatch_pair {a e : Json} {x y : Finite} (h : FloatPair a e x y) :
    leafMatch a e = .ok (floatsClose (.finite x) (.finite y)) := by
  have hint : ∀ {n : ℤ} {z : Finite}, floatOf (.int n) = some z →
      floatOfInt n = .ok (.finite z) := by
    intro n z hz
    unfold floatOfInt
    rw [floatOf_int.mp hz]
  obtain ⟨ha, he, hfloat⟩ := h
  cases a with
  | int n =>
    cases e with
    | float w =>
      cases w with
      | finite w =>
        obtain rfl := Option.some.inj he
        rw [leafMatch, hint ha]
        rfl
      | _ => cases he
    | int m => rcases hfloat with h | h <;> cases h
    | _ => cases he
  | float z =>
    cases z with
    | finite z =>
      obtain rfl := Option.some.inj ha
      cases e with
      | float w =>
        cases w with
        | finite w =>
          obtain rfl := Option.some.inj he
          rfl
        | _ => cases he
      | int n =>
        rw [leafMatch, hint he]
        rfl
      | _ => cases he
    | _ => cases ha
  | _ => cases ha

theorem exists_floatPair_int {n : ℤ} (h : Float64.ofInt n ≠ none) (y : Finite) :
    (∃ x z, FloatPair (.int n) (.float (.finite y)) x z) ∧
      ∃ x z, FloatPair (.float (.finite y)) (.int n) x z := by
  obtain ⟨x, hx⟩ := Float64.ofInt_finite h
  exact ⟨⟨x, y, floatOf_int.mpr hx, rfl, .inr rfl⟩, y, x, rfl, floatOf_int.mpr hx, .inl rfl⟩

/-- The other rules of `_values_match` for pairs without parts. -/
theorem leafMatch_iff {a e : Json} (ha : InRange a) (he : InRange e) :
    leafMatch a e = .ok true ↔ (a = .null ∧ e = .arr []) ∨ (a = .arr [] ∧ e = .null) ∨
      ∃ x y, FloatPair a e x y ∧ floatsClose (.finite x) (.finite y) = true := by
  by_cases hpair : ∃ x y, FloatPair a e x y
  · obtain ⟨x, y, hpair⟩ := hpair
    rw [leafMatch_pair hpair, Except.ok.injEq]
    constructor
    · exact fun h => .inr (.inr ⟨x, y, hpair, h⟩)
    · rintro (⟨rfl, -⟩ | ⟨rfl, -⟩ | ⟨x', y', hpair', h⟩)
      · cases hpair.actual
      · cases hpair.actual
      · obtain rfl := Option.some.inj (hpair.actual.symm.trans hpair'.actual)
        obtain rfl := Option.some.inj (hpair.expected.symm.trans hpair'.expected)
        exact h
  · have hnot : ¬ ∃ x y, FloatPair a e x y ∧ floatsClose (.finite x) (.finite y) = true :=
      fun ⟨x, y, h, _⟩ => hpair ⟨x, y, h⟩
    rw [or_iff_left hnot]
    cases ha with
    | null =>
      cases he with
      | arr _ => rename_i es _; cases es <;> simp [leafMatch]
      | _ => simp [leafMatch]
    | arr _ => rename_i as _; cases as <;> cases he <;> simp [leafMatch]
    | int hn =>
      cases he with
      | float y => exact absurd (exists_floatPair_int hn y).1 hpair
      | _ => simp [leafMatch]
    | float x =>
      cases he with
      | float y => exact absurd ⟨x, y, rfl, rfl, .inl rfl⟩ hpair
      | int hn => exact absurd (exists_floatPair_int hn x).2 hpair
      | _ => simp [leafMatch]
    | _ => cases he <;> simp [leafMatch]

/-- A number with the value of a float is converted to that value. -/
theorem floatOf_exact {v : Json} {x y : Finite} (h : floatOf v = some x)
    (hunits : exactUnits v = some y.units) : x.units = y.units := by
  cases v with
  | int n =>
    have hn : n * (one : ℤ) = y.units := Option.some.inj hunits
    have habs : (n * (one : ℤ)).natAbs = y.mantissa * 2 ^ y.shift := by
      rw [hn]
      exact y.natAbs_units
    obtain ⟨z, hz, hz'⟩ := ofUnits_exact habs y.valid.1 y.valid.2.1
    have hx := (floatOf_int.mp h).symm.trans (ofInt_of_ofUnits hz)
    obtain rfl := Float64.finite.inj (Option.some.inj hx)
    exact hz'.trans hn
  | float w =>
    cases w with
    | finite w =>
      obtain rfl := Option.some.inj h
      exact Option.some.inj hunits
    | _ => cases h
  | _ => cases h

/-- Equal numbers are within the tolerance. -/
theorem FloatPair.within {a e : Json} {x y : Finite} (h : FloatPair a e x y)
    (heq : exactUnits a = exactUnits e) : WithinTolerance x y := by
  have hfloat : ∀ {v : Json} {z : Finite}, isFloat v = true → floatOf v = some z →
      exactUnits v = some z.units := by
    intro v z hv hz
    cases v with
    | float w =>
      cases w with
      | finite w =>
        obtain rfl := Option.some.inj hz
        rfl
      | _ => cases hz
    | _ => cases hv
  have hunits : x.units = y.units := by
    rcases h.float with hf | hf
    · exact (floatOf_exact h.expected (heq.symm.trans (hfloat hf h.actual))).symm
    · exact floatOf_exact h.actual (heq.trans (hfloat hf h.expected))
  unfold WithinTolerance
  rw [hunits, sub_self, abs_zero, mul_zero]
  exact le_max_of_le_right (le_max_of_le_left (abs_nonneg _))

section
variable {a e : Json} {x y : Finite}

/-- Two numbers are within the tolerance for `_floats_close` only. -/
def Lenient (a e : Json) : Prop :=
  ∃ x y, FloatPair a e x y ∧ floatsClose (.finite x) (.finite y) = true ∧ ¬ WithinTolerance x y

/-- Two different numbers are within the tolerance in exact arithmetic only. -/
def Strict (a e : Json) : Prop :=
  ∃ x y, FloatPair a e x y ∧ floatsClose (.finite x) (.finite y) = false ∧ WithinTolerance x y ∧
    exactUnits a ≠ exactUnits e

/-- The number of a value that is no Boolean. -/
theorem bool_or_exact {v : Json} {z : ℤ} (h : numberUnits v = some z) :
    (∃ b, v = .bool b ∧ z = boolUnits b) ∨ exactUnits v = some z := by
  cases v with
  | bool b => exact .inl ⟨b, rfl, (Option.some.inj h).symm⟩
  | _ => exact .inr h

theorem of_scalarEq (ha : InRange a) (he : InRange e) (h : scalarEq a e = true) :
    LeafRelated a e ∨ BoolNumber a e := by
  rcases (scalarEq_iff ha he).mp h with ⟨rfl, rfl⟩ | ⟨s, rfl, rfl⟩ | ⟨z, hz, hz'⟩
  · exact .inl .null
  · exact .inl (.str s)
  · rcases bool_or_exact hz with ⟨b, rfl, hb⟩ | hz
    · rcases bool_or_exact hz' with ⟨c, rfl, hc⟩ | hz'
      · have hone := one_ne_zero_units
        have hbc : b = c := by
          rw [hb] at hc
          cases b <;> cases c
          · rfl
          · exact absurd hc.symm hone
          · exact absurd hc hone
          · rfl
        rw [hbc]
        exact .inl (.bool c)
      · exact .inr (.inl ⟨b, rfl, hb ▸ hz'⟩)
    · rcases bool_or_exact hz' with ⟨c, rfl, hc⟩ | hz'
      · exact .inr (.inr ⟨c, rfl, hc ▸ hz⟩)
      · exact .inl (.number hz hz')

theorem numberUnits_of_exact {v : Json} {z : ℤ} (h : exactUnits v = some z) :
    numberUnits v = some z := by
  cases v with
  | bool b => cases h
  | _ => exact h

theorem BoolNumber.not_related (h : BoolNumber a e) : ¬ LeafRelated a e := by
  intro hrelated
  rcases h with ⟨b, rfl, hb⟩ | ⟨b, rfl, hb⟩
  · cases hrelated with
    | bool => cases hb
    | number ha he => cases ha
    | close ha he => cases ha
  · cases hrelated with
    | bool => cases hb
    | number ha he => cases he
    | close ha he => cases he

theorem BoolNumber.scalarEq (h : BoolNumber a e) (ha : InRange a) (he : InRange e) :
    scalarEq a e = true := by
  rcases h with ⟨b, rfl, hb⟩ | ⟨b, rfl, hb⟩
  · exact (scalarEq_iff ha he).mpr (.inr (.inr ⟨_, rfl, numberUnits_of_exact hb⟩))
  · exact (scalarEq_iff ha he).mpr (.inr (.inr ⟨_, numberUnits_of_exact hb, rfl⟩))

/-- The pairs that the code accepts and the relation does not. -/
theorem alike_not_related_iff (ha : InRange a) (he : InRange e) :
    LeafAlike a e ∧ ¬ LeafRelated a e ↔ BoolNumber a e ∨ Lenient a e := by
  constructor
  · rintro ⟨halike | hmatch, hnot⟩
    · exact .inl ((of_scalarEq ha he halike).resolve_left hnot)
    · rcases (leafMatch_iff ha he).mp hmatch with ⟨rfl, rfl⟩ | ⟨rfl, rfl⟩ | ⟨x, y, hpair, hclose⟩
      · exact absurd .nullEmpty hnot
      · exact absurd .emptyNull hnot
      · refine .inr ⟨x, y, hpair, hclose, fun hwithin => hnot ?_⟩
        exact .close hpair.actual hpair.expected hpair.float hwithin
  · rintro (h | ⟨x, y, hpair, hclose, hnot⟩)
    · exact ⟨.inl (h.scalarEq ha he), h.not_related⟩
    · refine ⟨.inr ((leafMatch_iff ha he).mpr (.inr (.inr ⟨x, y, hpair, hclose⟩))), ?_⟩
      intro hrelated
      cases hrelated with
      | number hz hz' => exact hnot (hpair.within (hz.trans hz'.symm))
      | close hx hy _ hwithin =>
        obtain rfl := Option.some.inj (hx.symm.trans hpair.actual)
        obtain rfl := Option.some.inj (hy.symm.trans hpair.expected)
        exact hnot hwithin
      | null => cases hpair.actual
      | bool => cases hpair.actual
      | str => cases hpair.actual
      | nullEmpty => cases hpair.actual
      | emptyNull => cases hpair.actual

/-- The pairs that are related and that the code does not accept. -/
theorem related_not_alike_iff (ha : InRange a) (he : InRange e) :
    LeafRelated a e ∧ ¬ LeafAlike a e ↔ Strict a e := by
  have hscalar := scalarEq_iff ha he
  have hequal : ∀ {z : ℤ}, exactUnits a = some z → exactUnits e = some z → LeafAlike a e :=
    fun hz hz' => .inl (hscalar.mpr (.inr (.inr ⟨_, numberUnits_of_exact hz,
      numberUnits_of_exact hz'⟩)))
  constructor
  · rintro ⟨hrelated, hnot⟩
    cases hrelated with
    | number hz hz' => exact absurd (hequal hz hz') hnot
    | close hx hy hfloat hwithin =>
      have hpair : FloatPair a e _ _ := ⟨hx, hy, hfloat⟩
      refine ⟨_, _, hpair, Bool.eq_false_iff.mpr fun hclose => hnot ?_, hwithin, fun heq => hnot ?_⟩
      · exact .inr ((leafMatch_pair hpair).trans (congrArg _ hclose))
      · obtain ⟨-, z, hz⟩ := floatOf_units hx
        exact hequal hz (heq.symm.trans hz)
    | null => exact absurd (.inl rfl) hnot
    | bool => exact absurd (.inl (hscalar.mpr (.inr (.inr ⟨_, rfl, rfl⟩)))) hnot
    | str => exact absurd (.inl (hscalar.mpr (.inr (.inl ⟨_, rfl, rfl⟩)))) hnot
    | nullEmpty => exact absurd (.inr rfl) hnot
    | emptyNull => exact absurd (.inr rfl) hnot
  · rintro ⟨x, y, hpair, hclose, hwithin, hne⟩
    refine ⟨.close hpair.actual hpair.expected hpair.float hwithin, ?_⟩
    rintro (h | h)
    · rcases hscalar.mp h with ⟨rfl, -⟩ | ⟨s, rfl, -⟩ | ⟨z, hz, hz'⟩
      · cases hpair.actual
      · cases hpair.actual
      · rw [(floatOf_units hpair.actual).1] at hz
        rw [(floatOf_units hpair.expected).1] at hz'
        exact hne (hz.trans hz'.symm)
    · rw [leafMatch_pair hpair, hclose] at h
      cases h

end

theorem Child.depth_lt {j c : Json} (h : Child j c) : depth c < depth j := by
  cases j with
  | arr items =>
    rw [depth]
    exact Nat.lt_succ_of_le (depthItems_le_iff.mp le_rfl _ h)
  | obj members =>
    obtain ⟨member, hmember, rfl⟩ := h
    rw [depth]
    exact Nat.lt_succ_of_le (depthMembers_le_iff.mp le_rfl _ hmember)
  | _ => exact h.elim

theorem Visits.depth_le {a e u v : Json} {n : ℕ} (h : Visits a e n u v) : n ≤ depth a := by
  induction h with
  | here => exact Nat.zero_le _
  | @part a e x y u v before after n _ hparts _ _ ih =>
    have hlt := (parts_children hparts (x, y) (by simp)).1.depth_lt
    exact Nat.succ_le_of_lt (lt_of_le_of_lt ih hlt)

theorem Visits.aligned {a e u v : Json} {n : ℕ} (h : Visits a e n u v) : Aligned a e u v := by
  induction h with
  | here => exact .here
  | part _ hparts _ _ ih => exact .part hparts (by simp) ih

theorem Aligned.inRange {a e u v : Json} (h : Aligned a e u v) (ha : InRange a)
    (he : InRange e) : InRange u ∧ InRange v := by
  induction h with
  | here => exact ⟨ha, he⟩
  | part hparts hp _ ih =>
    obtain ⟨hx, hy⟩ := ha.parts he hparts _ hp
    exact ih hx hy

theorem Overflows.not_inRange {a e : Json} (h : Overflows a e) : ¬ (InRange a ∧ InRange e) := by
  rintro ⟨ha, he⟩
  cases ha with
  | int hn =>
    cases he with
    | float => exact hn h
    | _ => exact h
  | float =>
    cases he with
    | int hn => exact hn h
    | _ => exact h
  | _ => exact h

/-- With room for each level of nesting, the comparison of values in range raises nothing. -/
theorem not_raises {a e : Json} (ha : InRange a) (he : InRange e) {room : ℕ}
    (hroom : depth a < room) : ¬ Raises room a e := by
  rintro ⟨n, u, v, hvisits, hend⟩
  have hle := hvisits.depth_le
  rcases hend with rfl | hover
  · omega
  · exact hover.not_inRange (hvisits.aligned.inRange ha he)

/-- Two tests that agree on all pairs as a whole: where one of them passes a pair that the
other refuses, it refuses another pair itself. -/
theorem everywhere_congr_iff {leaf leaf' : Json → Json → Prop} {a e : Json} :
    (Everywhere leaf a e ↔ Everywhere leaf' a e) ↔
      ((∃ u v, Aligned a e u v ∧ parts u v = none ∧ leaf u v ∧ ¬ leaf' u v) →
        ∃ u v, Aligned a e u v ∧ parts u v = none ∧ ¬ leaf u v) ∧
      ((∃ u v, Aligned a e u v ∧ parts u v = none ∧ leaf' u v ∧ ¬ leaf u v) →
        ∃ u v, Aligned a e u v ∧ parts u v = none ∧ ¬ leaf' u v) := by
  have hnot : ∀ test : Json → Json → Prop, (∃ u v, Aligned a e u v ∧ parts u v = none ∧
      ¬ test u v) ↔ ¬ Everywhere test a e := by
    intro test
    simp [Everywhere]
  rw [hnot, hnot]
  constructor
  · intro h
    constructor
    · rintro ⟨u, v, haligned, hnone, -, hrefused⟩ hall
      exact hrefused (h.mp hall u v haligned hnone)
    · rintro ⟨u, v, haligned, hnone, -, hrefused⟩ hall
      exact hrefused (h.mpr hall u v haligned hnone)
  · rintro ⟨h, h'⟩
    constructor
    · intro hall u v haligned hnone
      by_contra hrefused
      exact h ⟨u, v, haligned, hnone, hall u v haligned hnone, hrefused⟩ hall
    · intro hall u v haligned hnone
      by_contra hrefused
      exact h' ⟨u, v, haligned, hnone, hall u v haligned hnone, hrefused⟩ hall

/-- `_values_match` is the structural relation, unless a pair is judged differently that is
not outweighed by one that is refused. -/
theorem values_match_iff_related (room : ℕ) {a e : Json} (ha : InRange a) (he : InRange e)
    (hroom : depth a < room) :
    (valuesMatch room a e = .ok true ↔ Related a e) ↔
      ((∃ u v, Aligned a e u v ∧ parts u v = none ∧ (BoolNumber u v ∨ Lenient u v)) →
        ∃ u v, Aligned a e u v ∧ parts u v = none ∧ ¬ LeafAlike u v) ∧
      ((∃ u v, Aligned a e u v ∧ parts u v = none ∧ Strict u v) →
        ∃ u v, Aligned a e u v ∧ parts u v = none ∧ ¬ LeafRelated u v) := by
  have hpairs : ∀ {P Q : Json → Json → Prop}, (∀ u v, InRange u → InRange v → (P u v ↔ Q u v)) →
      ((∃ u v, Aligned a e u v ∧ parts u v = none ∧ P u v) ↔
        ∃ u v, Aligned a e u v ∧ parts u v = none ∧ Q u v) := by
    intro P Q h
    refine exists₂_congr fun u v => and_congr_right fun haligned => and_congr_right fun _ => ?_
    obtain ⟨hu, hv⟩ := haligned.inRange ha he
    exact h u v hu hv
  rw [(valuesMatch_decides room a e).true_iff, and_iff_right (not_raises ha he hroom),
    alike_iff_everywhere ha he, related_iff_everywhere ha he, everywhere_congr_iff,
    hpairs fun u v hu hv => alike_not_related_iff hu hv,
    hpairs fun u v hu hv => related_not_alike_iff hu hv]

/-- `[True, None]` is rejected for `[1, False]`, as the two differ elsewhere. -/
theorem differing_lists_judged :
    InRange (.arr [.bool true, .null]) ∧ InRange (.arr [.int 1, .bool false]) ∧
    (valuesMatch 1000 (.arr [.bool true, .null]) (.arr [.int 1, .bool false]) = .ok true ↔
      Related (.arr [.bool true, .null]) (.arr [.int 1, .bool false])) := by
  have hone : Float64.ofInt 1 ≠ none := by decide +kernel
  have ha : InRange (.arr [.bool true, .null]) := .arr (by simp [InRange.bool, InRange.null])
  have he : InRange (.arr [.int 1, .bool false]) := .arr (by simp [InRange.bool, InRange.int hone])
  have haligned : Aligned (.arr [.bool true, .null]) (.arr [.int 1, .bool false]) .null
      (.bool false) := .part rfl (by simp) .here
  have hrefused : ¬ LeafAlike .null (.bool false) := by
    rintro (h | h) <;> cases h
  have hrefused' : ¬ LeafRelated .null (.bool false) := by
    intro h
    cases h with
    | number ha he => cases ha
    | close ha he => cases ha
  exact ⟨ha, he, (values_match_iff_related 1000 ha he (by decide)).mpr
    ⟨fun _ => ⟨_, _, haligned, rfl, hrefused⟩, fun _ => ⟨_, _, haligned, rfl, hrefused'⟩⟩⟩

/-- `True` is accepted for `1`. -/
theorem boolean_accepted_for_number :
    ¬ (valuesMatch 1000 (.bool true) (.int 1) = .ok true ↔ Related (.bool true) (.int 1)) := by
  intro h
  have hrelated := h.mp rfl
  cases hrelated with
  | leaf h =>
    cases h with
    | number ha he => cases ha
    | close ha he => cases ha

end ExecutionEngine.Comparison
