import ExecutionEngine.ComparisonOutcome

/-!
# The looser rules of `_outputs_match`

The rules beyond `_values_match` are meant for the value as a whole: a number and a
string that spells it, and a list of one item and its item. The second rule is
followed into the item, so that all outer lists of one item are taken off both
values, and every rule is tried on what is left. Here it is worked out what is
accepted that way, and from it when integers, strings, lists and values with an
infinity are judged as they should be.
-/
namespace ExecutionEngine.Comparison
open Binary64 Pipeline PyRepr FloatText Decision JsonEncoder

section
variable {printable : CodePoint → Bool}

theorem textsMatch_iff {a e : Json} :
    textsMatch printable a e = true ↔ ∃ s t, pyStr printable a = some s ∧
      pyStr printable e = some t ∧ (s = t ∨ ∃ x y, floatOfStr s = some x ∧
        floatOfStr t = some y ∧ x.eq y = true) := by
  unfold textsMatch
  cases pyStr printable a with
  | none => simp
  | some s =>
    cases pyStr printable e with
    | none => simp
    | some t =>
      cases hs : floatOfStr s with
      | none => simp [hs]
      | some x =>
        cases ht : floatOfStr t with
        | none => simp [ht]
        | some y => simp [hs, ht]

theorem textsMatch_self {v : Json} {s : PyStr} (h : pyStr printable v = some s) :
    textsMatch printable v v = true := textsMatch_iff.mpr ⟨s, s, h, h, .inl rfl⟩

theorem pyStr_of_kind {v : Json} (h : kindOf v ≠ .text) :
    pyStr printable v = valueRepr printable v := by
  cases v with
  | str s => exact absurd rfl h
  | _ => rfl

/-- Of two values, a list or an object and one that is no string, the texts match only if
they are the same. -/
theorem eq_of_textsMatch {a e : Json} (h : textsMatch printable a e = true)
    (ha : kindOf a = .list ∨ kindOf a = .dict) (he : kindOf e ≠ .text) : a = e := by
  have ha' : kindOf a ≠ .text := by
    rcases ha with h | h <;> rw [h] <;> decide
  obtain ⟨s, t, hs, ht, h⟩ := textsMatch_iff.mp h
  rw [pyStr_of_kind ha'] at hs
  rw [pyStr_of_kind he] at ht
  rcases h with rfl | ⟨x, y, hx, -⟩
  · exact valueRepr_injective hs ht
  · -- the text of a list is no number
    rcases floatOfStr_valueRepr ha' hs hx with ⟨n, rfl, -⟩ | rfl
    · rcases ha with h | h <;> cases h
    · rcases ha with h | h <;> cases h

theorem textsMatch_symm {a e : Json} (h : textsMatch printable a e = true) :
    textsMatch printable e a = true := by
  obtain ⟨s, t, hs, ht, h⟩ := textsMatch_iff.mp h
  refine textsMatch_iff.mpr ⟨t, s, ht, hs, ?_⟩
  rcases h with rfl | ⟨x, y, hx, hy, h⟩
  · exact .inl rfl
  · exact .inr ⟨y, x, hy, hx, by rw [Float64.eq_comm]; exact h⟩

/-- What is left of a value when its outer lists of one item are taken off. -/
def core : Json → Json
  | .arr [item] => core item
  | v => v

/-- The value with some of its outer lists of one item taken off. -/
inductive Layer : Json → Json → Prop
  | whole {v : Json} : Layer v v
  | item {v item u : Json} (hitem : onlyItem v = some item) (h : Layer item u) : Layer v u

theorem onlyItem_eq_some {v item : Json} : onlyItem v = some item ↔ v = .arr [item] := by
  constructor
  · intro h
    cases v with
    | arr items =>
      cases items with
      | nil => cases h
      | cons first rest =>
        cases rest with
        | nil =>
          obtain rfl := Option.some.inj h
          rfl
        | cons second rest => cases h
    | _ => cases h
  · rintro rfl
    rfl

theorem core_of_some {v item : Json} (h : onlyItem v = some item) : core v = core item := by
  obtain rfl := onlyItem_eq_some.mp h
  rfl

theorem core_of_none {v : Json} (h : onlyItem v = none) : core v = v := by
  cases v with
  | arr items =>
    cases items with
    | nil => rfl
    | cons first rest =>
      cases rest with
      | nil => cases h
      | cons second rest => rfl
  | _ => rfl

/-- Induction over the outer lists of one item. -/
@[elab_as_elim]
theorem onlyItem_induct {motive : Json → Prop} (bare : ∀ v, onlyItem v = none → motive v)
    (item : ∀ v item, onlyItem v = some item → motive item → motive v) (v : Json) : motive v := by
  induction v using Json.induct with
  | arr items ih =>
    cases h : onlyItem (.arr items) with
    | none => exact bare _ h
    | some x =>
      refine item _ x h (ih x ?_)
      obtain rfl := Json.arr.inj (onlyItem_eq_some.mp h)
      simp
  | _ => exact bare _ rfl

theorem layer_core (v : Json) : Layer v (core v) := by
  induction v using onlyItem_induct with
  | bare v h =>
    rw [core_of_none h]
    exact .whole
  | item v item h ih =>
    rw [core_of_some h]
    exact .item h ih

theorem eq_nan_of_identical {x y : Json} (h : identical x y = true) :
    x = .float .nan ∧ y = .float .nan := by
  unfold identical at h
  split at h
  · exact ⟨rfl, rfl⟩
  · cases h

theorem alike_item {x y : Json} (h : Alike (.arr [x]) (.arr [y])) :
    identical x y = true ∨ Alike x y := by
  cases h with
  | equal h =>
    have heq : identical x y = true ∨ pyEq x y = true := by simpa [pyEq, itemsEq] using h
    exact heq.imp_right .equal
  | leaf h => cases h
  | parts hparts h =>
    obtain rfl := Option.some.inj hparts
    exact .inr (h (x, y) (by simp))

theorem not_alike_bare {a e item : Json} (ha : onlyItem a = none) (he : onlyItem e = some item) :
    ¬ Alike a e ∧ ¬ Alike e a := by
  obtain rfl := onlyItem_eq_some.mp he
  cases a with
  | arr items =>
    cases items with
    | nil =>
      constructor <;> intro h <;> cases h with
      | equal h => cases h
      | leaf h => cases h
      | parts h => cases h
    | cons first rest =>
      cases rest with
      | nil => cases ha
      | cons second rest =>
        constructor <;> intro h <;> cases h with
        | equal h => simp [pyEq, itemsEq] at h
        | leaf h => cases h
        | parts h => cases h
  | _ =>
    constructor <;> intro h <;> cases h with
    | equal h => cases h
    | leaf h => cases h
    | parts h => cases h

/-- The first value, with its outer lists taken off, is a string that spells the second or
one of the lists of one item in it. -/
def Spells (printable : CodePoint → Bool) (a e : Json) : Prop :=
  ∃ s v item, core a = .str s ∧ Layer e v ∧ onlyItem v = some item ∧ pyStr printable v = some s

theorem Spells.item {a e item : Json} (h : Spells printable a item)
    (hitem : onlyItem e = some item) : Spells printable a e := by
  obtain ⟨s, v, inner, hs, hlayer, hinner, htext⟩ := h
  exact ⟨s, v, inner, hs, .item hitem hlayer, hinner, htext⟩

theorem Spells.of_item {a e item : Json} (h : Spells printable item e)
    (hitem : onlyItem a = some item) : Spells printable a e := by
  obtain ⟨s, v, inner, hs, h⟩ := h
  exact ⟨s, v, inner, (core_of_some hitem).trans hs, h⟩

/-- The text of a list of one item is matched by a string only. -/
theorem spells_of_textsMatch {a e item : Json} (h : textsMatch printable a e = true)
    (ha : onlyItem a = none) (he : onlyItem e = some item) : Spells printable a e := by
  obtain rfl := onlyItem_eq_some.mp he
  by_cases hkind : kindOf a = .text
  · cases a with
    | str s =>
      obtain ⟨s', t, hs, ht, h⟩ := textsMatch_iff.mp h
      obtain rfl := Option.some.inj hs
      rcases h with rfl | ⟨x, y, -, hy, -⟩
      · exact ⟨s, _, item, rfl, .whole, rfl, ht⟩
      · rcases floatOfStr_valueRepr (v := .arr [item]) (by simp [kindOf]) ht hy with ⟨n, h, -⟩ | h
        · cases h
        · cases h
    | _ => cases hkind
  · have heq := eq_of_textsMatch (textsMatch_symm h) (.inl rfl) hkind
    rw [← heq] at ha
    cases ha

theorem pyStr_item {x : Json} {t : PyStr} (h : pyStr printable (.arr [x]) = some t) :
    ∃ s, pyStr printable x = some s := by
  obtain ⟨texts, htexts, -⟩ := Option.map_eq_some_iff.mp h
  rw [itemsRepr_eq] at htexts
  obtain ⟨text, -, htext, -⟩ := mapM_cons_eq_some htexts
  by_cases hkind : kindOf x = .text
  · cases x with
    | str s => exact ⟨s, rfl⟩
    | _ => cases hkind
  · exact ⟨text, (pyStr_of_kind hkind).trans htext⟩

/-- Two lists of one item match directly only if their items do. -/
theorem direct_item {x y : Json} (h : Direct printable (.arr [x]) (.arr [y])) :
    Direct printable x y := by
  rcases h with h | h
  · rcases alike_item h with hnan | h
    · obtain ⟨rfl, rfl⟩ := eq_nan_of_identical hnan
      exact .inr (textsMatch_self rfl)
    · exact .inl h
  · have heq := eq_of_textsMatch h (.inl rfl) (by simp [kindOf])
    obtain ⟨s, t, hs, -⟩ := textsMatch_iff.mp h
    obtain ⟨u, hu⟩ := pyStr_item hs
    obtain rfl := (List.cons.inj (Json.arr.inj heq)).1
    exact .inr (textsMatch_self hu)

theorem direct_core {a e : Json} (h : Direct printable a e) :
    Direct printable (core a) (core e) ∨ Spells printable a e ∨ Spells printable e a := by
  induction a using onlyItem_induct generalizing e with
  | bare a ha =>
    cases he : onlyItem e with
    | none =>
      rw [core_of_none ha, core_of_none he]
      exact .inl h
    | some y =>
      rcases h with h | h
      · exact absurd h (not_alike_bare ha he).1
      · exact .inr (.inl (spells_of_textsMatch h ha he))
  | item a x ha ih =>
    cases he : onlyItem e with
    | none =>
      rcases h with h | h
      · exact absurd h (not_alike_bare he ha).2
      · exact .inr (.inr (spells_of_textsMatch (textsMatch_symm h) he ha))
    | some y =>
      obtain rfl := onlyItem_eq_some.mp ha
      obtain rfl := onlyItem_eq_some.mp he
      rcases ih (direct_item h) with h | h | h
      · exact .inl h
      · exact .inr (.inl ((h.item he).of_item ha))
      · exact .inr (.inr ((h.item ha).of_item he))

theorem Accepts.layer {a e u v : Json} (h : Accepts printable u v) (ha : Layer a u)
    (he : Layer e v) : Accepts printable a e := by
  induction ha with
  | whole =>
    induction he with
    | whole => exact h
    | item hitem _ ih => exact .expected hitem (ih h)
  | item hitem _ ih => exact .actual hitem (ih h)

/-- What `_outputs_match` accepts: two values are accepted for what is left of them when their
outer lists of one item are taken off, or because one of them spells the other. -/
theorem accepts_iff_core {a e : Json} : Accepts printable a e ↔
    Direct printable (core a) (core e) ∨ Spells printable a e ∨ Spells printable e a := by
  constructor
  · intro h
    induction h with
    | direct h => exact direct_core h
    | actual hitem _ ih =>
      rw [core_of_some hitem]
      exact ih.imp_right (Or.imp (·.of_item hitem) (·.item hitem))
    | expected hitem _ ih =>
      rw [core_of_some hitem]
      exact ih.imp_right (Or.imp (·.item hitem) (·.of_item hitem))
  · rintro (h | ⟨s, v, item, hs, hlayer, -, htext⟩ | ⟨s, v, item, hs, hlayer, -, htext⟩)
    · exact (Accepts.direct h).layer (layer_core a) (layer_core e)
    · have htexts : textsMatch printable (core a) v = true := by
        rw [hs]
        exact textsMatch_iff.mpr ⟨s, s, rfl, htext, .inl rfl⟩
      exact (Accepts.direct (.inr htexts)).layer (layer_core a) hlayer
    · have htexts : textsMatch printable v (core e) = true := by
        rw [hs]
        exact textsMatch_iff.mpr ⟨s, s, htext, rfl, .inl rfl⟩
      exact (Accepts.direct (.inr htexts)).layer hlayer (layer_core e)

/-- Values that are not followed and not within a tolerance are compared as they are. -/
theorem outputsMatch_bare {a e : Json} (ha : onlyItem a = none) (he : onlyItem e = none)
    (hparts : parts a e = none) (hleaf : leafMatch a e = .ok false) (room : ℕ) :
    outputsMatch printable (room + 2) a e = .ok (pyEq a e || textsMatch printable a e) := by
  rw [outputsMatch, valuesMatch_succ, hparts, hleaf, ha, he]
  cases pyEq a e with
  | true => rfl
  | false => cases textsMatch printable a e <;> rfl

/-- The float nearest to an integer, infinite beyond the largest finite one. -/
def nearest (n : ℤ) : Float64 := ofDecimal (decide (n < 0)) n.natAbs 0

/-- The integer has too many digits for `str`. -/
def TooLong (n : ℤ) : Prop := JsonDecoder.intMaxStrDigits < (digitChars n.natAbs).length

theorem pyStr_int {n : ℤ} {text : PyStr} :
    pyStr printable (.int n) = some text ↔ ¬ TooLong n ∧ intRepr n = .ok text := by
  have hrepr : pyStr printable (.int n) = (intRepr n).toOption := rfl
  rw [hrepr]
  by_cases h : TooLong n
  · have herror : intRepr n = .error .tooManyDigits := if_pos h
    rw [herror]
    exact iff_of_false (by simp [Except.toOption]) (by simp [h])
  · exact ⟨fun htext => ⟨h, intRepr_of_toOption htext⟩, fun htext => by rw [htext.2]; rfl⟩

theorem textsMatch_int (printable : CodePoint → Bool) (a e : ℤ) :
    textsMatch printable (.int a) (.int e) = true ↔
      ¬ TooLong a ∧ ¬ TooLong e ∧ (nearest a).eq (nearest e) = true := by
  have hself : (nearest a).eq (nearest a) = true :=
    Float64.eq_self.mpr (Float64.ofDecimal_ne_nan _ _ _)
  rw [textsMatch_iff]
  constructor
  · rintro ⟨s, t, hs, ht, h⟩
    obtain ⟨hlong, hs'⟩ := pyStr_int.mp hs
    obtain ⟨hlong', ht'⟩ := pyStr_int.mp ht
    refine ⟨hlong, hlong', ?_⟩
    rcases h with rfl | ⟨x, y, hx, hy, h⟩
    · have hrepr : valueRepr printable (.int a) = some s := hs
      obtain rfl := Json.int.inj (valueRepr_injective hrepr ht)
      exact hself
    · obtain rfl := Option.some.inj ((floatOfStr_intRepr hs').symm.trans hx)
      obtain rfl := Option.some.inj ((floatOfStr_intRepr ht').symm.trans hy)
      exact h
  · rintro ⟨hlong, hlong', h⟩
    have hs : intRepr a = .ok _ := if_neg hlong
    have ht : intRepr e = .ok _ := if_neg hlong'
    have hs' : pyStr printable (.int a) = some _ := pyStr_int.mpr ⟨hlong, hs⟩
    have ht' : pyStr printable (.int e) = some _ := pyStr_int.mpr ⟨hlong', ht⟩
    exact ⟨_, _, hs', ht', .inr ⟨_, _, floatOfStr_intRepr hs, floatOfStr_intRepr ht, h⟩⟩

theorem outputsMatch_int (printable : CodePoint → Bool) (room : ℕ) (a e : ℤ) :
    outputsMatch printable (room + 2) (.int a) (.int e) =
      .ok (decide (a = e) || textsMatch printable (.int a) (.int e)) :=
  outputsMatch_bare rfl rfl rfl rfl room

/-- Integers are compared exactly, unless two that differ are rounded to one float. -/
theorem integers_match_iff (printable : CodePoint → Bool) (room : ℕ) (a e : ℤ) :
    (outputsMatch printable (room + 2) (.int a) (.int e) = .ok true ↔ a = e) ↔
      a = e ∨ TooLong a ∨ TooLong e ∨ (nearest a).eq (nearest e) = false := by
  rw [outputsMatch_int]
  by_cases h : a = e
  · simp [h]
  · simp only [h, decide_false, Bool.false_or, Except.ok.injEq, iff_false,
      textsMatch_int printable a e, false_or, not_and_or, not_not, Bool.not_eq_true]

/-- `2 ** 53` is accepted for `2 ** 53 + 1`. -/
theorem rounded_integer_accepted :
    ¬ (outputsMatch (fun _ => true) 1000 (.int 9007199254740992) (.int 9007199254740993) =
      .ok true ↔ (9007199254740992 : ℤ) = 9007199254740993) := by
  have hshort : ¬ TooLong 9007199254740992 ∧ ¬ TooLong 9007199254740993 := by
    unfold TooLong
    decide +kernel
  have hround : (nearest 9007199254740992).eq (nearest 9007199254740993) = true := by
    decide +kernel
  have htexts := (textsMatch_int (fun _ => true) _ _).mpr ⟨hshort.1, hshort.2, hround⟩
  rw [outputsMatch_int (fun _ => true) 998, htexts, Bool.or_true]
  norm_num

theorem outputsMatch_str (printable : CodePoint → Bool) (room : ℕ) (a e : PyStr) :
    outputsMatch printable (room + 2) (.str a) (.str e) =
      .ok (decide (a = e) || textsMatch printable (.str a) (.str e)) :=
  outputsMatch_bare rfl rfl rfl rfl room

theorem textsMatch_str (printable : CodePoint → Bool) (a e : PyStr) :
    textsMatch printable (.str a) (.str e) = true ↔
      a = e ∨ ∃ x y, floatOfStr a = some x ∧ floatOfStr e = some y ∧ x.eq y = true := by
  rw [textsMatch_iff]
  constructor
  · rintro ⟨s, t, hs, ht, h⟩
    obtain rfl := Option.some.inj hs
    obtain rfl := Option.some.inj ht
    exact h
  · exact fun h => ⟨a, e, rfl, rfl, h⟩

/-- Strings are compared exactly, unless two that differ are numerals of one value. -/
theorem strings_match_iff (printable : CodePoint → Bool) (room : ℕ) (a e : PyStr) :
    (outputsMatch printable (room + 2) (.str a) (.str e) = .ok true ↔ a = e) ↔
      a = e ∨ ∀ x y, floatOfStr a = some x → floatOfStr e = some y → x.eq y = false := by
  rw [outputsMatch_str]
  by_cases h : a = e
  · simp [h]
  · simp only [h, decide_false, Bool.false_or, Except.ok.injEq, iff_false,
      textsMatch_str printable a e, false_or, not_exists, not_and, Bool.not_eq_true]

/-- `"01"` is accepted for `"1"`. -/
theorem leading_zero_accepted :
    ¬ (outputsMatch (fun _ => true) 1000 (.str "01") (.str "1") = .ok true ↔
      ("01" : PyStr) = "1") := by
  have hnumerals : (floatOfStr "01").isSome = true ∧ floatOfStr "01" = floatOfStr "1" ∧
      floatOfStr "01" ≠ some .nan := by
    decide +kernel
  obtain ⟨hsome, hsame, hnan⟩ := hnumerals
  obtain ⟨x, hx⟩ := Option.isSome_iff_exists.mp hsome
  have hself : x.eq x = true := Float64.eq_self.mpr fun h => hnan (by rw [hx, h])
  have htexts := (textsMatch_str (fun _ => true) "01" "1").mpr
    (.inr ⟨x, x, hx, hsame.symm.trans hx, hself⟩)
  have hne : ("01" : PyStr) ≠ "1" := by decide
  rw [outputsMatch_str (fun _ => true) 998, htexts, Bool.or_true]
  exact fun h => hne (h.mp rfl)

/-- Where `_values_match` accepts two values, `_outputs_match` has no more to do. -/
theorem callsRaise_of_alike {a e : Json} (h : Alike a e) (room : ℕ) :
    CallsRaise printable (room + 1) a e ↔ Raises room a e := by
  rw [callsRaise_succ]
  simp [h]

/-- Two lists are judged by `_values_match` alone, unless what is left of them without outer
lists of one item is accepted. -/
theorem lists_match_iff (printable : CodePoint → Bool) (room : ℕ) (as es : List Json) :
    (outputsMatch printable (room + 1) (.arr as) (.arr es) = .ok true ↔
      valuesMatch room (.arr as) (.arr es) = .ok true) ↔
    Alike (.arr as) (.arr es) ∨ CallsRaise printable (room + 1) (.arr as) (.arr es) ∨
      ¬ (Direct printable (core (.arr as)) (core (.arr es)) ∨
        Spells printable (.arr as) (.arr es) ∨ Spells printable (.arr es) (.arr as)) := by
  rw [(outputsMatch_decides (room + 1) _ _).true_iff, (valuesMatch_decides room _ _).true_iff,
    ← accepts_iff_core]
  by_cases h : Alike (.arr as) (.arr es)
  · have haccepts : Accepts printable (.arr as) (.arr es) := .direct (.inl h)
    simp [h, haccepts, callsRaise_of_alike h room]
  · simp only [h, and_false, iff_false, false_or, not_and_or, not_not]

/-- `[[1, 2]]` is accepted for `[1, 2]`. -/
theorem nested_list_accepted :
    ¬ (outputsMatch (fun _ => true) 1000 (.arr [.arr [.int 1, .int 2]]) (.arr [.int 1, .int 2]) =
      .ok true ↔ valuesMatch 999 (.arr [.arr [.int 1, .int 2]]) (.arr [.int 1, .int 2]) =
      .ok true) := by
  have houtputs : outputsMatch (fun _ => true) 1000 (.arr [.arr [.int 1, .int 2]])
      (.arr [.int 1, .int 2]) = .ok true := rfl
  have hvalues : valuesMatch 999 (.arr [.arr [.int 1, .int 2]]) (.arr [.int 1, .int 2]) =
      .ok false := rfl
  rw [houtputs, hvalues]
  simp

/-- The value has an infinity or NaN in it. -/
inductive HasNotFinite : Json → Prop
  | float {x : Float64} (h : NotFinite x) : HasNotFinite (.float x)
  | arr {item : Json} {items : List Json} (hitem : item ∈ items) (h : HasNotFinite item) :
    HasNotFinite (.arr items)
  | obj {member : PyStr × Json} {items : List (PyStr × Json)} (hmember : member ∈ items)
    (h : HasNotFinite member.2) : HasNotFinite (.obj items)

/-- The value is built from finite numbers, Booleans and null. -/
inductive FiniteData : Json → Prop
  | null : FiniteData .null
  | bool (b : Bool) : FiniteData (.bool b)
  | int (n : ℤ) : FiniteData (.int n)
  | float (x : Finite) : FiniteData (.float (.finite x))
  | arr {items : List Json} (h : ∀ item ∈ items, FiniteData item) : FiniteData (.arr items)
  | obj {items : List (PyStr × Json)} (h : ∀ member ∈ items, FiniteData member.2) :
    FiniteData (.obj items)

theorem FiniteData.not_hasNotFinite {v : Json} (h : FiniteData v) : ¬ HasNotFinite v := by
  induction h with
  | null => exact fun h => by cases h
  | bool b => exact fun h => by cases h
  | int n => exact fun h => by cases h
  | float x =>
    intro h
    cases h with
    | float h => rcases h with h | ⟨negative, h⟩ <;> cases h
  | arr _ ih =>
    intro h
    cases h with
    | arr hitem h => exact ih _ hitem h
  | obj _ ih =>
    intro h
    cases h with
    | obj hmember h => exact ih _ hmember h

theorem HasNotFinite.core {v : Json} (h : HasNotFinite v) : HasNotFinite (core v) := by
  induction v using onlyItem_induct with
  | bare v hv => rwa [core_of_none hv]
  | item v item hv ih =>
    rw [core_of_some hv]
    obtain rfl := onlyItem_eq_some.mp hv
    cases h with
    | arr hitem h =>
      rw [List.mem_singleton.mp hitem] at h
      exact ih h

theorem FiniteData.core {v : Json} (h : FiniteData v) : FiniteData (core v) := by
  induction v using onlyItem_induct with
  | bare v hv => rwa [core_of_none hv]
  | item v item hv ih =>
    rw [core_of_some hv]
    obtain rfl := onlyItem_eq_some.mp hv
    cases h with
    | arr h => exact ih (h item (by simp))

theorem nearest_eq_ofUnits (n : ℤ) : nearest n = ofUnits (n * one) := by
  have hpos : (0 : ℤ) < one := by
    unfold one
    positivity
  have hneg : n * (one : ℤ) < 0 ↔ n < 0 := by
    rw [mul_neg_iff]
    exact ⟨fun h => h.elim (fun h => absurd hpos (not_lt.mpr h.2.le)) And.left,
      fun h => .inr ⟨h, hpos⟩⟩
  rw [nearest, ofDecimal, if_pos (le_refl 0), ofUnits, Int.natAbs_mul, Int.natAbs_natCast,
    decide_eq_decide.mpr hneg, Int.toNat_zero, pow_zero, mul_one]

/-- The float nearest to an integer is infinite only where `float(n)` raises. -/
theorem ofInt_of_nearest {n : ℤ} {negative : Bool} (h : nearest n = .infinity negative) :
    Float64.ofInt n = none := by
  rw [nearest_eq_ofUnits] at h
  unfold Float64.ofInt
  rw [h]

theorem Overflows.not_alike {a e : Json} (h : Overflows a e) : ¬ Alike a e := by
  intro halike
  cases halike with
  | equal heq =>
    rw [h.not_eq] at heq
    cases heq
  | leaf hleaf =>
    rcases leafMatch_outcome a e with ⟨herror, -⟩ | ⟨-, hnot⟩
    · rw [herror] at hleaf
      cases hleaf
    · exact hnot h
  | parts hparts =>
    rw [h.parts] at hparts
    cases hparts

theorem Overflows.number {a e : Json} (h : Overflows a e) :
    kindOf a = .number ∧ kindOf e = .number ∧ a ≠ e := by
  cases a with
  | float x =>
    cases e with
    | int n => exact ⟨rfl, rfl, by simp⟩
    | _ => cases h
  | int n =>
    cases e with
    | float x => exact ⟨rfl, rfl, by simp⟩
    | _ => cases h
  | _ => cases h

theorem not_alike_of_core {a e : Json} (h : Overflows (core a) (core e)) : ¬ Alike a e := by
  induction a using onlyItem_induct generalizing e with
  | bare a ha =>
    cases he : onlyItem e with
    | none =>
      rw [core_of_none ha, core_of_none he] at h
      exact h.not_alike
    | some y => exact (not_alike_bare ha he).1
  | item a x ha ih =>
    cases he : onlyItem e with
    | none => exact (not_alike_bare he ha).2
    | some y =>
      rw [core_of_some ha, core_of_some he] at h
      obtain rfl := onlyItem_eq_some.mp ha
      obtain rfl := onlyItem_eq_some.mp he
      intro halike
      rcases alike_item halike with hsame | halike
      · obtain ⟨rfl, rfl⟩ := eq_nan_of_identical hsame
        exact h
      · exact ih h halike

/-- Nothing is accepted directly on the way to a pair that raises. -/
theorem Overflows.not_direct {a e : Json} (h : Overflows (core a) (core e))
    (hwrapped : onlyItem a ≠ none ∨ onlyItem e ≠ none) : ¬ Direct printable a e := by
  obtain ⟨ha, he, hne⟩ := h.number
  rintro (halike | htexts)
  · exact not_alike_of_core h halike
  · cases hitem : onlyItem a with
    | none =>
      obtain ⟨y, hy⟩ := Option.ne_none_iff_exists'.mp (hwrapped.resolve_left (· hitem))
      obtain ⟨s, -, -, hs, -⟩ := spells_of_textsMatch htexts hitem hy
      rw [hs] at ha
      cases ha
    | some x =>
      cases hitem' : onlyItem e with
      | none =>
        obtain ⟨s, -, -, hs, -⟩ := spells_of_textsMatch (textsMatch_symm htexts) hitem' hitem
        rw [hs] at he
        cases he
      | some y =>
        obtain rfl := onlyItem_eq_some.mp hitem
        obtain rfl := onlyItem_eq_some.mp hitem'
        exact hne (congrArg core (eq_of_textsMatch htexts (.inl rfl) (by simp [kindOf])))

theorem callsRaise_of_overflows {a e : Json} (h : Overflows (core a) (core e)) (room : ℕ) :
    CallsRaise printable room a e := by
  induction room generalizing a e with
  | zero => exact ⟨0, a, e, .here, .inl rfl⟩
  | succ room ih =>
    cases ha : onlyItem a with
    | some x =>
      obtain ⟨depth, u, v, hcalls, hend⟩ := ih (a := x) (e := e) (by rwa [← core_of_some ha])
      exact ⟨depth + 1, u, v, .actual ha (h.not_direct (.inl (by simp [ha]))) hcalls,
        hend.imp_left (congrArg Nat.succ)⟩
    | none =>
      cases he : onlyItem e with
      | some y =>
        obtain ⟨depth, u, v, hcalls, hend⟩ := ih (a := a) (e := y) (by rwa [← core_of_some he])
        refine ⟨depth + 1, u, v, .expected he (h.not_direct (.inr (by simp [he]))) ?_ hcalls,
          hend.imp_left (congrArg Nat.succ)⟩
        intro other hother
        rw [ha] at hother
        cases hother
      | none =>
        rw [core_of_none ha, core_of_none he] at h
        exact ⟨0, a, e, .here, .inr h⟩

/-- Of two values of which one has an infinity or NaN and the other is finite, the texts match
only where the comparison of the values raises. -/
theorem overflows_of_textsMatch {a e : Json} (ha : HasNotFinite a) (he : FiniteData e)
    (htexts : textsMatch printable a e = true) : Overflows a e := by
  have hkind : kindOf a ≠ .text := by
    cases ha <;> simp [kindOf]
  have hkind' : kindOf e ≠ .text := by
    cases he <;> simp [kindOf]
  obtain ⟨s, t, hs, ht, h⟩ := textsMatch_iff.mp htexts
  rw [pyStr_of_kind hkind] at hs
  rw [pyStr_of_kind hkind'] at ht
  rcases h with rfl | ⟨x, y, hx, hy, h⟩
  · rw [valueRepr_injective hs ht] at ha
    exact absurd ha he.not_hasNotFinite
  · rcases floatOfStr_valueRepr hkind hs hx with ⟨n, rfl, -⟩ | rfl
    · cases ha
    rcases floatOfStr_valueRepr hkind' ht hy with ⟨n, rfl, rfl⟩ | rfl
    · cases ha with
      | float hnot =>
        rcases hnot with rfl | ⟨negative, rfl⟩
        · cases h
        · change Float64.eq _ (nearest n) = true at h
          cases hnear : nearest n with
          | infinity s => exact ofInt_of_nearest hnear
          | nan => rw [hnear] at h; cases h
          | finite y => rw [hnear] at h; cases h
    · cases ha with
      | float hnot =>
        cases he with
        | float y => rcases hnot with rfl | ⟨negative, rfl⟩ <;> cases h

theorem floatTolerance_eq :
    floatTolerance = .finite ⟨false, 5902958103587057, 1005, by decide⟩ := by decide +kernel

theorem one_eq : ofDecimal false 1 0 = .finite ⟨false, 4503599627370496, 1022, by decide⟩ := by
  decide +kernel

/-- An infinity is within the tolerance of every finite number, as the tolerance is relative
to it. -/
theorem floatsClose_infinity (negative : Bool) (x : Finite) :
    floatsClose (.infinity negative) (.finite x) = true := by
  rw [floatsClose, floatTolerance_eq, one_eq]
  rfl

/-- A value with an infinity or NaN is rejected where a finite one is expected, unless the two
are alike as they stand or the comparison raises. -/
theorem not_finite_rejected_iff (printable : CodePoint → Bool) (room : ℕ) {a e : Json}
    (ha : HasNotFinite a) (he : FiniteData e) :
    outputsMatch printable room a e = .ok false ↔
      ¬ CallsRaise printable room a e ∧ ¬ Alike (core a) (core e) := by
  rw [(outputsMatch_decides room a e).false_iff, and_congr_right_iff]
  intro hraise
  rw [accepts_iff_core, not_iff_not]
  constructor
  · rintro (⟨h | h⟩ | ⟨s, -, -, hs, -⟩ | ⟨s, -, -, hs, -⟩)
    · exact h
    · exact absurd (callsRaise_of_overflows (overflows_of_textsMatch ha.core he.core h) room) hraise
    · have hcore := ha.core
      rw [hs] at hcore
      cases hcore
    · have hcore := he.core
      rw [hs] at hcore
      cases hcore
  · exact fun h => .inl (.inl h)

/-- `[NaN]` is rejected for `[true]`. -/
theorem nan_rejected : HasNotFinite (.arr [.float .nan]) ∧ FiniteData (.arr [.bool true]) ∧
    ¬ CallsRaise (fun _ => true) 1000 (.arr [.float .nan]) (.arr [.bool true]) ∧
    ¬ Alike (.float .nan) (.bool true) := by
  have hnan : HasNotFinite (.arr [.float .nan]) := .arr (by simp) (.float (.inl rfl))
  have htrue : FiniteData (.arr [.bool true]) := .arr (by simp [FiniteData.bool])
  exact ⟨hnan, htrue, (not_finite_rejected_iff (fun _ => true) 1000 hnan htrue).mp rfl⟩

/-- Infinity is accepted for `1.0`. -/
theorem infinity_accepted :
    HasNotFinite (.float (.infinity false)) ∧ FiniteData (.float (ofDecimal false 1 0)) ∧
    outputsMatch (fun _ => true) 1000 (.float (.infinity false)) (.float (ofDecimal false 1 0)) =
      .ok true := by
  rw [one_eq]
  refine ⟨.float (.inr ⟨false, rfl⟩), .float _, ?_⟩
  have halike : ∀ x, Alike (.float (.infinity false)) (.float (.finite x)) :=
    fun x => .leaf (congrArg Except.ok (floatsClose_infinity false x))
  have hraise : ∀ x, ¬ Raises (998 + 1) (.float (.infinity false)) (.float (.finite x)) := by
    intro x
    rw [raises_succ]
    simp [Overflows, parts]
  rw [(outputsMatch_decides (999 + 1) _ _).true_iff, callsRaise_of_alike (halike _)]
  exact ⟨hraise _, .direct (.inl (halike _))⟩

end

end ExecutionEngine.Comparison
