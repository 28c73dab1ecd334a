import ExecutionEngine.CWrapper

/-!
# When every parameter receives the value of its name

The test case has exactly the parameters as its keys, in any order. Six of the ten
languages pass the values in the order of the test case. In C an output parameter is
given an address, and the size of an array and the sizes of its rows are taken from the
array, whatever the test case has under the name of the parameter.
-/
namespace ExecutionEngine.NamedArguments
open Pipeline TextScan ArgumentBinding
open CSignature hiding Signature
open CWrapper hiding BindsByName

/-- What the C++ library makes of a JSON value, with the numbers that an `int*` parameter
is given and the sizes of the rows of an array. -/
structure RowConversions extends Conversions where
  numbers : Json → Option (List ℤ)
  rowSizes : InputKind → Json → Option (List ℤ)

/-- A C function with the given parameters, for which the generator writes a wrapper. -/
structure CFunction (w : WordClass) (sig : Signature) where
  name : Text
  declared : CSignature.Signature
  wrapper : Wrapper
  accepted : wrapperOf w name declared = .ok wrapper
  params : declared.params.map Param.key = sig.params

/-- A C parameter receives the value stored under its name. The address of an output is
no value of the test case. -/
def Named (conv : RowConversions) (items : Items Json) (skipPos : Bool) (param : Param) :
    Binding → Prop
  | .returnSize | .returnCols => False
  | .colSizes array =>
    (array.json items skipPos).bind (conv.rowSizes array.kind) =
      (stored items (Param.key param)).bind conv.numbers
  | .arraySize t array =>
    (array.json items skipPos).bind (conv.count array.kind) =
      (stored items (Param.key param)).bind (conv.number t)
  | .input source => source.json items skipPos = stored items (Param.key param)

/-- The values in the order of the parameters. -/
def byName {β : Type} {sig : Signature} (input : TestInput sig β) : Bound β :=
  some (sig.params.map (stored input.items))

section
variable {w : WordClass} {sig : Signature} (conv : RowConversions) (c : CFunction w sig)
  (input : TestInput sig Json)

/-- The binder of a language passes to every parameter the value stored under its name.
`skipPos` says that the function takes a linked list. -/
def CallsByName (skipPos : Bool) : Language → Prop
  | .python => callFunction sig.params (autoConvertInputs input.items) = byName input
  | .javascript => jsExecuteFunction sig.params input.items = byName input
  | .typescript => tsExecuteFunction sig.params input.items = byName input
  | .java => javaExecuteFunction sig.params input.items = byName input
  | .kotlin => kotlinExecuteFunction sig.params input.items = byName input
  | .csharp => csharpRun sig.params input.items = byName input
  | .go =>
    bindEach (fun name i => pickArg input.items (input.items.map Prod.fst) name i skipPos)
      sig.params = byName input
  | .cpp =>
    bindEach (inputArg (input.items.map Prod.fst) (values input.items) skipPos) sig.params =
      byName input
  | .rust =>
    bindEach (fun name i =>
      judgePick (input.items.map Prod.fst) (values input.items) name i skipPos) sig.params =
      byName input
  | .c => ∀ slot ∈ c.wrapper.slots, Named conv input.items c.wrapper.skipPos slot.1 slot.2

/-- The values come in the order of the parameters. -/
def InOrder {β : Type} {sig : Signature} (input : TestInput sig β) : Prop :=
  (input.items.map fun item => some item.2) = sig.params.map (stored input.items)

/-- The parameter is the address of an output. -/
def isOutput (w : WordClass) (param : Param) : Bool :=
  (decide (normalize w param.type = text "int*") && namesReturnSize param.name) ||
    (decide (normalize w param.type = text "int**") && namesReturnCols param.name)

/-- The parameter is called the sizes of rows, after an array that has rows. -/
def isRowSizes (w : WordClass) (array : PyStr × InputKind) (param : Param) : Bool :=
  decide (normalize w param.type = text "int*") && namesColSize param.name && array.2.cols

/-- The last array, after one more parameter. -/
def nextArray (w : WordClass) (last : Option (PyStr × InputKind)) (param : Param) :
    Option (PyStr × InputKind) :=
  if isOutput w param || last.any fun array => isRowSizes w array param then last
  else
    match (bindInput (normalize w param.type)).filter InputKind.sized with
    | some kind => some (Param.key param, kind)
    | none => last

/-- The last array among the parameters, by its name and how it is read. -/
def lastArray (w : WordClass) (params : List Param) : Option (PyStr × InputKind) :=
  params.foldl (nextArray w) none

/-- A parameter is no output. If it is called the size or the sizes of the rows of the last
array before it, then this is what the test case has under its name. -/
def SizeGiven (w : WordClass) (items : Items Json) (last : Option (PyStr × InputKind))
    (param : Param) : Prop :=
  isOutput w param = false ∧ ∀ array, last = some array →
    (isRowSizes w array param = true →
      (stored items array.1).bind (conv.rowSizes array.2) =
        (stored items (Param.key param)).bind conv.numbers) ∧
    (isInteger w param → namesSize param.name = true →
      (stored items array.1).bind (conv.count array.2) =
        (stored items (Param.key param)).bind (conv.number (normalize w param.type)))

/-- So it is for every parameter. -/
def SizesGiven (w : WordClass) (items : Items Json) (params : List Param) : Prop :=
  ∀ (before rest : List Param) (param : Param), params = before ++ param :: rest →
    SizeGiven conv w items (lastArray w before) param

/-- The condition under which a language binds by name. -/
def Favourable : Language → Prop
  | .go | .cpp | .rust => True
  | .python | .java | .kotlin | .csharp => InOrder input
  | .javascript | .typescript => InOrder input ∧ protoKey ∉ sig.params
  | .c => SizesGiven conv w input.items c.declared.params

/-- A call with the values in the order of the test case. -/
theorem byPosition_iff : some (input.items.map fun item => some item.2) = byName input ↔
    InOrder input := by
  rw [byName, Option.some_inj, InOrder]

theorem jsExecuteFunction_iff : jsExecuteFunction sig.params input.items = byName input ↔
    InOrder input ∧ protoKey ∉ sig.params := by
  by_cases hproto : protoKey ∈ sig.params
  · exact iff_of_false (input.jsExecuteFunction_proto hproto) fun h => h.2 hproto
  · rw [input.jsExecuteFunction_byPosition hproto, byPosition_iff, and_iff_left hproto]

end

section
variable {w : WordClass}

/-- What the loop keeps of the last array. -/
def seen (loop : Loop) : Option (PyStr × InputKind) :=
  loop.sized.map fun array => (array.key, array.kind)

theorem isOutput_eq_false {param : Param}
    (h : ¬ (normalize w param.type = text "int*" ∧ namesReturnSize param.name = true) ∧
      ¬ (normalize w param.type = text "int**" ∧ namesReturnCols param.name = true)) :
    isOutput w param = false := by
  simpa [isOutput] using h

theorem isOutput_integer {param : Param} (h : isInteger w param) : isOutput w param = false := by
  obtain ⟨h₁, h₂⟩ := isInteger_ne h
  simp [isOutput, h₁, h₂]

theorem isRowSizes_integer {param : Param} (h : isInteger w param) (array : PyStr × InputKind) :
    isRowSizes w array param = false := by
  simp [isRowSizes, (isInteger_ne h).1]

/-- An integer is no array. -/
theorem bindInput_integer {param : Param} (h : isInteger w param) :
    (bindInput (normalize w param.type)).filter InputKind.sized = none := by
  rcases h with h | h <;> rw [h] <;> decide

/-- The loop finds the last array. -/
theorem seen_step {loop loop' : Loop} {param : Param} {binding : Binding}
    (h : Step w loop param binding loop') : seen loop' = nextArray w (seen loop) param := by
  cases h with
  | returnSize h => simp [nextArray, isOutput, h, seen]
  | returnCols h => simp [nextArray, isOutput, h, seen]
  | colSizes hsized ht _ => simp [nextArray, isRowSizes, ht, seen, hsized, Source.key]
  | arraySize hsized ht _ =>
    simp [nextArray, isOutput_integer ht, isRowSizes_integer ht, bindInput_integer ht]
  | @input kind hkind _ hreturn hcols =>
    have hrows : ((seen loop).any fun array => isRowSizes w array param) = false := by
      cases hsized : loop.sized with
      | none => simp [seen, hsized]
      | some array => simpa [seen, hsized, isRowSizes, and_assoc] using hcols array hsized
    rw [nextArray, isOutput_eq_false hreturn, hrows, hkind]
    cases hk : kind.sized
    · simp [seen, hk, Option.filter]
    · simp [seen, hk, Option.filter, Source.key, Param.key]

theorem seen_bindParams {loop final : Loop} {params : List Param} {slots : List Slot}
    (h : bindParams w loop params = .ok (slots, final)) :
    seen final = params.foldl (nextArray w) (seen loop) := by
  induction params generalizing loop slots with
  | nil =>
    cases h
    rfl
  | cons param params ih =>
    obtain ⟨binding, loop₁, rest, hb, hrest, rfl⟩ := bindParams_cons h
    rw [List.foldl_cons, ih hrest, seen_step (step_of_bindParam hb)]

/-- The last array is one of the parameters. -/
theorem lastArray_mem {params : List Param} {array : PyStr × InputKind}
    (h : lastArray w params = some array) : array.1 ∈ params.map Param.key := by
  induction params using List.reverseRecOn with
  | nil => cases h
  | append_singleton params param ih =>
    rw [lastArray, List.foldl_append, List.foldl_cons, List.foldl_nil, nextArray] at h
    rw [List.map_append, List.mem_append]
    split_ifs at h with hkeep
    · exact .inl (ih h)
    · cases hkind : (bindInput (normalize w param.type)).filter InputKind.sized with
      | none =>
        rw [hkind] at h
        exact .inl (ih h)
      | some kind =>
        rw [hkind] at h
        cases h
        simp

end

section
variable {w : WordClass} (conv : RowConversions) {items : Items Json}
  (hkeys : (items.map Prod.fst).Nodup) (skipPos : Bool)
include hkeys

/-- One parameter receives the value of its name exactly where the test case says what the
code fills in. -/
theorem named_iff {loop loop' : Loop} {param : Param} {binding : Binding}
    (h : Step w loop param binding loop') (hparam : Param.key param ∈ items.map Prod.fst)
    (harray : ∀ array, seen loop = some array → array.1 ∈ items.map Prod.fst) :
    Named conv items skipPos param binding ↔ SizeGiven conv w items (seen loop) param := by
  have hlast : ∀ array, loop.sized = some array →
      array.json items skipPos = stored items array.key ∧
        seen loop = some (array.key, array.kind) := by
    intro array hsized
    have hseen : seen loop = some (array.key, array.kind) := by rw [seen, hsized]; rfl
    exact ⟨json_named hkeys skipPos (harray _ hseen), hseen⟩
  cases h with
  | returnSize h => simp [Named, SizeGiven, isOutput, h]
  | returnCols h => simp [Named, SizeGiven, isOutput, h]
  | colSizes hsized ht hreturn =>
    obtain ⟨hjson, hseen⟩ := hlast _ hsized
    have hinteger : ¬ isInteger w param := fun hint => (isInteger_ne hint).1 ht.1
    have hne : text "int*" ≠ text "int**" := by decide
    have hout : isOutput w param = false := by simp [isOutput, ht.1, hreturn, hne]
    simp [Named, SizeGiven, hjson, hseen, hout, hinteger, isRowSizes, ht]
  | arraySize hsized ht hname =>
    obtain ⟨hjson, hseen⟩ := hlast _ hsized
    simp [Named, SizeGiven, hjson, hseen, isOutput_integer ht, isRowSizes_integer ht, ht, hname]
  | input hkind hsize hreturn hcols =>
    refine iff_of_true (json_named hkeys skipPos hparam) ⟨isOutput_eq_false hreturn, ?_⟩
    intro array hseen
    obtain ⟨source, hsized, rfl⟩ := Option.map_eq_some_iff.mp hseen
    constructor
    · intro hrows
      refine absurd ?_ (hcols source hsized)
      simpa [isRowSizes, and_assoc] using hrows
    · intro hint hname
      have hfalse := hsize (Option.isSome_iff_ne_none.mp (by rw [hsized]; rfl)) hint
      rw [hname] at hfalse
      cases hfalse

/-- All of them do so together. -/
theorem named_slots_iff {params : List Param} {slots : List Slot} {final : Loop}
    (h : bindParams w ⟨none, none, false, false, 0⟩ params = .ok (slots, final))
    (hparams : ∀ param ∈ params, Param.key param ∈ items.map Prod.fst) :
    (∀ slot ∈ slots, Named conv items skipPos slot.1 slot.2) ↔
      SizesGiven conv w items params := by
  -- one parameter, with what stands before it
  have hone : ∀ (before rest : List Slot) (slot : Slot), slots = before ++ slot :: rest →
      (Named conv items skipPos slot.1 slot.2 ↔
        SizeGiven conv w items (lastArray w (before.map Prod.fst)) slot.1) := by
    rintro before rest ⟨param, binding⟩ rfl
    obtain ⟨loop₁, loop₂, hbefore, hparam⟩ := bindParams_at h
    have hmap := bindParams_params h
    have hseen : seen loop₁ = lastArray w (before.map Prod.fst) := seen_bindParams hbefore
    have hmem : ∀ p ∈ before.map Prod.fst, p ∈ params := by
      intro p hp
      simp [← hmap, List.mem_map.mp hp]
    rw [← hseen]
    refine named_iff conv hkeys skipPos (step_of_bindParam hparam) (hparams param ?_) ?_
    · simp [← hmap]
    · intro array harray
      rw [hseen] at harray
      obtain ⟨p, hp, heq⟩ := List.mem_map.mp (lastArray_mem harray)
      exact heq ▸ hparams p (hmem p hp)
  constructor
  · intro hnamed before rest param hsplit
    have hmap := (bindParams_params h).trans hsplit
    obtain ⟨first, second, rfl, rfl, hsecond⟩ := List.map_eq_append_iff.mp hmap
    obtain ⟨slot, second', rfl, rfl, -⟩ := List.map_eq_cons_iff.mp hsecond
    exact (hone first second' slot rfl).mp (hnamed slot (by simp))
  · intro hgiven slot hslot
    obtain ⟨before, rest, hsplit⟩ := List.append_of_mem hslot
    refine (hone before rest slot hsplit).mpr (hgiven _ (rest.map Prod.fst) _ ?_)
    rw [← bindParams_params h, hsplit, List.map_append, List.map_cons]

end

/-- Integers, lists of integers and the lengths of lists. -/
def plainRows : RowConversions where
  toConversions := plainConversions
  numbers j := match j with
    | .arr items => items.mapM fun item => plainConversions.number [] item
    | _ => none
  rowSizes kind j := match j with
    | .arr rows => rows.mapM (plainConversions.count kind)
    | _ => none

/-- `int f(int nums, int target)` -/
def numsTarget : Signature where
  params := ["nums", "target"]
  nodup := by decide
  noPos := by decide
  identifiers := by decide

def numsTargetC : CFunction asciiWords numsTarget where
  name := text "f"
  declared := {
    returnType := text "int"
    params := [⟨text "int", text "nums", text "int nums"⟩,
      ⟨text "int", text "target", text "int target"⟩]
    rawParams := text "int nums, int target"
    inSolutionClass := false }
  wrapper := {
    declaration := text "int f(int nums, int target);"
    skipPos := false
    slots := [
      (⟨text "int", text "nums", text "int nums"⟩,
        .input ⟨.scalar (text "int"), text "nums", 0⟩),
      (⟨text "int", text "target", text "int target"⟩,
        .input ⟨.scalar (text "int"), text "target", 1⟩)]
    serialization := .scalar (text "int") }
  accepted := eq_ok_of_toOption (by decide +kernel)
  params := by decide

/-- The test case names the second parameter first. -/
def targetFirst : TestInput numsTarget Json where
  items := [("target", .int 9), ("nums", .int 2)]
  keys := List.Perm.swap _ _ _

end ExecutionEngine.NamedArguments
