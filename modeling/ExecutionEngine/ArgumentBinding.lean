import ExecutionEngine.JsonDecoder
import ExecutionEngine.Pipeline

/-!
# Binding the test case to the parameters

A test case is a list of keys with values. Each wrapper decides in its own way
which value a parameter receives: Go, C++ and Rust look for the parameter's
name and fall back to the position, Python, JavaScript, TypeScript, Java, Kotlin
and C# pass the values in the order of the test case. How a single value becomes
a tree, a list or a number does not matter here, so that the values are of any
type. C, which fills some parameters without a lookup, has its own wrapper.
-/
namespace ExecutionEngine.ArgumentBinding
open Pipeline

/-- A test case: its keys in the order in which they were given. -/
abbrev Items (β : Type) := List (PyStr × β)

/-- What the parameters receive. `none` is a call that raises; a parameter may also
be left without a value (`undefined`, `null`). -/
abbrev Bound (β : Type) := Option (List (Option β))

variable {β : Type}

/-- The value stored under a key. -/
def stored (items : Items β) (key : PyStr) : Option β :=
  (items.find? fun item => decide (item.1 = key)).map Prod.snd

/-- The position of a linked-list cycle. -/
def posKey : PyStr := "pos"

def values (items : Items β) : List β := items.map Prod.snd

theorem zip_values (items : Items β) : (items.map Prod.fst).zip (values items) = items := by
  rw [values, List.zip_map']
  simp

/-- The call `f(v0, v1, ...)` for a function with the given number of parameters. -/
def spread (count : ℕ) (args : List β) : List (Option β) :=
  (List.range count).map fun i => args[i]?

/-- `auto_convert_inputs`, which skips `pos`. -/
def autoConvertInputs (input : Items β) : Items β :=
  input.filter fun item => decide (item.1 ≠ posKey)

/-- `call_function`. The call by keywords raises `TypeError` unless the keys are the
names of the parameters. -/
def callFunction (params : List PyStr) (convertedInput : Items β) : Bound β :=
  if params.length = convertedInput.length then
    some (spread params.length (values convertedInput))
  else if (convertedInput.all fun item => decide (item.1 ∈ params)) &&
      params.all fun p => (stored convertedInput p).isSome then
    some (params.map (stored convertedInput))
  else none

/-- The key is an array index, so that it is enumerated before the other keys. -/
def isArrayIndex (key : PyStr) : Bool :=
  key.truthy && List.all key JsonDecoder.isDigit &&
    (decide (key.length = 1) || decide (List.head? key ≠ some (JsonDecoder.ch '0'))) &&
    decide (JsonDecoder.natOfDigits key < 2 ^ 32 - 1)

/-- The own properties of an object, in the order of enumeration, from the order in
which they were created. -/
def ownProperties (created : Items β) : Items β :=
  ((created.filter fun item => isArrayIndex item.1).mergeSort fun a b =>
      decide (JsonDecoder.natOfDigits a.1 ≤ JsonDecoder.natOfDigits b.1)) ++
    created.filter fun item => !isArrayIndex item.1

/-- Assigning to this property sets the prototype and creates no own property. -/
def protoKey : PyStr := "__proto__"

/-- `autoConvertInput` -/
def autoConvertInput (input : Items β) : Items β :=
  ownProperties ((ownProperties input).filter fun item =>
    decide (item.1 ≠ posKey ∧ item.1 ≠ protoKey))

/-- `executeFunction` of JavaScript -/
def jsExecuteFunction (params : List PyStr) (input : Items β) : Bound β :=
  some (spread params.length (values (autoConvertInput input)))

/-- `executeFunction` of TypeScript -/
def tsExecuteFunction (params : List PyStr) (input : Items β) : Bound β :=
  some (spread params.length (values (autoConvertInput input)))

/-- The values in their order without `pos`, or all of them when the method takes
more parameters. -/
def reflectiveArgs (params : List PyStr) (input : Items β) : Bound β :=
  let withoutPos := values (input.filter fun item => decide (item.1 ≠ posKey))
  let args := if params.length > withoutPos.length then values input else withoutPos
  some (spread params.length args)

/-- `executeFunction` of Java -/
def javaExecuteFunction (params : List PyStr) (input : Items β) : Bound β :=
  reflectiveArgs params input

/-- `executeFunction` of Kotlin -/
def kotlinExecuteFunction (params : List PyStr) (input : Items β) : Bound β :=
  reflectiveArgs params input

/-- `Run` of C# -/
def csharpRun (params : List PyStr) (input : Items β) : Bound β :=
  reflectiveArgs params input

/-- `pickArg`: `input` is a map, `keys` its keys in the order of the test case. -/
def pickArg (input : Items β) (keys : List PyStr) (name : PyStr) (idx : ℕ) (skipPos : Bool) :
    Option β :=
  match stored input name with
  | some raw => some raw
  | none =>
    let positional := keys.filter fun k => !(skipPos && decide (k = posKey))
    match positional[idx]? with
    | some k => stored input k
    | none => none

/-- `judge::Input::arg` -/
def inputArg (keys : List PyStr) (vals : List β) (skipPos : Bool) (name : PyStr) (index : ℕ) :
    Option β :=
  match stored (keys.zip vals) name with
  | some value => some value
  | none =>
    (((keys.zip vals).filter fun item => !(skipPos && decide (item.1 = posKey)))[index]?).map
      Prod.snd

/-- `__judge::pick` -/
def judgePick (keys : List PyStr) (vals : List β) (name : PyStr) (index : ℕ) (skipPos : Bool) :
    Option β :=
  inputArg keys vals skipPos name index

/-- One lookup for each parameter; a missing argument is an error. -/
def bindEach (pick : PyStr → ℕ → Option β) (params : List PyStr) : Bound β :=
  (params.zipIdx.mapM fun p => pick p.1 p.2).map (List.map some)

/-- The names of the parameters of a function. Identifiers do not begin with a
digit. -/
structure Signature where
  params : List PyStr
  nodup : params.Nodup
  noPos : posKey ∉ params
  identifiers : ∀ p ∈ params, (List.head? p).all (fun c => !JsonDecoder.isDigit c) = true

/-- A test case with exactly the parameters as its keys, in any order. -/
structure TestInput (sig : Signature) (β : Type) where
  items : Items β
  keys : (items.map Prod.fst).Perm sig.params

theorem spread_eq (args : List β) : spread args.length args = args.map some := by
  apply List.ext_getElem
  · simp [spread]
  · intro i hi hi'
    simp only [spread, List.length_map, List.length_range] at hi
    simp [spread, hi]

theorem stored_isSome {items : Items β} {key : PyStr} (h : key ∈ items.map Prod.fst) :
    (stored items key).isSome = true := by
  obtain ⟨item, hitem, rfl⟩ := List.mem_map.mp h
  have hfind : (items.find? fun x => decide (x.1 = item.1)).isSome = true :=
    List.find?_isSome.mpr ⟨item, hitem, by simp⟩
  simpa [stored] using hfind

theorem ownProperties_eq {items : Items β} (h : ∀ item ∈ items, isArrayIndex item.1 = false) :
    ownProperties items = items := by
  have hindex : (items.filter fun item => isArrayIndex item.1) = [] := by
    rw [List.filter_eq_nil_iff]
    intro item hitem
    simp [h item hitem]
  have hrest : (items.filter fun item => !isArrayIndex item.1) = items := by
    rw [List.filter_eq_self]
    intro item hitem
    simp [h item hitem]
  simp [ownProperties, hindex, hrest]

/-- A lookup that finds every parameter by its name. -/
theorem bindEach_eq {pick : PyStr → ℕ → Option β} {items : Items β} {params : List PyStr}
    (hpick : ∀ p ∈ params, ∀ i, pick p i = stored items p)
    (hkeys : ∀ p ∈ params, p ∈ items.map Prod.fst) :
    bindEach pick params = some (params.map (stored items)) := by
  have hmap : ∀ (l : List (PyStr × ℕ)), (∀ p ∈ l, p.1 ∈ params) →
      (l.mapM fun p => pick p.1 p.2).map (List.map some) =
        some (l.map fun p => stored items p.1) := by
    intro l
    induction l with
    | nil => intro _; rfl
    | cons p l ih =>
      intro hl
      have hp := hl p (by simp)
      have hrest := ih fun q hq => hl q (by simp [hq])
      obtain ⟨v, hv⟩ := Option.isSome_iff_exists.mp (stored_isSome (hkeys p.1 hp))
      obtain ⟨vs, hvs, hmap⟩ := Option.map_eq_some_iff.mp hrest
      simp [List.mapM_cons, hpick p.1 hp p.2, hv, hvs, ← hmap]
  have h := hmap params.zipIdx fun p hp => by
    have := List.fst_mem_of_mem_zipIdx hp
    exact this
  have hfst : params.zipIdx.map (fun p => stored items p.1) = params.map (stored items) := by
    conv_rhs => rw [← List.zipIdx_map_fst 0 params, List.map_map]
    rfl
  rw [bindEach, h, hfst]

namespace TestInput

variable {sig : Signature} (input : TestInput sig β)

theorem length_eq : input.items.length = sig.params.length := by
  simpa using input.keys.length_eq

theorem key_mem {item : PyStr × β} (h : item ∈ input.items) : item.1 ∈ sig.params :=
  input.keys.mem_iff.mp (List.mem_map_of_mem h)

theorem mem_keys {p : PyStr} (h : p ∈ sig.params) : p ∈ input.items.map Prod.fst :=
  input.keys.mem_iff.mpr h

theorem key_ne_pos {item : PyStr × β} (h : item ∈ input.items) : item.1 ≠ posKey :=
  fun heq => sig.noPos (heq ▸ input.key_mem h)

theorem key_not_index {item : PyStr × β} (h : item ∈ input.items) :
    isArrayIndex item.1 = false := by
  have hid := sig.identifiers item.1 (input.key_mem h)
  rcases hkey : item.1 with _ | ⟨c, rest⟩
  · rfl
  · simp only [hkey, List.head?_cons, Option.all_some, Bool.not_eq_true'] at hid
    simp [isArrayIndex, hid]

/-- The values in the order of the test case, as a call passes them. -/
theorem spread_values : spread sig.params.length (values input.items) =
    input.items.map fun item => some item.2 := by
  have hlen : (values input.items).length = sig.params.length := by
    simpa [values] using input.length_eq
  rw [← hlen, spread_eq]
  simp [values]

theorem filter_pos : (input.items.filter fun item => decide (item.1 ≠ posKey)) = input.items := by
  rw [List.filter_eq_self]
  intro item hitem
  simpa using input.key_ne_pos hitem

/-- Go finds every parameter. -/
theorem pickArg_byName (skipPos : Bool) :
    bindEach (fun name i => pickArg input.items (input.items.map Prod.fst) name i skipPos)
      sig.params = some (sig.params.map (stored input.items)) := by
  apply bindEach_eq
  · intro p hp i
    obtain ⟨v, hv⟩ := Option.isSome_iff_exists.mp (stored_isSome (input.mem_keys hp))
    rw [pickArg, hv]
  · exact fun p hp => input.mem_keys hp

/-- C++ and Rust find every parameter. -/
theorem inputArg_byName (skipPos : Bool) :
    bindEach (inputArg (input.items.map Prod.fst) (values input.items) skipPos) sig.params =
      some (sig.params.map (stored input.items)) := by
  apply bindEach_eq
  · intro p hp i
    obtain ⟨v, hv⟩ := Option.isSome_iff_exists.mp (stored_isSome (input.mem_keys hp))
    rw [inputArg, zip_values, hv]
  · exact fun p hp => input.mem_keys hp

/-- Python passes the values in the order of the test case. -/
theorem callFunction_byPosition :
    callFunction sig.params (autoConvertInputs input.items) =
      some (input.items.map fun item => some item.2) := by
  have hconv : autoConvertInputs input.items = input.items := input.filter_pos
  rw [hconv, callFunction, if_pos input.length_eq.symm, input.spread_values]

/-- Java, Kotlin and C# do so too. -/
theorem reflectiveArgs_byPosition :
    reflectiveArgs sig.params input.items = some (input.items.map fun item => some item.2) := by
  simp only [reflectiveArgs, input.filter_pos, ite_self, input.spread_values]

theorem ownProperties_items : ownProperties input.items = input.items :=
  ownProperties_eq fun _ h => input.key_not_index h

/-- What JavaScript keeps of the test case. -/
theorem autoConvertInput_eq :
    autoConvertInput input.items =
      input.items.filter fun item => decide (item.1 ≠ posKey ∧ item.1 ≠ protoKey) := by
  rw [autoConvertInput, input.ownProperties_items]
  exact ownProperties_eq fun item hitem => input.key_not_index (List.mem_of_mem_filter hitem)

/-- JavaScript and TypeScript pass the values so too, unless a key is `__proto__`. -/
theorem jsExecuteFunction_byPosition (hproto : protoKey ∉ sig.params) :
    jsExecuteFunction sig.params input.items =
      some (input.items.map fun item => some item.2) := by
  have hconv : autoConvertInput input.items = input.items := by
    rw [input.autoConvertInput_eq, List.filter_eq_self]
    intro item hitem
    have hne : item.1 ≠ protoKey := fun heq => hproto (heq ▸ input.key_mem hitem)
    simp [input.key_ne_pos hitem, hne]
  rw [jsExecuteFunction, hconv, input.spread_values]

/-- A parameter called `__proto__` leaves the last parameter without a value. -/
theorem jsExecuteFunction_proto (hproto : protoKey ∈ sig.params) :
    jsExecuteFunction sig.params input.items ≠ some (sig.params.map (stored input.items)) := by
  intro h
  let args := values (autoConvertInput input.items)
  have hargs : args.length < sig.params.length := by
    obtain ⟨item, hitem, hkey⟩ := List.mem_map.mp (input.mem_keys hproto)
    have hlt := List.length_filter_lt_length_iff_exists
      (p := fun item : PyStr × β => decide (item.1 ≠ posKey ∧ item.1 ≠ protoKey)).mpr
      ⟨item, hitem, by simp [hkey]⟩
    simpa only [args, values, List.length_map, input.autoConvertInput_eq, ← input.length_eq]
      using hlt
  have hnone : (spread sig.params.length args)[args.length]? = some none := by
    simp [spread, hargs]
  have hsome : spread sig.params.length args = sig.params.map (stored input.items) :=
    Option.some.inj h
  rw [hsome, List.getElem?_map] at hnone
  obtain ⟨p, hp, hstored⟩ := Option.map_eq_some_iff.mp hnone
  have hmem : p ∈ sig.params := List.mem_of_getElem? hp
  have hvalue := stored_isSome (input.mem_keys hmem)
  rw [hstored] at hvalue
  cases hvalue

end TestInput

end ExecutionEngine.ArgumentBinding
