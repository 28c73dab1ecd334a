import ExecutionEngine.Decision
import ExecutionEngine.Pipeline
import ExecutionEngine.PyRepr

/-!
# Comparing outputs, after `execution/pipeline.py`

`_outputs_match` accepts an output that `_values_match` accepts, that has the text
or the numeric value of the expected output, or that does so once a list of one
item is taken for its item. `_values_match` follows lists and objects.

Both are recursive, and an interpreter has room for so many nested calls only. The
room is a parameter; the generator that `all` runs through counts with the call it
makes. Comparing values with `==` and writing them with `str` goes no deeper than
the decoder went, and is not counted.

A comparison has three outcomes. Which of them it has is said by relations on the
two values: `Alike` for what is accepted, `Visits` and `Calls` for the pairs of
values that are looked at, since an exception comes from one of these.
-/
namespace ExecutionEngine.Comparison
open Binary64 Pipeline PyRepr FloatText Decision

/-- `value is other`, where it makes a difference: the decoder has one object for NaN. -/
def identical : Json → Json → Bool
  | .float .nan, .float .nan => true
  | _, _ => false

/-- The integer that a value is; Booleans are integers. -/
def asInt : Json → Option ℤ
  | .bool b => some (if b then 1 else 0)
  | .int n => some n
  | _ => none

/-- `value == other` of values that are not both lists or both objects. -/
def scalarEq : Json → Json → Bool
  | .null, .null => true
  | .str a, .str e => decide (a = e)
  | .float a, .float e => a.eq e
  | .float a, e => (asInt e).any a.eqInt
  | a, .float e => (asInt a).any e.eqInt
  | a, e =>
    match asInt a, asInt e with
    | some m, some n => decide (m = n)
    | _, _ => false

mutual

/-- `value == other` -/
def pyEq : Json → Json → Bool
  | .arr as, .arr es => itemsEq as es
  | .obj as, .obj es => decide (as.length = es.length) && membersEq as es
  | a, e => scalarEq a e

/-- Items are equal that are the same object. -/
def itemsEq : List Json → List Json → Bool
  | [], [] => true
  | a :: as, e :: es => (identical a e || pyEq a e) && itemsEq as es
  | _, _ => false

def membersEq : List (PyStr × Json) → Dict → Bool
  | [], _ => true
  | (key, a) :: as, es =>
    (match Dict.lookup es key with
      | some e => identical a e || pyEq a e
      | none => false) && membersEq as es

end

/-- The exception of a call for which there is no room. -/
def recursionError : PyExc := .other "RecursionError" "maximum recursion depth exceeded"

/-- The exception of `float(n)`. -/
def overflowError : PyExc := .other "OverflowError" "int too large to convert to float"

/-- `float(n)` -/
def floatOfInt (n : ℤ) : Except PyExc Float64 :=
  match Float64.ofInt n with
  | some x => .ok x
  | none => .error overflowError

/-- `FLOAT_TOLERANCE` -/
def floatTolerance : Float64 := ofDecimal false 1 (-5)

/-- `_floats_close` -/
def floatsClose (a b : Float64) : Bool :=
  (a.sub b).abs.le (floatTolerance.mul (((ofDecimal false 1 0).max a.abs).max b.abs))

/-- `actual.keys() == expected.keys()` -/
def sameKeys (as es : Dict) : Bool :=
  decide (as.length = es.length) && as.all fun item => Dict.contains es item.1

/-- The values of two objects with the same keys, in the order of the first. -/
def valuePairs (as es : Dict) : List (Json × Json) :=
  as.map fun item => (item.2, Dict.getD es item.1 .null)

/-- `_values_match` -/
def valuesMatch : ℕ → Json → Json → Except PyExc Bool
  | 0, _, _ => .error recursionError
  | room + 1, actual, expected =>
    if pyEq actual expected then .ok true
    else
      match actual, expected with
      | .null, .arr [] => .ok true
      | .arr [], .null => .ok true
      | .float a, .float e => .ok (floatsClose a e)
      | .float a, .int n => do .ok (floatsClose a (← floatOfInt n))
      | .int n, .float e => do .ok (floatsClose (← floatOfInt n) e)
      | .arr as, .arr es =>
        if as.length = es.length then allOf (fun p => valuesMatch room p.1 p.2) (as.zip es)
        else .ok false
      | .obj as, .obj es =>
        if sameKeys as es then allOf (fun p => valuesMatch room p.1 p.2) (valuePairs as es)
        else .ok false
      | _, _ => .ok false

section
variable (printable : CodePoint → Bool)

/-- The `try` block of `_outputs_match`: the texts are equal, or the numbers that they are.
A `ValueError` ends it. -/
def textsMatch (actual expected : Json) : Bool :=
  match pyStr printable actual, pyStr printable expected with
  | some s, some t =>
    decide (s = t) ||
      match floatOfStr s, floatOfStr t with
      | some x, some y => x.eq y
      | _, _ => false
  | _, _ => false

/-- The item of a list of one. -/
def onlyItem : Json → Option Json
  | .arr [item] => some item
  | _ => none

/-- `_outputs_match` of plain values. -/
def outputsMatch : ℕ → Json → Json → Except PyExc Bool
  | 0, _, _ => .error recursionError
  | room + 1, actual, expected =>
    either (valuesMatch room actual expected) <|
    either (.ok (textsMatch printable actual expected)) <|
    either
      (match onlyItem actual with
        | some item => outputsMatch room item expected
        | none => .ok false)
      (match onlyItem expected with
        | some item => outputsMatch room actual item
        | none => .ok false)

end

end ExecutionEngine.Comparison
