import ExecutionEngine.LinkedListCodec
import ExecutionEngine.OperationLines
import ExecutionEngine.TreeLists

/-!
# Arguments and results in C++

`cpp_support.hpp` reads every argument and writes the result by the type that the submission
declares: `Arg<T>::get` and `Out<T>::to` are specialised for characters, vectors, vectors of
strings, trees and lists, and fall back on the JSON library. Here the types are data, and
the two templates are functions by recursion on the type.

The JSON library is a parameter: it is used to read scalars and vectors of scalars and to
iterate over a value. What the proofs use of it is that it reads back what it writes.
-/
namespace ExecutionEngine.CppCodec
open LevelOrder TreeCodec TreeLists Binary64

/-- A value of the JSON library. Strings are bytes. The two kinds of integers that the library
has compare equal and are written alike. -/
inductive CppJson
  | null
  | boolean (b : Bool)
  | integer (n : ℤ)
  | float (x : Float64)
  | string (bytes : List UInt8)
  | array (items : List CppJson)
  | object (members : List (List UInt8 × CppJson))

/-- The types that are left to the JSON library. -/
inductive Scalar
  | int
  | longLong
  | double
  | bool
  | string
  deriving DecidableEq, Repr

inductive CppType
  | scalar (s : Scalar)
  | char
  | vector (item : CppType)
  | tree
  | list
  deriving DecidableEq, Repr

abbrev Scalar.Value : Scalar → Type
  | .int => Int32
  | .longLong => Int64
  | .double => Float64
  | .bool => Bool
  | .string => List UInt8

/-- A pointer comes with the memory it points into. -/
abbrev CppType.Value : CppType → Type
  | .scalar s => s.Value
  | .char => UInt8
  | .vector item => List item.Value
  | .tree => TreeCodec.Built Int32
  | .list => LinkedListCodec.Built

/-- `json(value)` -/
def ofScalar : (s : Scalar) → s.Value → CppJson
  | .int, n => .integer n.toInt
  | .longLong, n => .integer n.toInt
  | .double, x => .float x
  | .bool, b => .boolean b
  | .string, bytes => .string bytes

/-- What is used of the JSON library: `j.get<T>()` for a scalar and for a vector of scalars,
which throw with a message, and `for (const auto& item : j)`. -/
structure JsonLibrary where
  get : (s : Scalar) → CppJson → Except String s.Value
  getVector : (s : Scalar) → CppJson → Except String (List s.Value)
  iterate : CppJson → List CppJson
  get_ofScalar : ∀ s v, get s (ofScalar s v) = .ok v
  getVector_array : ∀ s items, getVector s (.array items) = items.mapM (get s)
  iterate_array : ∀ items, iterate (.array items) = items

theorem byte_lt (b : UInt8) : b.toNat < 0x110000 := by
  have h := b.toNat_lt
  omega

/-- Bytes as the code points with their numbers. -/
def byteText (bytes : List UInt8) : List CodePoint := bytes.map fun b => ⟨b.toNat, byte_lt b⟩

def textBytes (s : List CodePoint) : List UInt8 := s.map fun c => UInt8.ofNat c.val

/-- The lines of a string given for a vector of strings. Bytes are compared with ASCII
characters only. -/
def operationLines (bytes : List UInt8) : List (List UInt8) :=
  (OperationLines.argGet (byteText bytes)).map textBytes

section
variable (lib : JsonLibrary) (listCyclePos : Int32)

/-- `item.is_null() ? nullopt : optional<int>(item.get<int>())` -/
def optionalInt : CppJson → Except String (Option Int32)
  | .null => .ok none
  | item => (lib.get .int item).map some

/-- `Arg<T>::get` -/
def argGet : (t : CppType) → CppJson → Except String t.Value
  | .scalar s, j => lib.get s j
  | .char, .string bytes => .ok (bytes.headD 0)
  | .char, j => (lib.get .int j).map fun n => UInt8.ofInt n.toInt
  | .vector (.scalar .string), .array items => lib.getVector .string (.array items)
  | .vector (.scalar .string), j => (lib.get .string j).map operationLines
  | .vector item, j => (lib.iterate j).mapM (argGet item)
  | .tree, j => ((lib.iterate j).mapM (optionalInt lib)).map buildTreeCpp
  | .list, j =>
    -- the builder tests the index before it uses it
    (lib.getVector .int j).map fun values =>
      (LinkedListCodec.buildCpp values listCyclePos).getD ⟨[], none⟩

end

/-- An optional integer in a JSON array. -/
def ofOptional : Option Int32 → CppJson
  | some n => .integer n.toInt
  | none => .null

/-- `Out<T>::to`; `none` when a loop over a tree or a list takes more rounds than given. -/
def outTo (fuel : ℕ) : (t : CppType) → t.Value → Option CppJson
  | .scalar s, v => some (ofScalar s v)
  | .char, c => some (.string [c])
  | .vector item, vs => (vs.mapM (outTo fuel item)).map .array
  | .tree, b => (serializeTree fuel b.memory b.root).map fun l => .array (l.map ofOptional)
  | .list, b => (LinkedListCodec.linkedListToList fuel b.memory b.head).map fun l =>
    .array (l.map fun n => .integer n.toInt)

/-- The values that belong to a type: what the library writes for a scalar, one byte, an array
of such values, the list of a tree, an array of integers. -/
def Canonical : CppType → CppJson → Prop
  | .scalar s, j => ∃ v, j = ofScalar s v
  | .char, j => ∃ c, j = .string [c]
  | .vector item, j => ∃ items, j = .array items ∧ ∀ x ∈ items, Canonical item x
  | .tree, j => ∃ vals, WellFormed vals ∧ j = .array (vals.map ofOptional)
  | .list, j => ∃ vs : List Int32, j = .array (vs.map fun n => .integer n.toInt)

theorem mem_of_mapM {α β : Type} {f : α → Option β} {vs : List α} {items : List β}
    (h : vs.mapM f = some items) : ∀ x ∈ items, ∃ v, f v = some x := by
  induction vs generalizing items with
  | nil =>
    obtain rfl : items = [] := by simpa using h.symm
    simp
  | cons v vs ih =>
    rw [List.mapM_cons] at h
    obtain ⟨x, hx, hitems⟩ := Option.bind_eq_some_iff.mp h
    obtain ⟨rest, hrest, heq⟩ := Option.bind_eq_some_iff.mp hitems
    obtain rfl := Option.some.inj heq
    exact List.forall_mem_cons.mpr ⟨⟨v, hx⟩, ih hrest⟩

/-- Whatever a submission returns, what is written belongs to its type. -/
theorem canonical_of_outTo {fuel : ℕ} {t : CppType} {v : t.Value} {j : CppJson}
    (h : outTo fuel t v = some j) : Canonical t j := by
  induction t generalizing j with
  | scalar s => exact ⟨v, (Option.some.inj h).symm⟩
  | char => exact ⟨v, (Option.some.inj h).symm⟩
  | vector item ih =>
    obtain ⟨items, hitems, rfl⟩ := Option.map_eq_some_iff.mp h
    refine ⟨items, rfl, fun x hx => ?_⟩
    obtain ⟨w, hw⟩ := mem_of_mapM hitems x hx
    exact ih hw
  | tree =>
    obtain ⟨l, hl, rfl⟩ := Option.map_eq_some_iff.mp h
    obtain ⟨tree, rfl⟩ := exists_tree_of_treeToList hl
    exact ⟨encode tree, encode_wellFormed tree, rfl⟩
  | list =>
    obtain ⟨vs, -, rfl⟩ := Option.map_eq_some_iff.mp h
    exact ⟨vs, rfl⟩

section
variable (lib : JsonLibrary) (listCyclePos : Int32)

/-- The value is read, and what has been read is written as the same value. -/
def Echoes (t : CppType) (j : CppJson) : Prop :=
  ∃ v, argGet lib listCyclePos t j = .ok v ∧ ∃ steps, ∀ fuel, steps ≤ fuel →
    outTo fuel t v = some j

variable {lib listCyclePos}

/-- A vector is read and written item by item. -/
theorem mapM_echoes {α : Type} {arg : CppJson → Except String α} {out : ℕ → α → Option CppJson}
    {items : List CppJson} (h : ∀ x ∈ items, ∃ v, arg x = .ok v ∧ ∃ steps, ∀ fuel, steps ≤ fuel →
      out fuel v = some x) :
    ∃ vs, items.mapM arg = .ok vs ∧ ∃ steps, ∀ fuel, steps ≤ fuel →
      vs.mapM (out fuel) = some items := by
  induction items with
  | nil => exact ⟨[], rfl, 0, fun fuel _ => rfl⟩
  | cons x items ih =>
    obtain ⟨⟨v, hv, steps, hsteps⟩, hrest⟩ := List.forall_mem_cons.mp h
    obtain ⟨vs, hvs, more, hmore⟩ := ih hrest
    refine ⟨v :: vs, ?_, max steps more, fun fuel hle => ?_⟩
    · rw [List.mapM_cons, hv, hvs]
      rfl
    · rw [List.mapM_cons, hsteps fuel (le_trans (le_max_left _ _) hle),
        hmore fuel (le_trans (le_max_right _ _) hle)]
      rfl

theorem get_integer (n : Int32) : lib.get .int (.integer n.toInt) = .ok n :=
  lib.get_ofScalar .int n

theorem mapM_ok {α β : Type} {f : β → α} {g : α → Except String β} (h : ∀ v, g (f v) = .ok v)
    (vs : List β) : (vs.map f).mapM g = .ok vs := by
  induction vs with
  | nil => rfl
  | cons v vs ih =>
    rw [List.map_cons, List.mapM_cons, h, ih]
    rfl

theorem optionalInt_ofOptional (o : Option Int32) : optionalInt lib (ofOptional o) = .ok o := by
  cases o with
  | none => rfl
  | some n =>
    change (lib.get .int (.integer n.toInt)).map some = _
    rw [get_integer]
    rfl

theorem echoes_tree {vals : List (Option Int32)} (h : WellFormed vals) :
    Echoes lib listCyclePos .tree (.array (vals.map ofOptional)) := by
  obtain ⟨⟨steps, hsteps⟩, -⟩ := lists_treeToList (buildTreeCpp_represents vals)
  refine ⟨buildTreeCpp vals, ?_, steps, fun fuel hle => ?_⟩
  · rw [argGet, lib.iterate_array, mapM_ok optionalInt_ofOptional]
    rfl
  · rw [h.encode_decode] at hsteps
    rw [outTo, serializeTree, hsteps fuel hle]
    rfl

/-- Whatever `pos` is, the builder makes a chain of the values. -/
theorem exists_buildCpp (vs : List Int32) (pos : Int32) :
    ∃ b back, LinkedListCodec.buildCpp vs pos = some b ∧
      LinkedListCodec.Chain b.memory b.head vs back := by
  by_cases hvs : vs = []
  · subst hvs
    obtain ⟨b, hb, hchain, -⟩ := LinkedListCodec.agrees_nil pos
    exact ⟨b, _, hb, hchain⟩
  · have hpos : 0 < vs.length := List.length_pos_of_ne_nil hvs
    by_cases hguard : 0 ≤ pos.toInt ∧ pos.toInt < (Int32.ofNat vs.length).toInt
    · obtain ⟨b, hb, hchain, -⟩ := LinkedListCodec.buildCpp_closed hpos hguard.1 hguard.2
      exact ⟨b, _, hb, hchain⟩
    · exact ⟨_, none, LinkedListCodec.buildCpp_open hpos hguard, List.range vs.length, rfl,
        LinkedListCodec.chainAt_range vs⟩

theorem echoes_list (vs : List Int32) :
    Echoes lib listCyclePos .list (.array (vs.map fun n => .integer n.toInt)) := by
  obtain ⟨b, back, hb, hchain⟩ := exists_buildCpp vs listCyclePos
  refine ⟨b, ?_, vs.length + 1, fun fuel hle => ?_⟩
  · rw [argGet, lib.getVector_array, mapM_ok get_integer]
    change Except.ok ((LinkedListCodec.buildCpp vs listCyclePos).getD _) = _
    rw [hb]
    rfl
  · rw [outTo, LinkedListCodec.linkedListToList_eq hchain hle]
    rfl

/-- A value that belongs to the type is read and written unchanged. -/
theorem echoes_of_canonical {t : CppType} {j : CppJson} (h : Canonical t j) :
    Echoes lib listCyclePos t j := by
  induction t generalizing j with
  | scalar s =>
    obtain ⟨v, rfl⟩ := h
    exact ⟨v, by rw [argGet, lib.get_ofScalar], 0, fun fuel _ => rfl⟩
  | char =>
    obtain ⟨c, rfl⟩ := h
    exact ⟨c, rfl, 0, fun fuel _ => rfl⟩
  | vector item ih =>
    obtain ⟨items, rfl, hitems⟩ := h
    obtain ⟨vs, hvs, steps, hsteps⟩ := mapM_echoes fun x hx => ih (hitems x hx)
    refine ⟨vs, ?_, steps, fun fuel hle => ?_⟩
    · by_cases hitem : item = .scalar .string
      · -- the specialisation for strings
        subst hitem
        rw [argGet, lib.getVector_array]
        exact hvs
      · rw [argGet, lib.iterate_array, hvs]
        all_goals simp [hitem]
    · rw [outTo, hsteps fuel hle]
      rfl
  | tree =>
    obtain ⟨vals, hvals, rfl⟩ := h
    exact echoes_tree hvals
  | list =>
    obtain ⟨vs, rfl⟩ := h
    exact echoes_list vs

end

/-- For every type that a submission can declare, however nested, and every value of the JSON
library: the value is read and written again unchanged if and only if it belongs to the type,
and if and only if a submission can make the wrapper write it at all. The index to which
lists are closed does not matter. -/
theorem echoes_iff_canonical (lib : JsonLibrary) (listCyclePos : Int32) (t : CppType)
    (j : CppJson) :
    (Echoes lib listCyclePos t j ↔ Canonical t j) ∧
      ((∃ v fuel, outTo fuel t v = some j) ↔ Canonical t j) := by
  have hwritten : (∃ v fuel, outTo fuel t v = some j) → Canonical t j := by
    rintro ⟨v, fuel, hv⟩
    exact canonical_of_outTo hv
  have hechoes : Echoes lib listCyclePos t j → ∃ v fuel, outTo fuel t v = some j := by
    rintro ⟨v, -, steps, hsteps⟩
    exact ⟨v, steps, hsteps steps le_rfl⟩
  exact ⟨⟨fun h => hwritten (hechoes h), echoes_of_canonical⟩,
    hwritten, fun h => hechoes (echoes_of_canonical h)⟩

/-- `type_name` of the library. -/
def typeName : CppJson → String
  | .null => "null"
  | .boolean _ => "boolean"
  | .integer _ => "number"
  | .float _ => "number"
  | .string _ => "string"
  | .array _ => "array"
  | .object _ => "object"

def typeError (expected : String) (j : CppJson) : String :=
  "type must be " ++ expected ++ ", but is " ++ typeName j

/-- Numbers are converted as by a cast, also booleans to integers. -/
def castGet : (s : Scalar) → CppJson → Except String s.Value
  | .int, .integer n => .ok (Int32.ofInt n)
  | .int, .boolean b => .ok (if b then 1 else 0)
  | .int, .float (.finite y) => .ok (Int32.ofInt (y.units.tdiv one))
  | .int, j => .error (typeError "number" j)
  | .longLong, .integer n => .ok (Int64.ofInt n)
  | .longLong, .float (.finite y) => .ok (Int64.ofInt (y.units.tdiv one))
  | .longLong, j => .error (typeError "number" j)
  | .double, .float x => .ok x
  | .double, .integer n => .ok ((Float64.ofInt n).getD .nan)
  | .double, j => .error (typeError "number" j)
  | .bool, .boolean b => .ok b
  | .bool, j => .error (typeError "boolean" j)
  | .string, .string bytes => .ok bytes
  | .string, j => .error (typeError "string" j)

theorem castGet_ofScalar (s : Scalar) (v : s.Value) : castGet s (ofScalar s v) = .ok v := by
  cases s with
  | int => exact congrArg Except.ok (Int32.ofInt_toInt v)
  | longLong => exact congrArg Except.ok (Int64.ofInt_toInt v)
  | _ => rfl

/-- A library that behaves as documented on the values below. -/
def documented : JsonLibrary where
  get := castGet
  getVector s j :=
    match j with
    | .array items => items.mapM (castGet s)
    | j => .error (typeError "array" j)
  iterate j :=
    match j with
    | .null => []
    | .array items => items
    | .object members => members.map Prod.snd
    | j => [j]
  get_ofScalar := castGet_ofScalar
  getVector_array _ _ := rfl
  iterate_array _ := rfl

/-- A vector of two trees, read and written with a cycle position left over. -/
theorem echoes_two_trees :
    Echoes documented 0 (.vector .tree)
      (.array [.array [.integer 1, .null, .integer 2], .array []]) := by
  have hfirst : WellFormed [some (1 : Int32), none, some 2] := by
    refine ⟨fun i v hv => ?_, by decide⟩
    have hi : i < 3 := (List.getElem?_eq_some_iff.mp hv).1
    simp only [Reachable]
    interval_cases i <;> decide
  have hsecond : WellFormed ([] : List (Option Int32)) := ⟨by simp, by simp⟩
  refine (echoes_iff_canonical documented 0 (.vector .tree) _).1.mpr ⟨_, rfl, ?_⟩
  refine List.forall_mem_cons.mpr ⟨⟨_, hfirst, rfl⟩, ?_⟩
  exact List.forall_mem_singleton.mpr ⟨_, hsecond, rfl⟩

end ExecutionEngine.CppCodec
