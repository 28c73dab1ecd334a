import ExecutionEngine.Binary64

/-!
# Python strings and decoded JSON values

A Python string is a sequence of code points, surrogates included, since
`json.loads` produces lone surrogates from escapes. A decoded JSON value keeps
integers and floats apart, as Python does. An object is the list of its items in
insertion order; `lookup` is `dict.get`.
-/
namespace ExecutionEngine
open Binary64

/-- A Unicode code point, surrogate or not. -/
def CodePoint : Type := Fin 0x110000
  deriving DecidableEq, Repr

/-- A Python `str`. -/
def PyStr : Type := List CodePoint
  deriving DecidableEq, Repr, Append

namespace PyStr

def ofChar (c : Char) : CodePoint := ⟨c.toNat, by
  have h := c.valid
  simp only [Char.toNat, UInt32.isValidChar, Nat.isValidChar] at h ⊢
  omega⟩

/-- A string literal of the source. -/
def ofString (s : String) : PyStr := s.toList.map ofChar

instance : Coe String PyStr := ⟨ofString⟩

/-- `str.isspace` of one character. -/
def isSpace (c : CodePoint) : Bool :=
  let n := c.val
  (9 ≤ n && n ≤ 13) || (28 ≤ n && n ≤ 32) || n == 0x85 || n == 0xA0 || n == 0x1680 ||
    (0x2000 ≤ n && n ≤ 0x200A) || n == 0x2028 || n == 0x2029 || n == 0x202F || n == 0x205F ||
    n == 0x3000

/-- `str.strip()` -/
def strip (s : PyStr) : PyStr :=
  ((List.dropWhile isSpace s).reverse.dropWhile isSpace).reverse

/-- `s[:n]` -/
def take (n : ℕ) (s : PyStr) : PyStr := List.take n s

/-- `s[:n]` for an index that may be negative. -/
def sliceTo (n : ℤ) (s : PyStr) : PyStr :=
  if 0 ≤ n then s.take n.toNat else s.take (s.length - (-n).toNat)

/-- `part in s` -/
def hasPart (part s : PyStr) : Bool := (List.tails s).any fun rest => List.isPrefixOf part rest

/-- `bool(s)` -/
def truthy (s : PyStr) : Bool := !List.isEmpty s

/-- `s or default` -/
def orElse (s default : PyStr) : PyStr := if s.truthy then s else default

end PyStr

inductive Json
  | null
  | bool (b : Bool)
  | int (n : ℤ)
  | float (x : Float64)
  | str (s : PyStr)
  | arr (items : List Json)
  | obj (items : List (PyStr × Json))

/-- Induction over a value, with its items and members at once. -/
@[elab_as_elim]
theorem Json.induct {motive : Json → Prop} (null : motive .null) (bool : ∀ b, motive (.bool b))
    (int : ∀ n, motive (.int n)) (float : ∀ x, motive (.float x)) (str : ∀ s, motive (.str s))
    (arr : ∀ items, (∀ item ∈ items, motive item) → motive (.arr items))
    (obj : ∀ items, (∀ item ∈ items, motive item.2) → motive (.obj items)) (v : Json) :
    motive v := by
  refine @Json.rec motive (fun items => ∀ item ∈ items, motive item)
    (fun items => ∀ item ∈ items, motive item.2) (fun item => motive item.2)
    null bool int float str arr obj ?_ ?_ ?_ ?_ ?_ v
  · simp
  · intro item rest hitem hrest
    rw [List.forall_mem_cons]
    exact ⟨hitem, hrest⟩
  · simp
  · intro item rest hitem hrest
    rw [List.forall_mem_cons]
    exact ⟨hitem, hrest⟩
  · exact fun key value h => h

/-- A decoded JSON object. -/
abbrev Dict := List (PyStr × Json)

namespace Dict

/-- `d.get(key)`, with `none` for an absent key. -/
def lookup (d : Dict) (key : PyStr) : Option Json :=
  (d.find? fun item => decide (item.1 = key)).map Prod.snd

/-- `key in d` -/
def contains (d : Dict) (key : PyStr) : Bool := (d.lookup key).isSome

/-- `d.get(key, default)` -/
def getD (d : Dict) (key : PyStr) (default : Json) : Json := (d.lookup key).getD default

end Dict

namespace Json

/-- `bool(value)` -/
def truthy : Json → Bool
  | .null => false
  | .bool b => b
  | .int n => n != 0
  | .float x => !x.isZero
  | .str s => s.truthy
  | .arr xs => !xs.isEmpty
  | .obj d => !d.isEmpty

/-- `value is None` -/
def isNone : Json → Bool
  | .null => true
  | _ => false

end Json

end ExecutionEngine
