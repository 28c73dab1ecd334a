import ExecutionEngine.JsonDecoder
import ExecutionEngine.ShortestDecimal

/-!
# The encoder `json.dumps`

The encoder of the standard library on decoded values. By default it writes ASCII
only, a character beyond the first plane as two escapes, and the literals `NaN`
and `Infinity` for floats that have no other text; with `ensure_ascii=False`
characters stand for themselves, and with `allow_nan=False` such floats raise. A
finite float is written with the shortest digits that give it back. Long integers
and deep nesting raise as they do in the decoder.
-/
namespace ExecutionEngine.JsonEncoder
open Binary64
open JsonDecoder (ch intMaxStrDigits)

/-- The `ValueError` of a float that is not finite and of a long integer, and
`RecursionError`. -/
inductive EncodeError
  | outOfRange
  | tooManyDigits
  | recursion
  deriving DecidableEq, Repr

/-- The arguments `ensure_ascii` and `allow_nan`. -/
structure Style where
  ensureAscii : Bool
  allowNan : Bool

/-- `json.dumps(value)` -/
def defaultStyle : Style := ⟨true, true⟩

/-- A literal of the source. -/
def lit (s : String) : List CodePoint := PyStr.ofString s

def hexChar (n : ℕ) : CodePoint :=
  if n % 16 < 10 then ⟨48 + n % 16, by omega⟩ else ⟨87 + n % 16, by omega⟩

/-- `\uXXXX` -/
def unicodeEscape (n : ℕ) : List CodePoint :=
  [ch '\\', ch 'u', hexChar (n / 4096), hexChar (n / 256), hexChar (n / 16), hexChar n]

/-- The escapes of `ESCAPE_DCT` with one letter. -/
def letterEscape (c : CodePoint) : Option CodePoint :=
  if c = ch '"' then some (ch '"')
  else if c = ch '\\' then some (ch '\\')
  else if c.val = 10 then some (ch 'n')
  else if c.val = 13 then some (ch 'r')
  else if c.val = 9 then some (ch 't')
  else if c.val = 12 then some (ch 'f')
  else if c.val = 8 then some (ch 'b')
  else none

/-- The text of a character: `py_encode_basestring_ascii` or `py_encode_basestring`. -/
def escape (ensureAscii : Bool) (c : CodePoint) : List CodePoint :=
  match letterEscape c with
  | some letter => [ch '\\', letter]
  | none =>
    if c.val < 0x20 then unicodeEscape c.val
    else if ensureAscii && 0x7F ≤ c.val then
      if c.val < 0x10000 then unicodeEscape c.val
      else
        unicodeEscape (0xD800 + (c.val - 0x10000) / 0x400) ++
          unicodeEscape (0xDC00 + (c.val - 0x10000) % 0x400)
    else [c]

def quote (ensureAscii : Bool) (s : PyStr) : List CodePoint :=
  ch '"' :: (List.flatMap (escape ensureAscii) s ++ [ch '"'])

def digitChar (d : ℕ) : CodePoint := ⟨48 + d % 10, by omega⟩

/-- The decimal digits. -/
def digitChars (n : ℕ) : List CodePoint :=
  if n = 0 then [ch '0'] else (Nat.digits 10 n).reverse.map digitChar

/-- `int.__repr__` -/
def intRepr (n : ℤ) : Except EncodeError (List CodePoint) :=
  let digits := digitChars n.natAbs
  if intMaxStrDigits < digits.length then .error .tooManyDigits
  else .ok (if n < 0 then ch '-' :: digits else digits)

def zeros (n : ℕ) : List CodePoint := List.replicate n (ch '0')

/-- The digits with a point before the digit of the given index. -/
def positional (digits : List CodePoint) (point : ℤ) : List CodePoint :=
  if point ≤ 0 then lit "0." ++ zeros (-point).toNat ++ digits
  else if digits.length ≤ point.toNat then
    digits ++ zeros (point.toNat - digits.length) ++ lit ".0"
  else digits.take point.toNat ++ lit "." ++ digits.drop point.toNat

/-- The digits with a point after the first, and the exponent with at least two digits. -/
def scientific (digits : List CodePoint) (point : ℤ) : List CodePoint :=
  let exponent := digitChars (point - 1).natAbs
  digits.take 1 ++ (if digits.length ≤ 1 then [] else ch '.' :: digits.drop 1) ++
    [ch 'e', if point - 1 < 0 then ch '-' else ch '+'] ++
    (if exponent.length < 2 then ch '0' :: exponent else exponent)

/-- `float.__repr__` of a finite number. -/
def finiteRepr (x : Finite) : List CodePoint :=
  let digits := digitChars x.shortest.1
  let point := digits.length + x.shortest.2
  let text := if -4 < point ∧ point ≤ 16 then positional digits point else scientific digits point
  if x.negative then ch '-' :: text else text

/-- `floatstr` -/
def floatText (allowNan : Bool) : Float64 → Except EncodeError (List CodePoint)
  | .finite x => .ok (finiteRepr x)
  | .nan => if allowNan then .ok (lit "NaN") else .error .outOfRange
  | .infinity negative =>
    if allowNan then .ok (lit (if negative then "-Infinity" else "Infinity")) else .error .outOfRange

/-- `", ".join(texts)` -/
def joinTexts : List (List CodePoint) → List CodePoint
  | [] => []
  | [text] => text
  | text :: rest => text ++ lit ", " ++ joinTexts rest

section
variable (style : Style)

mutual

/-- `json.dumps`, with room for the given number of nested calls. -/
def dumps : Json → ℕ → Except EncodeError (List CodePoint)
  | .null, _ => .ok (lit "null")
  | .bool b, _ => .ok (lit (if b then "true" else "false"))
  | .int n, _ => intRepr n
  | .float x, _ => floatText style.allowNan x
  | .str s, _ => .ok (quote style.ensureAscii s)
  | .arr _, 0 => .error .recursion
  | .arr items, room + 1 => do
    let texts ← dumpsItems items room
    .ok (ch '[' :: (joinTexts texts ++ [ch ']']))
  | .obj _, 0 => .error .recursion
  | .obj items, room + 1 => do
    let texts ← dumpsMembers items room
    .ok (ch '{' :: (joinTexts texts ++ [ch '}']))

def dumpsItems : List Json → ℕ → Except EncodeError (List (List CodePoint))
  | [], _ => .ok []
  | item :: rest, room => do
    let text ← dumps item room
    .ok (text :: (← dumpsItems rest room))

def dumpsMembers : List (PyStr × Json) → ℕ → Except EncodeError (List (List CodePoint))
  | [], _ => .ok []
  | (key, value) :: rest, room => do
    let text ← dumps value room
    .ok ((quote style.ensureAscii key ++ lit ": " ++ text) :: (← dumpsMembers rest room))

end

end

end ExecutionEngine.JsonEncoder
