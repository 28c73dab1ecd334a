import ExecutionEngine.Json

/-!
# The decoder `json.loads`

The scanner of the standard library, on Python strings. It accepts more than the
JSON grammar: the literals `NaN`, `Infinity` and `-Infinity`, and escapes that
leave a lone surrogate. Integers have at most 4300 digits, and arrays and objects
nest at most as deeply as the interpreter's recursion limit leaves room for.
A repeated key keeps its first place and its last value.
-/
namespace ExecutionEngine.JsonDecoder
open Binary64

/-- `JSONDecodeError`, the `ValueError` of a long integer, and `RecursionError`. -/
inductive DecodeError
  | malformed
  | tooManyDigits
  | recursion
  deriving DecidableEq, Repr

/-- A scanned value and the text after it. -/
abbrev Scanned (α : Type) := α × PyStr

/-- A character of the source text. -/
def ch (c : Char) : CodePoint := PyStr.ofChar c

def isBlank (c : CodePoint) : Bool :=
  c = ch ' ' || c = ch '\t' || c = ch '\n' || c = ch '\r'

def skipBlanks (s : PyStr) : PyStr := List.dropWhile isBlank s

def hexDigit (c : CodePoint) : Option ℕ :=
  let n := c.val
  if 48 ≤ n ∧ n ≤ 57 then some (n - 48)
  else if 97 ≤ n ∧ n ≤ 102 then some (n - 87)
  else if 65 ≤ n ∧ n ≤ 70 then some (n - 55)
  else none

/-- The code unit of `\uXXXX`. -/
def hexUnit (a b c d : CodePoint) : Option CodePoint := do
  let n := 4096 * (← hexDigit a) + 256 * (← hexDigit b) + 16 * (← hexDigit c) + (← hexDigit d)
  if h : n < 0x110000 then some ⟨n, h⟩ else none

/-- The escapes of one character. -/
def shortEscape (c : CodePoint) : Option CodePoint :=
  if c = ch '"' then some (ch '"')
  else if c = ch '\\' then some (ch '\\')
  else if c = ch '/' then some (ch '/')
  else if c = ch 'b' then some ⟨8, by decide⟩
  else if c = ch 'f' then some ⟨12, by decide⟩
  else if c = ch 'n' then some ⟨10, by decide⟩
  else if c = ch 'r' then some ⟨13, by decide⟩
  else if c = ch 't' then some ⟨9, by decide⟩
  else none

/-- The characters up to the closing quote, each with a mark that says whether it
was written as `\uXXXX`. -/
def scanUnits : PyStr → Except DecodeError (Scanned (List (CodePoint × Bool)))
  | [] => .error .malformed
  | c :: rest =>
    if c = ch '"' then .ok ([], rest)
    else if c = ch '\\' then
      match rest with
      | [] => .error .malformed
      | e :: rest =>
        if e = ch 'u' then
          match rest with
          | h₁ :: h₂ :: h₃ :: h₄ :: rest =>
            match hexUnit h₁ h₂ h₃ h₄ with
            | none => .error .malformed
            | some u => (scanUnits rest).map fun p => ((u, true) :: p.1, p.2)
          | _ => .error .malformed
        else
          match shortEscape e with
          | none => .error .malformed
          | some u => (scanUnits rest).map fun p => ((u, false) :: p.1, p.2)
    else if c.val < 0x20 then .error .malformed
    else (scanUnits rest).map fun p => ((c, false) :: p.1, p.2)

/-- The character of a surrogate pair, both halves of which were escapes. -/
def surrogatePair (high low : CodePoint × Bool) : Option CodePoint :=
  if high.2 && low.2 && 0xD800 ≤ high.1.val && high.1.val ≤ 0xDBFF &&
      0xDC00 ≤ low.1.val && low.1.val ≤ 0xDFFF then
    let n := 0x10000 + (high.1.val - 0xD800) * 0x400 + (low.1.val - 0xDC00)
    if h : n < 0x110000 then some ⟨n, h⟩ else none
  else none

def joinSurrogates : List (CodePoint × Bool) → PyStr
  | [] => []
  | [u] => [u.1]
  | u :: v :: rest =>
    match surrogatePair u v with
    | some c => c :: joinSurrogates rest
    | none => u.1 :: joinSurrogates (v :: rest)

/-- `scanstring`, after the opening quote. -/
def scanString (s : PyStr) : Except DecodeError (Scanned PyStr) :=
  (scanUnits s).map fun p => (joinSurrogates p.1, p.2)

def isDigit (c : CodePoint) : Bool := 48 ≤ c.val && c.val ≤ 57

def natOfDigits (digits : PyStr) : ℕ := List.foldl (fun n c => 10 * n + (c.val - 48)) 0 digits

/-- A sign that is one of the given characters. -/
def takeSign (signs : List CodePoint) : PyStr → Option CodePoint × PyStr
  | [] => (none, [])
  | c :: rest => if c ∈ signs then (some c, rest) else (none, c :: rest)

/-- `0|[1-9]\d*` -/
def takeInteger : PyStr → Option (PyStr × PyStr)
  | [] => none
  | c :: rest =>
    if c = ch '0' then some ([c], rest)
    else if isDigit c then some (List.span isDigit (c :: rest))
    else none

/-- `(\.\d+)?`, the digits only. -/
def takeFraction (s : PyStr) : PyStr × PyStr :=
  match s with
  | [] => ([], s)
  | c :: rest =>
    if c = ch '.' then
      match List.span isDigit rest with
      | ([], _) => ([], s)
      | (digits, rest) => (digits, rest)
    else ([], s)

/-- `([eE][-+]?\d+)?` -/
def takeExponent (s : PyStr) : Option ℤ × PyStr :=
  match s with
  | [] => (none, s)
  | c :: rest =>
    if c = ch 'e' ∨ c = ch 'E' then
      let (sign, rest) := takeSign [ch '-', ch '+'] rest
      match List.span isDigit rest with
      | ([], _) => (none, s)
      | (digits, rest) =>
        let n : ℤ := natOfDigits digits
        (some (if sign = some (ch '-') then -n else n), rest)
    else (none, s)

/-- `sys.get_int_max_str_digits()` -/
def intMaxStrDigits : ℕ := 4300

/-- `_match_number` -/
def scanNumber (s : PyStr) : Except DecodeError (Scanned Json) :=
  let (sign, s) := takeSign [ch '-'] s
  match takeInteger s with
  | none => .error .malformed
  | some (digits, s) =>
    let (fraction, s) := takeFraction s
    let (exponent, s) := takeExponent s
    if List.isEmpty fraction && exponent.isNone then
      if intMaxStrDigits < digits.length then .error .tooManyDigits
      else
        let n : ℤ := natOfDigits digits
        .ok (.int (if sign.isSome then -n else n), s)
    else
      let shift := exponent.getD 0 - fraction.length
      .ok (.float (ofDecimal sign.isSome (natOfDigits (digits ++ fraction)) shift), s)

def literals : List (PyStr × Json) :=
  [("null", .null), ("true", .bool true), ("false", .bool false), ("NaN", .float .nan),
    ("Infinity", .float (.infinity false)), ("-Infinity", .float (.infinity true))]

def scanLiteral (s : PyStr) : Option (Json × PyStr) :=
  literals.findSome? fun l =>
    if List.isPrefixOf l.1 s then some (l.2, List.drop l.1.length s) else none

/-- `d[key] = value` -/
def insert (d : Dict) (key : PyStr) (value : Json) : Dict :=
  if d.contains key then d.map fun item => if item.1 = key then (key, value) else item
  else d ++ [(key, value)]

section
variable (scan : PyStr → Except DecodeError (Scanned Json))

/-- The loop of `_parse_array`, at the start of an item. Every item takes at least
one character, so that the length of the text bounds the number of turns. -/
def scanItems : ℕ → List Json → PyStr → Except DecodeError (Scanned (List Json))
  | 0, _, _ => .error .malformed
  | turns + 1, items, s => do
    let (value, s) ← scan s
    match skipBlanks s with
    | [] => .error .malformed
    | c :: rest =>
      if c = ch ']' then .ok (items ++ [value], rest)
      else if c = ch ',' then scanItems turns (items ++ [value]) (skipBlanks rest)
      else .error .malformed

/-- `_parse_array`, after the bracket. -/
def scanArray (s : PyStr) : Except DecodeError (Scanned Json) :=
  match skipBlanks s with
  | [] => .error .malformed
  | c :: rest =>
    if c = ch ']' then .ok (.arr [], rest)
    else (scanItems scan s.length [] (c :: rest)).map fun p => (.arr p.1, p.2)

/-- A key, a colon and a value. -/
def scanMember : PyStr → Except DecodeError (Scanned (PyStr × Json))
  | [] => .error .malformed
  | c :: rest =>
    if c = ch '"' then do
      let (key, s) ← scanString rest
      match skipBlanks s with
      | [] => .error .malformed
      | c :: rest =>
        if c = ch ':' then do
          let (value, s) ← scan (skipBlanks rest)
          .ok ((key, value), s)
        else .error .malformed
    else .error .malformed

/-- The loop of `_parse_object`, at the start of a member. -/
def scanMembers : ℕ → Dict → PyStr → Except DecodeError (Scanned Dict)
  | 0, _, _ => .error .malformed
  | turns + 1, d, s => do
    let ((key, value), s) ← scanMember scan s
    match skipBlanks s with
    | [] => .error .malformed
    | c :: rest =>
      if c = ch '}' then .ok (insert d key value, rest)
      else if c = ch ',' then scanMembers turns (insert d key value) (skipBlanks rest)
      else .error .malformed

/-- `_parse_object`, after the brace. -/
def scanObject (s : PyStr) : Except DecodeError (Scanned Json) :=
  match skipBlanks s with
  | [] => .error .malformed
  | c :: rest =>
    if c = ch '}' then .ok (.obj [], rest)
    else (scanMembers scan s.length [] (c :: rest)).map fun p => (.obj p.1, p.2)

end

/-- `scan_once`, with room for the given number of nested calls. -/
def scanOnce (room : ℕ) (s : PyStr) : Except DecodeError (Scanned Json) :=
  match s with
  | [] => .error .malformed
  | c :: rest =>
    if c = ch '"' then (scanString rest).map fun p => (.str p.1, p.2)
    else if c = ch '{' then
      match room with
      | 0 => .error .recursion
      | room + 1 => scanObject (scanOnce room) rest
    else if c = ch '[' then
      match room with
      | 0 => .error .recursion
      | room + 1 => scanArray (scanOnce room) rest
    else
      match scanLiteral s with
      | some p => .ok p
      | none => scanNumber s

/-- `json.loads` -/
def loads (room : ℕ) (s : PyStr) : Except DecodeError Json :=
  if (List.head? s).map Fin.val = some 0xFEFF then .error .malformed
  else do
    let (value, rest) ← scanOnce room (skipBlanks s)
    if List.isEmpty (skipBlanks rest) then .ok value else .error .malformed

end ExecutionEngine.JsonDecoder
