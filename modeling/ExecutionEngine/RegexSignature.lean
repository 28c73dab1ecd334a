import ExecutionEngine.CSignature

/-!
# Signatures found by one pattern, after `languages/go.py` and `languages/rust.py`

Both executors search the code as it was written for one regular expression: a keyword and
the name, the shortest text up to a parenthesis, what may stand for the result, a brace.
The functions below do what the matcher does, with its order of choices.
-/
namespace ExecutionEngine.RegexSignature
open Pipeline TextScan CSignature

/-- `name\s*\(`: what follows it. -/
def callAt (name s : Text) : Option Text :=
  (after name s).bind fun rest =>
    match rest.dropWhile isSpace with
    | [] => none
    | c :: inside => if c = ch '(' then some inside else none

/-- `\s*name\s*\(`. The blanks take as many as they can; a name may begin with one itself. -/
def blanksThen (name : Text) : Text → Option Text
  | [] => callAt name []
  | c :: rest =>
    if isSpace c then (blanksThen name rest).or (callAt name (c :: rest))
    else callAt name (c :: rest)

/-- `keyword\s+name\s*\(`: what follows the parenthesis. -/
def headAt (keyword name s : Text) : Option Text :=
  (after keyword s).bind fun rest =>
    match rest with
    | [] => none
    | c :: rest => if isSpace c then blanksThen name rest else none

/-- `\s*\{`: what follows the brace. -/
def brace (s : Text) : Option Text :=
  match s.dropWhile isSpace with
  | [] => none
  | c :: rest => if c = ch '\x7b' then some rest else none

/-- A match: where it begins and ends, and its groups. -/
structure Matched (β : Type) where
  start : ℕ
  stop : ℕ
  params : Text
  result : β
  deriving DecidableEq, Repr

section
variable {β : Type} (keyword name : Text) (tail : Text → Option (β × Text))

/-- `(.*?)\)` and the rest of the pattern: the shortest group after which it matches. -/
def closeAt (params : Text) : Text → Option (Text × β × Text)
  | [] => none
  | c :: rest =>
    if c = ch ')' then
      match tail rest with
      | some (result, left) => some (params, result, left)
      | none => closeAt (params ++ [c]) rest
    else closeAt (params ++ [c]) rest

/-- The pattern at the beginning of a text: its groups and what it leaves. -/
def matchAt (s : Text) : Option (Text × β × Text) :=
  (headAt keyword name s).bind (closeAt tail [])

/-- `re.search`, from a position on. -/
def searchFrom (i : ℕ) : Text → Option (Matched β)
  | [] => none
  | c :: rest =>
    match matchAt keyword name tail (c :: rest) with
    | some (params, result, left) =>
      some ⟨i, i + (c :: rest).length - left.length, params, result⟩
    | none => searchFrom (i + 1) rest

end

/-- The depths of each kind of bracket after a character. -/
def depthsAfter (brackets : List (CodePoint × CodePoint)) (depths : List ℕ) (c : CodePoint) :
    List ℕ :=
  List.zipWith (fun pair depth =>
    if c = pair.1 then depth + 1 else if c = pair.2 then depth - 1 else depth) brackets depths

/-- A piece that is not blank. -/
def piece (current : Text) : List Text :=
  if trim isSpace current = [] then [] else [trim isSpace current]

def piecesFrom (brackets : List (CodePoint × CodePoint)) (current : Text) (depths : List ℕ) :
    Text → List Text
  | [] => piece current
  | c :: rest =>
    let depths := depthsAfter brackets depths c
    if c = ch ',' ∧ depths.all (· = 0) then piece current ++ piecesFrom brackets [] depths rest
    else piecesFrom brackets (current ++ [c]) depths rest

/-- `_split_top_level` of both executors, for the brackets each of them counts. -/
def pieces (brackets : List (CodePoint × CodePoint)) (content : Text) : List Text :=
  piecesFrom brackets [] (brackets.map fun _ => 0) content

namespace Go

/-- `\([^\)]*\)` and a brace. -/
def parenGroup (s : Text) : Option (Text × Text) :=
  if s.head? = some (ch '(') then
    match s.dropWhile fun c => decide (c ≠ ch ')') with
    | [] => none
    | c :: rest => (brace rest).map fun left =>
        (s.takeWhile (fun c => decide (c ≠ ch ')')) ++ [c], left)
  else none

/-- `[^\s\{]` -/
def inWord (c : CodePoint) : Bool := !isSpace c && decide (c ≠ ch '\x7b')

/-- `[^\s\{]+` and a brace. -/
def wordGroup (s : Text) : Option (Text × Text) :=
  if s.takeWhile inWord = [] then none
  else (brace (s.dropWhile inWord)).map fun left => (s.takeWhile inWord, left)

/-- `\s*(\([^\)]*\)|[^\s\{]+)?\s*\{`; the group is empty where it takes no part. -/
def tail (s : Text) : Option (Text × Text) :=
  match brace s with
  | some left => some ([], left)
  | none => (parenGroup (s.dropWhile isSpace)).or (wordGroup (s.dropWhile isSpace))

def search (functionName code : Text) : Option (Matched Text) :=
  searchFrom (text "func") functionName tail 0 code

def splitTopLevel (content : Text) : List Text :=
  pieces [(ch '(', ch ')'), (ch '[', ch ']'), (ch '\x7b', ch '\x7d')] content

/-- The loop of `_parse_params`: the names that wait for a type and the parameters so far. -/
def paramsFrom (pending : List Text) (params : List (Text × Text)) :
    List Text → List Text × List (Text × Text)
  | [] => (pending, params)
  | segment :: segments =>
    match words isSpace segment with
    | [] => paramsFrom pending params segments
    | [name] => paramsFrom (pending ++ [name]) params segments
    | name :: type =>
      paramsFrom [] (params ++ (pending ++ [name]).map fun n => (n, unwords (ch ' ') type)) segments

/-- `_parse_params` -/
def parseParams (paramsStr : Text) : Except PyExc (List (Text × Text)) :=
  if paramsStr = [] then .ok []
  else
    let (pending, params) := paramsFrom [] [] (splitTopLevel paramsStr)
    if pending = [] then .ok params
    else .error (.compileError (text "Invalid Go parameter syntax: " ++ paramsStr))

/-- `_normalize_type` -/
def normalizeType (typeName : Text) : Text := unwords (ch ' ') (words isSpace typeName)

/-- `_parse_returns` -/
def parseReturns (returnsStr : Text) : List Text :=
  if returnsStr = [] then []
  else if returnsStr.head? = some (ch '(') ∧ returnsStr.getLast? = some (ch ')') then
    let inner := trim isSpace (returnsStr.drop 1).dropLast
    if inner = [] then [] else (splitTopLevel inner).map normalizeType
  else [normalizeType returnsStr]

/-- `_parse_signature`, `_parse_params` and `_parse_returns` in turn: the parameters and the
results. -/
def signature (functionName code : Text) : Except PyExc (List (Text × Text) × List Text) :=
  match search functionName code with
  | none => .error (.compileError (text "Could not parse Go function signature"))
  | some m => (parseParams (trim isSpace m.params)).map fun params =>
      (params, parseReturns (trim isSpace m.result))

end Go

namespace Rust

/-- `\s*([^\{]+)` and a brace. With blanks only, the blanks before give one of them back. -/
def arrowGroup (s : Text) : Option (Text × Text) :=
  let body := s.takeWhile fun c => decide (c ≠ ch '\x7b')
  match s.dropWhile fun c => decide (c ≠ ch '\x7b') with
  | [] => none
  | _ :: left =>
    if body.dropWhile isSpace = [] then body.getLast?.map fun c => ([c], left)
    else some (body.dropWhile isSpace, left)

/-- `\s*(?:->\s*([^\{]+))?\s*\{` -/
def tail (s : Text) : Option (Option Text × Text) :=
  match brace s with
  | some left => some (none, left)
  | none => ((after (text "->") (s.dropWhile isSpace)).bind arrowGroup).map fun r =>
      (some r.1, r.2)

def search (functionName code : Text) : Option (Matched (Option Text)) :=
  searchFrom (text "fn") functionName tail 0 code

def splitTopLevel (content : Text) : List Text :=
  pieces [(ch '<', ch '>'), (ch '(', ch ')'), (ch '[', ch ']')] content

/-- `s.replace("mut ", "")`, with the characters still to be skipped. -/
def dropMut : ℕ → Text → Text
  | _, [] => []
  | skip + 1, _ :: rest => dropMut skip rest
  | 0, c :: rest =>
    if (text "mut ").isPrefixOf (c :: rest) then dropMut 3 rest else c :: dropMut 0 rest

/-- One parameter: its type and its name. -/
def parseParam (param : Text) : Except PyExc (Text × Text) :=
  if ch ':' ∈ param then
    .ok (trim isSpace ((param.dropWhile fun c => decide (c ≠ ch ':')).drop 1),
      dropMut 0 (trim isSpace (param.takeWhile fun c => decide (c ≠ ch ':'))))
  else .error (.compileError (text "Invalid Rust parameter syntax: " ++ param))

/-- `_parse_signature`: the parameters and the return type. -/
def signature (functionName code : Text) : Except PyExc (List (Text × Text) × Text) :=
  match search functionName code with
  | none => .error (.compileError (text "Could not parse Rust function signature"))
  | some m => ((splitTopLevel (trim isSpace m.params)).mapM parseParam).map fun params =>
      (params, trim isSpace (m.result.getD (text "()")))

end Rust

end ExecutionEngine.RegexSignature
