import ExecutionEngine.Pipeline
import ExecutionEngine.TextScan

/-!
# Finding a C or C++ function, after `languages/c_signature.py`

The definition of the function is searched in the text with its comments and literals
blanked out. Every regular expression of the source is a function here that does what
the matcher does: none of them can be matched in two ways from one position, so no
backtracking is lost.

The class of word characters, `\w`, is a parameter. On ASCII it is letters, digits and
the underscore; beyond ASCII it is that of the Unicode tables of the interpreter.
-/
namespace ExecutionEngine.CSignature
open Pipeline TextScan

abbrev Text := List CodePoint

/-- A literal of the source. -/
def text (s : String) : Text := s.toList.map PyStr.ofChar

def ch (c : Char) : CodePoint := PyStr.ofChar c

def isSpace (c : CodePoint) : Bool := PyStr.isSpace c

/-- `[A-Za-z_]` -/
def startsName (c : CodePoint) : Bool :=
  (65 ≤ c.val && c.val ≤ 90) || (97 ≤ c.val && c.val ≤ 122) || c.val == 95

/-- `\w` on ASCII -/
def asciiWord (c : CodePoint) : Bool := startsName c || (48 ≤ c.val && c.val ≤ 57)

/-- `\w` -/
structure WordClass where
  isWord : CodePoint → Bool
  ascii : ∀ c : CodePoint, c.val < 128 → isWord c = asciiWord c

/-- The class for a text in ASCII. -/
def asciiWords : WordClass := ⟨asciiWord, fun _ _ => rfl⟩

/-- `\b` between two characters, or at an end of the text. -/
def WordClass.boundary (w : WordClass) (before next : Option CodePoint) : Bool :=
  before.any w.isWord != next.any w.isWord

/-- Where `strip_comments` stands: in the code, in a comment, or in a literal. The
second character of `/*`, of `*/` and of an escape has a state of its own. -/
inductive Mode
  | code
  | line
  | blockOpen
  | block
  | blockClose
  | literal (quote : CodePoint)
  | escaped (quote : CodePoint)
  deriving DecidableEq, Repr

/-- `re.sub(r"[^\n]", " ", c)` -/
def blank (c : CodePoint) : CodePoint := if c = ch '\n' then c else ch ' '

/-- One character: what is written for it and how the scan goes on. -/
def Mode.next (mode : Mode) (c : CodePoint) (rest : Text) : CodePoint × Mode :=
  match mode with
  | .code =>
    if c = ch '/' ∧ rest.head? = some (ch '/') then (ch ' ', .line)
    else if c = ch '/' ∧ rest.head? = some (ch '*') then (ch ' ', .blockOpen)
    else if c = ch '"' ∨ c.val = 39 then (c, .literal c)
    else (c, .code)
  | .line => if c = ch '\n' then (c, .code) else (ch ' ', .line)
  | .blockOpen => (ch ' ', .block)
  | .block =>
    if c = ch '*' ∧ rest.head? = some (ch '/') then (ch ' ', .blockClose) else (blank c, .block)
  | .blockClose => (ch ' ', .code)
  | .literal quote =>
    if c = quote then (c, .code)
    else if c = ch '\\' ∧ rest ≠ [] then (ch ' ', .escaped quote)
    else (blank c, .literal quote)
  | .escaped quote => (ch ' ', .literal quote)

def stripFrom (mode : Mode) (s : Text) : Text := transduce Mode.next mode s

theorem stripFrom_cons (mode : Mode) (c : CodePoint) (rest : Text) :
    stripFrom mode (c :: rest) = (mode.next c rest).1 :: stripFrom (mode.next c rest).2 rest := rfl

/-- `strip_comments` -/
def stripComments (code : Text) : Text := stripFrom .code code

def opens (c : CodePoint) : Bool := c ∈ text "<([\x7b"
def closes (c : CodePoint) : Bool := c ∈ text ">)]\x7d"

/-- The depth after a character. -/
def depthAfter (depth : ℕ) (c : CodePoint) : ℕ :=
  if opens c then depth + 1 else if closes c then depth - 1 else depth

/-- The loop of `split_top_level`: the characters of the current part and the depth. -/
def splitFrom (current : Text) (depth : ℕ) : Text → List Text
  | [] => if trim isSpace current = [] then [] else [trim isSpace current]
  | c :: rest =>
    if c = ch ',' ∧ depthAfter depth c = 0 then trim isSpace current :: splitFrom [] 0 rest
    else splitFrom (current ++ [c]) (depthAfter depth c) rest

/-- `split_top_level` -/
def splitTopLevel (s : Text) : List Text := splitFrom [] 0 s

/-- `_matching_paren`: the distance to the parenthesis that closes. -/
def matchingParen : ℕ → Text → Option ℕ
  | _, [] => none
  | depth, c :: rest =>
    if c = ch '(' then (matchingParen (depth + 1) rest).map (· + 1)
    else if c = ch ')' then
      if depth = 1 then some 0 else (matchingParen (depth - 1) rest).map (· + 1)
    else (matchingParen depth rest).map (· + 1)

/-- `;`, a brace, `#`, or a colon that is not one of two. -/
def delimits (before next : Option CodePoint) (c : CodePoint) : Bool :=
  decide (c ∈ text ";\x7b\x7d#") ||
    (decide (c = ch ':') && decide (before ≠ some (ch ':')) && decide (next ≠ some (ch ':')))

/-- The text between a delimiter and a place, read backwards from the place. -/
def backTo : Option CodePoint → Text → Text
  | _, [] => []
  | next, c :: before =>
    if delimits before.head? next c then [] else c :: backTo (some c) before

/-- `_RETURN_TYPE_KEYWORDS` -/
def returnTypeKeywords : List Text :=
  ["static", "inline", "virtual", "constexpr", "extern", "friend", "explicit"].map text

/-- The words of a return type. -/
def typeWords (s : Text) : List Text :=
  (words isSpace s).filter fun word =>
    decide (word ∉ returnTypeKeywords) && !(text "[[").isPrefixOf word

/-- `Solution\s*::\s*$` at the beginning of a text. -/
def endsQualifier (s : Text) : Bool :=
  match after (text "Solution") s with
  | none => false
  | some rest =>
    match after (text "::") (rest.dropWhile isSpace) with
    | none => false
    | some rest => rest.all isSpace

section
variable (w : WordClass)

/-- `re.sub(r"\bSolution\s*::\s*$", "", s)` -/
def dropQualifier : Option CodePoint → Text → Text
  | _, [] => []
  | before, c :: rest =>
    if w.boundary before (some c) && endsQualifier (c :: rest) then []
    else c :: dropQualifier (some c) rest

/-- `_return_type_before`: the text before the name and what follows it. -/
def returnTypeBefore (before rest : Text) : Text :=
  let region := (backTo rest.head? before.reverse).reverse
  trim isSpace (dropQualifier w none (unwords (ch ' ') (typeWords region)))

/-- The keywords of `_TRAILING_QUALIFIERS`, with what follows them. -/
def qualifier (s : Text) : Option Text :=
  ["const", "noexcept", "override", "final"].findSome? fun word =>
    (after (text word) s).filter fun rest => w.boundary (some (ch 't')) rest.head?

/-- `_TRAILING_QUALIFIERS`, with the characters still to be skipped. -/
def skipQualifiers : ℕ → Text → Text
  | _, [] => []
  | skip + 1, _ :: rest => skipQualifiers skip rest
  | 0, c :: rest =>
    if isSpace c || decide (c = ch '&') then skipQualifiers 0 rest
    else
      match qualifier w (c :: rest) with
      | some left => skipQualifiers (rest.length - left.length) rest
      | none => c :: rest

structure Param where
  type : Text
  name : Text
  raw : Text
  deriving DecidableEq, Repr

/-- `(?:\[[^\]]*\])*$`, inside a bracket or not. -/
def arraySuffix : Bool → Text → Bool
  | false, [] => true
  | true, [] => false
  | false, c :: rest => decide (c = ch '[') && arraySuffix true rest
  | true, c :: rest => arraySuffix (decide (c ≠ ch ']')) rest

/-- `([A-Za-z_]\w*)\s*((?:\[[^\]]*\])*)$` at the beginning of a text: the name and the
brackets. -/
def nameAndSuffix (s : Text) : Option (Text × Text) :=
  match s with
  | [] => none
  | c :: rest =>
    let suffix := (rest.dropWhile w.isWord).dropWhile isSpace
    if startsName c && arraySuffix false suffix then some (c :: rest.takeWhile w.isWord, suffix)
    else none

/-- `^(.*?)` and the above: the shortest beginning after which it matches. -/
def matchParam (head : Text) : Text → Option (Text × Text × Text)
  | [] => none
  | c :: rest =>
    match nameAndSuffix w (c :: rest) with
    | some (name, suffix) => some (head, name, suffix)
    | none => matchParam (head ++ [c]) rest

/-- `re.sub(r"\s*([*&])\s*", r"\1", s)`, after such a sign or not. -/
def tighten : Bool → Text → Text
  | _, [] => []
  | skip, c :: rest =>
    if isSpace c then
      if skip then tighten true rest
      else if (rest.dropWhile isSpace).head?.any fun d => decide (d = ch '*' ∨ d = ch '&') then
        tighten false rest
      else c :: tighten false rest
    else c :: tighten (decide (c = ch '*' ∨ c = ch '&')) rest

/-- `raw.split("=", 1)[0]` -/
def beforeDefault (raw : Text) : Text := raw.takeWhile fun c => decide (c ≠ ch '=')

/-- `_parse_param` -/
def parseParam (raw : Text) : Except PyExc Param :=
  match matchParam w [] (trim isSpace (beforeDefault raw)) with
  | none => .error (.compileError (text "Could not parse parameter: " ++ raw))
  | some (head, name, suffix) =>
    if trim isSpace head = [] then
      .error (.compileError (text "Could not parse parameter: " ++ raw))
    else
      .ok {
        type := tighten false (unwords (ch ' ') (words isSpace head)) ++
          List.replicate (suffix.count (ch '[')) (ch '*')
        name := name
        raw := trim isSpace raw }

/-- A match of `\b<name>\s*\(`. -/
structure Match where
  start : ℕ
  stop : ℕ
  deriving DecidableEq, Repr

/-- The length of `<name>\s*\(` at the beginning of a text. -/
def callLength (name s : Text) : Option ℕ :=
  (after name s).bind fun rest =>
    if (rest.dropWhile isSpace).head? = some (ch '(') then
      some (name.length + (rest.takeWhile isSpace).length + 1)
    else none

/-- `re.finditer`: the characters of the last match still to be skipped, the position
and the character before it. -/
def finditer (name : Text) : ℕ → ℕ → Option CodePoint → Text → List Match
  | _, _, _, [] => []
  | skip + 1, i, _, c :: rest => finditer name skip (i + 1) (some c) rest
  | 0, i, before, c :: rest =>
    if w.boundary before (some c) then
      match callLength name (c :: rest) with
      | some n => ⟨i, i + n⟩ :: finditer name (n - 1) (i + 1) (some c) rest
      | none => finditer name 0 (i + 1) (some c) rest
    else finditer name 0 (i + 1) (some c) rest

/-- A match that is a definition: the position of the closing parenthesis and the return
type. -/
def definitionAt (clean : Text) (m : Match) : Option (ℕ × Text) := do
  let openIndex := m.stop - 1
  let closeIndex := openIndex + (← matchingParen 0 (clean.drop openIndex))
  if (skipQualifiers w 0 (clean.drop (closeIndex + 1))).head? ≠ some (ch '\x7b') then none
  else
    let returnType := returnTypeBefore w (clean.take m.start) (clean.drop m.start)
    if returnType = [] then none else some (closeIndex, returnType)

/-- What follows the name of the class, up to its brace: `[^;{]*\{`. -/
def classBody (s : Text) : Option Text :=
  let rest := s.dropWhile fun c => decide (c ≠ ch ';' ∧ c ≠ ch '\x7b')
  if rest.head? = some (ch '\x7b') then some rest else none

/-- `(class|struct)\s+Solution\b[^;{]*\{` at the beginning of a text: the text from the
brace on. -/
def classHead (s : Text) : Option Text := do
  let rest ← (after (text "class") s).orElse fun _ => after (text "struct") s
  if rest.head?.any isSpace then
    let rest ← after (text "Solution") (rest.dropWhile isSpace)
    if w.boundary (some (ch 'n')) rest.head? then classBody rest else none
  else none

/-- `re.search` for the head of the class: the position at which it begins. -/
def classMatch : ℕ → Option CodePoint → Text → Option ℕ
  | _, _, [] => none
  | i, before, c :: rest =>
    if w.boundary before (some c) && (classHead w (c :: rest)).isSome then some i
    else classMatch (i + 1) (some c) rest

structure Signature where
  returnType : Text
  params : List Param
  rawParams : Text
  inSolutionClass : Bool
  deriving DecidableEq, Repr

/-- The definition that is found, with the positions of its parentheses. -/
structure Found where
  start : ℕ
  openIndex : ℕ
  closeIndex : ℕ
  returnType : Text
  deriving DecidableEq, Repr

/-- The loop of `parse_signature` up to the first match that is a definition. -/
def findDefinition (clean name : Text) : Option Found :=
  (finditer w name 0 0 none clean).findSome? fun m =>
    (definitionAt w clean m).map fun d => ⟨m.start, m.stop - 1, d.1, d.2⟩

/-- `s[i + 1:j]` -/
def between (s : Text) (i j : ℕ) : Text := (s.drop (i + 1)).take (j - (i + 1))

/-- The parameters between the parentheses, from the text as written and as blanked. -/
def parseParams (raw clean : Text) : Except PyExc (List Param) :=
  if trim isSpace clean = [] ∨ trim isSpace clean = text "void" then .ok []
  else (splitTopLevel (trim isSpace raw)).mapM (parseParam w)

/-- `parse_signature` -/
def parseSignature (code functionName : Text) : Except PyExc Signature :=
  let clean := stripComments code
  match findDefinition w clean functionName with
  | none => .error (.compileError
      (text "Could not find a definition of function \x27" ++ functionName ++ text "\x27"))
  | some d => do
    let params ← parseParams w (between code d.openIndex d.closeIndex)
      (between clean d.openIndex d.closeIndex)
    .ok {
      returnType := d.returnType
      params := params
      rawParams := trim isSpace (between code d.openIndex d.closeIndex)
      inSolutionClass := (classMatch w 0 none clean).any fun i => decide (i < d.start) }

/-- The signature of the definition that is found. -/
def signatureOf (code : Text) (d : Found) (params : List Param) : Signature where
  returnType := d.returnType
  params := params
  rawParams := trim isSpace (between code d.openIndex d.closeIndex)
  inSolutionClass := (classMatch w 0 none (stripComments code)).any fun i => decide (i < d.start)

def notFound (functionName : Text) : PyStr :=
  text "Could not find a definition of function \x27" ++ functionName ++ text "\x27"

theorem parseSignature_eq (code functionName : Text) :
    parseSignature w code functionName =
      match findDefinition w (stripComments code) functionName with
      | none => .error (.compileError (notFound functionName))
      | some d => (parseParams w (between code d.openIndex d.closeIndex)
          (between (stripComments code) d.openIndex d.closeIndex)).map (signatureOf w code d) := rfl

theorem parseSignature_ok_iff {code functionName : Text} {sig : Signature} :
    parseSignature w code functionName = .ok sig ↔
      ∃ d params, findDefinition w (stripComments code) functionName = some d ∧
        parseParams w (between code d.openIndex d.closeIndex)
          (between (stripComments code) d.openIndex d.closeIndex) = .ok params ∧
        sig = signatureOf w code d params := by
  rw [parseSignature_eq]
  cases findDefinition w (stripComments code) functionName with
  | none => simp
  | some d =>
    cases hparams : parseParams w (between code d.openIndex d.closeIndex)
        (between (stripComments code) d.openIndex d.closeIndex) with
    | error e => simp [hparams, Except.map]
    | ok params => simp [hparams, Except.map, eq_comm]

end

theorem eq_ok_of_toOption {ε α : Type} {x : Except ε α} {a : α} (h : x.toOption = some a) :
    x = .ok a := by
  cases x with
  | error e => cases h
  | ok b => exact congrArg Except.ok (Option.some.inj h)

end ExecutionEngine.CSignature
