import Mathlib.Data.List.DropRight
import ExecutionEngine.GoHygiene
import ExecutionEngine.Preamble
import ExecutionEngine.WrapperText

/-!
# The text of a Go wrapper, after `languages/go.py` and `languages/go_wrapper.py`

The imports are taken out of the code first. What is left is the second text that is filled
in, so four replacements are made after it; nothing is looked for in the end.
-/
namespace ExecutionEngine.GoEmbedding
open Pipeline TextScan CSignature RegexSignature Scoping GoBindings Substitution WrapperText

section
variable {β : Type} (matchAt : Text → Option (β × Text))

/-- `re.sub` with nothing, for a pattern that begins with `^` and matches some character: the
groups and what is left. A line begins after a line feed; `skip` characters of a match are
still to be passed. -/
def removeFrom : Bool → ℕ → Text → List β × Text
  | _, _, [] => ([], [])
  | _, skip + 1, c :: rest => removeFrom (decide (c = ch '\n')) skip rest
  | lineStart, 0, c :: rest =>
    match if lineStart then matchAt (c :: rest) else none with
    | some (group, left) =>
      let (groups, kept) :=
        removeFrom (decide (c = ch '\n')) ((c :: rest).length - left.length - 1) rest
      (group :: groups, kept)
    | none =>
      let (groups, kept) := removeFrom (decide (c = ch '\n')) 0 rest
      (groups, c :: kept)

def remove (code : Text) : List β × Text := removeFrom matchAt true 0 code

end

/-- What follows the last line feed of the blanks at the beginning, with it; all that follows
them where the text ends there. -/
def lineEnd (s : Text) : Option Text :=
  if s.dropWhile isSpace = [] then some []
  else
    let blanks := s.takeWhile isSpace
    if ch '\n' ∈ blanks then
      some (ch '\n' :: (blanks.reverse.takeWhile fun c => decide (c ≠ ch '\n')).reverse ++
        s.dropWhile isSpace)
    else none

/-- `\s*package\s+\w+\s*$` -/
def packageAt (w : WordClass) (s : Text) : Option (Unit × Text) :=
  (after (text "package") (s.dropWhile isSpace)).bind fun rest =>
    if rest.head?.any isSpace ∧ (rest.dropWhile isSpace).head?.any w.isWord then
      (lineEnd ((rest.dropWhile isSpace).dropWhile w.isWord)).map fun left => ((), left)
    else none

/-- `\s*import\s*\((.*?)\)` -/
def blockAt (s : Text) : Option (Text × Text) :=
  (after (text "import") (s.dropWhile isSpace)).bind fun rest =>
    match rest.dropWhile isSpace with
    | [] => none
    | c :: inside =>
      if c = ch '(' then
        match inside.dropWhile fun d => decide (d ≠ ch ')') with
        | [] => none
        | _ :: left => some (inside.takeWhile fun d => decide (d ≠ ch ')'), left)
      else none

/-- `[^\n(]` -/
def inImport (c : CodePoint) : Bool := decide (c ≠ ch '\n' ∧ c ≠ ch '(')

/-- `([^\n(]+)$` -/
def restOfLine (s : Text) : Option (Text × Text) :=
  if s.takeWhile inImport = [] ∨ (s.dropWhile inImport).head? = some (ch '(') then none
  else some (s.takeWhile inImport, s.dropWhile inImport)

/-- `\s*([^\n(]+)$`. The blanks take as many as they can and give them back one by one. -/
def blanksThenLine : Text → Option (Text × Text)
  | [] => restOfLine []
  | c :: rest =>
    if isSpace c then (blanksThenLine rest).or (restOfLine (c :: rest)) else restOfLine (c :: rest)

/-- `\s*import\s+([^\n(]+)$` -/
def singleAt (s : Text) : Option (Text × Text) :=
  (after (text "import") (s.dropWhile isSpace)).bind fun rest =>
    match rest with
    | [] => none
    | c :: rest => if isSpace c then blanksThenLine rest else none

/-- `line.split("//", 1)[0]` -/
def beforeComment : Text → Text
  | [] => []
  | c :: rest => if (text "//").isPrefixOf (c :: rest) then [] else c :: beforeComment rest

/-- `take_block` -/
def takeBlock (group : Text) : List Text :=
  ((Preamble.splitLines group).map fun line => trim isSpace (beforeComment line)).filter
    fun line => !line.isEmpty

/-- `_split_imports` -/
def splitImports (w : WordClass) (code : Text) : List Text × Text :=
  let withoutPackage := (remove (packageAt w) code).2
  let blocks := remove blockAt withoutPackage
  let singles := remove singleAt blocks.2
  (blocks.1.flatMap takeBlock ++ singles.1.map (trim isSpace), singles.2)

/-- `_WRAPPER_IMPORTS`, quoted. -/
def wrapperImports : List Text :=
  [text "\"encoding/json\"", text "\"fmt\"", text "\"io\"", text "\"os\"", text "\"reflect\"",
    text "\"runtime/debug\"", text "\"sort\"", text "\"strings\""]

local instance lawfulSpec : LawfulBEq Text := inferInstance

/-- `specs` -/
def specs (userImports : List Text) : List Text :=
  userImports.foldl (fun specs spec => if spec ∈ specs then specs else specs ++ [spec])
    wrapperImports

/-- `_merge_imports` -/
def mergeImports (userImports : List Text) : Text :=
  text "import (\n" ++
    ((specs userImports).flatMap fun spec => text "    " ++ spec ++ text "\n") ++ text ")"

inductive Hole
  | imports
  | sourceCode
  | paramBindings
  | invokerSetup
  | call
  | functionName
  deriving DecidableEq

def Hole.placeholder : Hole → Text
  | imports => text "__IMPORTS_PLACEHOLDER__"
  | sourceCode => text "\x7bsource_code\x7d"
  | paramBindings => text "__PARAM_BINDINGS_PLACEHOLDER__"
  | invokerSetup => text "__INVOKER_SETUP_PLACEHOLDER__"
  | call => text "__CALL_PLACEHOLDER__"
  | functionName => text "__FUNCTION_NAME_PLACEHOLDER__"

/-- The long pieces of the template: the helpers before the code, and `emit`, `fail` and
`main` up to the name of the function and after it. No placeholder stands in them. -/
structure Support where
  helpers : Text
  entry : Text
  rest : Text
  plain : ∀ t ∈ [helpers, entry, rest], ∀ h : Hole, ¬ h.placeholder <:+: t

def executeHead : String :=
  "func execute(input map[string]json.RawMessage, keys []string) " ++
    "(out map[string]interface\x7b\x7d, err error) \x7b"

/-- `GO_WRAPPER_TEMPLATE`, after the empty text before its first line feed. -/
def templateCells (support : Support) : List (CodePoint × Cell Hole CodePoint) :=
  [lines ["package main", ""],
    [(ch '\n', .slot .imports)],
    lines [""],
    [(ch '\n', .fixed support.helpers)],
    lines [""],
    [(ch '\n', .slot .sourceCode)],
    lines ["",
      executeHead,
      "    defer func() \x7b",
      "        if r := recover(); r != nil \x7b",
      "            err = fmt.Errorf(\"panic: %v\", r)",
      "        \x7d",
      "    \x7d()"],
    [(ch '\n', .slot .paramBindings)],
    lines [""],
    [(ch '\n', .slot .invokerSetup), (ch '\n', .slot .call)],
    lines ["\x7d", ""],
    [(ch '\n', .fixed support.entry), (ch '\x22', .slot .functionName),
      (ch '\x22', .fixed support.rest)]].flatten

theorem underscore_mem (h : Hole) : ch '_' ∈ h.placeholder := by
  cases h <;> decide

/-- The lines that stay, besides the long pieces. -/
def fixedLines : List Text :=
  ["", "package main",
    executeHead, "    defer func() \x7b", "        if r := recover(); r != nil \x7b",
    "            err = fmt.Errorf(\"panic: %v\", r)", "        \x7d", "    \x7d()",
    "\x7d"].map text

theorem underscore_not_mem_fixedLines : ∀ t ∈ fixedLines, ch '_' ∉ t := by decide +kernel

theorem mem_fixedTexts_template {support : Support} {t : Text}
    (ht : t ∈ fixedTexts (.fixed [] :: (templateCells support).map Prod.snd)) :
    t ∈ [support.helpers, support.entry, support.rest] ∨ t ∈ fixedLines := by
  have hnil : ([] : Text) = text "" := rfl
  simp only [templateCells, lines, fixedTexts, List.flatten_cons, List.flatten_nil, List.map_cons,
    List.map_nil, List.cons_append, List.nil_append, List.append_nil, List.filterMap_cons,
    List.filterMap_nil, List.mem_cons, List.not_mem_nil, or_false, fixedLines, hnil] at ht ⊢
  grind

theorem templateCells_marks (support : Support) :
    ∀ p ∈ templateCells support, p.1 ∈ [ch '\n', ch '\x22'] := by
  have hmarks : ∀ d ∈ (templateCells support).map Prod.fst, d ∈ [ch '\n', ch '\x22'] := by
    simp only [templateCells, lines, List.flatten_cons, List.flatten_nil, List.map_cons,
      List.map_nil, List.cons_append, List.nil_append, List.append_nil]
    decide
  exact fun p hp => hmarks p.1 (List.mem_map_of_mem hp)

def template (support : Support) : Template Hole CodePoint where
  placeholder := Hole.placeholder
  first := .fixed []
  rest := templateCells support
  nonempty := fun h => List.ne_nil_of_mem (underscore_mem h)
  marks := by
    have hmarks : ∀ d ∈ [ch '\n', ch '\x22'], ∀ h : Hole, d ∉ h.placeholder := by
      intro d hd h
      revert d
      cases h <;> decide
    exact fun p hp => hmarks p.1 (templateCells_marks support p hp)
  fixed := by
    intro t ht h
    rcases mem_fixedTexts_template (mem_fixedTexts.mpr ht) with hsupport | hline
    · exact support.plain t hsupport h
    · exact not_infix_of_not_mem (underscore_mem h) (underscore_not_mem_fixedLines t hline)
  apart := by
    intro h k
    cases h <;> cases k <;> decide

@[simp] theorem template_placeholder (support : Support) (h : Hole) :
    (template support).placeholder h = h.placeholder := rfl

/-- What is filled in: the imports and the rest of the code, the parameters, and the call. -/
structure Parts where
  userImports : List Text
  body : Text
  bindings : Body
  call : Body

/-- What the placeholders are replaced by. -/
def contents (functionName : Text) (p : Parts) : Hole → Text
  | .imports => mergeImports p.userImports
  | .sourceCode => p.body
  | .paramBindings =>
      ((text "\n").intercalate (printedLines 1 p.bindings)).rdropWhile isSpace
  | .invokerSetup => []
  | .call => (text "\n").intercalate (printedLines 1 p.call)
  | .functionName => functionName

/-- The order of the replacements in `_generate_wrapper`. -/
def order : List Hole :=
  [.imports, .sourceCode, .paramBindings, .invokerSetup, .call, .functionName]

def passes (functionName : Text) (p : Parts) : List (Hole × Text) :=
  order.map fun h => (h, contents functionName p h)

def wrapped (support : Support) (functionName : Text) (p : Parts) : Text :=
  (template support).run (passes functionName p) (template support).source

/-- The text with every placeholder replaced by its own text. -/
def filled (support : Support) (functionName : Text) (p : Parts) : Text :=
  (template support).fill (contents functionName p)

/-- What `_generate_wrapper` fills in. -/
def partsOf (w : WordClass) (g : TypeSyntax) (code functionName : Text) : Except PyExc Parts := do
  let sig ← Go.signature functionName code
  let bounds ← sig.1.mapM bound
  let call ← callLines functionName sig.2 (sig.1.map Prod.fst)
  .ok ⟨(splitImports w code).1, (splitImports w code).2, paramLines g (skipsPos sig.1) bounds, call⟩

/-- `_generate_wrapper` -/
def generate (w : WordClass) (g : TypeSyntax) (support : Support) (code functionName : Text) :
    Except PyExc Text :=
  (partsOf w g code functionName).map (wrapped support functionName)

section
variable (support : Support) (functionName : Text) (p : Parts)

/-- What a slot holds in the end. -/
def settled : Hole → Text
  | .imports => (template support).run ((passes functionName p).drop 1)
      (contents functionName p .imports)
  | .sourceCode => (template support).run ((passes functionName p).drop 2) p.body
  | .paramBindings => (template support).run ((passes functionName p).drop 3)
      (contents functionName p .paramBindings)
  | .invokerSetup => []
  | .call => (template support).run ((passes functionName p).drop 5) (contents functionName p .call)
  | .functionName => functionName

theorem wrapped_eq :
    wrapped support functionName p =
      (template support).fill (settled support functionName p) := by
  have hslot : ∀ n h, order[n]? = some h → h ∉ order.take n →
      (template support).run (passes functionName p) h.placeholder =
        (template support).run ((passes functionName p).drop (n + 1)) (contents functionName p h) :=
    fun n h hn hbefore => (template support).run_order order (contents functionName p) hn hbefore
  rw [wrapped, Template.source, Template.run_fill]
  congr 1
  funext h
  cases h with
  | imports => exact hslot 0 _ rfl (by decide)
  | sourceCode => exact hslot 1 _ rfl (by decide)
  | paramBindings => exact hslot 2 _ rfl (by decide)
  | invokerSetup =>
    refine (hslot 3 _ rfl (by decide)).trans ?_
    refine (template support).run_eq_self fun pass _ => ?_
    exact not_infix_of_not_mem (underscore_mem pass.1) List.not_mem_nil
  | call => exact hslot 4 _ rfl (by decide)
  | functionName => exact hslot 5 _ rfl (by decide)

/-- No later replacement finds anything in what was filled in before. -/
structure Undisturbed : Prop where
  imports : ∀ h ∈ [Hole.sourceCode, .paramBindings, .invokerSetup, .call, .functionName],
    ¬ h.placeholder <:+: contents functionName p .imports
  body : ∀ h ∈ [Hole.paramBindings, .invokerSetup, .call, .functionName],
    ¬ h.placeholder <:+: p.body
  bindings : ∀ h ∈ [Hole.invokerSetup, .call, .functionName],
    ¬ h.placeholder <:+: contents functionName p .paramBindings
  call : ∀ h ∈ [Hole.functionName], ¬ h.placeholder <:+: contents functionName p .call

variable {functionName p}

theorem wrapped_eq_filled (h : Undisturbed functionName p) :
    wrapped support functionName p = filled support functionName p := by
  have hlater : ∀ n, ∀ pass ∈ (passes functionName p).drop n, pass.1 ∈ order.drop n := by
    intro n pass hpass
    rw [passes, ← List.map_drop] at hpass
    obtain ⟨k, hk, rfl⟩ := List.mem_map.mp hpass
    exact hk
  rw [wrapped_eq, filled]
  congr 1
  funext i
  cases i with
  | imports =>
    exact (template support).run_eq_self fun pass hpass => h.imports _ (hlater 1 pass hpass)
  | sourceCode =>
    exact (template support).run_eq_self fun pass hpass => h.body _ (hlater 2 pass hpass)
  | paramBindings =>
    exact (template support).run_eq_self fun pass hpass => h.bindings _ (hlater 3 pass hpass)
  | invokerSetup => rfl
  | call => exact (template support).run_eq_self fun pass hpass => h.call _ (hlater 5 pass hpass)
  | functionName => rfl

theorem slot_mem (h : Hole) :
    .slot h ∈ (template support).first :: (template support).rest.map Prod.snd := by
  cases h <;> simp [template, templateCells]

end

/-- The characters of the placeholders that are replaced after the code. -/
def capital (c : CodePoint) : Bool := decide (65 ≤ c.val ∧ c.val ≤ 90 ∨ c = ch '_')

/-- A text that no such placeholder reaches over or stands in. -/
def inert (t : Text) : Bool :=
  t.head?.any (fun c => !capital c) && t.getLast?.any (fun c => !capital c) &&
    decide (ch 'H' ∉ t)

/-- A part in capital letters, with an `H` and an underscore in it. -/
structure Capital (part : Text) : Prop where
  letters : ∀ c ∈ part, capital c = true
  aitch : ch 'H' ∈ part
  underscore : ch '_' ∈ part

theorem capital_placeholder : ∀ h ∈ [Hole.paramBindings, .invokerSetup, .call, .functionName],
    Capital h.placeholder := by
  intro h hh
  fin_cases hh <;> exact ⟨by decide, by decide, by decide⟩

section
variable {part : Text} (hpart : Capital part)

include hpart

theorem walls_of_inert {t : Text} (h : inert t = true) : walls part t = true := by
  simp only [inert, walls, Bool.and_eq_true, Option.any_eq_true, Bool.not_eq_true',
    decide_eq_true_eq] at h ⊢
  obtain ⟨⟨⟨c, hc, hhead⟩, d, hd, hlast⟩, hnot⟩ := h
  have hout : ∀ e, capital e = false → e ∉ part := by
    intro e he hmem
    rw [hpart.letters e hmem] at he
    cases he
  exact ⟨⟨⟨c, hc, hout c hhead⟩, d, hd, hout d hlast⟩, not_infix_of_not_mem hpart.aitch hnot⟩

theorem infix_inert_append {t : Text} (h : inert t = true) (b : Text) :
    part <:+: t ++ b ↔ part <:+: b := infix_walls_append_iff (walls_of_inert hpart h) b

theorem infix_between_inert {t : Text} (h : inert t = true) (a b : Text) :
    part <:+: a ++ (t ++ b) ↔ part <:+: a ∨ part <:+: b :=
  infix_walls_iff (walls_of_inert hpart h) a b

theorem infix_append_inert {t : Text} (h : inert t = true) (a : Text) :
    part <:+: a ++ t ↔ part <:+: a := infix_append_walls_iff (walls_of_inert hpart h) a

theorem not_infix_plain {t : Text} (h : ch 'H' ∉ t) : ¬ part <:+: t :=
  not_infix_of_not_mem hpart.aitch h

end

/-- The name of a parameter, as most of the names derived from it end. -/
def lead (x : Text) : Text := text "_" ++ x

/-- As the others begin. -/
def trail (x : Text) : Text := x ++ text "_"

theorem name_raw (x : Text) : (Var.raw x).name = text "raw" ++ lead x := rfl

theorem name_pos (x : Text) : (Var.pos x).name = text "pos" ++ lead x := rfl

theorem name_tmp (x : Text) : (Var.tmp x).name = text "tmp" ++ lead x := rfl

theorem name_errOf (x : Text) : (Var.errOf x).name = text "err" ++ lead x := rfl

theorem name_rawPos (x : Text) : (Var.rawPos x).name = text "rawPos" ++ lead x := rfl

theorem name_arr (x : Text) : (Var.arr x).name = trail x ++ text "arr" := by
  rw [trail, List.append_assoc]
  rfl

theorem name_adj (x : Text) : (Var.adj x).name = trail x ++ text "adj" := by
  rw [trail, List.append_assoc]
  rfl

theorem not_infix_name {part x : Text} (h : ¬ part <:+: lead x) : ¬ part <:+: x := fun hin =>
  h (hin.trans (List.suffix_append (text "_") x).isInfix)

section
variable {part : Text} (hpart : Capital part)

include hpart

theorem not_infix_fetch {x : Text} (hlead : ¬ part <:+: lead x) (skipPos : Bool) (idx : ℕ) :
    ∀ line ∈ fetch (pickArg skipPos idx x) x, ¬ part <:+: printedLine line := by
  have hx := not_infix_name hlead
  have hdigits : ¬ part <:+: text (toString idx) :=
    fun hin => underscore_not_mem_digits idx (hin.subset hpart.underscore)
  have hbool : inert (boolText skipPos) = true := by
    cases skipPos <;> decide
  simp only [fetch, List.forall_mem_cons, List.not_mem_nil, false_imp_iff, implies_true, and_true]
  constructor
  · simp only [printedLine, names, List.map_cons, List.map_nil, name_raw,
      List.intercalate_cons_cons, List.intercalate_singleton, pickArg, printed, List.flatMap_cons,
      List.flatMap_nil, List.append_nil, List.append_assoc]
    simp (disch := first | assumption | decide) only [Var.name, infix_inert_append hpart,
      infix_between_inert hpart, not_infix_plain hpart, hlead, hx, hdigits, or_self,
      not_false_eq_true]
  · simp only [printedLine, failing, printed, List.flatMap_cons,
      List.flatMap_nil, List.append_nil, List.append_assoc]
    simp (disch := decide) only [Var.name, infix_inert_append hpart, infix_append_inert hpart, hx,
      not_false_eq_true]

theorem not_infix_invalid {x : Text} (hx : ¬ part <:+: x) {error : Var}
    (herror : ¬ part <:+: error.name) : ¬ part <:+: printed (invalid x error) := by
  simp only [invalid, failing, printed, List.flatMap_append, List.flatMap_cons, List.flatMap_nil,
    List.append_nil, List.append_assoc]
  simp (disch := decide) only [infix_inert_append hpart, infix_between_inert hpart,
    infix_append_inert hpart, hx, herror, or_self, not_false_eq_true]

theorem not_infix_unmarshal {x : Text} (hx : ¬ part <:+: x) {source target : Var}
    (hsource : ¬ part <:+: source.name) (htarget : ¬ part <:+: target.name) :
    ∀ line ∈ unmarshal source target x, ¬ part <:+: printedLine line := by
  have hfailure : ¬ part <:+: Var.failure.name := not_infix_plain hpart (by decide)
  have hinvalid := not_infix_invalid hpart hx hfailure
  have hclose : ¬ part <:+: text "\x7d" := not_infix_plain hpart (by decide)
  simp only [unmarshal, List.cons_append, List.nil_append, List.forall_mem_cons, List.not_mem_nil,
    false_imp_iff, implies_true, and_true]
  refine ⟨?_, hinvalid, hclose⟩
  simp only [printedLine, names, notNil, printed, List.map_cons, List.map_nil,
    List.intercalate_singleton, List.flatMap_cons, List.flatMap_nil, List.append_nil,
    List.append_assoc]
  simp (disch := decide) only [infix_inert_append hpart, infix_between_inert hpart,
    not_infix_plain hpart, hsource, htarget, or_self, not_false_eq_true]

theorem not_infix_position {x : Text} (hlead : ¬ part <:+: lead x) :
    ∀ line ∈ position x, ¬ part <:+: printedLine line := by
  have hpos : ¬ part <:+: (Var.pos x).name := by
    rwa [name_pos, infix_inert_append hpart (by decide)]
  have hrawPos : ¬ part <:+: (Var.rawPos x).name := by
    rwa [name_rawPos, infix_inert_append hpart (by decide)]
  have hword : ¬ part <:+: text "pos" := not_infix_plain hpart (by decide)
  have hclose : ¬ part <:+: text "\x7d" := not_infix_plain hpart (by decide)
  have hinner := not_infix_unmarshal hpart hword hrawPos hpos
  simp only [position, List.cons_append, List.nil_append, List.forall_mem_cons,
    List.forall_mem_append, List.not_mem_nil, false_imp_iff, implies_true, and_true]
  refine ⟨?_, ?_, hinner, hclose⟩
  · simp only [printedLine, names, printed, List.map_cons, List.map_nil,
      List.intercalate_singleton, List.flatMap_cons, List.flatMap_nil, List.append_nil,
      List.append_assoc]
    simp (disch := decide) only [infix_between_inert hpart, not_infix_plain hpart, hpos, or_self,
      not_false_eq_true]
  · simp only [printedLine, names, printed, List.map_cons, List.map_nil,
      List.intercalate_cons_cons, List.intercalate_singleton, List.flatMap_cons, List.flatMap_nil,
      List.append_nil, List.append_assoc]
    simp (disch := decide) only [infix_inert_append hpart, infix_between_inert hpart,
      not_infix_plain hpart, hrawPos, or_self, not_false_eq_true]

theorem not_infix_copied {x nodeType : Text} (hlead : ¬ part <:+: lead x)
    (hnode : ¬ part <:+: nodeType) :
    ∀ line ∈ copied x nodeType, ¬ part <:+: printedLine line := by
  have hx : ¬ part <:+: (Var.param x).name := not_infix_name hlead
  have htmp : ¬ part <:+: (Var.tmp x).name := by
    rwa [name_tmp, infix_inert_append hpart (by decide)]
  have hclose : ¬ part <:+: text "\x7d" := not_infix_plain hpart (by decide)
  simp only [copied, List.cons_append, List.nil_append, List.forall_mem_cons,
    List.not_mem_nil, false_imp_iff, implies_true, and_true]
  refine ⟨?_, ?_, ?_, hclose⟩
  all_goals
    simp only [printedLine, notNil, printed, List.flatMap_cons, List.flatMap_nil, List.append_nil,
      List.append_assoc]
    simp (disch := decide) only [infix_inert_append hpart, infix_between_inert hpart,
      not_infix_plain hpart, hx, htmp, hnode, or_self, not_false_eq_true]

omit hpart in
theorem printed_built (f : Text) (args : List Var) :
    printed (built f args) =
      f ++ (text "(" ++ ((text ", ").intercalate (args.map Var.name) ++ text ")")) := by
  have hargs : printed ((args.map .var).intersperse (.plain (text ", "))) =
      (text ", ").intercalate (args.map Var.name) := by
    induction args with
    | nil => rfl
    | cons arg args ih =>
      cases args with
      | nil => simp [printed]
      | cons next args =>
        simp only [List.map_cons, List.intersperse_cons_cons, List.intercalate_cons_cons] at ih ⊢
        simp only [printed, List.flatMap_cons] at ih ⊢
        rw [ih, List.append_assoc]
  have happend : ∀ e e' : Expr, printed (e ++ e') = printed e ++ printed e' := fun e e' =>
    List.flatMap_append
  rw [built, happend, happend, hargs]
  simp [printed]

theorem infix_built_iff (f : Text) (args : List Var) :
    part <:+: printed (built f args) ↔ part <:+: f ∨ ∃ arg ∈ args, part <:+: arg.name := by
  have hcomma : walls part (text ", ") = true := walls_of_inert hpart (by decide)
  rw [printed_built, infix_between_inert hpart (by decide), infix_append_inert hpart (by decide),
    infix_intercalate_iff hcomma]
  simp

omit hpart in
theorem printed_read (g : TypeSyntax) (type : Text) : printed (g.read type) = type := by
  rw [printed, TypeSyntax.read, List.flatMap_map]
  refine Eq.trans (congrArg List.flatten (List.map_congr_left fun p _ => ?_)) (g.whole type)
  cases p.2 <;> rfl

theorem not_infix_declared {v : Var} (hv : ¬ part <:+: v.name) {type : Expr}
    (htype : ¬ part <:+: printed type) : ¬ part <:+: printedLine (.declare v type) := by
  rw [printedLine, List.append_assoc, List.append_assoc, infix_inert_append hpart (by decide),
    infix_between_inert hpart (by decide)]
  exact not_or.mpr ⟨hv, htype⟩

/-- Variables that are given the value of a call. -/
theorem not_infix_defined {vars : List Var} (hvars : ∀ v ∈ vars, ¬ part <:+: v.name) {f : Text}
    (hf : ¬ part <:+: f) {args : List Var} (hargs : ∀ arg ∈ args, ¬ part <:+: arg.name) :
    ¬ part <:+: printedLine (.define vars (built f args)) := by
  have hcomma : walls part (text ", ") = true := walls_of_inert hpart (by decide)
  rw [printedLine, List.append_assoc, infix_between_inert hpart (by decide), names,
    infix_intercalate_iff hcomma, infix_built_iff hpart]
  rintro (⟨t, ht, hin⟩ | hin | ⟨arg, harg, hin⟩)
  · obtain ⟨v, hv, rfl⟩ := List.mem_map.mp ht
    exact hvars v hv hin
  · exact hf hin
  · exact hargs arg harg hin

end

/-- What the lines of a parameter have of its name and its type. -/
def derived (b : Bound) : List Text :=
  lead b.name :: match b.shape with
    | .listPointer | .list | .treePointer | .tree | .graph => [trail b.name]
    | .bytes _ => []
    | .other => [Go.normalizeType b.type]

theorem not_infix_bindingLines {part : Text} (hpart : Capital part) (g : TypeSyntax)
    (skipPos : Bool) (idx : ℕ) {b : Bound} (h : ∀ t ∈ derived b, ¬ part <:+: t) :
    ∀ line ∈ bindingLines g skipPos idx b, ¬ part <:+: printedLine line := by
  obtain ⟨x, type, shape⟩ := b
  obtain ⟨hlead, hrest⟩ := List.forall_mem_cons.mp h
  have hx : ¬ part <:+: (Var.param x).name := not_infix_name hlead
  have hraw : ¬ part <:+: (Var.raw x).name := by
    rwa [name_raw, infix_inert_append hpart (by decide)]
  have hpos : ¬ part <:+: (Var.pos x).name := by
    rwa [name_pos, infix_inert_append hpart (by decide)]
  have htmp : ¬ part <:+: (Var.tmp x).name := by
    rwa [name_tmp, infix_inert_append hpart (by decide)]
  have harr : ¬ part <:+: trail x → ¬ part <:+: (Var.arr x).name := by
    intro htrail
    rwa [name_arr, infix_append_inert hpart (by decide)]
  have hfetch := not_infix_fetch hpart hlead skipPos idx
  have hposition := not_infix_position hpart hlead
  have hunmarshal := fun {target : Var} => @not_infix_unmarshal part hpart x hx _ target hraw
  have hblank : ¬ part <:+: printedLine .blank := not_infix_plain hpart List.not_mem_nil
  rw [bindingLines, List.forall_mem_append, List.forall_mem_append, List.forall_mem_singleton]
  refine ⟨⟨hfetch, ?_⟩, hblank⟩
  cases shape with
  | listPointer =>
    have hmade := harr (hrest _ List.mem_cons_self)
    simp only [List.forall_mem_append, List.forall_mem_singleton]
    refine ⟨⟨⟨?_, hunmarshal hmade⟩, hposition⟩, ?_⟩
    · exact not_infix_declared hpart hmade (not_infix_plain hpart (by decide))
    · exact not_infix_defined hpart (by simpa using hx) (not_infix_plain hpart (by decide))
        (by simpa using ⟨hmade, hpos⟩)
  | list =>
    have hmade := harr (hrest _ List.mem_cons_self)
    simp only [List.forall_mem_append, List.forall_mem_singleton]
    refine ⟨⟨⟨⟨?_, hunmarshal hmade⟩, hposition⟩, ?_⟩, ?_⟩
    · exact not_infix_declared hpart hmade (not_infix_plain hpart (by decide))
    · exact not_infix_defined hpart (by simpa using htmp) (not_infix_plain hpart (by decide))
        (by simpa using ⟨hmade, hpos⟩)
    · exact not_infix_copied hpart hlead (not_infix_plain hpart (by decide))
  | treePointer =>
    have hmade := harr (hrest _ List.mem_cons_self)
    simp only [List.forall_mem_append, List.forall_mem_singleton]
    refine ⟨⟨?_, hunmarshal hmade⟩, ?_⟩
    · exact not_infix_declared hpart hmade (not_infix_plain hpart (by decide))
    · exact not_infix_defined hpart (by simpa using hx) (not_infix_plain hpart (by decide))
        (by simpa using hmade)
  | tree =>
    have hmade := harr (hrest _ List.mem_cons_self)
    simp only [List.forall_mem_append, List.forall_mem_singleton]
    refine ⟨⟨⟨?_, hunmarshal hmade⟩, ?_⟩, ?_⟩
    · exact not_infix_declared hpart hmade (not_infix_plain hpart (by decide))
    · exact not_infix_defined hpart (by simpa using htmp) (not_infix_plain hpart (by decide))
        (by simpa using hmade)
    · exact not_infix_copied hpart hlead (not_infix_plain hpart (by decide))
  | graph =>
    have hadj : ¬ part <:+: (Var.adj x).name := by
      rw [name_adj, infix_append_inert hpart (by decide)]
      exact hrest _ List.mem_cons_self
    simp only [List.forall_mem_append, List.forall_mem_singleton]
    refine ⟨⟨?_, hunmarshal hadj⟩, ?_⟩
    · exact not_infix_declared hpart hadj (not_infix_plain hpart (by decide))
    · exact not_infix_defined hpart (by simpa using hx) (not_infix_plain hpart (by decide))
        (by simpa using hadj)
  | bytes decoder =>
    have herr : ¬ part <:+: (Var.errOf x).name := by
      rwa [name_errOf, infix_inert_append hpart (by decide)]
    have hdecoder : ¬ part <:+: decoder.name := by
      cases decoder <;> exact not_infix_plain hpart (by decide)
    have hclose : ¬ part <:+: text "\x7d" := not_infix_plain hpart (by decide)
    simp only [List.forall_mem_append, List.forall_mem_singleton, List.forall_mem_cons]
    refine ⟨?_, ⟨?_, ?_⟩, hclose⟩
    · exact not_infix_defined hpart (by simpa using ⟨hx, herr⟩) hdecoder (by simpa using hraw)
    · simp only [printedLine, notNil, printed, List.cons_append, List.nil_append,
        List.flatMap_cons, List.flatMap_nil, List.append_nil, List.append_assoc]
      simp (disch := decide) only [infix_inert_append hpart, infix_between_inert hpart,
        not_infix_plain hpart, herr, or_self, not_false_eq_true]
    · exact not_infix_invalid hpart hx herr
  | other =>
    have htype : ¬ part <:+: printed (g.read (Go.normalizeType type)) := by
      rw [printed_read]
      exact hrest _ List.mem_cons_self
    simp only [List.forall_mem_append, List.forall_mem_singleton]
    exact ⟨not_infix_declared hpart hx htype, hunmarshal hx⟩

/-- Nothing is found in the lines where nothing is found in one of them. -/
theorem not_infix_printedLines {part : Text} (hpart : Capital part) {lines : Body}
    (h : ∀ line ∈ lines, ¬ part <:+: printedLine line) (depth : ℕ) :
    ¬ part <:+: (text "\n").intercalate (printedLines depth lines) := by
  have hbreak : walls part (text "\n") = true := walls_of_inert hpart (by decide)
  have hspaces : ∀ n (t : Text), ¬ part <:+: t → ¬ part <:+: List.replicate n (ch ' ') ++ t := by
    intro n t ht
    induction n with
    | zero => exact ht
    | succ n ih =>
      rw [List.replicate_succ, List.cons_append]
      have hspace : ch ' ' ∉ part := fun hmem => absurd (hpart.letters _ hmem) (by decide)
      have hiff := infix_append_cons_iff hspace [] (List.replicate n (ch ' ') ++ t)
      rw [List.nil_append, List.infix_nil] at hiff
      rw [hiff]
      exact not_or.mpr ⟨List.ne_nil_of_mem hpart.aitch, ih⟩
  rw [infix_intercalate_iff hbreak]
  push Not
  induction lines generalizing depth with
  | nil => simp [printedLines]
  | cons line lines ih =>
    obtain ⟨hline, hlines⟩ := List.forall_mem_cons.mp h
    have hrest := fun d => ih hlines d
    cases line with
    | blank => exact List.forall_mem_cons.mpr ⟨hline, hrest depth⟩
    | close foot => exact List.forall_mem_cons.mpr ⟨hspaces _ _ hline, hrest _⟩
    | branch vars value test => exact List.forall_mem_cons.mpr ⟨hspaces _ _ hline, hrest _⟩
    | nested head => exact List.forall_mem_cons.mpr ⟨hspaces _ _ hline, hrest _⟩
    | define vars value => exact List.forall_mem_cons.mpr ⟨hspaces _ _ hline, hrest _⟩
    | declare v type => exact List.forall_mem_cons.mpr ⟨hspaces _ _ hline, hrest _⟩
    | run e => exact List.forall_mem_cons.mpr ⟨hspaces _ _ hline, hrest _⟩
    | guard test body => exact List.forall_mem_cons.mpr ⟨hspaces _ _ hline, hrest _⟩

theorem not_infix_answer {part : Text} (hpart : Capital part) {e : Expr}
    (h : ¬ part <:+: printed e) : ¬ part <:+: printed (answer e) := by
  have hsplit : printed (answer e) = text "return map[" ++ (text "string" ++
      (text "]interface\x7b\x7d\x7b\"result\": " ++ (printed e ++
        (text "\x7d, " ++ text "nil")))) := by
    simp [answer, printed]
  rw [hsplit]
  simp (disch := decide) only [infix_inert_append hpart, infix_between_inert hpart,
    not_infix_plain hpart, h, or_self, not_false_eq_true]

/-- Neither is it in the call, where it is in no name of it. -/
theorem not_infix_call {part : Text} (hpart : Capital part) {functionName : Text}
    (hfunction : ¬ part <:+: functionName) {returns params : List Text}
    (hparams : ∀ x ∈ params, ¬ part <:+: x) {call : Body}
    (h : callLines functionName returns params = .ok call) :
    ∀ line ∈ call, ¬ part <:+: printedLine line := by
  have hargs : ∀ arg ∈ params.map Var.param, ¬ part <:+: arg.name := by
    intro arg harg
    obtain ⟨x, hx, rfl⟩ := List.mem_map.mp harg
    exact hparams x hx
  have hconvert : ¬ part <:+: text "autoConvertOutput" := not_infix_plain hpart (by decide)
  match returns, h with
  | [], h =>
    obtain rfl := Except.ok.inj h
    refine List.forall_mem_cons.mpr ⟨?_, List.forall_mem_singleton.mpr ?_⟩
    · refine (not_congr (infix_built_iff hpart _ _)).mpr (not_or.mpr ⟨hfunction, ?_⟩)
      rintro ⟨arg, harg, hin⟩
      exact hargs arg harg hin
    · refine not_infix_answer hpart ?_
      cases params with
      | nil => exact not_infix_plain hpart (by decide)
      | cons first rest =>
        have hsplit : printed (.free (text "nil") :: mutated (first :: rest)) =
            text "nil" ++ (text ", \"mutated\": " ++
              printed (built (text "autoConvertOutput") [.param first])) := by
          simp [mutated, printed]
        rw [hsplit, infix_inert_append hpart (by decide), infix_inert_append hpart (by decide),
          infix_built_iff hpart]
        simpa using ⟨hconvert, hargs (.param first) (by simp)⟩
  | [_], h =>
    obtain rfl := Except.ok.inj h
    have hresult : ∀ v ∈ [Var.result], ¬ part <:+: v.name :=
      List.forall_mem_singleton.mpr (not_infix_plain hpart (by decide))
    refine List.forall_mem_cons.mpr ⟨not_infix_defined hpart hresult hfunction hargs,
      List.forall_mem_singleton.mpr (not_infix_answer hpart ?_)⟩
    rw [infix_built_iff hpart]
    refine not_or.mpr ⟨hconvert, ?_⟩
    rintro ⟨arg, harg, hin⟩
    exact hresult arg harg hin

theorem mem_specs {userImports : List Text} {spec : Text} (h : spec ∈ specs userImports) :
    spec ∈ wrapperImports ∨ spec ∈ userImports := by
  have hall : ∀ (start : List Text), spec ∈ userImports.foldl
      (fun specs spec => if spec ∈ specs then specs else specs ++ [spec]) start →
      spec ∈ start ∨ spec ∈ userImports := by
    clear h
    induction userImports with
    | nil => exact fun start h => .inl h
    | cons next userImports ih =>
      intro start h
      rcases ih _ h with hmem | hmem
      · dsimp only at hmem
        split_ifs at hmem with hold
        · exact .inl hmem
        · rcases List.mem_append.mp hmem with hmem | hmem
          · exact .inl hmem
          · exact .inr (List.mem_singleton.mp hmem ▸ List.mem_cons_self)
      · exact .inr (List.mem_cons_of_mem _ hmem)
  exact hall wrapperImports h

/-- Only the imports of the code can bring a placeholder into the imports. -/
theorem infix_imports {userImports : List Text} {h : Hole}
    (hin : h.placeholder <:+: mergeImports userImports) :
    ∃ spec ∈ userImports, h.placeholder <:+: spec := by
  have hwall : ∀ t ∈ [text "import (\n", text "    ", text "\n", text ")"],
      walls h.placeholder t = true := by
    cases h <;> decide +kernel
  have hlines : ∀ specs : List Text, h.placeholder <:+: (specs.flatMap fun spec =>
      text "    " ++ spec ++ text "\n") → ∃ spec ∈ specs, h.placeholder <:+: spec := by
    intro specs hin
    induction specs with
    | nil => exact absurd hin (not_infix_of_not_mem (underscore_mem h) List.not_mem_nil)
    | cons spec specs ih =>
      rw [List.flatMap_cons, List.append_assoc, List.append_assoc,
        infix_walls_append_iff (hwall (text "    ") (by simp)),
        infix_walls_iff (hwall (text "\n") (by simp))] at hin
      rcases hin with hin | hin
      · exact ⟨spec, List.mem_cons_self, hin⟩
      · obtain ⟨other, hother, hin⟩ := ih hin
        exact ⟨other, List.mem_cons_of_mem _ hother, hin⟩
  have hplain : ∀ spec ∈ wrapperImports, ch '_' ∉ spec := by decide
  rw [mergeImports, infix_append_walls_iff (hwall (text ")") (by simp)),
    infix_walls_append_iff (hwall (text "import (\n") (by simp))] at hin
  obtain ⟨spec, hspec, hin⟩ := hlines _ hin
  rcases mem_specs hspec with hwrapper | huser
  · exact absurd hin (not_infix_of_not_mem (underscore_mem h) (hplain spec hwrapper))
  · exact ⟨spec, huser, hin⟩

section
variable {functionName : Text} {userImports : List Text} {body : Text}
  {sig : List (Text × Text) × List Text} {bounds : List Bound} {call : Body}

/-- The lines of the parameters have no placeholder in them that is replaced later. -/
theorem not_infix_bindings (g : TypeSyntax) {i : Hole}
    (hi : i ∈ [Hole.invokerSetup, .call, .functionName])
    (h : ∀ b ∈ bounds, ∀ t ∈ derived b, ¬ i.placeholder <:+: t) :
    ¬ i.placeholder <:+: contents functionName
      ⟨userImports, body, paramLines g (skipsPos sig.1) bounds, call⟩ .paramBindings := by
  intro hin
  have hpart := capital_placeholder i (List.mem_cons_of_mem _ hi)
  have hlines : ∀ line ∈ paramLines g (skipsPos sig.1) bounds,
      ¬ i.placeholder <:+: printedLine line := by
    intro line hline
    obtain ⟨p, hp, hline⟩ := List.mem_flatMap.mp hline
    have hmem : p.1 ∈ bounds := List.fst_mem_of_mem_zipIdx hp
    exact not_infix_bindingLines hpart g _ _ (h p.1 hmem) line hline
  exact not_infix_printedLines hpart hlines 1 (hin.trans (List.rdropWhile_prefix _ _).isInfix)

/-- Nor have the lines of the call. -/
theorem not_infix_callText {bindings : Body} (hbounds : sig.1.mapM bound = .ok bounds)
    (hcall : callLines functionName sig.2 (sig.1.map Prod.fst) = .ok call)
    (h : ∀ b ∈ bounds, ∀ t ∈ derived b, ¬ Hole.functionName.placeholder <:+: t)
    (hfunction : ¬ Hole.functionName.placeholder <:+: functionName) :
    ¬ Hole.functionName.placeholder <:+:
      contents functionName ⟨userImports, body, bindings, call⟩ .call := by
  have hpart := capital_placeholder .functionName (by decide)
  refine not_infix_printedLines hpart (not_infix_call hpart hfunction ?_ hcall) 1
  intro x hx
  rw [← GoHygiene.names_of_mapM_bound hbounds] at hx
  obtain ⟨b, hb, rfl⟩ := List.mem_map.mp hx
  exact not_infix_name (h b hb _ List.mem_cons_self)

/-- Where no name of a parameter makes up a later placeholder, and the function is not called
like one, `execute` has in the generated text the body that was made for it. -/
theorem execute_body_settled (g : TypeSyntax) (support : Support)
    (hbounds : sig.1.mapM bound = .ok bounds)
    (hcall : callLines functionName sig.2 (sig.1.map Prod.fst) = .ok call)
    (hparams : ∀ h ∈ [Hole.invokerSetup, .call, .functionName],
      ∀ b ∈ bounds, ∀ t ∈ derived b, ¬ h.placeholder <:+: t)
    (hfunction : ¬ Hole.functionName.placeholder <:+: functionName) :
    let p : Parts := ⟨userImports, body, paramLines g (skipsPos sig.1) bounds, call⟩
    settled support functionName p .paramBindings = contents functionName p .paramBindings ∧
      settled support functionName p .call = contents functionName p .call := by
  intro p
  constructor
  · refine (template support).run_eq_self fun pass hpass => ?_
    have hlater : pass.1 ∈ [Hole.invokerSetup, .call, .functionName] := by
      rw [passes, ← List.map_drop] at hpass
      obtain ⟨k, hk, rfl⟩ := List.mem_map.mp hpass
      exact hk
    exact not_infix_bindings g hlater (hparams pass.1 hlater)
  · refine (template support).run_eq_self fun pass hpass => ?_
    obtain rfl : pass = (.functionName, contents functionName p .functionName) := by
      simpa [passes, order] using hpass
    exact not_infix_callText hbounds hcall (hparams .functionName (by decide)) hfunction

end

/-- Nothing that is filled in has a text in it that is replaced later. -/
structure Harmless (functionName : Text) (userImports : List Text) (body : Text)
    (bounds : List Bound) : Prop where
  imports : ∀ h ∈ [Hole.sourceCode, .paramBindings, .invokerSetup, .call, .functionName],
    ∀ spec ∈ userImports, ¬ h.placeholder <:+: spec
  body : ∀ h ∈ [Hole.paramBindings, .invokerSetup, .call, .functionName],
    ¬ h.placeholder <:+: body
  params : ∀ h ∈ [Hole.invokerSetup, .call, .functionName],
    ∀ b ∈ bounds, ∀ t ∈ derived b, ¬ h.placeholder <:+: t
  function : ¬ Hole.functionName.placeholder <:+: functionName

theorem embedded_of_harmless (g : TypeSyntax) (support : Support) {functionName : Text}
    {userImports : List Text} {body : Text} {sig : List (Text × Text) × List Text}
    {bounds : List Bound} {call : Body} (hbounds : sig.1.mapM bound = .ok bounds)
    (hcall : callLines functionName sig.2 (sig.1.map Prod.fst) = .ok call)
    (h : Harmless functionName userImports body bounds) :
    Embedded body
      (filled support functionName
        ⟨userImports, body, paramLines g (skipsPos sig.1) bounds, call⟩)
      (wrapped support functionName
        ⟨userImports, body, paramLines g (skipsPos sig.1) bounds, call⟩) := by
  have hundisturbed : Undisturbed functionName
      ⟨userImports, body, paramLines g (skipsPos sig.1) bounds, call⟩ := by
    refine ⟨fun i hi hin => ?_, h.body, fun i hi => ?_, fun i hi => ?_⟩
    · obtain ⟨spec, hspec, hin⟩ := infix_imports hin
      exact h.imports i hi spec hspec hin
    · exact not_infix_bindings g hi (h.params i hi)
    · obtain rfl := List.mem_singleton.mp hi
      exact not_infix_callText hbounds hcall (h.params .functionName (by decide)) h.function
  have hreplaced := wrapped_eq_filled support hundisturbed
  refine ⟨?_, hreplaced⟩
  rw [hreplaced]
  exact text_infix_joined (slot_mem support .sourceCode)
    (contents functionName ⟨userImports, body, paramLines g (skipsPos sig.1) bounds, call⟩)

/-- The converse fails: with such a name for the function, what one replacement takes out of
the code a later one puts back. -/
example :
    let name := text "__FUNCTION_NAME_PL__INVOKER_SETUP_PLACEHOLDER__ACEHOLDER__"
    Hole.invokerSetup.placeholder <:+: name ∧
      replace Hole.functionName.placeholder name
        (replace Hole.invokerSetup.placeholder [] name) = name := by
  decide +kernel

end ExecutionEngine.GoEmbedding
