import ExecutionEngine.RegexComments
import ExecutionEngine.WrapperText

/-!
# The text of a Rust wrapper, after `languages/rust.py` and `languages/rust_wrapper.py`

Here the code is filled in last, so it is never replaced in; what stands before it may bring
in a placeholder of its own. The check reads the code too.
-/
namespace ExecutionEngine.RustEmbedding
open Pipeline TextScan CSignature RegexSignature Substitution WrapperText

/-- `_normalize_type` -/
def normalizeType (typeName : Text) : Text := unwords (ch ' ') (words isSpace typeName)

/-- `_resolve_owned_reference_target` -/
def resolveOwnedReferenceTarget (borrowedType : Text) : Text :=
  let inner := trim isSpace borrowedType
  if inner = text "str" then text "String"
  else if inner.head? = some (ch '[') ∧ inner.getLast? = some (ch ']') then
    text "Vec<" ++ trim isSpace (inner.drop 1).dropLast ++ text ">"
  else inner

def isMutable (typeName : Text) : Bool := (text "&mut ").isPrefixOf typeName

def isBorrowed (typeName : Text) : Bool := (text "&").isPrefixOf typeName

/-- The type of the variable that holds an argument. -/
def ownedType (typeName : Text) : Text :=
  if isMutable typeName then resolveOwnedReferenceTarget (trim isSpace (typeName.drop 5))
  else if isBorrowed typeName then resolveOwnedReferenceTarget (trim isSpace (typeName.drop 1))
  else typeName

def argName (index : ℕ) : Text := text "_a" ++ text (toString index)

def boolText (b : Bool) : Text := if b then text "true" else text "false"

/-- `value` -/
def pickText (index : ℕ) (name : Text) (skipPos : Bool) : Text :=
  text "__judge::pick(&payload, \"" ++ name ++ text "\", " ++ text (toString index) ++ text ", " ++
    boolText skipPos ++ text ")"

/-- `expr` -/
def decodeText (owned : Text) (index : ℕ) (name : Text) (skipPos : Bool) : Text :=
  if PyStr.hasPart (text "TreeNode") owned then
    text "__judge::build_tree(&" ++ pickText index name skipPos ++ text ")"
  else if PyStr.hasPart (text "ListNode") owned then
    text "__judge::build_list(&" ++ pickText index name skipPos ++ text ")"
  else
    text "serde_json::from_value::<" ++ owned ++ text ">(" ++ pickText index name skipPos ++
      text ")" ++ text ".unwrap_or_else(|e| panic!(\"invalid argument " ++ name ++
      text ": \x7b\x7d\", e))"

/-- The line of `_build_param_binding`. -/
def bindingLine (skipPos : Bool) (index : ℕ) (param : Text × Text) : Text :=
  let owned := ownedType (normalizeType param.1)
  text "let mut " ++ argName index ++ text ": " ++ owned ++ text " = " ++
    decodeText owned index param.2 skipPos ++ text ";"

/-- The argument of `_build_param_binding`. -/
def callArg (index : ℕ) (param : Text × Text) : Text :=
  if isMutable (normalizeType param.1) then text "&mut " ++ argName index
  else if isBorrowed (normalizeType param.1) then text "&" ++ argName index
  else argName index

section
variable (w : WordClass)

/-- `keyword\s+name\b` -/
def introduces (keyword name s : Text) : Bool :=
  (after keyword s).any fun rest => rest.head?.any isSpace &&
    (after name (rest.dropWhile isSpace)).any fun left => w.boundary name.getLast? left.head?

/-- `re.search(r"\bkeyword\s+name\b", s)` -/
def mentions (keyword name : Text) : Option CodePoint → Text → Bool
  | _, [] => false
  | before, c :: rest =>
    (w.boundary before (some c) && introduces w keyword name (c :: rest)) ||
      mentions keyword name (some c) rest

/-- `_to_json` -/
def toJson (typeName expr : Text) : Text :=
  let bare := trim isSpace (Rust.dropMut 0 (typeName.dropWhile fun c => decide (c = ch '&')))
  if PyStr.hasPart (text "TreeNode") bare then text "__judge::tree_to_json(" ++ expr ++ text ")"
  else if PyStr.hasPart (text "ListNode") bare then
    text "__judge::list_to_json(" ++ expr ++ text ")"
  else text "serde_json::to_value(" ++ expr ++ text ").unwrap_or(serde_json::Value::Null)"

/-- The first argument, where it is passed by `&mut`. -/
def mutated (params : List (Text × Text)) : Text :=
  match params with
  | [] => text "serde_json::Value::Null"
  | param :: _ =>
    if isMutable (normalizeType param.1) then
      toJson (normalizeType param.1) (text "&" ++ argName 0)
    else text "serde_json::Value::Null"

def call (code functionName : Text) (params : List (Text × Text)) : Text :=
  (if mentions w (text "impl") (text "Solution") none code then text "Solution::" else []) ++
    functionName ++ text "(" ++ (text ", ").intercalate (params.mapIdx callArg) ++ text ")"

/-- `body` -/
def bodyLines (code functionName : Text) (sig : List (Text × Text) × Text) : List Text :=
  let returnType := normalizeType sig.2
  if returnType = [] ∨ returnType = text "()" then
    [call w code functionName sig.1 ++ text ";",
      text "serde_json::json!(\x7b\"result\": serde_json::Value::Null, \"mutated\": " ++
        mutated sig.1 ++ text "\x7d)"]
  else
    [text "let _result = " ++ call w code functionName sig.1 ++ text ";",
      text "serde_json::json!(\x7b\"result\": " ++ toJson returnType (text "&_result") ++
        text "\x7d)"]

end

inductive Hole
  | solutionStruct
  | nodeDefinitions
  | parameterDeserialization
  | callAndSerialize
  | userCode
  deriving DecidableEq

def Hole.placeholder : Hole → Text
  | solutionStruct => text "__SOLUTION_STRUCT_PLACEHOLDER__"
  | nodeDefinitions => text "__NODE_DEFINITIONS_PLACEHOLDER__"
  | parameterDeserialization => text "__PARAMETER_DESERIALIZATION_PLACEHOLDER__"
  | callAndSerialize => text "__CALL_AND_SERIALIZE_PLACEHOLDER__"
  | userCode => text "__USER_CODE_PLACEHOLDER__"

/-- The placeholders, and what `compile` looks for. -/
def parts : List Text :=
  [Hole.solutionStruct.placeholder, Hole.nodeDefinitions.placeholder,
    Hole.parameterDeserialization.placeholder, Hole.callAndSerialize.placeholder,
    Hole.userCode.placeholder] ++ leftovers

/-- The two long pieces of the template: `mod __judge` and `fn main`. No placeholder stands
in them. -/
structure Support where
  judge : Text
  main : Text
  plain : ∀ t ∈ [judge, main], ∀ part ∈ parts, ¬ part <:+: t

/-- `RUST_WRAPPER_TEMPLATE`, after the empty text before its first line feed. -/
def templateCells (support : Support) : List (CodePoint × Cell Hole CodePoint) :=
  [lines ["#![allow(dead_code, unused_imports, unused_variables, unused_mut, non_snake_case)]", ""],
    [(ch '\n', .slot .solutionStruct)],
    lines [""],
    [(ch '\n', .slot .nodeDefinitions)],
    lines [""],
    [(ch '\n', .fixed support.judge)],
    lines ["", "fn __judge_run(payload: serde_json::Value) -> serde_json::Value \x7b", "   "],
    [(ch ' ', .slot .parameterDeserialization)],
    lines ["", "   "],
    [(ch ' ', .slot .callAndSerialize)],
    lines ["\x7d", ""],
    [(ch '\n', .fixed support.main)],
    lines ["",
      "// ======================================================",
      "// USER CODE",
      "// ======================================================",
      ""],
    [(ch '\n', .slot .userCode)],
    lines [""]].flatten

/-- `SOLUTION_STRUCT` -/
def solutionStruct : Text := text "pub struct Solution;"

/-- `TREE_NODE_DEFINITION` -/
def treeNodeDefinition : Text := unwords (ch '\n') (["",
  "#[derive(Debug, PartialEq, Eq)]",
  "pub struct TreeNode \x7b",
  "    pub val: i32,",
  "    pub left: Option<std::rc::Rc<std::cell::RefCell<TreeNode>>>,",
  "    pub right: Option<std::rc::Rc<std::cell::RefCell<TreeNode>>>,",
  "\x7d",
  "",
  "impl TreeNode \x7b",
  "    #[inline]",
  "    pub fn new(val: i32) -> Self \x7b",
  "        TreeNode \x7b val, left: None, right: None \x7d",
  "    \x7d",
  "\x7d",
  ""].map text)

/-- `LIST_NODE_DEFINITION` -/
def listNodeDefinition : Text := unwords (ch '\n') (["",
  "#[derive(PartialEq, Eq, Clone, Debug)]",
  "pub struct ListNode \x7b",
  "    pub val: i32,",
  "    pub next: Option<Box<ListNode>>,",
  "\x7d",
  "",
  "impl ListNode \x7b",
  "    #[inline]",
  "    pub fn new(val: i32) -> Self \x7b",
  "        ListNode \x7b next: None, val \x7d",
  "    \x7d",
  "\x7d",
  ""].map text)

theorem placeholder_mem_parts (h : Hole) : h.placeholder ∈ parts := by
  cases h <;> simp [parts]

theorem parts_plain : ∀ part ∈ parts,
    ch 'O' ∈ part ∧ ch '_' ∈ part ∧ ch 'a' ∉ part ∧ ch '(' ∉ part ∧ 1 < part.length := by
  decide

/-- The lines that stay, besides the two long pieces. -/
def fixedLines : List Text :=
  ["#![allow(dead_code, unused_imports, unused_variables, unused_mut, non_snake_case)]", "",
    "fn __judge_run(payload: serde_json::Value) -> serde_json::Value \x7b", "   ", "\x7d",
    "// ======================================================", "// USER CODE"].map text

theorem fixedLines_plain : ∀ t ∈ fixedLines, t = text "// USER CODE" ∨ ch 'O' ∉ t := by
  decide +kernel

theorem mem_fixedTexts_template {support : Support} {t : Text}
    (ht : t ∈ fixedTexts (.fixed [] :: (templateCells support).map Prod.snd)) :
    t ∈ [support.judge, support.main] ∨ t ∈ fixedLines := by
  have hnil : ([] : Text) = text "" := rfl
  simp only [templateCells, lines, fixedTexts, List.flatten_cons, List.flatten_nil, List.map_cons,
    List.map_nil, List.cons_append, List.nil_append, List.append_nil, List.filterMap_cons,
    List.filterMap_nil, List.mem_cons, List.not_mem_nil, or_false, fixedLines, hnil] at ht ⊢
  grind

theorem plain_template {support : Support} {t : Text}
    (ht : t ∈ fixedTexts (.fixed [] :: (templateCells support).map Prod.snd)) :
    ∀ part ∈ parts, ¬ part <:+: t := by
  have hheading : ∀ part ∈ parts, ¬ part <:+: text "// USER CODE" := by decide +kernel
  intro part hpart
  rcases mem_fixedTexts_template ht with hsupport | hline
  · exact support.plain t hsupport part hpart
  · rcases fixedLines_plain t hline with rfl | hO
    · exact hheading part hpart
    · exact not_infix_of_not_mem (parts_plain part hpart).1 hO

theorem templateCells_marks (support : Support) :
    ∀ p ∈ templateCells support, p.1 ∈ [ch '\n', ch ' '] := by
  have hmarks : ∀ d ∈ (templateCells support).map Prod.fst, d ∈ [ch '\n', ch ' '] := by
    simp only [templateCells, lines, List.flatten_cons, List.flatten_nil, List.map_cons,
      List.map_nil, List.cons_append, List.nil_append, List.append_nil]
    decide
  exact fun p hp => hmarks p.1 (List.mem_map_of_mem hp)

def template (support : Support) : Template Hole CodePoint where
  placeholder := Hole.placeholder
  first := .fixed []
  rest := templateCells support
  nonempty := fun h => by cases h <;> decide
  marks := by
    have hmarks : ∀ d ∈ [ch '\n', ch ' '], ∀ h : Hole, d ∉ h.placeholder := by
      intro d hd h
      revert d
      cases h <;> decide
    exact fun p hp => hmarks p.1 (templateCells_marks support p hp)
  fixed := fun t ht h => plain_template (mem_fixedTexts.mpr ht) _ (placeholder_mem_parts h)
  apart := by
    intro h k
    cases h <;> cases k <;> decide

@[simp] theorem template_placeholder (support : Support) (h : Hole) :
    (template support).placeholder h = h.placeholder := rfl

section
variable (w : WordClass) (code functionName : Text) (sig : List (Text × Text) × Text)

def indent : Text := text "\n    "

/-- The definitions that are missing in the code. -/
def definitions : List Text :=
  (if mentions w (text "struct") (text "TreeNode") none code then [] else [treeNodeDefinition]) ++
    (if mentions w (text "struct") (text "ListNode") none code then [] else [listNodeDefinition])

/-- `skip_pos` -/
def skipsPos (params : List (Text × Text)) : Bool :=
  params.any fun param => PyStr.hasPart (text "ListNode") param.1

/-- What the placeholders are replaced by. -/
def contents : Hole → Text
  | .solutionStruct =>
      if mentions w (text "struct") (text "Solution") none code then [] else solutionStruct
  | .nodeDefinitions => (text "\n").intercalate (definitions w code)
  | .parameterDeserialization => indent.intercalate (sig.1.mapIdx (bindingLine (skipsPos sig.1)))
  | .callAndSerialize => indent.intercalate (bodyLines w code functionName sig)
  | .userCode => code

/-- The order of the replacements in `_generate_wrapper`. -/
def order : List Hole :=
  [.solutionStruct, .nodeDefinitions, .parameterDeserialization, .callAndSerialize, .userCode]

def passes : List (Hole × Text) := order.map fun h => (h, contents w code functionName sig h)

def wrapped (support : Support) : Text :=
  (template support).run (passes w code functionName sig) (template support).source

/-- The text with every placeholder replaced by its own text. -/
def filled (support : Support) : Text :=
  (template support).fill (contents w code functionName sig)

end

/-- `_generate_wrapper` -/
def generate (w : WordClass) (support : Support) (code functionName : Text) : Except PyExc Text :=
  (Rust.signature functionName code).map fun sig => wrapped w code functionName sig support

section
variable (w : WordClass) (code functionName : Text) (sig : List (Text × Text) × Text)
  (support : Support)

/-- What a slot holds in the end. -/
def settled : Hole → Text
  | .parameterDeserialization => (template support).run ((passes w code functionName sig).drop 3)
      (contents w code functionName sig .parameterDeserialization)
  | .callAndSerialize => (template support).run ((passes w code functionName sig).drop 4)
      (contents w code functionName sig .callAndSerialize)
  | h => contents w code functionName sig h

theorem definitions_plain : ∀ t ∈ [solutionStruct, treeNodeDefinition, listNodeDefinition],
    ch '_' ∉ t := by
  decide +kernel

theorem underscore_not_mem_struct :
    ch '_' ∉ contents w code functionName sig .solutionStruct := by
  rw [contents]
  split_ifs
  · exact List.not_mem_nil
  · exact definitions_plain _ (by simp)

theorem underscore_not_mem_definitions :
    ch '_' ∉ contents w code functionName sig .nodeDefinitions := by
  have htree := definitions_plain treeNodeDefinition (by simp)
  have hlist := definitions_plain listNodeDefinition (by simp)
  have hline : ch '_' ∉ text "\n" := by decide
  rw [contents, definitions]
  split_ifs <;> simp [htree, hlist, hline]

theorem wrapped_eq : wrapped w code functionName sig support =
    (template support).fill (settled w code functionName sig support) := by
  have hslot : ∀ n h, order[n]? = some h → h ∉ order.take n →
      (template support).run (passes w code functionName sig) h.placeholder =
        (template support).run ((passes w code functionName sig).drop (n + 1))
          (contents w code functionName sig h) :=
    fun n h hn hbefore =>
      (template support).run_order order (contents w code functionName sig) hn hbefore
  have hplain : ∀ {t : Text} (later : List (Hole × Text)), ch '_' ∉ t →
      (template support).run later t = t := fun later ht =>
    (template support).run_eq_self fun pass _ =>
      not_infix_of_not_mem (parts_plain _ (placeholder_mem_parts pass.1)).2.1 ht
  rw [wrapped, Template.source, Template.run_fill]
  congr 1
  funext h
  cases h with
  | solutionStruct =>
    exact (hslot 0 _ rfl (by decide)).trans
      (hplain _ (underscore_not_mem_struct w code functionName sig))
  | nodeDefinitions =>
    exact (hslot 1 _ rfl (by decide)).trans
      (hplain _ (underscore_not_mem_definitions w code functionName sig))
  | parameterDeserialization => exact hslot 2 _ rfl (by decide)
  | callAndSerialize => exact hslot 3 _ rfl (by decide)
  | userCode => exact hslot 4 _ rfl (by decide)

/-- No later replacement finds anything in what was filled in before. -/
structure Undisturbed : Prop where
  call : ¬ Hole.callAndSerialize.placeholder <:+:
    contents w code functionName sig .parameterDeserialization
  bindings : ¬ Hole.userCode.placeholder <:+:
    contents w code functionName sig .parameterDeserialization
  body : ¬ Hole.userCode.placeholder <:+: contents w code functionName sig .callAndSerialize

variable {w code functionName sig}

theorem wrapped_eq_filled (h : Undisturbed w code functionName sig) :
    wrapped w code functionName sig support = filled w code functionName sig support := by
  rw [wrapped_eq, filled]
  congr 1
  funext i
  cases i with
  | solutionStruct => rfl
  | nodeDefinitions => rfl
  | parameterDeserialization =>
    refine (template support).run_eq_self ?_
    simpa [passes, order] using ⟨h.call, h.bindings⟩
  | callAndSerialize =>
    refine (template support).run_eq_self ?_
    simpa [passes, order] using h.body
  | userCode => rfl

theorem paren_not_mem (h : Hole) : ch '(' ∉ (template support).placeholder h :=
  (parts_plain _ (placeholder_mem_parts h)).2.2.2.1

theorem slot_mem (h : Hole) :
    .slot h ∈ (template support).first :: (template support).rest.map Prod.snd := by
  cases h <;> simp [template, templateCells]

/-- The converse, where the code and the call have a parenthesis in them. -/
theorem undisturbed_of_eq (hcode : ch '(' ∈ code)
    (hcall : ch '(' ∈ contents w code functionName sig .callAndSerialize)
    (h : wrapped w code functionName sig support = filled w code functionName sig support) :
    Undisturbed w code functionName sig := by
  have hle : ∀ passes : List (Hole × Text), ∀ pass ∈ passes,
      weight (occurrences (ch '(')) ((template support).placeholder pass.1) ≤
        weight (occurrences (ch '(')) pass.2 :=
    fun _ pass _ => occurrences_le (paren_not_mem support pass.1) pass.2
  have hgrows : ∀ i, weight (occurrences (ch '(')) (contents w code functionName sig i) ≤
      weight (occurrences (ch '(')) (settled w code functionName sig support i) := by
    intro i
    cases i with
    | solutionStruct => exact le_refl _
    | nodeDefinitions => exact le_refl _
    | parameterDeserialization => exact (template support).weight_run_le (hle _) _
    | callAndSerialize => exact (template support).weight_run_le (hle _) _
    | userCode => exact le_refl _
  have htext : (template support).fill (contents w code functionName sig) =
      (template support).fill (settled w code functionName sig support) := by
    rw [← wrapped_eq, h, filled]
  have hslot := fun i => weight_slot_eq hgrows (congrArg (weight _) htext) (slot_mem support i)
  have hnocall := @Template.not_infix_of_weight_eq _ _ _ (template support) _ [] [(.userCode, code)]
    .callAndSerialize _ _ (by simp) (hle _) (occurrences_lt (paren_not_mem support _) hcall)
    (hslot .parameterDeserialization).symm
  have hnouser := @Template.not_infix_of_weight_eq _ _ _ (template support) _
    [(.callAndSerialize, contents w code functionName sig .callAndSerialize)] []
    .userCode code _ (hle _) (by simp) (occurrences_lt (paren_not_mem support _) hcode)
    (hslot .parameterDeserialization).symm
  have hbindings : (template support).run
      [(.callAndSerialize, contents w code functionName sig .callAndSerialize)]
        (contents w code functionName sig .parameterDeserialization) =
      contents w code functionName sig .parameterDeserialization := replace_eq_self hnocall
  rw [hbindings] at hnouser
  have hnobody := @Template.not_infix_of_weight_eq _ _ _ (template support) _ [] []
    .userCode code _ (by simp) (by simp) (occurrences_lt (paren_not_mem support _) hcode)
    (hslot .callAndSerialize).symm
  exact ⟨hnocall, hnouser, hnobody⟩

end

/-- What must not occur in a binding: the placeholders that are replaced after it, and what
`compile` looks for. -/
def bindingParts : List Text :=
  Hole.callAndSerialize.placeholder :: Hole.userCode.placeholder :: leftovers

theorem bindingParts_subset : bindingParts ⊆ parts :=
  List.subset_append_right [Hole.solutionStruct.placeholder, Hole.nodeDefinitions.placeholder,
    Hole.parameterDeserialization.placeholder] bindingParts

theorem walls_binding : ∀ part ∈ bindingParts, ∀ t ∈ [text "let mut ", text ": ",
    text " = __judge::build_tree(&__judge::pick(&payload, \"",
    text " = __judge::build_list(&__judge::pick(&payload, \"",
    text " = serde_json::from_value::<", text ">(__judge::pick(&payload, \"", text "\", ",
    text ", true));", text ", false));",
    text ", true)).unwrap_or_else(|e| panic!(\"invalid argument ",
    text ", false)).unwrap_or_else(|e| panic!(\"invalid argument ",
    text ": \x7b\x7d\", e));"], walls part t = true := by
  decide +kernel

/-- The end of a line that builds a tree or a list. -/
def built (skipPos : Bool) : Text := if skipPos then text ", true));" else text ", false));"

/-- What stands between the two names in the line of another value. -/
def unwrapped (skipPos : Bool) : Text :=
  if skipPos then text ", true)).unwrap_or_else(|e| panic!(\"invalid argument "
  else text ", false)).unwrap_or_else(|e| panic!(\"invalid argument "

/-- The line, with the texts that stay in one piece each. -/
theorem bindingLine_eq (skipPos : Bool) (index : ℕ) (param : Text × Text) :
    bindingLine skipPos index param =
      text "let mut " ++ (argName index ++ (text ": " ++ (ownedType (normalizeType param.1) ++
        (if PyStr.hasPart (text "TreeNode") (ownedType (normalizeType param.1)) then
          text " = __judge::build_tree(&__judge::pick(&payload, \"" ++ (param.2 ++ (text "\", " ++
            (text (toString index) ++ built skipPos)))
        else if PyStr.hasPart (text "ListNode") (ownedType (normalizeType param.1)) then
          text " = __judge::build_list(&__judge::pick(&payload, \"" ++ (param.2 ++ (text "\", " ++
            (text (toString index) ++ built skipPos)))
        else
          text " = serde_json::from_value::<" ++ (ownedType (normalizeType param.1) ++
            (text ">(__judge::pick(&payload, \"" ++ (param.2 ++ (text "\", " ++
              (text (toString index) ++ (unwrapped skipPos ++ (param.2 ++
                text ": \x7b\x7d\", e));"))))))))))) := by
  have htree : text " = __judge::build_tree(&__judge::pick(&payload, \"" =
      text " = " ++ (text "__judge::build_tree(&" ++ text "__judge::pick(&payload, \"") := by
    decide +kernel
  have hlist : text " = __judge::build_list(&__judge::pick(&payload, \"" =
      text " = " ++ (text "__judge::build_list(&" ++ text "__judge::pick(&payload, \"") := by
    decide +kernel
  have hvalue : text " = serde_json::from_value::<" =
      text " = " ++ text "serde_json::from_value::<" := by decide +kernel
  have hpick : text ">(__judge::pick(&payload, \"" =
      text ">(" ++ text "__judge::pick(&payload, \"" := by decide +kernel
  have hbuilt : built skipPos = text ", " ++ (boolText skipPos ++ (text ")" ++ (text ")" ++
      text ";"))) := by
    cases skipPos <;> decide +kernel
  have hunwrapped : unwrapped skipPos = text ", " ++ (boolText skipPos ++ (text ")" ++ (text ")" ++
      text ".unwrap_or_else(|e| panic!(\"invalid argument "))) := by
    cases skipPos <;> decide +kernel
  have hend : text ": \x7b\x7d\", e));" = text ": \x7b\x7d\", e))" ++ text ";" := by
    decide +kernel
  rw [htree, hlist, hvalue, hpick, hbuilt, hunwrapped, hend]
  simp only [bindingLine, decodeText, pickText]
  split_ifs <;> simp only [List.append_assoc]

theorem infix_bindingLine_iff {part : Text} (hpart : part ∈ bindingParts) (skipPos : Bool)
    (index : ℕ) (param : Text × Text) :
    part <:+: bindingLine skipPos index param ↔
      part <:+: ownedType (normalizeType param.1) ∨ part <:+: param.2 := by
  have hwall := walls_binding part hpart
  obtain ⟨-, hunderscore, ha, -, hlength⟩ := parts_plain part (bindingParts_subset hpart)
  have harg : ¬ part <:+: argName index := not_infix_argName hunderscore ha hlength index
  have hdigits : ¬ part <:+: text (toString index) := fun hin =>
    underscore_not_mem_digits index (hin.subset hunderscore)
  have hbuilt : walls part (built skipPos) = true := by
    cases skipPos
    · exact hwall (text ", false));") (by simp)
    · exact hwall (text ", true));") (by simp)
  have hunwrapped : walls part (unwrapped skipPos) = true := by
    cases skipPos
    · exact hwall (text ", false)).unwrap_or_else(|e| panic!(\"invalid argument ") (by simp)
    · exact hwall (text ", true)).unwrap_or_else(|e| panic!(\"invalid argument ") (by simp)
  rw [bindingLine_eq, infix_walls_append_iff (hwall (text "let mut ") (by simp)),
    infix_walls_iff (hwall (text ": ") (by simp)), or_iff_right harg]
  split_ifs
  · have htree := hwall (text " = __judge::build_tree(&__judge::pick(&payload, \"") (by simp)
    rw [infix_walls_iff htree,
      infix_walls_iff (hwall (text "\", ") (by simp)), infix_append_walls_iff hbuilt,
      or_iff_left hdigits]
  · have hlist := hwall (text " = __judge::build_list(&__judge::pick(&payload, \"") (by simp)
    rw [infix_walls_iff hlist,
      infix_walls_iff (hwall (text "\", ") (by simp)), infix_append_walls_iff hbuilt,
      or_iff_left hdigits]
  · rw [infix_walls_iff (hwall (text " = serde_json::from_value::<") (by simp)),
      infix_walls_iff (hwall (text ">(__judge::pick(&payload, \"") (by simp)),
      infix_walls_iff (hwall (text "\", ") (by simp)), infix_walls_iff hunwrapped,
      infix_append_walls_iff (hwall (text ": \x7b\x7d\", e));") (by simp)), or_iff_right hdigits,
      or_self, ← or_assoc, or_self]

section
variable (w : WordClass) (code functionName : Text) (sig : List (Text × Text) × Text)

theorem infix_bindings_iff {part : Text} (hpart : part ∈ bindingParts) :
    part <:+: contents w code functionName sig .parameterDeserialization ↔
      ∃ param ∈ sig.1, part <:+: ownedType (normalizeType param.1) ∨ part <:+: param.2 := by
  have hindent : ∀ part ∈ bindingParts, walls part indent = true := by decide +kernel
  rw [contents, infix_intercalate_iff (hindent part hpart)]
  constructor
  · rintro ⟨line, hline, hin⟩
    obtain ⟨i, hi, rfl⟩ := List.mem_mapIdx.mp hline
    exact ⟨_, List.getElem_mem hi, (infix_bindingLine_iff hpart _ i _).mp hin⟩
  · rintro ⟨param, hparam, hin⟩
    obtain ⟨i, hi, rfl⟩ := List.getElem_of_mem hparam
    exact ⟨_, List.mem_mapIdx.mpr ⟨i, hi, rfl⟩, (infix_bindingLine_iff hpart _ i _).mpr hin⟩

/-- What must not occur in the call. -/
def bodyParts : List Text := Hole.userCode.placeholder :: leftovers

theorem bodyParts_subset : bodyParts ⊆ bindingParts := List.subset_cons_self _ _

theorem walls_body : ∀ part ∈ bodyParts, ∀ t ∈ [text "let _result = ",
    text "let _result = Solution::", text "(", text ", ", text ");", text "&mut ", text "&",
    indent], walls part t = true := by
  decide +kernel

/-- What stands before the name of the function in its line. -/
def beforeName : Text :=
  (if normalizeType sig.2 = [] ∨ normalizeType sig.2 = text "()" then []
    else text "let _result = ") ++
    (if mentions w (text "impl") (text "Solution") none code then text "Solution::" else [])

/-- The line after the call. -/
def afterCall : Text :=
  if normalizeType sig.2 = [] ∨ normalizeType sig.2 = text "()" then
    text "serde_json::json!(\x7b\"result\": serde_json::Value::Null, \"mutated\": " ++
      mutated sig.1 ++ text "\x7d)"
  else
    text "serde_json::json!(\x7b\"result\": " ++
      toJson (normalizeType sig.2) (text "&_result") ++ text "\x7d)"

theorem bodyLines_eq : bodyLines w code functionName sig =
    [beforeName w code sig ++ (functionName ++ (text "(" ++
      ((text ", ").intercalate (sig.1.mapIdx callArg) ++ text ");"))), afterCall sig] := by
  have hclose : text ")" ++ text ";" = text ");" := by decide
  by_cases hnone : normalizeType sig.2 = [] ∨ normalizeType sig.2 = text "()"
  · simp only [bodyLines, beforeName, afterCall, hnone, if_true, call, List.append_assoc,
      List.nil_append, hclose]
  · simp only [bodyLines, beforeName, afterCall, hnone, if_false, call, List.append_assoc, hclose]

theorem O_not_mem_toJson (typeName : Text) {expr : Text} (h : ch 'O' ∉ expr) :
    ch 'O' ∉ toJson typeName expr := by
  have hfixed : ∀ t ∈ [text "__judge::tree_to_json(", text "__judge::list_to_json(",
      text "serde_json::to_value(", text ")", text ").unwrap_or(serde_json::Value::Null)"],
      ch 'O' ∉ t := by decide +kernel
  simp only [List.forall_mem_cons, List.not_mem_nil, false_imp_iff, implies_true, and_true]
    at hfixed
  obtain ⟨htree, hlist, hvalue, hclose, hend⟩ := hfixed
  rw [toJson]
  split_ifs <;> simp only [List.mem_append, h, htree, hlist, hvalue, hclose, hend, or_self,
    not_false_eq_true]

theorem O_not_mem_afterCall : ch 'O' ∉ afterCall sig := by
  have hfixed : ∀ t ∈ [
      text "serde_json::json!(\x7b\"result\": serde_json::Value::Null, \"mutated\": ",
      text "serde_json::json!(\x7b\"result\": ", text "\x7d)"], ch 'O' ∉ t := by
    decide +kernel
  have hmutated : ch 'O' ∉ mutated sig.1 := by
    have hnull : ch 'O' ∉ text "serde_json::Value::Null" := by decide +kernel
    cases sig.1 with
    | nil => exact hnull
    | cons param params =>
      rw [mutated]
      split_ifs
      · exact O_not_mem_toJson _ (by decide +kernel)
      · exact hnull
  have hresult := O_not_mem_toJson (normalizeType sig.2)
    (show ch 'O' ∉ text "&_result" by decide)
  simp only [List.forall_mem_cons, List.not_mem_nil, false_imp_iff, implies_true, and_true]
    at hfixed
  rw [afterCall]
  split_ifs <;> simp only [List.mem_append, hfixed, hmutated, hresult, or_self, not_false_eq_true]

theorem infix_callLine_iff {part : Text} (hpart : part ∈ bodyParts) :
    part <:+: beforeName w code sig ++ (functionName ++ (text "(" ++
      ((text ", ").intercalate (sig.1.mapIdx callArg) ++ text ");"))) ↔ part <:+: functionName := by
  have hwall := walls_body part hpart
  obtain ⟨-, hunderscore, ha, -, hlength⟩ :=
    parts_plain part (bindingParts_subset (bodyParts_subset hpart))
  have hargs : ¬ part <:+: (text ", ").intercalate (sig.1.mapIdx callArg) := by
    rw [infix_intercalate_iff (hwall (text ", ") (by simp))]
    rintro ⟨arg, harg, hin⟩
    obtain ⟨i, hi, rfl⟩ := List.mem_mapIdx.mp harg
    have hname : ¬ part <:+: argName i := not_infix_argName hunderscore ha hlength i
    rw [callArg] at hin
    split_ifs at hin
    · exact hname ((infix_walls_append_iff (hwall (text "&mut ") (by simp)) _).mp hin)
    · exact hname ((infix_walls_append_iff (hwall (text "&") (by simp)) _).mp hin)
    · exact hname hin
  have hbefore : ∀ s, part <:+: beforeName w code sig ++ s ↔ part <:+: s := by
    intro s
    rw [beforeName]
    split_ifs
    · have hcolon : ∀ part ∈ bodyParts, ch ':' ∉ part ∧ ¬ part <:+: text "Solution:" := by decide
      obtain ⟨hmem, hnot⟩ := hcolon part hpart
      exact (infix_append_cons_iff hmem (text "Solution:") s).trans (or_iff_right hnot)
    · rfl
    · exact infix_walls_append_iff (hwall (text "let _result = Solution::") (by simp)) s
    · rw [List.append_nil]
      exact infix_walls_append_iff (hwall (text "let _result = ") (by simp)) s
  rw [hbefore, infix_walls_iff (hwall (text "(") (by simp)),
    infix_append_walls_iff (hwall (text ");") (by simp)), or_iff_left hargs]

theorem infix_body_iff {part : Text} (hpart : part ∈ bodyParts) :
    part <:+: contents w code functionName sig .callAndSerialize ↔ part <:+: functionName := by
  have hafter : ¬ part <:+: afterCall sig := not_infix_of_not_mem
    (parts_plain part (bindingParts_subset (bodyParts_subset hpart))).1 (O_not_mem_afterCall sig)
  rw [contents, infix_intercalate_iff (walls_body part hpart indent (by simp)), bodyLines_eq]
  simp only [List.mem_cons, List.not_mem_nil, or_false, exists_eq_or_imp, exists_eq_left,
    infix_callLine_iff w code functionName sig hpart, or_iff_left hafter]

theorem paren_mem_body : ch '(' ∈ contents w code functionName sig .callAndSerialize := by
  have hparen : ch '(' ∈ text "(" := by decide
  rw [contents, bodyLines_eq, List.intercalate_cons_cons]
  simp [hparen]

end

theorem paren_mem_code {code functionName : Text} {sig : List (Text × Text) × Text}
    (h : Rust.signature functionName code = .ok sig) : ch '(' ∈ code := by
  rw [Rust.signature] at h
  cases hsearch : Rust.search functionName code with
  | none =>
    rw [hsearch] at h
    cases h
  | some m =>
    obtain ⟨before, rest, left, rfl, -, hmatch, -⟩ :=
      searchFrom_eq_some _ _ hsearch
    obtain ⟨inside, hhead, -⟩ := Option.bind_eq_some_iff.mp hmatch
    exact List.mem_append_right before (paren_mem_of_headAt hhead)

/-- Neither what the signature brings in has a text in it that is replaced later, nor it or
the code one that `compile` looks for. -/
structure Harmless (code functionName : Text) (sig : List (Text × Text) × Text) : Prop where
  flagged : Unflagged code
  params : ∀ param ∈ sig.1, ∀ part ∈ bindingParts,
    ¬ part <:+: ownedType (normalizeType param.1) ∧ ¬ part <:+: param.2
  function : ∀ part ∈ bodyParts, ¬ part <:+: functionName

section
variable (w : WordClass) (code functionName : Text) (sig : List (Text × Text) × Text)
  (support : Support)

theorem undisturbed_iff : Undisturbed w code functionName sig ↔
    (∀ part ∈ [Hole.callAndSerialize.placeholder, Hole.userCode.placeholder],
      ¬ ∃ param ∈ sig.1, part <:+: ownedType (normalizeType param.1) ∨ part <:+: param.2) ∧
      ¬ Hole.userCode.placeholder <:+: functionName := by
  rw [← infix_body_iff w code functionName sig List.mem_cons_self, List.forall_mem_cons,
    List.forall_mem_singleton, ← infix_bindings_iff w code functionName sig List.mem_cons_self,
    ← infix_bindings_iff w code functionName sig (List.mem_cons_of_mem _ List.mem_cons_self)]
  exact ⟨fun h => ⟨⟨h.call, h.bindings⟩, h.body⟩, fun h => ⟨h.1.1, h.1.2, h.2⟩⟩

theorem accepted_iff : checkFires (filled w code functionName sig support) = false ↔
    Unflagged code ∧ Unflagged functionName ∧ ∀ part ∈ leftovers,
      ¬ ∃ param ∈ sig.1, part <:+: ownedType (normalizeType param.1) ∨ part <:+: param.2 := by
  have hmem : leftovers ⊆ parts := List.subset_append_right _ _
  have hmarks : ∀ p ∈ (template support).rest, ∀ part ∈ leftovers, p.1 ∉ part := by
    have hmark : ∀ d ∈ [ch '\n', ch ' '], ∀ part ∈ leftovers, d ∉ part := by decide
    exact fun p hp => hmark p.1 (templateCells_marks support p hp)
  have hfixed : ∀ t ∈ fixedTexts (template support).cells, Unflagged t := fun t ht part hpart =>
    plain_template ht part (hmem hpart)
  have hplain : ∀ t : Text, ch '_' ∉ t → Unflagged t := fun t ht part hpart =>
    not_infix_of_not_mem (parts_plain part (hmem hpart)).2.1 ht
  have hbindings : Unflagged (contents w code functionName sig .parameterDeserialization) ↔
      ∀ part ∈ leftovers, ¬ ∃ param ∈ sig.1,
        part <:+: ownedType (normalizeType param.1) ∨ part <:+: param.2 :=
    forall₂_congr fun part hpart => not_congr
      (infix_bindings_iff w code functionName sig
        (List.mem_cons_of_mem _ (List.mem_cons_of_mem _ hpart)))
  have hbody : Unflagged (contents w code functionName sig .callAndSerialize) ↔
      Unflagged functionName :=
    forall₂_congr fun part hpart => not_congr
      (infix_body_iff w code functionName sig (List.mem_cons_of_mem _ hpart))
  rw [filled, checkFires_fill_iff hmarks hfixed, ← hbody, ← hbindings]
  constructor
  · exact fun h => ⟨h .userCode (slot_mem support _), h .callAndSerialize (slot_mem support _),
      h .parameterDeserialization (slot_mem support _)⟩
  · rintro ⟨hcode, hcall, hparams⟩ i -
    cases i with
    | solutionStruct => exact hplain _ (underscore_not_mem_struct w code functionName sig)
    | nodeDefinitions => exact hplain _ (underscore_not_mem_definitions w code functionName sig)
    | parameterDeserialization => exact hparams
    | callAndSerialize => exact hcall
    | userCode => exact hcode

theorem embeds_iff (hsig : Rust.signature functionName code = .ok sig) :
    Embeds code (filled w code functionName sig support)
        (wrapped w code functionName sig support) ↔
      Harmless code functionName sig := by
  constructor
  · rintro ⟨⟨-, hreplaced⟩, haccepted⟩
    obtain ⟨hparams, hfunction⟩ := (undisturbed_iff w code functionName sig).mp
      (undisturbed_of_eq support (paren_mem_code hsig) (paren_mem_body w code functionName sig)
        hreplaced)
    rw [hreplaced] at haccepted
    obtain ⟨hcode, hflagged, hleft⟩ := (accepted_iff w code functionName sig support).mp haccepted
    refine ⟨hcode, fun param hparam part hpart => ?_,
      List.forall_mem_cons.mpr ⟨hfunction, hflagged⟩⟩
    rcases List.mem_append.mp (show part ∈ [_, _] ++ leftovers from hpart) with hpart | hpart
    · exact not_or.mp fun hin => hparams part hpart ⟨param, hparam, hin⟩
    · exact not_or.mp fun hin => hleft part hpart ⟨param, hparam, hin⟩
  · intro h
    have hparams : ∀ part ∈ bindingParts, ¬ ∃ param ∈ sig.1,
        part <:+: ownedType (normalizeType param.1) ∨ part <:+: param.2 := by
      rintro part hpart ⟨param, hparam, hin⟩
      exact not_or.mpr (h.params param hparam part hpart) hin
    obtain ⟨hfunction, hflagged⟩ := List.forall_mem_cons.mp h.function
    have hreplaced := wrapped_eq_filled support ((undisturbed_iff w code functionName sig).mpr
      ⟨fun part hpart => hparams part (List.mem_append_left leftovers hpart), hfunction⟩)
    refine ⟨⟨?_, hreplaced⟩, ?_⟩
    · rw [hreplaced]
      exact text_infix_joined (slot_mem support .userCode) (contents w code functionName sig)
    · rw [hreplaced]
      exact (accepted_iff w code functionName sig support).mpr ⟨h.flagged, hflagged,
        fun part hpart => hparams part (List.mem_append_right [_, _] hpart)⟩

end

end ExecutionEngine.RustEmbedding
