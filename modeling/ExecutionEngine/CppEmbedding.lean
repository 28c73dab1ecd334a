import ExecutionEngine.CppWrapper
import ExecutionEngine.WrapperText

/-!
# The text of a C++ wrapper, after `languages/cpp.py` and `languages/cpp_wrapper.py`

The placeholders of the template are replaced one after the other, the code first. What is
replaced later is replaced in the code as well, and the check reads the code too.
-/
namespace ExecutionEngine.CppEmbedding
open Pipeline TextScan CSignature CppWrapper Substitution WrapperText

inductive Hole
  | userCode
  | skipPos
  | parameterDeserialization
  | callAndSerialize
  deriving DecidableEq

def Hole.placeholder : Hole → Text
  | userCode => text "__USER_CODE_PLACEHOLDER__"
  | skipPos => text "__SKIP_POS_PLACEHOLDER__"
  | parameterDeserialization => text "__PARAMETER_DESERIALIZATION_PLACEHOLDER__"
  | callAndSerialize => text "__CALL_AND_SERIALIZE_PLACEHOLDER__"

/-- `CPP_WRAPPER_TEMPLATE`, after the empty text before its first line feed. -/
def templateCells : List (CodePoint × Cell Hole CodePoint) :=
  [lines ["#include \"/opt/cpp_support.hpp\"",
    "",
    "// ======================================================",
    "// USER CODE",
    "// ======================================================",
    ""],
  [(ch '\n', .slot .userCode)],
  lines ["",
    "// ======================================================",
    "// MAIN EXECUTION ENTRY (AUTO-GENERATED)",
    "// ======================================================",
    "",
    "int main() \x7b",
    "    string _stdin_raw((istreambuf_iterator<char>(cin)), istreambuf_iterator<char>());",
    "",
    "    json _payload;",
    "    try \x7b",
    "        _payload = json::parse(_stdin_raw);",
    "    \x7d catch (...) \x7b",
    "        judge::emitError(\"Invalid JSON input\");",
    "        return 1;",
    "    \x7d",
    "",
    "    try \x7b",
    "        judge::Input _in(_payload,"],
  [(ch ' ', .slot .skipPos), (ch ')', .fixed (text ";"))],
  lines ["", "       "],
  [(ch ' ', .slot .parameterDeserialization)],
  lines ["", "        json _output;", "       "],
  [(ch ' ', .slot .callAndSerialize)],
  lines ["",
    "        judge::emit(_output);",
    "    \x7d catch (const exception& e) \x7b",
    "        judge::emitError(e.what());",
    "        return 1;",
    "    \x7d catch (...) \x7b",
    "        judge::emitError(\"Unknown runtime error\");",
    "        return 1;",
    "    \x7d",
    "",
    "    return 0;",
    "\x7d",
    ""]].flatten

/-- Every placeholder and all that `compile` looks for begin with two underscores. -/
def underscores : Text := text "__"

theorem underscores_placeholder (h : Hole) : underscores <+: h.placeholder := by
  cases h <;> decide

theorem underscores_leftovers : ∀ part ∈ leftovers, underscores <+: part := by decide

/-- Nothing begins so in the text that stays. -/
theorem templateCells_plain :
    ∀ t ∈ fixedTexts (.fixed [] :: templateCells.map Prod.snd), ¬ underscores <:+: t := by
  decide +kernel

theorem templateCells_marks : ∀ p ∈ templateCells, p.1 ∈ [ch '\n', ch ' ', ch ')'] := by
  decide +kernel

def template : Template Hole CodePoint where
  placeholder := Hole.placeholder
  first := .fixed []
  rest := templateCells
  nonempty := fun h => by cases h <;> decide
  marks := by
    have hmarks : ∀ d ∈ [ch '\n', ch ' ', ch ')'], ∀ h : Hole, d ∉ h.placeholder := by
      intro d hd h
      revert d
      cases h <;> decide
    exact fun p hp => hmarks p.1 (templateCells_marks p hp)
  fixed := fun t ht h hin =>
    templateCells_plain t (mem_fixedTexts.mpr ht) ((underscores_placeholder h).isInfix.trans hin)
  apart := by
    intro h k
    cases h <;> cases k <;> decide

@[simp] theorem template_placeholder (h : Hole) : template.placeholder h = h.placeholder := rfl

def indent : Text := text "\n        "

/-- What the placeholders are replaced by. -/
def contents (code : Text) (w : Wrapper) : Hole → Text
  | .userCode => code
  | .skipPos => if w.skipPos then text "true" else text "false"
  | .parameterDeserialization => indent.intercalate w.bindings
  | .callAndSerialize => indent.intercalate w.lines

/-- The order of the replacements in `_generate_wrapper`. -/
def order : List Hole := [.userCode, .skipPos, .parameterDeserialization, .callAndSerialize]

def passes (code : Text) (w : Wrapper) : List (Hole × Text) :=
  order.map fun h => (h, contents code w h)

def wrapped (code : Text) (w : Wrapper) : Text := template.run (passes code w) template.source

/-- `_generate_wrapper`, as a text. -/
def generate (words : WordClass) (code functionName : Text) : Except PyExc Text :=
  (generateWrapper words code functionName).map (wrapped code)

/-- What a slot holds in the end. -/
def settled (code : Text) (w : Wrapper) : Hole → Text
  | .userCode => template.run ((passes code w).drop 1) code
  | .skipPos => contents code w .skipPos
  | .parameterDeserialization =>
      template.run ((passes code w).drop 3) (contents code w .parameterDeserialization)
  | .callAndSerialize => contents code w .callAndSerialize

theorem bool_undisturbed (b : Bool) (h : Hole) :
    ¬ h.placeholder <:+: if b then text "true" else text "false" := by
  cases b <;> cases h <;> decide

theorem wrapped_eq (code : Text) (w : Wrapper) :
    wrapped code w = template.fill (settled code w) := by
  have hslot : ∀ n h, order[n]? = some h → h ∉ order.take n →
      template.run (passes code w) h.placeholder =
        template.run ((passes code w).drop (n + 1)) (contents code w h) :=
    fun n h hn hbefore => template.run_order order (contents code w) hn hbefore
  rw [wrapped, Template.source, Template.run_fill]
  congr 1
  funext h
  cases h with
  | userCode => exact hslot 0 _ rfl (by decide)
  | skipPos =>
    refine (hslot 1 _ rfl (by decide)).trans (template.run_eq_self ?_)
    exact fun pass _ => bool_undisturbed w.skipPos pass.1
  | parameterDeserialization => exact hslot 2 _ rfl (by decide)
  | callAndSerialize => exact hslot 3 _ rfl (by decide)

/-- No later replacement finds anything in what was filled in before. -/
structure Undisturbed (code : Text) (w : Wrapper) : Prop where
  skipPos : ¬ Hole.skipPos.placeholder <:+: code
  parameters : ¬ Hole.parameterDeserialization.placeholder <:+: code
  call : ¬ Hole.callAndSerialize.placeholder <:+: code
  bindings : ¬ Hole.callAndSerialize.placeholder <:+: contents code w .parameterDeserialization

theorem wrapped_eq_fill {code : Text} {w : Wrapper} (h : Undisturbed code w) :
    wrapped code w = template.fill (contents code w) := by
  rw [wrapped_eq]
  congr 1
  funext i
  cases i with
  | userCode =>
    refine template.run_eq_self ?_
    simpa [passes, order] using ⟨h.skipPos, h.parameters, h.call⟩
  | skipPos => rfl
  | parameterDeserialization =>
    refine template.run_eq_self ?_
    simpa [passes, order] using h.bindings
  | callAndSerialize => rfl

theorem slot_mem (h : Hole) : .slot h ∈ template.first :: template.rest.map Prod.snd := by
  cases h <;> simp [template, templateCells]

theorem paren_not_mem (h : Hole) : ch '(' ∉ template.placeholder h := by
  cases h <;> decide

/-- A replacement in the code would add a parenthesis or make the code shorter. -/
theorem not_infix_code {code bool bindings call : Text} (hbool : bool.length < 24)
    (hbindings : bindings = [] ∨ ch '(' ∈ bindings) (hcall : ch '(' ∈ call)
    (h : ∀ v : CodePoint → ℤ, weight v (template.run [(.skipPos, bool),
      (.parameterDeserialization, bindings), (.callAndSerialize, call)] code) = weight v code) :
    ¬ Hole.skipPos.placeholder <:+: code ∧ ¬ Hole.parameterDeserialization.placeholder <:+: code ∧
      ¬ Hole.callAndSerialize.placeholder <:+: code := by
  have hle : ∀ passes : List (Hole × Text), ∀ pass ∈ passes,
      weight (occurrences (ch '(')) (template.placeholder pass.1) ≤
        weight (occurrences (ch '(')) pass.2 :=
    fun _ pass _ => occurrences_le (paren_not_mem pass.1) pass.2
  have hskipShort : weight shortness (template.placeholder .skipPos) < weight shortness bool := by
    have hlength : (template.placeholder .skipPos).length = 24 := by decide
    rw [weight_shortness, weight_shortness, hlength]
    omega
  -- the call is not found in what the replacements before it have made
  have hnocall := @Template.not_infix_of_weight_eq _ _ _ template _
    [(.skipPos, bool), (.parameterDeserialization, bindings)] [] .callAndSerialize call code
    (hle _) (hle _) (occurrences_lt (paren_not_mem _) hcall) (h _)
  have htwo : template.run [(.skipPos, bool), (.parameterDeserialization, bindings),
        (.callAndSerialize, call)] code =
      template.run [(.skipPos, bool), (.parameterDeserialization, bindings)] code :=
    replace_eq_self hnocall
  rw [htwo] at h
  have hnoparam : ¬ template.placeholder .parameterDeserialization <:+:
      template.run [(.skipPos, bool)] code := by
    rcases hbindings with rfl | hparen
    · refine @Template.not_infix_of_weight_eq _ _ _ template shortness [(.skipPos, bool)] []
        .parameterDeserialization [] code ?_ (by simp) (by decide) (h _)
      exact List.forall_mem_singleton.mpr hskipShort.le
    · exact @Template.not_infix_of_weight_eq _ _ _ template _ [(.skipPos, bool)] []
        .parameterDeserialization bindings code (hle _) (hle _)
        (occurrences_lt (paren_not_mem _) hparen) (h _)
  have hone : template.run [(.skipPos, bool), (.parameterDeserialization, bindings)] code =
      template.run [(.skipPos, bool)] code := replace_eq_self hnoparam
  rw [hone] at h
  have hnoskip := @Template.not_infix_of_weight_eq _ _ _ template shortness [] [] .skipPos bool code
    (by simp) (by simp) hskipShort (h _)
  have hcode : template.run [(.skipPos, bool)] code = code := replace_eq_self hnoskip
  rw [hone, hcode] at hnocall
  rw [hcode] at hnoparam
  exact ⟨hnoskip, hnoparam, hnocall⟩

/-- The converse, where the call and the bindings have a parenthesis in them. -/
theorem undisturbed_of_eq {code : Text} {w : Wrapper}
    (hcall : ch '(' ∈ contents code w .callAndSerialize)
    (hbindings : contents code w .parameterDeserialization = [] ∨
      ch '(' ∈ contents code w .parameterDeserialization)
    (h : wrapped code w = template.fill (contents code w)) : Undisturbed code w := by
  have hle : ∀ (passes : List (Hole × Text)) (s : Text), weight (occurrences (ch '(')) s ≤
      weight (occurrences (ch '(')) (template.run passes s) := fun _ =>
    template.weight_run_le fun pass _ => occurrences_le (paren_not_mem pass.1) pass.2
  have hgrows : ∀ i, weight (occurrences (ch '(')) (contents code w i) ≤
      weight (occurrences (ch '(')) (settled code w i) := by
    intro i
    cases i with
    | userCode => exact hle _ _
    | skipPos => exact le_refl _
    | parameterDeserialization => exact hle _ _
    | callAndSerialize => exact le_refl _
  have htext : template.fill (contents code w) = template.fill (settled code w) := by
    rw [← h, wrapped_eq]
  have hslot := fun i => weight_slot_eq hgrows (congrArg (weight _) htext) (slot_mem i)
  have hnobind := @Template.not_infix_of_weight_eq _ _ _ template _ [] [] .callAndSerialize
    (contents code w .callAndSerialize) _ (by simp) (by simp)
    (occurrences_lt (paren_not_mem _) hcall)
    (hslot .parameterDeserialization).symm
  -- now only the slot of the code can differ
  have hothers : ∀ j, j ≠ .userCode → contents code w j = settled code w j := by
    intro j hj
    cases j with
    | userCode => exact absurd rfl hj
    | skipPos => rfl
    | parameterDeserialization => exact (replace_eq_self hnobind).symm
    | callAndSerialize => rfl
  have hbool : (contents code w .skipPos).length < 24 := by
    rw [contents]
    cases w.skipPos <;> decide
  have hcode := not_infix_code hbool hbindings hcall fun v =>
    (@weight_slot_eq_of_others _ _ v _ _ _ hothers _ _ htext
      (slot_mem .userCode)).symm
  exact ⟨hcode.1, hcode.2.1, hcode.2.2, hnobind⟩

/-- The declared type of an argument. -/
def valueType (words : WordClass) (param : Param) : Text :=
  trim isSpace ((CWrapper.dropConst words 0 none param.type).filter fun c => decide (c ≠ ch '&'))

/-- What must not occur in a binding: the placeholder that is replaced after it, and what
`compile` looks for. -/
def bindingParts : List Text := Hole.callAndSerialize.placeholder :: leftovers

theorem walls_binding : ∀ part ∈ bindingParts, ∀ t ∈ [text " ", text " = judge::Arg<",
    text ">::get(_in.arg(\"", text "\", ", text "));"], walls part t = true := by
  decide +kernel

theorem bindingParts_plain :
    ∀ part ∈ bindingParts, ch '_' ∈ part ∧ ch 'a' ∉ part ∧ 1 < part.length := by
  decide

theorem infix_bindingLine_iff (words : WordClass) {part : Text} (hpart : part ∈ bindingParts)
    (index : ℕ) (param : Param) :
    part <:+: bindingLine words index param ↔
      part <:+: valueType words param ∨ part <:+: param.name := by
  have hwall := walls_binding part hpart
  obtain ⟨hunderscore, ha, hlength⟩ := bindingParts_plain part hpart
  have harg : ¬ part <:+: argName index := not_infix_argName hunderscore ha hlength index
  have hdigits : ¬ part <:+: text (toString index) := fun hin =>
    underscore_not_mem_digits index (hin.subset hunderscore)
  have hline : bindingLine words index param = valueType words param ++ (text " " ++
      (argName index ++ (text " = judge::Arg<" ++ (valueType words param ++
        (text ">::get(_in.arg(\"" ++ (param.name ++ (text "\", " ++
          (text (toString index) ++ text "));")))))))) := by
    simp only [bindingLine, valueType, List.append_assoc]
  rw [hline, infix_walls_iff (hwall (text " ") (by simp)),
    infix_walls_iff (hwall (text " = judge::Arg<") (by simp)),
    infix_walls_iff (hwall (text ">::get(_in.arg(\"") (by simp)),
    infix_walls_iff (hwall (text "\", ") (by simp)),
    infix_append_walls_iff (hwall (text "));") (by simp)), or_iff_right harg,
    or_iff_left hdigits, ← or_assoc, or_self]

theorem infix_bindings_iff (words : WordClass) (functionName code : Text)
    (sig : CSignature.Signature) {part : Text} (hpart : part ∈ bindingParts) :
    part <:+: contents code (wrapperOf words functionName sig) .parameterDeserialization ↔
      ∃ param ∈ sig.params, part <:+: valueType words param ∨ part <:+: param.name := by
  have hindent : ∀ part ∈ bindingParts, walls part indent = true := by decide +kernel
  have hcontents : contents code (wrapperOf words functionName sig) .parameterDeserialization =
      indent.intercalate (sig.params.mapIdx (bindingLine words)) := rfl
  rw [hcontents, infix_intercalate_iff (hindent part hpart)]
  constructor
  · rintro ⟨line, hline, hin⟩
    obtain ⟨i, hi, rfl⟩ := List.mem_mapIdx.mp hline
    exact ⟨_, List.getElem_mem hi, (infix_bindingLine_iff words hpart i _).mp hin⟩
  · rintro ⟨param, hparam, hin⟩
    obtain ⟨i, hi, rfl⟩ := List.getElem_of_mem hparam
    exact ⟨_, List.mem_mapIdx.mpr ⟨i, hi, rfl⟩, (infix_bindingLine_iff words hpart i _).mpr hin⟩

/-- What stands before the name of the function in its line. -/
def beforeName (sig : CSignature.Signature) : Text :=
  setup sig ++
    ((if trim isSpace sig.returnType = text "void" then [] else text "auto _result = ") ++ target sig)

theorem beforeName_walls (sig : CSignature.Signature) :
    beforeName sig = [] ∨ ∀ part ∈ leftovers, walls part (beforeName sig) = true := by
  rw [beforeName, setup, target]
  by_cases hvoid : trim isSpace sig.returnType = text "void"
  · rw [if_pos hvoid]
    cases sig.inSolutionClass with
    | false => exact .inl rfl
    | true => exact .inr (by decide +kernel)
  · rw [if_neg hvoid]
    cases sig.inSolutionClass with
    | false => exact .inr (by decide +kernel)
    | true => exact .inr (by decide +kernel)

theorem infix_callLine_iff {part : Text} (hpart : part ∈ leftovers) (functionName : Text)
    (sig : CSignature.Signature) :
    part <:+: beforeName sig ++ (functionName ++ (text "(" ++
      ((text ", ").intercalate (arguments sig) ++ text ");"))) ↔ part <:+: functionName := by
  have hwall : ∀ part ∈ leftovers, ∀ t ∈ [text "(", text ", ", text ");"],
      walls part t = true := by decide +kernel
  have hargs : ¬ part <:+: (text ", ").intercalate (arguments sig) := by
    rw [infix_intercalate_iff (hwall part hpart _ (by simp))]
    rintro ⟨arg, harg, hin⟩
    obtain ⟨i, -, rfl⟩ := List.mem_map.mp harg
    obtain ⟨hunderscore, ha, hlength⟩ := bindingParts_plain part (List.mem_cons_of_mem _ hpart)
    exact not_infix_argName hunderscore ha hlength i hin
  have hbefore : ∀ s, part <:+: beforeName sig ++ s ↔ part <:+: s := by
    intro s
    rcases beforeName_walls sig with hnil | hwalls
    · rw [hnil, List.nil_append]
    · exact infix_walls_append_iff (hwalls part hpart) s
  rw [hbefore, infix_walls_iff (hwall part hpart (text "(") (by simp)),
    infix_append_walls_iff (hwall part hpart (text ");") (by simp)), or_iff_left hargs]

/-- The lines after the call. -/
def afterCall (sig : CSignature.Signature) : List Text :=
  if trim isSpace sig.returnType = text "void" then
    [text "_output[\"result\"] = nullptr;"] ++ ((arguments sig).head?.map fun first =>
      text "_output[\"mutated\"] = judge::toJson(" ++ first ++ text ");").toList
  else [text "_output[\"result\"] = judge::toJson(_result);"]

theorem lines_eq (words : WordClass) (functionName : Text) (sig : CSignature.Signature) :
    (wrapperOf words functionName sig).lines =
      (beforeName sig ++ (functionName ++ (text "(" ++
        ((text ", ").intercalate (arguments sig) ++ text ");")))) :: afterCall sig := by
  have hclose : text ")" ++ text ";" = text ");" := by decide
  by_cases hvoid : trim isSpace sig.returnType = text "void"
  · simp only [wrapperOf, beforeName, afterCall, hvoid, if_true, call, List.append_assoc,
      List.nil_append, List.cons_append, hclose]
  · simp only [wrapperOf, beforeName, afterCall, hvoid, if_false, call, List.append_assoc, hclose]

theorem unflagged_afterCall (sig : CSignature.Signature) :
    ∀ line ∈ afterCall sig, Unflagged line := by
  have hfixed : ∀ part ∈ leftovers, ∀ t ∈ [text "_output[\"result\"] = nullptr;",
      text "_output[\"result\"] = judge::toJson(_result);",
      text "_output[\"mutated\"] = judge::toJson"], ¬ part <:+: t := by decide +kernel
  have hwall : ∀ part ∈ leftovers, ∀ t ∈ [text "(", text ");"], walls part t = true := by
    decide +kernel
  rw [afterCall]
  split_ifs
  · refine List.forall_mem_cons.mpr ⟨fun part hpart => hfixed part hpart _ (by simp), ?_⟩
    intro line hline part hpart
    obtain ⟨first, hfirst, rfl⟩ := Option.map_eq_some_iff.mp (Option.mem_toList.mp hline)
    obtain ⟨i, -, rfl⟩ := List.mem_map.mp (List.mem_of_head? hfirst)
    obtain ⟨hunderscore, ha, hlength⟩ := bindingParts_plain part (List.mem_cons_of_mem _ hpart)
    have hsplit : text "_output[\"mutated\"] = judge::toJson(" ++ argName i ++ text ");" =
        text "_output[\"mutated\"] = judge::toJson" ++ (text "(" ++ (argName i ++ text ");")) := by
      have : text "_output[\"mutated\"] = judge::toJson(" =
          text "_output[\"mutated\"] = judge::toJson" ++ text "(" := by decide +kernel
      rw [this, List.append_assoc, List.append_assoc]
    rw [hsplit, infix_walls_iff (hwall part hpart _ (by simp)),
      infix_append_walls_iff (hwall part hpart (text ");") (by simp))]
    exact not_or.mpr ⟨hfixed part hpart _ (by simp), not_infix_argName hunderscore ha hlength i⟩
  · exact List.forall_mem_singleton.mpr fun part hpart => hfixed part hpart _ (by simp)

theorem unflagged_call_iff (words : WordClass) (functionName code : Text)
    (sig : CSignature.Signature) :
    Unflagged (contents code (wrapperOf words functionName sig) .callAndSerialize) ↔
      Unflagged functionName := by
  have hindent : ∀ part ∈ leftovers, walls part indent = true := by decide +kernel
  refine forall₂_congr fun part hpart => not_congr ?_
  have hcontents : contents code (wrapperOf words functionName sig) .callAndSerialize =
      indent.intercalate (wrapperOf words functionName sig).lines := rfl
  rw [hcontents, infix_intercalate_iff (hindent part hpart), lines_eq]
  simp only [List.mem_cons, exists_eq_or_imp, infix_callLine_iff hpart]
  refine or_iff_left ?_
  rintro ⟨line, hline, hin⟩
  exact unflagged_afterCall sig line hline part hpart hin

theorem paren_mem_call (words : WordClass) (functionName code : Text)
    (sig : CSignature.Signature) :
    ch '(' ∈ contents code (wrapperOf words functionName sig) .callAndSerialize := by
  have hcontents : contents code (wrapperOf words functionName sig) .callAndSerialize =
      indent.intercalate (wrapperOf words functionName sig).lines := rfl
  have hparen : ch '(' ∈ text "(" := by decide
  rw [hcontents, lines_eq]
  obtain ⟨rest, hrest⟩ : ∃ rest, ∀ line : Text,
      indent.intercalate (line :: afterCall sig) = line ++ rest := by
    cases afterCall sig with
    | nil => exact ⟨[], by simp⟩
    | cons next lines => exact ⟨indent ++ indent.intercalate (next :: lines), by simp⟩
  rw [hrest]
  simp [hparen]

theorem paren_mem_bindings (words : WordClass) (functionName code : Text)
    (sig : CSignature.Signature) :
    contents code (wrapperOf words functionName sig) .parameterDeserialization = [] ∨
      ch '(' ∈ contents code (wrapperOf words functionName sig) .parameterDeserialization := by
  have hcontents : contents code (wrapperOf words functionName sig) .parameterDeserialization =
      indent.intercalate (sig.params.mapIdx (bindingLine words)) := rfl
  have hline : ∀ i param, ch '(' ∈ bindingLine words i param := by
    intro i param
    have hparen : ch '(' ∈ text ">::get(_in.arg(\"" := by decide
    simp [bindingLine, hparen]
  rw [hcontents]
  cases hparams : sig.params with
  | nil => exact .inl rfl
  | cons param params =>
    right
    rw [List.mapIdx_cons]
    cases params.mapIdx fun i => bindingLine words (i + 1) with
    | nil => simpa using hline 0 param
    | cons next lines => simpa using .inl (hline 0 param)

/-- Neither the code nor what the signature brings in has a text in it that is replaced
later or that `compile` looks for. -/
structure Harmless (words : WordClass) (code functionName : Text) (sig : CSignature.Signature) :
    Prop where
  replaced : ∀ h : Hole, h ≠ .userCode → ¬ h.placeholder <:+: code
  flagged : Unflagged code
  params : ∀ param ∈ sig.params, ∀ part ∈ bindingParts,
    ¬ part <:+: valueType words param ∧ ¬ part <:+: param.name
  function : Unflagged functionName

/-- The text with every placeholder replaced by its own text. -/
def filled (words : WordClass) (code functionName : Text) (sig : CSignature.Signature) : Text :=
  template.fill (contents code (wrapperOf words functionName sig))

theorem undisturbed_iff (words : WordClass) (code functionName : Text)
    (sig : CSignature.Signature) :
    Undisturbed code (wrapperOf words functionName sig) ↔
      (∀ h : Hole, h ≠ .userCode → ¬ h.placeholder <:+: code) ∧
        ¬ ∃ param ∈ sig.params, Hole.callAndSerialize.placeholder <:+: valueType words param ∨
          Hole.callAndSerialize.placeholder <:+: param.name := by
  have hpart : Hole.callAndSerialize.placeholder ∈ bindingParts := List.mem_cons_self
  rw [← infix_bindings_iff words functionName code sig hpart]
  constructor
  · intro h
    refine ⟨fun i hi => ?_, h.bindings⟩
    cases i with
    | userCode => exact absurd rfl hi
    | skipPos => exact h.skipPos
    | parameterDeserialization => exact h.parameters
    | callAndSerialize => exact h.call
  · exact fun h => ⟨h.1 _ (by simp), h.1 _ (by simp), h.1 _ (by simp), h.2⟩

theorem accepted_iff (words : WordClass) (code functionName : Text) (sig : CSignature.Signature) :
    checkFires (filled words code functionName sig) = false ↔
      Unflagged code ∧ Unflagged functionName ∧ ∀ part ∈ leftovers,
        ¬ ∃ param ∈ sig.params, part <:+: valueType words param ∨ part <:+: param.name := by
  have hmarks : ∀ p ∈ template.rest, ∀ part ∈ leftovers, p.1 ∉ part := by
    have hmark : ∀ d ∈ [ch '\n', ch ' ', ch ')'], ∀ part ∈ leftovers, d ∉ part := by decide
    exact fun p hp => hmark p.1 (templateCells_marks p hp)
  have hfixed : ∀ t ∈ fixedTexts template.cells, Unflagged t := fun t ht part hpart hin =>
    templateCells_plain t ht ((underscores_leftovers part hpart).isInfix.trans hin)
  have hbool : Unflagged (contents code (wrapperOf words functionName sig) .skipPos) := by
    rw [contents]
    cases (wrapperOf words functionName sig).skipPos <;> simp only [Unflagged] <;> decide
  have hbindings : Unflagged (contents code (wrapperOf words functionName sig)
      .parameterDeserialization) ↔ ∀ part ∈ leftovers,
        ¬ ∃ param ∈ sig.params, part <:+: valueType words param ∨ part <:+: param.name :=
    forall₂_congr fun part hpart => not_congr
      (infix_bindings_iff words functionName code sig (List.mem_cons_of_mem _ hpart))
  rw [filled, checkFires_fill_iff hmarks hfixed, ← unflagged_call_iff words functionName code sig,
    ← hbindings]
  constructor
  · exact fun h => ⟨h .userCode (slot_mem _), h .callAndSerialize (slot_mem _),
      h .parameterDeserialization (slot_mem _)⟩
  · rintro ⟨hcode, hcall, hparams⟩ i -
    cases i with
    | userCode => exact hcode
    | skipPos => exact hbool
    | parameterDeserialization => exact hparams
    | callAndSerialize => exact hcall

theorem embeds_iff (words : WordClass) (code functionName : Text) (sig : CSignature.Signature) :
    Embeds code (filled words code functionName sig)
        (wrapped code (wrapperOf words functionName sig)) ↔
      Harmless words code functionName sig := by
  constructor
  · rintro ⟨⟨-, hreplaced⟩, haccepted⟩
    have hund := (undisturbed_iff words code functionName sig).mp
      (undisturbed_of_eq (paren_mem_call _ _ _ _) (paren_mem_bindings _ _ _ _) hreplaced)
    rw [hreplaced] at haccepted
    obtain ⟨hcode, hfunction, hparams⟩ := (accepted_iff words code functionName sig).mp haccepted
    refine ⟨hund.1, hcode, fun param hparam part hpart => ?_, hfunction⟩
    rcases List.mem_cons.mp hpart with rfl | hpart
    · exact not_or.mp fun hin => hund.2 ⟨param, hparam, hin⟩
    · exact not_or.mp fun hin => hparams part hpart ⟨param, hparam, hin⟩
  · intro h
    have hparams : ∀ part ∈ bindingParts, ¬ ∃ param ∈ sig.params,
        part <:+: valueType words param ∨ part <:+: param.name := by
      rintro part hpart ⟨param, hparam, hin⟩
      exact not_or.mpr (h.params param hparam part hpart) hin
    have hund := (undisturbed_iff words code functionName sig).mpr
      ⟨h.replaced, hparams _ List.mem_cons_self⟩
    have hreplaced : wrapped code (wrapperOf words functionName sig) =
        filled words code functionName sig := wrapped_eq_fill hund
    refine ⟨⟨?_, hreplaced⟩, ?_⟩
    · rw [hreplaced]
      exact text_infix_joined (slot_mem .userCode)
        (contents code (wrapperOf words functionName sig))
    · rw [hreplaced]
      exact (accepted_iff words code functionName sig).mpr
        ⟨h.flagged, h.function, fun part hpart => hparams part (List.mem_cons_of_mem _ hpart)⟩

end ExecutionEngine.CppEmbedding
