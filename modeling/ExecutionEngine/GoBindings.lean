import ExecutionEngine.RegexSignature
import ExecutionEngine.Scoping

/-!
# The body of `execute`, after `languages/go.py`

Every parameter of a Go function is decoded into a variable with the parameter's own name,
by way of variables whose names are derived from it. They all stand in the body of
`execute`, beside its parameters `input` and `keys`, its results `out` and `err`, and the
names of the package that the body uses.
-/
namespace ExecutionEngine.GoBindings
open Pipeline TextScan CSignature RegexSignature Scoping

/-- The variables of the body, those derived from a parameter with its name. The last four
live in an inner block. -/
inductive Var
  | input
  | keys
  | out
  | err
  | ok
  | result
  | raw (x : Text)
  | arr (x : Text)
  | adj (x : Text)
  | pos (x : Text)
  | tmp (x : Text)
  | errOf (x : Text)
  | param (x : Text)
  | rawPos (x : Text)
  | posOk
  | failure
  | recovered
  deriving DecidableEq

namespace Var

def name : Var → Text
  | input => text "input"
  | keys => text "keys"
  | out => text "out"
  | err => text "err"
  | ok => text "ok"
  | result => text "result"
  | raw x => text "raw_" ++ x
  | arr x => x ++ text "_arr"
  | adj x => x ++ text "_adj"
  | pos x => text "pos_" ++ x
  | tmp x => text "tmp_" ++ x
  | errOf x => text "err_" ++ x
  | param x => x
  | rawPos x => text "rawPos_" ++ x
  | posOk => text "ok"
  | failure => text "err"
  | recovered => text "r"

end Var

/-- The parameters and results of `execute` belong to the block of its body. -/
def frame : List Var := [.input, .keys, .out, .err]

abbrev Expr := List (Piece Var Text)

abbrev Body := List (Line Var Text)

def blankName : Text := text "_"

/-- `_is_pointer_type` -/
def isPointerType (typeName : Text) : Bool :=
  decide ((Go.normalizeType typeName).head? = some (ch '*'))

/-- `_strip_pointer` -/
def stripPointer (typeName : Text) : Text :=
  trim isSpace ((Go.normalizeType typeName).dropWhile fun c => decide (c = ch '*'))

/-- `_is_listnode_type` -/
def isListnodeType (typeName : Text) : Bool := decide (stripPointer typeName = text "ListNode")

/-- `_is_treenode_type` -/
def isTreenodeType (typeName : Text) : Bool := decide (stripPointer typeName = text "TreeNode")

/-- `_is_graph_node_type` -/
def isGraphNodeType (typeName : Text) : Bool := decide (stripPointer typeName = text "Node")

/-- The functions of the template that decode bytes. -/
inductive Decoder
  | decodeByte
  | decodeBytes
  | decodeByteGrid
  deriving DecidableEq

def Decoder.name : Decoder → Text
  | decodeByte => text "decodeByte"
  | decodeBytes => text "decodeBytes"
  | decodeByteGrid => text "decodeByteGrid"

/-- `_BYTE_DECODERS` -/
def byteDecoders : List (Text × Decoder) :=
  [(text "byte", .decodeByte), (text "[]byte", .decodeBytes), (text "[][]byte", .decodeByteGrid)]

/-- The ways to decode a parameter. -/
inductive Shape
  | listPointer
  | list
  | treePointer
  | tree
  | graph
  | bytes (decoder : Decoder)
  | other
  deriving DecidableEq

def shapeOf (paramType : Text) : Except PyExc Shape :=
  if isListnodeType paramType then
    .ok (if isPointerType paramType then .listPointer else .list)
  else if isTreenodeType paramType then
    .ok (if isPointerType paramType then .treePointer else .tree)
  else if isGraphNodeType paramType then
    if isPointerType paramType then .ok .graph
    else .error (.compileError (text "Go graph node parameters must be pointers"))
  else
    match byteDecoders.lookup (Go.normalizeType paramType) with
    | some decoder => .ok (.bytes decoder)
    | none => .ok .other

/-- A parameter and how it is decoded. -/
structure Bound where
  name : Text
  type : Text
  shape : Shape
  deriving DecidableEq

def bound (param : Text × Text) : Except PyExc Bound :=
  (shapeOf param.2).map fun shape => ⟨param.1, param.2, shape⟩

/-- How the language reads a type: the text in pieces, each of them with whether it is a
name that is looked up. -/
structure TypeSyntax where
  pieces : Text → List (Text × Bool)
  whole : ∀ type, (pieces type).flatMap Prod.fst = type

namespace TypeSyntax

def read (g : TypeSyntax) (type : Text) : Expr :=
  (g.pieces type).map fun p => if p.2 then .free p.1 else .plain p.1

/-- The names that a type uses. -/
def mentions (g : TypeSyntax) (type : Text) : List Text :=
  ((g.pieces type).filter Prod.snd).map Prod.fst

end TypeSyntax

def boolText (b : Bool) : Text := if b then text "true" else text "false"

/-- `lookup`, the call of `pickArg`. -/
def pickArg (skipPos : Bool) (idx : ℕ) (x : Text) : Expr :=
  [.free (text "pickArg"), .plain (text "("), .var .input, .plain (text ", "), .var .keys,
    .plain (text ", \"" ++ x ++ text "\", " ++ text (toString idx) ++ text ", "),
    .free (boolText skipPos), .plain (text ")")]

/-- `return nil, fmt.Errorf("...` -/
def failing (message : Text) : Expr :=
  [.plain (text "return "), .free (text "nil"), .plain (text ", "), .free (text "fmt"),
    .plain (text ".Errorf(\"" ++ message)]

def notNil (v : Var) : Expr := [.var v, .plain (text " != "), .free (text "nil")]

/-- The raw value of a parameter. -/
def fetch (lookup : Expr) (x : Text) : Body :=
  [.define [.raw x, .ok] lookup,
    .guard [.plain (text "!"), .var .ok]
      (failing (text "missing parameter: " ++ x ++ text "\")"))]

/-- `return nil, fmt.Errorf("invalid parameter ...: %w", err)` -/
def invalid (x : Text) (error : Var) : Expr :=
  failing (text "invalid parameter " ++ x ++ text ": %w\", ") ++ [.var error, .plain (text ")")]

/-- A value is decoded into a variable that has been declared. -/
def unmarshal (source target : Var) (x : Text) : Body :=
  .branch [.failure]
    [.free (text "json"), .plain (text ".Unmarshal("), .var source, .plain (text ", &"),
      .var target, .plain (text ")")] (notNil .failure) ::
    [.run (invalid x .failure)] ++ [.close (text "\x7d")]

/-- The position at which a list closes, for the parameter that it belongs to. -/
def position (x : Text) : Body :=
  [.define [.pos x] [.plain (text "-1")]] ++
    (.branch [.rawPos x, .posOk] [.var .input, .plain (text "[\"pos\"]")] [.var .posOk] ::
      unmarshal (.rawPos x) (.pos x) (text "pos") ++ [.close (text "\x7d")])

def built (builder : Text) (args : List Var) : Expr :=
  [.free builder, .plain (text "(")] ++ (args.map .var).intersperse (.plain (text ", ")) ++
    [.plain (text ")")]

/-- A node that is not a pointer is copied where there is one. -/
def copied (x nodeType : Text) : Body :=
  [.declare (.param x) [.free nodeType]] ++
    (.nested ([.plain (text "if ")] ++ notNil (.tmp x)) ::
      [.run [.var (.param x), .plain (text " = *"), .var (.tmp x)]] ++ [.close (text "\x7d")])

def listNode : Text := text "ListNode"

def treeNode : Text := text "TreeNode"

/-- The lines of one parameter. -/
def bindingLines (g : TypeSyntax) (skipPos : Bool) (idx : ℕ) (b : Bound) : Body :=
  let x := b.name
  fetch (pickArg skipPos idx x) x ++
    (match b.shape with
    | .listPointer =>
        [.declare (.arr x) [.plain (text "[]"), .free (text "int")]] ++
          unmarshal (.raw x) (.arr x) x ++ position x ++
          [.define [.param x] (built (text "buildLinkedList") [.arr x, .pos x])]
    | .list =>
        [.declare (.arr x) [.plain (text "[]"), .free (text "int")]] ++
          unmarshal (.raw x) (.arr x) x ++ position x ++
          [.define [.tmp x] (built (text "buildLinkedList") [.arr x, .pos x])] ++
          copied x listNode
    | .treePointer =>
        [.declare (.arr x) [.plain (text "[]interface\x7b\x7d")]] ++
          unmarshal (.raw x) (.arr x) x ++ [.define [.param x] (built (text "buildTree") [.arr x])]
    | .tree =>
        [.declare (.arr x) [.plain (text "[]interface\x7b\x7d")]] ++
          unmarshal (.raw x) (.arr x) x ++
          [.define [.tmp x] (built (text "buildTree") [.arr x])] ++ copied x treeNode
    | .graph =>
        [.declare (.adj x) [.plain (text "[][]"), .free (text "int")]] ++
          unmarshal (.raw x) (.adj x) x ++
          [.define [.param x] (built (text "buildGraph") [.adj x])]
    | .bytes decoder =>
        [.define [.param x, .errOf x] (built decoder.name [.raw x])] ++
          (.nested ([.plain (text "if ")] ++ notNil (.errOf x)) ::
            [.run (invalid x (.errOf x))] ++ [.close (text "\x7d")])
    | .other =>
        [.declare (.param x) (g.read (Go.normalizeType b.type))] ++
          unmarshal (.raw x) (.param x) x) ++
    [.blank]

/-- The first argument, for a function that returns nothing. -/
def mutated : List Text → Expr
  | [] => []
  | first :: _ => .plain (text ", \"mutated\": ") :: built (text "autoConvertOutput") [.param first]

/-- `return map[string]interface{}{"result": ...}, nil` -/
def answer (e : Expr) : Expr :=
  [.plain (text "return map["), .free (text "string"),
    .plain (text "]interface\x7b\x7d\x7b\"result\": ")] ++ e ++
    [.plain (text "\x7d, "), .free (text "nil")]

/-- `_build_call_lines` -/
def callLines (functionName : Text) (returns params : List Text) : Except PyExc Body :=
  let call := built functionName (params.map .param)
  match returns with
  | [] => .ok [.run call, .run (answer (.free (text "nil") :: mutated params))]
  | [_] =>
      .ok [.define [.result] call, .run (answer (built (text "autoConvertOutput") [.result]))]
  | _ => .error (.compileError (text "Multiple Go return values are not supported"))

/-- `err = fmt.Errorf("panic: %v", r)` -/
def recovery : Expr :=
  [.var .err, .plain (text " = "), .free (text "fmt"), .plain (text ".Errorf(\"panic: %v\", "),
    .var .recovered, .plain (text ")")]

/-- The lines of the template before the bindings. -/
def deferLines : Body :=
  .nested [.plain (text "defer func()")] ::
    (.branch [.recovered] [.free (text "recover"), .plain (text "()")] (notNil .recovered) ::
      [.run recovery] ++ [.close (text "\x7d")]) ++ [.close (text "\x7d()")]

def skipsPos (params : List (Text × Text)) : Bool := params.any fun p => isListnodeType p.2

/-- `param_lines` -/
def paramLines (g : TypeSyntax) (skipPos : Bool) (bounds : List Bound) : Body :=
  bounds.zipIdx.flatMap fun p => bindingLines g skipPos p.2 p.1

def printed (e : Expr) : Text :=
  e.flatMap fun
    | .plain t => t
    | .free n => n
    | .var v => v.name

def names (vars : List Var) : Text := (text ", ").intercalate (vars.map Var.name)

def printedLine : Line Var Text → Text
  | .define vars value => names vars ++ text " := " ++ printed value
  | .declare v type => text "var " ++ v.name ++ text " " ++ printed type
  | .run e => printed e
  | .guard test body => text "if " ++ printed test ++ text " \x7b " ++ printed body ++ text " \x7d"
  | .branch vars value test =>
      text "if " ++ names vars ++ text " := " ++ printed value ++ text "; " ++ printed test ++
        text " \x7b"
  | .nested head => printed head ++ text " \x7b"
  | .close foot => foot
  | .blank => []

/-- The lines with their indentation, at a depth of blocks. -/
def printedLines : ℕ → Body → List Text
  | _, [] => []
  | depth, .close foot :: lines =>
      (List.replicate (4 * (depth - 1)) (ch ' ') ++ foot) :: printedLines (depth - 1) lines
  | depth, .blank :: lines => [] :: printedLines depth lines
  | depth, .branch vars value test :: lines =>
      (List.replicate (4 * depth) (ch ' ') ++ printedLine (.branch vars value test)) ::
        printedLines (depth + 1) lines
  | depth, .nested head :: lines =>
      (List.replicate (4 * depth) (ch ' ') ++ printedLine (.nested head)) ::
        printedLines (depth + 1) lines
  | depth, line :: lines =>
      (List.replicate (4 * depth) (ch ' ') ++ printedLine line) :: printedLines depth lines

/-- The body of `execute` that `_generate_wrapper` makes for a signature. -/
def executeBody (g : TypeSyntax) (functionName : Text) (sig : List (Text × Text) × List Text) :
    Except PyExc Body := do
  let bounds ← sig.1.mapM bound
  let call ← callLines functionName sig.2 (sig.1.map Prod.fst)
  .ok (deferLines ++ paramLines g (skipsPos sig.1) bounds ++ call)

/-- `_generate_wrapper`, as far as the body of `execute` goes. -/
def generateBody (g : TypeSyntax) (functionName code : Text) : Except PyExc Body := do
  executeBody g functionName (← Go.signature functionName code)

abbrev Steps := List (Step Var Text)

def fetchSteps (skipPos : Bool) (x : Text) : Steps :=
  [.free (text "pickArg"), .see .input, .see .keys, .free (boolText skipPos), .intro (.raw x),
    .again .ok, .see .ok, .free (text "nil"), .free (text "fmt")]

def unmarshalUses (source target : Var) : Expr :=
  [.free (text "json"), .var source, .var target, .free (text "nil"), .free (text "fmt")]

def positionSteps (x : Text) : Steps :=
  [.intro (.pos x), .see .input, .free (text "json"), .see (.pos x), .free (text "nil"),
    .free (text "fmt")]

/-- What is done up to the declaration of the parameter itself. -/
def earlySteps (g : TypeSyntax) (b : Bound) : Steps :=
  let x := b.name
  match b.shape with
  | .listPointer =>
      [.free (text "int"), .intro (.arr x)] ++ uses (unmarshalUses (.raw x) (.arr x)) ++
        positionSteps x ++ [.free (text "buildLinkedList"), .see (.arr x), .see (.pos x)]
  | .list =>
      [.free (text "int"), .intro (.arr x)] ++ uses (unmarshalUses (.raw x) (.arr x)) ++
        positionSteps x ++ [.free (text "buildLinkedList"), .see (.arr x), .see (.pos x),
          .intro (.tmp x), .free listNode]
  | .treePointer =>
      [.intro (.arr x)] ++ uses (unmarshalUses (.raw x) (.arr x)) ++
        [.free (text "buildTree"), .see (.arr x)]
  | .tree =>
      [.intro (.arr x)] ++ uses (unmarshalUses (.raw x) (.arr x)) ++
        [.free (text "buildTree"), .see (.arr x), .intro (.tmp x), .free treeNode]
  | .graph =>
      [.free (text "int"), .intro (.adj x)] ++ uses (unmarshalUses (.raw x) (.adj x)) ++
        [.free (text "buildGraph"), .see (.adj x)]
  | .bytes decoder => [.free decoder.name, .see (.raw x)]
  | .other => uses (g.read (Go.normalizeType b.type))

/-- What is done after it. -/
def lateSteps (b : Bound) : Steps :=
  let x := b.name
  match b.shape with
  | .listPointer => []
  | .list => [.see (.tmp x), .free (text "nil"), .see (.param x), .see (.tmp x)]
  | .treePointer => []
  | .tree => [.see (.tmp x), .free (text "nil"), .see (.param x), .see (.tmp x)]
  | .graph => []
  | .bytes _ =>
      [.again (.errOf x), .see (.errOf x), .free (text "nil"), .free (text "nil"),
        .free (text "fmt"), .see (.errOf x)]
  | .other => uses (unmarshalUses (.raw x) (.param x))

def bindingSteps (g : TypeSyntax) (skipPos : Bool) (b : Bound) : Steps :=
  fetchSteps skipPos b.name ++ earlySteps g b ++ .intro (.param b.name) :: lateSteps b

theorem ne_of_underscore {a n : Text} (ha : ch '_' ∈ a) (hn : ch '_' ∉ n) : a ≠ n :=
  fun h => hn (h ▸ ha)

theorem ne_blankName {n : Text} (h : 1 < n.length) : n ≠ blankName := by
  rintro rfl
  exact absurd h (by decide)

theorem underscore_rawPos (x : Text) : ch '_' ∈ (Var.rawPos x).name :=
  List.mem_append_left x (by decide)

theorem underscore_pos (x : Text) : ch '_' ∈ (Var.pos x).name :=
  List.mem_append_left x (by decide)

theorem linear_fetch (skipPos : Bool) (idx : ℕ) (x : Text) :
    Linear Var.name blankName (fetch (pickArg skipPos idx x) x) (fetchSteps skipPos x) :=
  (Linear.define_again (by simp) _).append (Interior.guard _ _).linear

theorem interior_unmarshal (source target : Var) (x : Text) :
    Interior Var.name blankName (unmarshal source target x) (unmarshalUses source target) := by
  have houtside : outside [.failure] (notNil .failure ++ invalid x .failure) =
      [.plain (text " != "), .free (text "nil")] ++
        failing (text "invalid parameter " ++ x ++ text ": %w\", ") ++ [.plain (text ")")] := by
    simp [outside, notNil, invalid, failing]
  have hvars : Named Var.name blankName [.failure] := ⟨by simp, by simp; decide⟩
  have hinner : Uncaptured Var.name [.failure] (notNil .failure ++ invalid x .failure) := by
    rw [Uncaptured, houtside]
    simp only [failing, List.cons_append, List.nil_append, List.forall_mem_cons, Piece.name?]
    decide
  have h := (Interior.run (invalid x .failure)).branch (by simp) (by simp) hvars hinner
    [.free (text "json"), .plain (text ".Unmarshal("), .var source, .plain (text ", &"),
      .var target, .plain (text ")")] (text "\x7d")
  refine ⟨h.scopes, fun scopes => (h.hygienic scopes).trans ?_⟩
  rw [List.reverse_singleton, houtside]
  simp [unmarshalUses, failing, Meant]

theorem interior_position (x : Text) :
    Interior Var.name blankName
      (.branch [.rawPos x, .posOk] [.var .input, .plain (text "[\"pos\"]")] [.var .posOk] ::
        unmarshal (.rawPos x) (.pos x) (text "pos") ++ [.close (text "\x7d")])
      [.var .input, .free (text "json"), .var (.pos x), .free (text "nil"), .free (text "fmt")] := by
  have houtside : outside [.posOk, .rawPos x]
      ([.var .posOk] ++ unmarshalUses (.rawPos x) (.pos x)) =
      [.free (text "json"), .var (.pos x), .free (text "nil"), .free (text "fmt")] := by
    simp [outside, unmarshalUses]
  have hraw : ∀ n, ch '_' ∉ n → n ≠ (Var.rawPos x).name :=
    fun n hn => (ne_of_underscore (underscore_rawPos x) hn).symm
  have hpos : (Var.pos x).name ≠ (Var.rawPos x).name := by
    intro h
    have hhead : some (ch 'p') = some (ch 'r') := congrArg List.head? h
    exact absurd hhead (by decide)
  have hok : (Var.rawPos x).name ≠ Var.posOk.name := (hraw _ (by decide)).symm
  have hvars : Named Var.name blankName [.rawPos x, .posOk] := by
    refine ⟨by simp [hok, hok.symm], List.forall_mem_cons.mpr ⟨ne_blankName ?_, ?_⟩⟩
    · simp [Var.name, text]
    · exact List.forall_mem_singleton.mpr (by decide)
  have hinner : Uncaptured Var.name [.posOk, .rawPos x]
      ([.var .posOk] ++ unmarshalUses (.rawPos x) (.pos x)) := by
    have hfree : ∀ n, ch '_' ∉ n → n ≠ Var.posOk.name →
        ∀ v ∈ [Var.posOk, .rawPos x], some n ≠ some v.name := by
      intro n hn hne
      simpa [hne] using hraw n hn
    have hseen : ∀ v ∈ [Var.posOk, .rawPos x], some (Var.pos x).name ≠ some v.name := by
      simpa [hpos] using ne_of_underscore (underscore_pos x) (by decide)
    rw [Uncaptured, houtside]
    refine List.forall_mem_cons.mpr ⟨hfree _ (by decide) (by decide), ?_⟩
    refine List.forall_mem_cons.mpr ⟨hseen, ?_⟩
    refine List.forall_mem_cons.mpr ⟨hfree _ (by decide) (by decide), ?_⟩
    exact List.forall_mem_singleton.mpr (hfree _ (by decide) (by decide))
  have h := (interior_unmarshal (.rawPos x) (.pos x) (text "pos")).branch (by simp) (by simp) hvars hinner
    [.var .input, .plain (text "[\"pos\"]")] (text "\x7d")
  refine ⟨h.scopes, fun scopes => (h.hygienic scopes).trans ?_⟩
  have hreverse : [Var.rawPos x, .posOk].reverse = [.posOk, .rawPos x] := rfl
  rw [hreverse, houtside]
  simp [Meant]

theorem linear_position (x : Text) :
    Linear Var.name blankName (position x) (positionSteps x) :=
  (Linear.define (Var.pos x) [.plain (text "-1")]).append (interior_position x).linear

theorem linear_copied (x nodeType : Text) :
    Linear Var.name blankName (copied x nodeType)
      [.free nodeType, .intro (.param x), .see (.tmp x), .free (text "nil"), .see (.param x),
        .see (.tmp x)] :=
  (Linear.declare (Var.param x) [.free nodeType]).append ((Interior.run
    [.var (Var.param x), .plain (text " = *"), .var (Var.tmp x)]).nested _ _).linear

/-- The lines of one parameter, shape by shape. -/
theorem linear_binding (g : TypeSyntax) (skipPos : Bool) (idx : ℕ) (b : Bound) :
    Linear Var.name blankName (bindingLines g skipPos idx b) (bindingSteps g skipPos b) := by
  have hunmarshal : ∀ source target, Linear Var.name blankName (unmarshal source target b.name)
      (uses (unmarshalUses source target)) :=
    fun source target => (interior_unmarshal source target b.name).linear
  have hshape : ∀ lines, Linear Var.name blankName lines
      (earlySteps g b ++ .intro (.param b.name) :: lateSteps b) → Linear Var.name blankName
        (fetch (pickArg skipPos idx b.name) b.name ++ lines ++ [.blank])
        (bindingSteps g skipPos b) := by
    intro lines h
    have hall := ((linear_fetch skipPos idx b.name).append h).append Interior.empty.linear
    rwa [show uses ([] : Expr) = [] from rfl, List.append_nil, ← List.append_assoc] at hall
  obtain ⟨x, type, shape⟩ := b
  cases shape with
  | listPointer =>
    exact hshape _ ((((Linear.declare (.arr x) _).append (hunmarshal _ _)).append
      (linear_position x)).append (Linear.define (.param x) _))
  | list =>
    exact hshape _ (((((Linear.declare (.arr x) _).append (hunmarshal _ _)).append
      (linear_position x)).append (Linear.define (.tmp x) _)).append (linear_copied x listNode))
  | treePointer =>
    exact hshape _ (((Linear.declare (.arr x) _).append (hunmarshal _ _)).append
      (Linear.define (.param x) _))
  | tree =>
    exact hshape _ ((((Linear.declare (.arr x) _).append (hunmarshal _ _)).append
      (Linear.define (.tmp x) _)).append (linear_copied x treeNode))
  | graph =>
    exact hshape _ (((Linear.declare (.adj x) _).append (hunmarshal _ _)).append
      (Linear.define (.param x) _))
  | bytes decoder =>
    exact hshape _ ((Linear.define_again (by simp) _).append ((Interior.run _).nested _ _).linear)
  | other =>
    have h := (Linear.declare (.param x) (g.read (Go.normalizeType type))).append
      (hunmarshal (.raw x) (.param x))
    rw [List.append_assoc] at h
    exact hshape _ h

/-- What is done with the result. -/
def returnSteps (returns params : List Text) : Steps :=
  match returns, params with
  | [], [] => [.free (text "string"), .free (text "nil"), .free (text "nil")]
  | [], first :: _ =>
      [.free (text "string"), .free (text "nil"), .free (text "autoConvertOutput"),
        .see (.param first), .free (text "nil")]
  | _ :: _, _ =>
      [.intro .result, .free (text "string"), .free (text "autoConvertOutput"), .see .result,
        .free (text "nil")]

def callSteps (functionName : Text) (returns params : List Text) : Steps :=
  .free functionName :: params.map (fun x => .see (.param x)) ++ returnSteps returns params

theorem uses_built (builder : Text) (args : List Var) :
    uses (built builder args) = .free builder :: args.map .see := by
  have hargs : ∀ args : List Var,
      uses ((args.map .var).intersperse (.plain (text ", "))) = (args.map .see : Steps) := by
    intro args
    induction args with
    | nil => rfl
    | cons v args ih =>
      cases args with
      | nil => rfl
      | cons w args =>
        rw [List.map_cons, List.map_cons, List.intersperse_cons_cons]
        exact congrArg (Step.see v :: ·) ih
  have happend : ∀ e e' : Expr, uses (e ++ e') = uses e ++ uses e' := fun e e' =>
    List.flatMap_append
  rw [built, happend, happend, hargs]
  exact List.append_nil _

theorem linear_call {functionName : Text} {returns params : List Text} {lines : Body}
    (h : callLines functionName returns params = .ok lines) :
    Linear Var.name blankName lines (callSteps functionName returns params) := by
  have hcall : uses (built functionName (params.map .param)) =
      .free functionName :: params.map fun x => .see (.param x) := by
    rw [uses_built, List.map_map]
    rfl
  match returns with
  | [] =>
    obtain rfl := Except.ok.inj h
    have hlines : Linear Var.name blankName _ _ :=
      (Interior.run (built functionName (params.map .param))).linear.append
        (Interior.run (answer (.free (text "nil") :: mutated params))).linear
    rw [hcall] at hlines
    cases params with
    | nil => exact hlines
    | cons first params => exact hlines
  | [_] =>
    obtain rfl := Except.ok.inj h
    have hlines : Linear Var.name blankName _ _ :=
      (Linear.define Var.result (built functionName (params.map .param))).append
        (Interior.run (answer (built (text "autoConvertOutput") [.result]))).linear
    rw [hcall, List.append_assoc] at hlines
    exact hlines
  | _ :: _ :: _ => cases h

theorem interior_defer :
    Interior Var.name blankName deferLines
      [.free (text "recover"), .free (text "nil"), .var .err, .free (text "fmt")] := by
  have houtside : outside [.recovered] (notNil .recovered ++ recovery) =
      [.plain (text " != "), .free (text "nil"), .var .err, .plain (text " = "),
        .free (text "fmt"), .plain (text ".Errorf(\"panic: %v\", "), .plain (text ")")] := by
    simp [outside, notNil, recovery]
  have hvars : Named Var.name blankName [.recovered] := ⟨by simp, by simp; decide⟩
  have hinner : Uncaptured Var.name [.recovered] (notNil .recovered ++ recovery) := by
    rw [Uncaptured, houtside]
    decide
  have h := ((Interior.run recovery).branch (by simp) (by simp) hvars hinner
    [.free (text "recover"), .plain (text "()")] (text "\x7d")).nested
      [.plain (text "defer func()")] (text "\x7d()")
  refine ⟨h.scopes, fun scopes => (h.hygienic scopes).trans ?_⟩
  rw [List.reverse_singleton, houtside]
  simp [Meant]

theorem linear_paramLines (g : TypeSyntax) (skipPos : Bool) (bounds : List Bound) :
    Linear Var.name blankName (paramLines g skipPos bounds)
      (bounds.flatMap (bindingSteps g skipPos)) := by
  have hfrom : ∀ n, Linear Var.name blankName
      ((bounds.zipIdx n).flatMap fun p => bindingLines g skipPos p.2 p.1)
      (bounds.flatMap (bindingSteps g skipPos)) := by
    induction bounds with
    | nil => exact fun _ => .nil
    | cons b bounds ih => exact fun n => (linear_binding g skipPos n b).append (ih (n + 1))
  exact hfrom 0

end ExecutionEngine.GoBindings
