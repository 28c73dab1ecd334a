import ExecutionEngine.ArgumentLookup
import ExecutionEngine.CSignature

/-!
# The wrapper of a C function, after `languages/c.py`

For each parameter of the function the generator writes declarations that fill it: from
the test case, from the size of the last array before it, or with the address of an
output. What it writes is kept here as a `Binding` and not as C++ text. The conversion
of a JSON value by the C++ library is a parameter.
-/
namespace ExecutionEngine.CWrapper
open Pipeline TextScan CSignature
open ArgumentBinding hiding Signature

section
variable (w : WordClass)

/-- `re.sub(r"\bconst\b", "", s)`, with the characters still to be skipped. -/
def dropConst : ℕ → Option CodePoint → Text → Text
  | _, _, [] => []
  | skip + 1, _, c :: rest => dropConst skip (some c) rest
  | 0, before, c :: rest =>
    let follows := (after (text "const") (c :: rest)).any fun left =>
      w.boundary (some (ch 't')) left.head?
    if w.boundary before (some c) && follows then dropConst 4 (some c) rest
    else c :: dropConst 0 (some c) rest

/-- `re.sub(r"\s*\*", "*", s)` -/
def closeStars : Text → Text
  | [] => []
  | c :: rest =>
    if isSpace c && decide ((rest.dropWhile isSpace).head? = some (ch '*')) then closeStars rest
    else c :: closeStars rest

/-- `_normalize` -/
def normalize (typeText : Text) : Text :=
  closeStars (unwords (ch ' ') (words isSpace (dropConst w 0 none typeText)))

end

/-- `_SCALAR_TYPES` -/
def scalarTypes : List (Text × Text) :=
  [("int", "int"), ("long", "long"), ("long long", "long long"), ("short", "short"),
    ("unsigned", "unsigned"), ("unsigned int", "unsigned int"),
    ("unsigned long", "unsigned long"), ("unsigned long long", "unsigned long long"),
    ("double", "double"), ("float", "float"), ("bool", "bool"), ("_Bool", "bool"),
    ("char", "char"), ("size_t", "size_t"), ("int32_t", "int32_t"), ("int64_t", "int64_t"),
    ("uint32_t", "uint32_t"), ("uint64_t", "uint64_t")].map fun p => (text p.1, text p.2)

/-- `_ARRAY_TYPES` -/
def arrayTypes : List (Text × Text) :=
  ["int", "long", "long long", "double", "float", "unsigned int", "int64_t"].map fun t =>
    (text t ++ text "*", text t)

def lookupType (table : List (Text × Text)) (t : Text) : Option Text :=
  (table.find? fun p => decide (p.1 = t)).map Prod.snd

/-- A letter of a pattern with `re.IGNORECASE`. Two letters beyond ASCII have `i` and one
has `s` as their lower case or are taken for it. -/
def sameLetter (letter : Char) (c : CodePoint) : Bool :=
  decide (c = ch letter) || decide (c = ch letter.toUpper) ||
    (decide (letter = 'i') && (decide (c.val = 0x130) || decide (c.val = 0x131))) ||
    (decide (letter = 's') && decide (c.val = 0x17F))

/-- The word at the beginning of a text, in any case, and what follows it. -/
def afterIgnoringCase : List Char → Text → Option Text
  | [], s => some s
  | _ :: _, [] => none
  | letter :: letters, c :: s => if sameLetter letter c then afterIgnoringCase letters s else none

/-- `re.search` for a pattern, given by where it matches. -/
def search (matchAt : Text → Bool) (s : Text) : Bool := s.tails.any matchAt

/-- `.*` and a pattern. -/
def anywhere (matchAt : Text → Bool) : Text → Bool
  | [] => matchAt []
  | c :: s => matchAt (c :: s) || (decide (c ≠ ch '\n') && anywhere matchAt s)

def wordAt (word : String) (s : Text) : Bool := (afterIgnoringCase word.toList s).isSome

/-- `re.search(r"return.*size", name, re.IGNORECASE)` -/
def namesReturnSize (name : Text) : Bool :=
  search (fun s => (afterIgnoringCase "return".toList s).any (anywhere (wordAt "size"))) name

/-- `re.search(r"return.*col", name, re.IGNORECASE)` -/
def namesReturnCols (name : Text) : Bool :=
  search (fun s => (afterIgnoringCase "return".toList s).any (anywhere (wordAt "col"))) name

/-- `re.search(r"col(umn)?size", name, re.IGNORECASE)` -/
def namesColSize (name : Text) : Bool :=
  search (fun s => wordAt "columnsize" s || wordAt "colsize" s) name

/-- `re.search(r"size$", name, re.IGNORECASE)` -/
def namesSize (name : Text) : Bool :=
  search (fun s => (afterIgnoringCase "size".toList s).any fun rest =>
    decide (rest = [] ∨ rest = [ch '\n'])) name

/-- How `_bind_input` declares a parameter from JSON. -/
inductive InputKind
  | scalar (ctype : Text)
  | array (elem : Text)
  | chars
  | charRows
  | intRows
  | listNode
  | treeNode
  deriving DecidableEq, Repr

/-- The value of a parameter is `_in.arg(name, jsonIndex)`, converted. -/
structure Source where
  kind : InputKind
  name : Text
  jsonIndex : ℕ
  deriving DecidableEq, Repr

/-- `_bind_input` -/
def bindInput (t : Text) : Option InputKind :=
  match lookupType scalarTypes t with
  | some ctype => some (.scalar ctype)
  | none =>
    match lookupType arrayTypes t with
    | some elem => some (.array elem)
    | none =>
      if t = text "char*" then some .chars
      else if t = text "char**" then some .charRows
      else if t = text "int**" then some .intRows
      else if t = text "struct ListNode*" ∨ t = text "ListNode*" then some .listNode
      else if t = text "struct TreeNode*" ∨ t = text "TreeNode*" then some .treeNode
      else none

/-- `info.get("size")` is there. -/
def InputKind.sized : InputKind → Bool
  | .array _ | .chars | .charRows | .intRows => true
  | _ => false

/-- `info.get("cols")` is there. -/
def InputKind.cols : InputKind → Bool
  | .charRows | .intRows => true
  | _ => false

/-- What a parameter is filled with. -/
inductive Binding
  | returnSize
  | returnCols
  | colSizes (array : Source)
  | arraySize (ctype : Text) (array : Source)
  | input (source : Source)
  deriving DecidableEq, Repr

/-- The variables of the loop of `_generate_wrapper`. -/
structure Loop where
  sized : Option Source
  firstInput : Option Source
  hasReturnSize : Bool
  hasReturnCols : Bool
  jsonIndex : ℕ

section
variable (w : WordClass)

/-- The loop body. -/
def bindParam (loop : Loop) (param : Param) : Except PyExc (Binding × Loop) :=
  let t := normalize w param.type
  let name := param.name
  if t = text "int*" ∧ namesReturnSize name then
    .ok (.returnSize, { loop with hasReturnSize := true })
  else if t = text "int**" ∧ namesReturnCols name then
    .ok (.returnCols, { loop with hasReturnCols := true })
  else
    let inputBinding : Except PyExc (Binding × Loop) :=
      match bindInput t with
      | none => .error (.compileError
          (text "Unsupported C parameter type: " ++ param.type ++ text " " ++ name))
      | some kind =>
        let source : Source := ⟨kind, name, loop.jsonIndex⟩
        .ok (.input source, { loop with
          sized := if kind.sized then some source else loop.sized
          firstInput := loop.firstInput.or (some source)
          jsonIndex := loop.jsonIndex + 1 })
    match loop.sized with
    | none => inputBinding
    | some array =>
      if t = text "int*" ∧ namesColSize name ∧ array.kind.cols then
        .ok (.colSizes array, loop)
      else if (t = text "int" ∨ t = text "size_t") ∧ namesSize name then
        .ok (.arraySize t array, loop)
      else inputBinding

/-- A parameter with what it is filled with. -/
abbrev Slot := Param × Binding

def bindParams (loop : Loop) : List Param → Except PyExc (List Slot × Loop)
  | [] => .ok ([], loop)
  | param :: params => do
    let (binding, loop) ← bindParam w loop param
    let (slots, loop) ← bindParams loop params
    .ok ((param, binding) :: slots, loop)

/-- How the result is written, after `_call_and_serialize`. -/
inductive Serialization
  | inPlace (mutated : Option Source)
  | scalar (ctype : Text)
  | chars
  | array (elem : Text) (returnSize : Bool) (sizeOf : Option Source)
  | charRows
  | intRows
  | node
  deriving DecidableEq, Repr

local instance lawfulReturnType : LawfulBEq Text := inferInstance

/-- `_call_and_serialize` -/
def callAndSerialize (returnType : Text) (loop : Loop) : Except PyExc Serialization :=
  if returnType = text "void" then
    .ok (.inPlace (loop.firstInput.filter fun s => match s.kind with
      | .scalar _ => false
      | _ => true))
  else
    match lookupType scalarTypes returnType, lookupType arrayTypes returnType with
    | some ctype, _ => .ok (.scalar ctype)
    | none, some elem =>
      .ok (.array elem loop.hasReturnSize (loop.firstInput.filter fun s => s.kind.sized))
    | none, none =>
      if returnType = text "char*" then .ok .chars
      else if returnType = text "char**" then
        if loop.hasReturnSize then .ok .charRows
        else .error (.compileError (text "char** return value needs an int* returnSize parameter"))
      else if returnType = text "int**" then
        if loop.hasReturnSize && loop.hasReturnCols then .ok .intRows
        else .error (.compileError
          (text "int** return value needs returnSize and returnColumnSizes parameters"))
      else if returnType ∈ ["struct ListNode*", "ListNode*", "struct TreeNode*",
          "TreeNode*"].map text then .ok .node
      else .error (.compileError (text "Unsupported C return type: " ++ returnType))

structure Wrapper where
  declaration : Text
  skipPos : Bool
  slots : List Slot
  serialization : Serialization
  deriving DecidableEq

/-- `_generate_wrapper` for the parsed signature. -/
def wrapperOf (functionName : Text) (sig : CSignature.Signature) :
    Except PyExc Wrapper := do
  let (slots, loop) ← bindParams w ⟨none, none, false, false, 0⟩ sig.params
  let serialization ← callAndSerialize (normalize w sig.returnType) loop
  let rawParams := if sig.rawParams = [] then text "void" else sig.rawParams
  .ok {
    declaration := sig.returnType ++ text " " ++ functionName ++ text "(" ++ rawParams ++ text ");"
    skipPos := sig.params.any fun p => PyStr.hasPart (text "ListNode") p.type
    slots := slots
    serialization := serialization }

/-- `_generate_wrapper` -/
def generateWrapper (code functionName : Text) : Except PyExc Wrapper := do
  wrapperOf w functionName (← parseSignature w code functionName)

end

/-- What the C++ library makes of a JSON value: the number that an `int` or a `size_t` is
read as, and the number of elements of an array-like argument. A list is no number. -/
structure Conversions where
  number : Text → Json → Option ℤ
  count : InputKind → Json → Option ℤ
  number_one : ∀ t, number t (.int 1) = some 1
  number_list : ∀ t, number t (.arr []) = none
  count_empty : ∀ kind, kind.sized = true → count kind (.arr []) = some 0

section
variable (conv : Conversions) (items : Items Json) (skipPos : Bool)

/-- The name of a parameter as a key of the test case. -/
def Source.key (source : Source) : PyStr := source.name

/-- `_in.arg(name, jsonIndex)` -/
def Source.json (source : Source) : Option Json :=
  inputArg (items.map Prod.fst) (values items) skipPos source.key source.jsonIndex

/-- The number that an `int` or `size_t` parameter receives. -/
def Binding.number (t : Text) : Binding → Option ℤ
  | .arraySize _ array => (array.json items skipPos).bind (conv.count array.kind)
  | .input source => (source.json items skipPos).bind (conv.number t)
  | _ => none

end

/-- The name of a parameter as a key of the test case. -/
def Param.key (param : Param) : PyStr := param.name

/-- The parameter is an input of the test case: it is read from it, or it is the size of an
array for which the test case has a key. The sizes of rows do not count. -/
def isInput (keys : List PyStr) (slot : Slot) : Bool :=
  match slot.2 with
  | .input _ => true
  | .arraySize _ _ => decide (Param.key slot.1 ∈ keys)
  | _ => false

/-- An `int` or `size_t` parameter. -/
def isInteger (w : WordClass) (param : Param) : Prop :=
  normalize w param.type = text "int" ∨ normalize w param.type = text "size_t"

/-- Every integer parameter with a key receives the value of the key, and every input that
has none receives the value at its rank among the inputs. -/
def BindsByName (w : WordClass) (conv : Conversions) (skipPos : Bool) (slots : List Slot)
    (items : Items Json) : Prop :=
  (∀ slot ∈ slots, isInteger w slot.1 → Param.key slot.1 ∈ items.map Prod.fst →
    slot.2.number conv items skipPos (normalize w slot.1.type) =
      (stored items (Param.key slot.1)).bind (conv.number (normalize w slot.1.type))) ∧
  ∀ (before rest : List Slot) (param : Param) (source : Source),
    slots = before ++ (param, .input source) :: rest → Param.key param ∉ items.map Prod.fst →
      source.json items skipPos =
        ((positional skipPos (items.map Prod.fst))[before.countP
          (isInput (items.map Prod.fst))]?).bind (stored items)

/-- The parameter is an array that the test case gives, in one of the forms that have a
size. -/
def isArray (w : WordClass) (param : Param) : Bool :=
  let t := normalize w param.type
  (bindInput t).any InputKind.sized && !(decide (t = text "int*") && namesReturnSize param.name) &&
    !(decide (t = text "int**") && namesReturnCols param.name)

/-- No integer parameter whose name ends in `size`, after an array, is a key of the test
case. -/
def SizesUnkeyed (w : WordClass) (params : List Param) (keys : List PyStr) : Prop :=
  ∀ (before rest : List Param) (param : Param), params = before ++ param :: rest →
    before.any (isArray w) = true → isInteger w param → namesSize param.name = true →
      Param.key param ∉ keys

section
variable {w : WordClass}

/-- What the loop body does, in cases. -/
inductive Step (w : WordClass) (loop : Loop) (param : Param) : Binding → Loop → Prop
  | returnSize (h : normalize w param.type = text "int*" ∧ namesReturnSize param.name = true) :
      Step w loop param .returnSize { loop with hasReturnSize := true }
  | returnCols (h : normalize w param.type = text "int**" ∧ namesReturnCols param.name = true) :
      Step w loop param .returnCols { loop with hasReturnCols := true }
  | colSizes {array : Source} (hsized : loop.sized = some array)
      (ht : normalize w param.type = text "int*" ∧ namesColSize param.name = true ∧
        array.kind.cols = true)
      (hreturn : namesReturnSize param.name = false) : Step w loop param (.colSizes array) loop
  | arraySize {array : Source} (hsized : loop.sized = some array) (ht : isInteger w param)
      (hname : namesSize param.name = true) :
      Step w loop param (.arraySize (normalize w param.type) array) loop
  | input {kind : InputKind} (hkind : bindInput (normalize w param.type) = some kind)
      (hsize : loop.sized ≠ none → isInteger w param → namesSize param.name = false)
      (hreturn : ¬ (normalize w param.type = text "int*" ∧ namesReturnSize param.name = true) ∧
        ¬ (normalize w param.type = text "int**" ∧ namesReturnCols param.name = true))
      (hcols : ∀ array, loop.sized = some array → ¬ (normalize w param.type = text "int*" ∧
        namesColSize param.name = true ∧ array.kind.cols = true)) :
      Step w loop param (.input ⟨kind, param.name, loop.jsonIndex⟩) { loop with
        sized := if kind.sized then some ⟨kind, param.name, loop.jsonIndex⟩ else loop.sized
        firstInput := loop.firstInput.or (some ⟨kind, param.name, loop.jsonIndex⟩)
        jsonIndex := loop.jsonIndex + 1 }

theorem step_of_bindParam {loop loop' : Loop} {param : Param} {binding : Binding}
    (h : bindParam w loop param = .ok (binding, loop')) : Step w loop param binding loop' := by
  unfold bindParam at h
  dsimp only at h
  by_cases hsize : normalize w param.type = text "int*" ∧ namesReturnSize param.name = true
  · rw [if_pos hsize] at h
    cases h
    exact .returnSize hsize
  rw [if_neg hsize] at h
  by_cases hcols : normalize w param.type = text "int**" ∧ namesReturnCols param.name = true
  · rw [if_pos hcols] at h
    cases h
    exact .returnCols hcols
  rw [if_neg hcols] at h
  cases hsized : loop.sized with
  | none =>
    rw [hsized] at h
    cases hkind : bindInput (normalize w param.type) with
    | none =>
      rw [hkind] at h
      cases h
    | some kind =>
      rw [hkind] at h
      cases h
      rw [← hsized]
      refine .input hkind (fun hne => absurd hsized hne) ⟨hsize, hcols⟩ fun array harray => ?_
      rw [hsized] at harray
      cases harray
  | some array =>
    rw [hsized] at h
    dsimp only at h
    split_ifs at h with hcol hname
    · cases h
      exact .colSizes hsized hcol (Bool.eq_false_iff.mpr fun hname => hsize ⟨hcol.1, hname⟩)
    · cases h
      exact .arraySize hsized hname.1 hname.2
    · cases hkind : bindInput (normalize w param.type) with
      | none =>
        rw [hkind] at h
        cases h
      | some kind =>
        rw [hkind] at h
        cases h
        rw [← hsized]
        refine .input hkind (fun _ ht => ?_) ⟨hsize, hcols⟩ fun array' harray => ?_
        · exact Bool.eq_false_iff.mpr fun hend => hname ⟨ht, hend⟩
        · rw [hsized] at harray
          cases harray
          exact hcol

theorem bindParams_cons {loop final : Loop} {param : Param} {params : List Param}
    {slots : List Slot} (h : bindParams w loop (param :: params) = .ok (slots, final)) :
    ∃ binding loop₁ rest, bindParam w loop param = .ok (binding, loop₁) ∧
      bindParams w loop₁ params = .ok (rest, final) ∧ slots = (param, binding) :: rest := by
  rw [bindParams] at h
  cases hb : bindParam w loop param with
  | error e =>
    rw [hb] at h
    cases h
  | ok r =>
    obtain ⟨binding, loop₁⟩ := r
    rw [hb] at h
    cases hr : bindParams w loop₁ params with
    | error e =>
      simp only [bind, Except.bind, hr] at h
      cases h
    | ok r' =>
      obtain ⟨rest, final'⟩ := r'
      simp only [bind, Except.bind, hr] at h
      cases h
      exact ⟨binding, loop₁, rest, rfl, hr, rfl⟩

theorem bindParams_params {loop final : Loop} {params : List Param} {slots : List Slot}
    (h : bindParams w loop params = .ok (slots, final)) : slots.map Prod.fst = params := by
  induction params generalizing loop slots with
  | nil =>
    cases h
    rfl
  | cons param params ih =>
    obtain ⟨binding, loop₁, rest, -, hrest, rfl⟩ := bindParams_cons h
    rw [List.map_cons, ih hrest]

/-- The state of the loop when it comes to a parameter. -/
theorem bindParams_at {loop final : Loop} {params : List Param} {before rest : List Slot}
    {param : Param} {binding : Binding}
    (h : bindParams w loop params = .ok (before ++ (param, binding) :: rest, final)) :
    ∃ loop₁ loop₂, bindParams w loop (before.map Prod.fst) = .ok (before, loop₁) ∧
      bindParam w loop₁ param = .ok (binding, loop₂) := by
  induction before generalizing loop params with
  | nil =>
    cases params with
    | nil => cases h
    | cons param' params =>
      obtain ⟨binding', loop₁, rest', hb, -, heq⟩ := bindParams_cons h
      obtain ⟨hslot, -⟩ := List.cons.inj heq
      cases hslot
      exact ⟨loop, loop₁, rfl, hb⟩
  | cons first before ih =>
    cases params with
    | nil => cases h
    | cons param' params =>
      obtain ⟨binding', loop₁, rest', hb, hrest, heq⟩ := bindParams_cons h
      obtain ⟨rfl, rfl⟩ := List.cons.inj heq
      obtain ⟨loop₂, loop₃, hbefore, hparam⟩ := ih hrest
      refine ⟨loop₂, loop₃, ?_, hparam⟩
      simp only [List.map_cons, bindParams, hb, hbefore, bind, Except.bind]

/-- The parameter is read from the test case. -/
def isRead (slot : Slot) : Bool :=
  match slot.2 with
  | .input _ => true
  | _ => false

theorem Step.jsonIndex {loop loop' : Loop} {param : Param} {binding : Binding}
    (h : Step w loop param binding loop') :
    loop'.jsonIndex = loop.jsonIndex + (isRead (param, binding)).toNat := by
  cases h <;> rfl

theorem Step.sized {loop loop' : Loop} {param : Param} {binding : Binding}
    (h : Step w loop param binding loop') :
    loop'.sized.isSome = (loop.sized.isSome || isArray w param) := by
  cases h with
  | returnSize h => simp [isArray, h]
  | returnCols h => simp [isArray, h]
  | colSizes hsized => simp [hsized]
  | arraySize hsized => simp [hsized]
  | @input kind hkind _ hreturn _ =>
    have harray : isArray w param = kind.sized := by
      have h₁ : (decide (normalize w param.type = text "int*") &&
          namesReturnSize param.name) = false := by simpa using hreturn.1
      have h₂ : (decide (normalize w param.type = text "int**") &&
          namesReturnCols param.name) = false := by simpa using hreturn.2
      simp only [isArray, hkind, h₁, h₂, Option.any_some, Bool.not_false, Bool.and_true]
    rw [harray]
    split_ifs with hs
    · simp [hs]
    · simp [hs]

/-- Arrays only are measured. -/
def Loop.Measures (loop : Loop) : Prop := ∀ array, loop.sized = some array → array.kind.sized = true

theorem Step.measures {loop loop' : Loop} {param : Param} {binding : Binding}
    (h : Step w loop param binding loop') (hm : loop.Measures) : loop'.Measures := by
  cases h with
  | input =>
    intro array harray
    dsimp only at harray
    split_ifs at harray with hs
    · obtain rfl := Option.some.inj harray
      exact hs
    · exact hm array harray
  | _ => exact hm

theorem bindParams_loop {loop final : Loop} {params : List Param} {slots : List Slot}
    (h : bindParams w loop params = .ok (slots, final)) (hm : loop.Measures) :
    final.jsonIndex = loop.jsonIndex + slots.countP isRead ∧
      final.sized.isSome = (loop.sized.isSome || params.any (isArray w)) ∧ final.Measures := by
  induction params generalizing loop slots with
  | nil =>
    cases h
    exact ⟨rfl, by simp, hm⟩
  | cons param params ih =>
    obtain ⟨binding, loop₁, rest, hb, hrest, rfl⟩ := bindParams_cons h
    have hstep := step_of_bindParam hb
    obtain ⟨hindex, hsized, hmeasures⟩ := ih hrest (hstep.measures hm)
    refine ⟨?_, ?_, hmeasures⟩
    · rw [hindex, hstep.jsonIndex]
      cases hr : isRead (param, binding)
      · simp [hr]
      · simp [hr]
        omega
    · rw [hsized, hstep.sized, List.any_cons, Bool.or_assoc]

theorem isInteger_ne {param : Param} (h : isInteger w param) :
    normalize w param.type ≠ text "int*" ∧ normalize w param.type ≠ text "int**" := by
  rcases h with h | h <;> rw [h] <;> decide

section Json
variable {items : Items Json} (hkeys : (items.map Prod.fst).Nodup) (skipPos : Bool)
include hkeys

theorem json_named {source : Source} (h : source.key ∈ items.map Prod.fst) :
    source.json items skipPos = stored items source.key := by
  have hjson := lookup_eq hkeys skipPos source.key source.jsonIndex .inputArg
  rwa [if_pos h] at hjson

theorem json_positioned {source : Source} (h : source.key ∉ items.map Prod.fst) :
    source.json items skipPos =
      ((positional skipPos (items.map Prod.fst))[source.jsonIndex]?).bind (stored items) := by
  have hjson := lookup_eq hkeys skipPos source.key source.jsonIndex .inputArg
  rwa [if_neg h] at hjson

end Json

/-- A size is filled in only after an array. -/
theorem array_before {loop : Loop} {before : List Slot} {params : List Param}
    (h : bindParams w ⟨none, none, false, false, 0⟩ params = .ok (before, loop)) :
    loop.sized.isSome = params.any (isArray w) ∧ loop.jsonIndex = before.countP isRead ∧
      loop.Measures := by
  obtain ⟨hindex, hsized, hmeasures⟩ := bindParams_loop h (fun _ h => by cases h)
  exact ⟨by simpa using hsized, by simpa using hindex, hmeasures⟩

end

section
variable {w : WordClass} {params : List Param} {slots : List Slot} {final : Loop}
  (hslots : bindParams w ⟨none, none, false, false, 0⟩ params = .ok (slots, final))
include hslots

/-- Where no size is a key, none that is filled in has its value in the test case. -/
theorem not_mem_of_arraySize {keys : List PyStr} (h : SizesUnkeyed w params keys)
    {before rest : List Slot} {param : Param} {t : Text} {array : Source}
    (heq : slots = before ++ (param, .arraySize t array) :: rest) : Param.key param ∉ keys := by
  subst heq
  obtain ⟨loop₁, loop₂, hbefore, hparam⟩ := bindParams_at hslots
  obtain ⟨hsome, -, -⟩ := array_before hbefore
  cases step_of_bindParam hparam with
  | arraySize hsized ht hname =>
    have hparams : params = before.map Prod.fst ++ param :: rest.map Prod.fst := by
      simpa using (bindParams_params hslots).symm
    refine h _ _ param hparams ?_ ht hname
    rw [← hsome, hsized]
    rfl

/-- The index of the code is the rank of the parameter. -/
theorem countP_isInput {keys : List PyStr} (h : SizesUnkeyed w params keys)
    {before rest : List Slot} (heq : slots = before ++ rest) :
    before.countP (isInput keys) = before.countP isRead := by
  apply List.countP_congr
  intro slot hslot
  obtain ⟨first, second, rfl⟩ := List.append_of_mem hslot
  obtain ⟨param, binding⟩ := slot
  cases binding with
  | arraySize t array =>
    have hsplit : slots = first ++ (param, .arraySize t array) :: (second ++ rest) := by
      rw [heq]
      simp
    have hkey : Param.key param ∉ keys := not_mem_of_arraySize hslots h hsplit
    simp [isInput, isRead, hkey]
  | _ => rfl

theorem bindsByName_of_unkeyed (conv : Conversions) (skipPos : Bool) {items : Items Json}
    (hkeys : (items.map Prod.fst).Nodup) (h : SizesUnkeyed w params (items.map Prod.fst)) :
    BindsByName w conv skipPos slots items := by
  constructor
  · intro slot hslot hint hkey
    obtain ⟨before, rest, rfl⟩ := List.append_of_mem hslot
    obtain ⟨param, binding⟩ := slot
    obtain ⟨loop₁, loop₂, -, hparam⟩ := bindParams_at hslots
    cases step_of_bindParam hparam with
    | returnSize h => exact absurd h.1 (isInteger_ne hint).1
    | returnCols h => exact absurd h.1 (isInteger_ne hint).2
    | colSizes _ ht => exact absurd ht.1 (isInteger_ne hint).1
    | arraySize => exact absurd hkey (not_mem_of_arraySize hslots h rfl)
    | input hkind =>
      exact congrArg (Option.bind · _) (json_named hkeys skipPos hkey)
  · intro before rest param source heq hkey
    subst heq
    obtain ⟨loop₁, loop₂, hbefore, hparam⟩ := bindParams_at hslots
    obtain ⟨-, hindex, -⟩ := array_before hbefore
    rw [countP_isInput hslots h rfl, ← hindex]
    cases step_of_bindParam hparam with
    | input hkind => exact json_positioned hkeys skipPos hkey

/-- An integer parameter named as a size is filled with the size of the array before it. -/
theorem exists_arraySize {before rest : List Param} {param : Param}
    (hparams : params = before ++ param :: rest) (harray : before.any (isArray w) = true)
    (hint : isInteger w param) (hname : namesSize param.name = true) :
    ∃ array : Source, array.kind.sized = true ∧
      (param, .arraySize (normalize w param.type) array) ∈ slots := by
  have hmap : slots.map Prod.fst = before ++ param :: rest :=
    (bindParams_params hslots).trans hparams
  obtain ⟨first, second, rfl, hfirst, hsecond⟩ := List.map_eq_append_iff.mp hmap
  obtain ⟨slot, second', rfl, hslot, -⟩ := List.map_eq_cons_iff.mp hsecond
  obtain ⟨param', binding⟩ := slot
  obtain rfl : param' = param := hslot
  obtain ⟨loop₁, loop₂, hbefore, hparam⟩ := bindParams_at hslots
  obtain ⟨hsome, -, hmeasures⟩ := array_before hbefore
  rw [hfirst, harray] at hsome
  cases step_of_bindParam hparam with
  | returnSize h => exact absurd h.1 (isInteger_ne hint).1
  | returnCols h => exact absurd h.1 (isInteger_ne hint).2
  | colSizes _ ht => exact absurd ht.1 (isInteger_ne hint).1
  | arraySize hsized => exact ⟨_, hmeasures _ hsized, by simp⟩
  | input _ hsize =>
    have hfalse := hsize (Option.isSome_iff_ne_none.mp hsome) hint
    rw [hname] at hfalse
    cases hfalse

end

/-- The test case in which every key has the value given for it. -/
def testCase (keys : List PyStr) (value : PyStr → Json) : Items Json :=
  keys.map fun key => (key, value key)

theorem testCase_keys (keys : List PyStr) (value : PyStr → Json) :
    (testCase keys value).map Prod.fst = keys := by
  rw [testCase, List.map_map]
  exact List.map_id keys

theorem stored_testCase {keys : List PyStr} (value : PyStr → Json) {key : PyStr}
    (h : key ∈ keys) : stored (testCase keys value) key = some (value key) := by
  induction keys with
  | nil => simp at h
  | cons k keys ih =>
    by_cases hk : k = key
    · simp [testCase, stored, hk]
    · have hmem : key ∈ keys := by simpa [Ne.symm hk] using h
      simpa [testCase, stored, hk] using ih hmem

/-- A number that is a key of some test case is not what the size of an array is. -/
theorem exists_size_differs (conv : Conversions) {keys : List PyStr} (hkeys : keys.Nodup)
    (skipPos : Bool) (t : Text) {key : PyStr} (hkey : key ∈ keys) {array : Source}
    (hsized : array.kind.sized = true) :
    ∃ value : PyStr → Json,
      ((array.json (testCase keys value) skipPos).bind (conv.count array.kind)) ≠
        (stored (testCase keys value) key).bind (conv.number t) := by
  have hjson : ∀ value, array.json (testCase keys value) skipPos =
      (receivedKey keys skipPos array.key array.jsonIndex .inputArg).bind
        (stored (testCase keys value)) := by
    intro value
    have hnodup : ((testCase keys value).map Prod.fst).Nodup := by rwa [testCase_keys]
    have h := lookup_eq_stored hnodup skipPos array.key array.jsonIndex .inputArg
    rwa [testCase_keys] at h
  -- one for the key; the array, if it is another key, is empty
  let apart : PyStr → Json := fun k => if k = key then .int 1 else .arr []
  have hone : (stored (testCase keys apart) key).bind (conv.number t) = some 1 := by
    rw [stored_testCase apart hkey]
    simpa [apart] using conv.number_one t
  cases hreceived : receivedKey keys skipPos array.key array.jsonIndex .inputArg with
  | none =>
    refine ⟨apart, ?_⟩
    rw [hjson, hreceived, hone]
    simp
  | some k =>
    have hmem : k ∈ keys := by
      rw [receivedKey_eq hkeys] at hreceived
      split_ifs at hreceived with hnamed
      · exact Option.some.inj hreceived ▸ hnamed
      · exact (mem_positional.mp (List.mem_of_getElem? hreceived)).1
    by_cases hk : k = key
    · -- the array and the number are the same value
      refine ⟨fun _ => .arr [], ?_⟩
      rw [hjson, hreceived, Option.bind_some, stored_testCase _ hmem, stored_testCase _ hkey,
        Option.bind_some, Option.bind_some, conv.count_empty _ hsized, conv.number_list]
      simp
    · refine ⟨apart, ?_⟩
      rw [hjson, hreceived, hone, Option.bind_some, stored_testCase _ hmem, Option.bind_some]
      simp [apart, hk, conv.count_empty _ hsized]

theorem slots_of_wrapperOf {w : WordClass} {functionName : Text} {sig : CSignature.Signature}
    {wrapper : Wrapper} (h : wrapperOf w functionName sig = .ok wrapper) :
    ∃ final, bindParams w ⟨none, none, false, false, 0⟩ sig.params =
      .ok (wrapper.slots, final) := by
  unfold wrapperOf at h
  cases hb : bindParams w ⟨none, none, false, false, 0⟩ sig.params with
  | error e =>
    rw [hb] at h
    cases h
  | ok r =>
    obtain ⟨slots, final⟩ := r
    rw [hb] at h
    cases hc : callAndSerialize (normalize w sig.returnType) final with
    | error e =>
      simp only [bind, Except.bind, hc] at h
      cases h
    | ok serialization =>
      simp only [bind, Except.bind, hc] at h
      cases h
      exact ⟨final, rfl⟩

/-- For a signature that the generator accepts and the keys of a test case, the parameters
are bound by name and by rank for all values exactly when no integer parameter named as a
size after an array is one of the keys. -/
theorem c_binds_by_name_iff (w : WordClass) (conv : Conversions) (functionName : Text)
    (sig : CSignature.Signature) (wrapper : Wrapper)
    (haccepted : wrapperOf w functionName sig = .ok wrapper)
    (keys : List PyStr) (hkeys : keys.Nodup) :
    (∀ items : Items Json, items.map Prod.fst = keys →
        BindsByName w conv wrapper.skipPos wrapper.slots items) ↔
      SizesUnkeyed w sig.params keys := by
  obtain ⟨final, hslots⟩ := slots_of_wrapperOf haccepted
  constructor
  · intro h before rest param hparams harray hint hname hkey
    obtain ⟨array, hsized, hslot⟩ := exists_arraySize hslots hparams harray hint hname
    obtain ⟨value, hne⟩ := exists_size_differs conv hkeys wrapper.skipPos
      (normalize w param.type) hkey hsized
    have hitems := testCase_keys keys value
    exact hne ((h _ hitems).1 _ hslot hint (hitems.symm ▸ hkey))
  · rintro h items rfl
    exact bindsByName_of_unkeyed hslots conv wrapper.skipPos hkeys h

/-- Integers are read as they are and lists have their length. -/
def plainConversions : Conversions where
  number _ j := match j with
    | .int n => some n
    | _ => none
  count _ j := match j with
    | .arr items => some items.length
    | _ => none
  number_one _ := rfl
  number_list _ := rfl
  count_empty _ _ := rfl

/-- `int f(int* nums, int numsSize, int k)` -/
def arraySignature : CSignature.Signature where
  returnType := text "int"
  params := [⟨text "int*", text "nums", text "int* nums"⟩,
    ⟨text "int", text "numsSize", text "int numsSize"⟩, ⟨text "int", text "k", text "int k"⟩]
  rawParams := text "int* nums, int numsSize, int k"
  inSolutionClass := false

def arrayWrapper : Wrapper where
  declaration := text "int f(int* nums, int numsSize, int k);"
  skipPos := false
  slots := [
    (⟨text "int*", text "nums", text "int* nums"⟩, .input ⟨.array (text "int"), text "nums", 0⟩),
    (⟨text "int", text "numsSize", text "int numsSize"⟩,
      .arraySize (text "int") ⟨.array (text "int"), text "nums", 0⟩),
    (⟨text "int", text "k", text "int k"⟩, .input ⟨.scalar (text "int"), text "k", 1⟩)]
  serialization := .scalar (text "int")

theorem arrayWrapper_eq : wrapperOf asciiWords (text "f") arraySignature = .ok arrayWrapper :=
  eq_ok_of_toOption (by decide +kernel)

/-- The test case has keys for the array and for `k` only. -/
theorem c_binds_array :
    (∀ items : Items Json, items.map Prod.fst = ["nums", "k"] →
        BindsByName asciiWords plainConversions arrayWrapper.skipPos arrayWrapper.slots items) ↔
      SizesUnkeyed asciiWords arraySignature.params ["nums", "k"] :=
  c_binds_by_name_iff asciiWords plainConversions (text "f") arraySignature arrayWrapper
    arrayWrapper_eq ["nums", "k"] (by decide)

/-- For `int f(int* nums, int numsSize, int k)` and a test case that gives another
`numsSize`, the parameter receives the length of `nums`. -/
theorem c_size_parameter_overridden :
    ¬ ∀ (functionName : Text) (sig : CSignature.Signature) (wrapper : Wrapper),
      wrapperOf asciiWords functionName sig = .ok wrapper →
      ∀ items : Items Json, (items.map Prod.fst).Nodup →
        BindsByName asciiWords plainConversions wrapper.skipPos wrapper.slots items := by
  intro h
  let items : Items Json := [("nums", .arr [.int 5, .int 6]), ("numsSize", .int 1), ("k", .int 7)]
  have hsize := (h (text "f") arraySignature arrayWrapper arrayWrapper_eq items (by decide)).1
    _ (List.mem_cons_of_mem _ (List.mem_cons_self)) (.inl (by decide +kernel)) (by decide)
  exact absurd hsize (by decide)

end ExecutionEngine.CWrapper
