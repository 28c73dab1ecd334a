import ExecutionEngine.CWrapper

/-!
# The wrapper of a C++ function, after `languages/cpp.py`

The wrapper calls the function on an object of the class `Solution` or as a free function,
as the signature says. Whether a definition belongs to the class is a matter of nesting;
the signature says where the first head of the class stands.
-/
namespace ExecutionEngine.CppWrapper
open Pipeline TextScan CSignature CWrapper

def argName (index : ℕ) : Text := text "_a" ++ text (toString index)

section
variable (w : WordClass)

/-- The declaration that reads an argument. -/
def bindingLine (index : ℕ) (param : Param) : Text :=
  let valueType := trim isSpace
    ((dropConst w 0 none param.type).filter fun c => decide (c ≠ ch '&'))
  valueType ++ text " " ++ argName index ++ text " = judge::Arg<" ++ valueType ++
    text ">::get(_in.arg(\"" ++ param.name ++ text "\", " ++ text (toString index) ++ text "));"

/-- What stands before the call, and what it is a call of. -/
def setup (sig : CSignature.Signature) : Text :=
  if sig.inSolutionClass then text "Solution _solution;\n        " else []

def target (sig : CSignature.Signature) : Text :=
  if sig.inSolutionClass then text "_solution." else []

def arguments (sig : CSignature.Signature) : List Text :=
  (List.range sig.params.length).map argName

def call (functionName : Text) (sig : CSignature.Signature) : Text :=
  target sig ++ functionName ++ text "(" ++ (text ", ").intercalate (arguments sig) ++ text ")"

structure Wrapper where
  skipPos : Bool
  bindings : List Text
  lines : List Text
  deriving DecidableEq

/-- `_generate_wrapper` for the parsed signature. -/
def wrapperOf (functionName : Text) (sig : CSignature.Signature) : Wrapper where
  skipPos := sig.params.any fun p => PyStr.hasPart (text "ListNode") p.type
  bindings := sig.params.mapIdx (bindingLine w)
  lines :=
    if trim isSpace sig.returnType = text "void" then
      [setup sig ++ call functionName sig ++ text ";", text "_output[\"result\"] = nullptr;"] ++
        ((arguments sig).head?.map fun first =>
          text "_output[\"mutated\"] = judge::toJson(" ++ first ++ text ");").toList
    else
      [setup sig ++ text "auto _result = " ++ call functionName sig ++ text ";",
        text "_output[\"result\"] = judge::toJson(_result);"]

/-- `_generate_wrapper` -/
def generateWrapper (code functionName : Text) : Except PyExc Wrapper :=
  (parseSignature w code functionName).map (wrapperOf w functionName)

/-- Every head of a class `Solution`: where it begins, and the text from its brace on. -/
def classHeads : ℕ → Option CodePoint → Text → List (ℕ × Text)
  | _, _, [] => []
  | i, before, c :: rest =>
    let later := classHeads (i + 1) (some c) rest
    if w.boundary before (some c) then
      match classHead w (c :: rest) with
      | some body => (i, body) :: later
      | none => later
    else later

/-- The distance from a brace to the one that closes it. -/
def matchingBrace : ℕ → Text → Option ℕ
  | _, [] => none
  | depth, c :: rest =>
    if c = ch '\x7b' then (matchingBrace (depth + 1) rest).map (· + 1)
    else if c = ch '\x7d' then
      if depth = 1 then some 0 else (matchingBrace (depth - 1) rest).map (· + 1)
    else (matchingBrace depth rest).map (· + 1)

/-- A place between the braces of a class `Solution`. -/
def InsideClass (clean : Text) (place : ℕ) : Prop :=
  ∃ head ∈ classHeads w 0 none clean, clean.length - head.2.length < place ∧
    (matchingBrace 0 head.2).any fun n => decide (place < clean.length - head.2.length + n)

/-- `\bSolution\s*::\s*$` -/
def endsQualified : Option CodePoint → Text → Bool
  | _, [] => false
  | before, c :: rest =>
    (w.boundary before (some c) && endsQualifier (c :: rest)) || endsQualified (some c) rest

/-- The name at a place is qualified with `Solution::`. -/
def Qualified (clean : Text) (place : ℕ) : Prop := endsQualified w none (clean.take place) = true

/-- The definition at a place is one of the class. -/
def InSolution (clean : Text) (place : ℕ) : Prop :=
  InsideClass w clean place ∨ Qualified w clean place

/-- A head of the class stands before a place. -/
def HeadBefore (clean : Text) (place : ℕ) : Prop :=
  ∃ head ∈ classHeads w 0 none clean, head.1 < place

instance (clean : Text) (place : ℕ) : Decidable (InsideClass w clean place) :=
  inferInstanceAs (Decidable (∃ head ∈ classHeads w 0 none clean, _))

instance (clean : Text) (place : ℕ) : Decidable (Qualified w clean place) :=
  inferInstanceAs (Decidable (_ = true))

instance (clean : Text) (place : ℕ) : Decidable (InSolution w clean place) :=
  inferInstanceAs (Decidable (_ ∨ _))

instance (clean : Text) (place : ℕ) : Decidable (HeadBefore w clean place) :=
  inferInstanceAs (Decidable (∃ head ∈ classHeads w 0 none clean, _))

/-- A definition of no class, after the head of one. -/
def FreeAfterClass (clean : Text) (place : ℕ) : Prop :=
  HeadBefore w clean place ∧ ¬ InSolution w clean place

/-- A definition of the class, before every head of one. -/
def QualifiedBeforeClass (clean : Text) (place : ℕ) : Prop :=
  Qualified w clean place ∧ ¬ HeadBefore w clean place

end

section
variable {w : WordClass}

theorem classHead_length {s body : Text} (h : classHead w s = some body) :
    body.length ≤ s.length := by
  have hafter : ∀ {head s rest : Text}, after head s = some rest → rest.length ≤ s.length := by
    intro head s rest h
    rw [after_eq_some.mp h, List.length_append]
    omega
  have hkeyword : ∀ {rest : Text}, ((after (text "class") s).orElse fun _ =>
      after (text "struct") s) = some rest → rest.length ≤ s.length := by
    intro rest hrest
    cases hclass : after (text "class") s with
    | some r =>
      rw [hclass] at hrest
      exact Option.some.inj hrest ▸ hafter hclass
    | none =>
      rw [hclass] at hrest
      exact hafter hrest
  simp only [classHead, Option.bind_eq_bind, Option.bind_eq_some_iff] at h
  obtain ⟨rest, hrest, h⟩ := h
  split_ifs at h with hspace
  simp only [Option.bind_eq_some_iff] at h
  obtain ⟨rest', hrest', h⟩ := h
  split_ifs at h with hboundary
  have hbody : body.length ≤ rest'.length := by
    rw [classBody] at h
    split_ifs at h
    rw [← Option.some.inj h]
    exact List.length_dropWhile_le _ _
  have hspaces := List.length_dropWhile_le isSpace rest
  have := hafter hrest'
  have := hkeyword hrest
  omega

theorem classHeads_bounds {i : ℕ} {before : Option CodePoint} {s : Text} {head : ℕ × Text}
    (h : head ∈ classHeads w i before s) :
    i ≤ head.1 ∧ head.1 + head.2.length ≤ i + s.length := by
  induction s generalizing i before with
  | nil => simp [classHeads] at h
  | cons c rest ih =>
    have hlater : head ∈ classHeads w (i + 1) (some c) rest →
        i ≤ head.1 ∧ head.1 + head.2.length ≤ i + (c :: rest).length := by
      intro hmem
      have := ih hmem
      rw [List.length_cons]
      omega
    rw [classHeads] at h
    split_ifs at h
    · cases hbody : classHead w (c :: rest) with
      | none =>
        rw [hbody] at h
        exact hlater h
      | some body =>
        rw [hbody] at h
        rcases List.mem_cons.mp h with rfl | hmem
        · have := classHead_length hbody
          exact ⟨le_rfl, Nat.add_le_add_left this i⟩
        · exact hlater hmem
    · exact hlater h

/-- The head that is found is the first. -/
theorem classMatch_eq (i : ℕ) (before : Option CodePoint) (s : Text) :
    classMatch w i before s = (classHeads w i before s).head?.map Prod.fst := by
  induction s generalizing i before with
  | nil => rfl
  | cons c rest ih =>
    rw [classMatch, classHeads]
    cases hboundary : w.boundary before (some c) with
    | false => simpa using ih (i + 1) (some c)
    | true =>
      cases hbody : classHead w (c :: rest) with
      | none => simpa using ih (i + 1) (some c)
      | some body => simp

theorem classHeads_sorted (i : ℕ) (before : Option CodePoint) (s : Text) :
    (classHeads w i before s).Pairwise fun a b => a.1 < b.1 := by
  induction s generalizing i before with
  | nil => exact .nil
  | cons c rest ih =>
    rw [classHeads]
    split_ifs
    · cases hbody : classHead w (c :: rest) with
      | none => exact ih (i + 1) (some c)
      | some body =>
        refine .cons (fun head hmem => ?_) (ih (i + 1) (some c))
        exact (classHeads_bounds hmem).1
    · exact ih (i + 1) (some c)

/-- The test of the code: whether some head stands before the definition. -/
theorem classMatch_before (clean : Text) (place : ℕ) :
    (classMatch w 0 none clean).any (fun i => decide (i < place)) = true ↔
      HeadBefore w clean place := by
  rw [classMatch_eq, HeadBefore]
  have hsorted := @classHeads_sorted w 0 none clean
  cases hheads : classHeads w 0 none clean with
  | nil => simp
  | cons first later =>
    rw [hheads] at hsorted
    simp only [List.head?_cons, Option.map_some, Option.any_some, decide_eq_true_eq]
    constructor
    · exact fun h => ⟨first, by simp, h⟩
    · rintro ⟨head, hmem, h⟩
      rcases List.mem_cons.mp hmem with rfl | hmem
      · exact h
      · exact (List.rel_of_pairwise_cons hsorted hmem).trans h

/-- The head of a class stands before its brace. -/
theorem headBefore_of_inside {clean : Text} {place : ℕ} (h : InsideClass w clean place) :
    HeadBefore w clean place := by
  obtain ⟨head, hmem, hbrace, -⟩ := h
  have := (classHeads_bounds hmem).2
  exact ⟨head, hmem, by omega⟩

/-- What is said of a definition agrees with where it stands, and a definition of no class
is called as a free function. -/
def DetectsClass (w : WordClass) (clean functionName : Text) (place : ℕ)
    (sig : CSignature.Signature) : Prop :=
  (sig.inSolutionClass = true ↔ InSolution w clean place) ∧
    (¬ InSolution w clean place → setup sig = [] ∧ call functionName sig =
      functionName ++ text "(" ++ (text ", ").intercalate (arguments sig) ++ text ")")

/-- The class is detected for every definition but two kinds: those of no class after the
head of one, and those qualified with the class before every head. -/
theorem class_detected_iff (w : WordClass) (code functionName : Text) (d : Found)
    (sig : CSignature.Signature)
    (hd : findDefinition w (stripComments code) functionName = some d)
    (hsig : parseSignature w code functionName = .ok sig) :
    DetectsClass w (stripComments code) functionName d.start sig ↔
      ¬ FreeAfterClass w (stripComments code) d.start ∧
        ¬ QualifiedBeforeClass w (stripComments code) d.start := by
  have hclass : sig.inSolutionClass = true ↔ HeadBefore w (stripComments code) d.start := by
    obtain ⟨d', params, hd', -, rfl⟩ := (parseSignature_ok_iff w).mp hsig
    obtain rfl := Option.some.inj (hd.symm.trans hd')
    exact classMatch_before _ _
  have hcall : sig.inSolutionClass = false → setup sig = [] ∧ call functionName sig =
      functionName ++ text "(" ++ (text ", ").intercalate (arguments sig) ++ text ")" := by
    intro hfree
    simp [setup, call, target, hfree]
  rw [DetectsClass, hclass, FreeAfterClass, QualifiedBeforeClass, not_and_not_right,
    not_and_not_right]
  constructor
  · rintro ⟨h, -⟩
    exact ⟨h.mp, fun hq => h.mpr (.inr hq)⟩
  · rintro ⟨hin, hqualified⟩
    have hiff : HeadBefore w (stripComments code) d.start ↔
        InSolution w (stripComments code) d.start :=
      ⟨hin, fun h => h.elim headBefore_of_inside hqualified⟩
    refine ⟨hiff, fun hfree => hcall ?_⟩
    rw [Bool.eq_false_iff, ne_eq, hclass, hiff]
    exact hfree

end

def intParam : Param := ⟨text "int", text "a", text "int a"⟩

def methodText : Text :=
  text "class Solution \x7b\npublic:\n  int twice(int a) \x7b return 2 * a; \x7d\n\x7d;"

theorem class_detected_method :
    InsideClass asciiWords (stripComments methodText) 31 ∧
      DetectsClass asciiWords (stripComments methodText) (text "twice") 31
        (signatureOf asciiWords methodText ⟨31, 36, 42, text "int"⟩ [intParam]) := by
  have hinside : InsideClass asciiWords (stripComments methodText) 31 := by decide +kernel
  have hfound : findDefinition asciiWords (stripComments methodText) (text "twice") =
      some ⟨31, 36, 42, text "int"⟩ := by decide +kernel
  have hsig := (parseSignature_ok_iff asciiWords).mpr
    ⟨_, [intParam], hfound, eq_ok_of_toOption (by decide +kernel), rfl⟩
  refine ⟨hinside, (class_detected_iff asciiWords methodText (text "twice") _ _ hfound hsig).mpr ?_⟩
  exact ⟨fun h => h.2 (.inl hinside), fun h => h.2 (headBefore_of_inside hinside)⟩

def freeText : Text := text "class Solution \x7b\x7d;\nint twice(int a) \x7b return 2 * a; \x7d"

/-- A free function after the class is called on an object of the class. -/
theorem free_function_called_as_method :
    parseSignature asciiWords freeText (text "twice") =
        .ok (signatureOf asciiWords freeText ⟨23, 28, 34, text "int"⟩ [intParam]) ∧
      ¬ DetectsClass asciiWords (stripComments freeText) (text "twice") 23
        (signatureOf asciiWords freeText ⟨23, 28, 34, text "int"⟩ [intParam]) := by
  constructor
  · exact (parseSignature_ok_iff asciiWords).mpr
      ⟨_, _, by decide +kernel, eq_ok_of_toOption (by decide +kernel), rfl⟩
  · intro h
    have hin : InSolution asciiWords (stripComments freeText) 23 := h.1.mp (by decide +kernel)
    revert hin
    decide +kernel

end ExecutionEngine.CppWrapper
