import Mathlib.Data.List.SplitBy
import ExecutionEngine.GoBindings

/-!
# Names in the body of `execute`

The names of the body are in nobody's way exactly when its variables differ in name, when
no binding uses a name that an earlier one has taken, and when the call still finds the
function. All of this is a matter of the parameters' names and types.
-/
namespace ExecutionEngine.GoHygiene
open Pipeline TextScan CSignature RegexSignature Scoping GoBindings

/-- The variables that are declared before the parameter's own; `ok` is shared. -/
def helpers (b : Bound) : List Var :=
  .raw b.name :: .ok ::
    match b.shape with
    | .listPointer => [.arr b.name, .pos b.name]
    | .list => [.arr b.name, .pos b.name, .tmp b.name]
    | .treePointer => [.arr b.name]
    | .tree => [.arr b.name, .tmp b.name]
    | .graph => [.adj b.name]
    | .bytes _ => []
    | .other => []

/-- The variables of a parameter at the top of the body. -/
def declared (b : Bound) : List Var :=
  helpers b ++ .param b.name ::
    match b.shape with
    | .bytes _ => [.errOf b.name]
    | _ => []

/-- The names of a type that is written into the body. -/
def typeNames (g : TypeSyntax) (b : Bound) : List Text :=
  match b.shape with
  | .other => g.mentions (Go.normalizeType b.type)
  | _ => []

/-- The names from outside that the lines of a parameter use, besides those of its type. -/
def fixedNames (skipPos : Bool) (shape : Shape) : List Text :=
  [text "pickArg", boolText skipPos, text "nil", text "fmt"] ++
    match shape with
    | .listPointer => [text "int", text "json", text "buildLinkedList"]
    | .list => [text "int", text "json", text "buildLinkedList", listNode]
    | .treePointer => [text "json", text "buildTree"]
    | .tree => [text "json", text "buildTree", treeNode]
    | .graph => [text "int", text "json", text "buildGraph"]
    | .bytes decoder => [decoder.name]
    | .other => [text "json"]

/-- Those that are still used when the parameter has been declared. -/
def lateNames : Shape → List Text
  | .listPointer => []
  | .list => [text "nil"]
  | .treePointer => []
  | .tree => [text "nil"]
  | .graph => []
  | .bytes _ => [text "nil", text "fmt"]
  | .other => [text "json", text "nil", text "fmt"]

/-- The names that the call and the return use. -/
def callNames (functionName : Text) : List Text :=
  [functionName, text "string", text "nil", text "autoConvertOutput"]

/-- Variables that share a name are the same. -/
def Distinct (v w : Var) : Prop := v.name = w.name → v = w

/-- `result` is declared where there is one. -/
def resultVars (returns : List Text) : List Var := if returns = [] then [] else [.result]

/-- The names of the parameters are in nobody's way. -/
structure Collisionless (g : TypeSyntax) (functionName : Text) (skipPos : Bool)
    (bounds : List Bound) (returns : List Text) : Prop where
  named : ∀ b ∈ bounds, b.name ≠ blankName
  distinct : (frame ++ (bounds.flatMap declared ++ resultVars returns)).Pairwise Distinct
  own : ∀ b ∈ bounds, b.name ∉ lateNames b.shape ∧
    ∀ v ∈ .raw b.name :: .ok :: frame, v.name ∉ typeNames g b
  earlier : bounds.Pairwise fun b c =>
    ∀ v ∈ declared b, v.name ∉ fixedNames skipPos c.shape ++ typeNames g c
  called : ∀ v ∈ frame ++ bounds.flatMap declared, v.name ∉ callNames functionName

theorem introduced_early (g : TypeSyntax) (skipPos : Bool) (b : Bound) :
    introduced (fetchSteps skipPos b.name ++ earlySteps g b) = helpers b := by
  obtain ⟨x, type, shape⟩ := b
  cases shape with
  | other =>
    rw [introduced_append, earlySteps, introduced_uses]
    rfl
  | _ => rfl

theorem introduced_binding (g : TypeSyntax) (skipPos : Bool) (b : Bound) :
    introduced (bindingSteps g skipPos b) = declared b := by
  rw [bindingSteps, introduced_append, introduced_early]
  obtain ⟨x, type, shape⟩ := b
  cases shape <;> rfl

theorem freeNames_read (g : TypeSyntax) (type : Text) :
    freeNames (uses (g.read type)) = g.mentions type := by
  rw [TypeSyntax.read, TypeSyntax.mentions]
  induction g.pieces type with
  | nil => rfl
  | cons p pieces ih =>
    obtain ⟨t, looked⟩ := p
    have happend : ∀ (q : Piece Var Text) (e : Expr), uses (q :: e) = uses [q] ++ uses e := by
      simp [uses]
    rw [List.map_cons, happend, freeNames_append, ih]
    cases looked <;> rfl

theorem mem_freeNames_binding (g : TypeSyntax) (skipPos : Bool) (b : Bound) (n : Text) :
    n ∈ freeNames (bindingSteps g skipPos b) ↔
      n ∈ fixedNames skipPos b.shape ++ typeNames g b := by
  obtain ⟨x, type, shape⟩ := b
  cases shape <;>
    simp only [bindingSteps, earlySteps, lateSteps, freeNames_append, freeNames_read] <;>
    simp only [fetchSteps, positionSteps, unmarshalUses, uses, freeNames, fixedNames,
      typeNames, List.flatMap_cons, List.flatMap_nil, List.filterMap_cons, List.filterMap_nil,
      List.mem_append, List.mem_cons, List.not_mem_nil, List.append_nil, List.cons_append,
      List.nil_append] <;>
    grind

theorem mem_freeNames_lateSteps (b : Bound) (n : Text) :
    n ∈ freeNames (lateSteps b) ↔ n ∈ lateNames b.shape := by
  obtain ⟨x, type, shape⟩ := b
  cases shape <;>
    simp only [lateSteps, unmarshalUses, uses, freeNames, lateNames,
      List.flatMap_cons, List.flatMap_nil, List.filterMap_cons, List.filterMap_nil,
      List.mem_cons, List.not_mem_nil, List.append_nil, List.cons_append,
      List.nil_append]
  grind

/-- The names that are always used have no underscore and are none of the wrapper's own. -/
theorem fixedNames_plain (skipPos : Bool) (shape : Shape) :
    ∀ n ∈ fixedNames skipPos shape, ch '_' ∉ n ∧ ∀ v ∈ .ok :: frame, v.name ≠ n := by
  cases skipPos <;> rcases shape with _ | _ | _ | _ | _ | (_ | _ | _) | _ <;> decide

/-- A variable with a derived name, or `ok`. -/
def Derived (v : Var) : Prop := v = .ok ∨ ch '_' ∈ v.name

theorem not_mem_fixedNames {v : Var} (hv : Derived v) (skipPos : Bool) (shape : Shape) :
    v.name ∉ fixedNames skipPos shape := by
  intro hmem
  have hplain := fixedNames_plain skipPos shape _ hmem
  rcases hv with rfl | hv
  · exact hplain.2 .ok (by simp) rfl
  · exact hplain.1 hv

theorem derived_helpers (b : Bound) : ∀ v ∈ helpers b, Derived v := by
  have hraw : Derived (.raw b.name) := .inr (List.mem_append_left _ (by decide))
  have harr : Derived (.arr b.name) := .inr (List.mem_append_right _ (by decide))
  have hadj : Derived (.adj b.name) := .inr (List.mem_append_right _ (by decide))
  have hpos : Derived (.pos b.name) := .inr (List.mem_append_left _ (by decide))
  have htmp : Derived (.tmp b.name) := .inr (List.mem_append_left _ (by decide))
  have hok : Derived .ok := .inl rfl
  obtain ⟨x, type, shape⟩ := b
  cases shape <;> simp [helpers, hraw, hok, harr, hadj, hpos, htmp]

theorem typeNames_subset (g : TypeSyntax) (b : Bound) :
    typeNames g b ⊆ freeNames (earlySteps g b) := by
  obtain ⟨x, type, shape⟩ := b
  cases shape with
  | other =>
    rw [earlySteps, freeNames_read]
    exact List.Subset.refl _
  | _ => exact List.nil_subset _

/-- Where a type is written into the body, nothing but `raw_x` and `ok` has been declared. -/
theorem helpers_spare_types {g : TypeSyntax} {b : Bound}
    (hraw : (Var.raw b.name).name ∉ typeNames g b) (hok : Var.ok.name ∉ typeNames g b) :
    ∀ v ∈ helpers b, v.name ∉ typeNames g b := by
  obtain ⟨x, type, shape⟩ := b
  cases shape with
  | other => exact List.forall_mem_cons.mpr ⟨hraw, List.forall_mem_singleton.mpr hok⟩
  | _ => exact fun v _ => List.not_mem_nil

theorem mem_fixedNames_of_late (skipPos : Bool) (b : Bound) :
    ∀ n ∈ freeNames (lateSteps b), n ∈ fixedNames skipPos b.shape := by
  have hlate : ∀ shape, ∀ n ∈ lateNames shape, n ∈ fixedNames skipPos shape := by
    intro shape
    rcases shape with _ | _ | _ | _ | _ | _ | _ <;> simp [lateNames, fixedNames]
  exact fun n hn => hlate b.shape n ((mem_freeNames_lateSteps b n).mp hn)

theorem derived_late (b : Bound) : ∀ v ∈ introduced (lateSteps b), Derived v := by
  obtain ⟨x, type, shape⟩ := b
  cases shape with
  | bytes decoder =>
    have hlate : introduced (lateSteps ⟨x, type, .bytes decoder⟩) = [.errOf x] := rfl
    rw [hlate]
    exact List.forall_mem_singleton.mpr (.inr (List.mem_append_left _ (by decide)))
  | _ => exact List.forall_mem_nil _

/-- The lines of one parameter capture nothing of what they use themselves. -/
theorem pairwise_spares_binding (g : TypeSyntax) (skipPos : Bool) (b : Bound) :
    (bindingSteps g skipPos b).Pairwise (Spares Var.name) ↔
      b.name ∉ lateNames b.shape ∧ (Var.raw b.name).name ∉ typeNames g b ∧
        Var.ok.name ∉ typeNames g b := by
  have hsplit : bindingSteps g skipPos b = (fetchSteps skipPos b.name ++ earlySteps g b) ++
      ([.intro (.param b.name)] ++ lateSteps b) := rfl
  have hspare : ∀ v, Derived v → v.name ∉ freeNames (lateSteps b) := fun v hv hmem =>
    not_mem_fixedNames hv skipPos b.shape (mem_fixedNames_of_late skipPos b _ hmem)
  have hearly : (fetchSteps skipPos b.name ++ earlySteps g b).Pairwise (Spares Var.name) ↔
      (Var.raw b.name).name ∉ typeNames g b ∧ Var.ok.name ∉ typeNames g b := by
    constructor
    · intro h
      have hcross := (pairwise_spares_append.mp h).2.2
      have htypes : ∀ v ∈ [Var.raw b.name, .ok], v.name ∉ typeNames g b :=
        fun v hv hmem => hcross v hv (typeNames_subset g b hmem)
      exact ⟨htypes _ (by simp), htypes _ (by simp)⟩
    · rintro ⟨hraw, hok⟩
      refine pairwise_spares_of fun v hv hmem => ?_
      rw [introduced_early] at hv
      have hfree : v.name ∈ freeNames (bindingSteps g skipPos b) := by
        rw [hsplit, freeNames_append]
        exact List.mem_append_left _ hmem
      rcases List.mem_append.mp ((mem_freeNames_binding g skipPos b _).mp hfree) with hfix | htype
      · exact not_mem_fixedNames (derived_helpers b v hv) skipPos b.shape hfix
      · exact helpers_spare_types hraw hok v hv htype
  have hlate : ([.intro (.param b.name)] ++ lateSteps b : Steps).Pairwise (Spares Var.name) ↔
      b.name ∉ lateNames b.shape := by
    have hparam : introduced ([.intro (.param b.name)] : Steps) = [.param b.name] := rfl
    rw [pairwise_spares_append, hparam, List.forall_mem_singleton, mem_freeNames_lateSteps]
    have hrest := pairwise_spares_of fun v hv => hspare v (derived_late b v hv)
    exact ⟨fun h => h.2.2, fun h => ⟨List.pairwise_singleton _ _, hrest, h⟩⟩
  have hcross : ∀ v ∈ helpers b,
      v.name ∉ freeNames ([.intro (.param b.name)] ++ lateSteps b) := by
    intro v hv
    rw [freeNames_append]
    exact hspare v (derived_helpers b v hv)
  rw [hsplit, pairwise_spares_append, hearly, hlate, introduced_early]
  tauto

/-- The parameter that a variable belongs to. -/
def owner : Var → Option Text
  | .raw x | .arr x | .adj x | .pos x | .tmp x | .errOf x | .param x | .rawPos x => some x
  | _ => none

theorem owner_declared (b : Bound) : ∀ v ∈ declared b, v = .ok ∨ owner v = some b.name := by
  obtain ⟨x, type, shape⟩ := b
  cases shape <;> simp [declared, helpers, owner]

theorem scoped_read (g : TypeSyntax) (here : List Var) (type : Text) :
    Scoped here (uses (g.read type)) := by
  rw [TypeSyntax.read]
  induction g.pieces type with
  | nil => trivial
  | cons p pieces ih =>
    obtain ⟨t, looked⟩ := p
    cases looked with
    | false => exact ih
    | true => exact ⟨trivial, ih⟩

theorem scoped_binding (g : TypeSyntax) (skipPos : Bool) (b : Bound) {here : List Var}
    (hinput : .input ∈ here) (hkeys : .keys ∈ here) (hfresh : ∀ v ∈ here, owner v ≠ some b.name) :
    Scoped here (bindingSteps g skipPos b) := by
  obtain ⟨x, type, shape⟩ := b
  have hnew : ∀ v, owner v = some x → v ∉ here := fun v hv hmem => hfresh v hmem hv
  have hraw := hnew (.raw x) rfl
  have harr := hnew (.arr x) rfl
  have hadj := hnew (.adj x) rfl
  have hpos := hnew (.pos x) rfl
  have htmp := hnew (.tmp x) rfl
  have hparam := hnew (.param x) rfl
  cases shape with
  | other =>
    rw [bindingSteps, scoped_append_iff, scoped_append_iff]
    refine ⟨⟨?_, scoped_read g _ _⟩, ?_⟩
    · simp [fetchSteps, Scoped, Step.Scoped, Step.vars, hinput, hkeys, hraw]
    · rw [introduced_early]
      simp [lateSteps, unmarshalUses, uses, Scoped, Step.Scoped, Step.vars, helpers, hparam]
  | _ =>
    simp [bindingSteps, fetchSteps, earlySteps, lateSteps, positionSteps, unmarshalUses, uses, Scoped,
      Step.Scoped, Step.vars, hinput, hkeys, hraw, harr, hadj, hpos, htmp, hparam]

theorem introduced_bindings (g : TypeSyntax) (skipPos : Bool) (bounds : List Bound) :
    introduced (bounds.flatMap (bindingSteps g skipPos)) = bounds.flatMap declared := by
  rw [introduced, List.flatMap_assoc]
  exact List.flatMap_congr fun b _ => introduced_binding g skipPos b

theorem scoped_bindings (g : TypeSyntax) (skipPos : Bool) {bounds : List Bound}
    (hnodup : (bounds.map Bound.name).Nodup) {here : List Var} (hinput : .input ∈ here)
    (hkeys : .keys ∈ here) (hfresh : ∀ v ∈ here, ∀ b ∈ bounds, owner v ≠ some b.name) :
    Scoped here (bounds.flatMap (bindingSteps g skipPos)) := by
  induction bounds generalizing here with
  | nil => trivial
  | cons b bounds ih =>
    obtain ⟨hb, hrest⟩ := List.nodup_cons.mp hnodup
    rw [List.flatMap_cons, scoped_append_iff, introduced_binding]
    refine ⟨scoped_binding g skipPos b hinput hkeys fun v hv => hfresh v hv b (by simp), ?_⟩
    refine ih hrest (List.mem_append_right _ hinput) (List.mem_append_right _ hkeys) ?_
    intro v hv c hc heq
    rcases List.mem_append.mp hv with hv | hv
    · rcases owner_declared b v (List.mem_reverse.mp hv) with rfl | howner
      · cases heq
      · rw [howner] at heq
        exact hb (Option.some.inj heq ▸ List.mem_map_of_mem hc)
    · exact hfresh v hv c (List.mem_cons_of_mem b hc) heq

theorem introduced_sees (functionName : Text) (params : List Text) :
    introduced (.free functionName :: params.map fun x => .see (.param x) : Steps) = [] := by
  rw [introduced, List.flatMap_eq_nil_iff]
  simp [Step.vars]

theorem introduced_returnSteps (returns params : List Text) :
    introduced (returnSteps returns params) = resultVars returns := by
  rcases returns with _ | ⟨r, returns⟩ <;> rcases params with _ | ⟨x, params⟩ <;> rfl

theorem introduced_callSteps (functionName : Text) (returns params : List Text) :
    introduced (callSteps functionName returns params) = resultVars returns := by
  rw [callSteps, introduced_append, introduced_sees, introduced_returnSteps, List.nil_append]

theorem scoped_callSteps (functionName : Text) (returns params : List Text) {here : List Var}
    (hparams : ∀ x ∈ params, .param x ∈ here) (hresult : .result ∉ here) :
    Scoped here (callSteps functionName returns params) := by
  rw [callSteps, scoped_append_iff, introduced_sees]
  constructor
  · refine ⟨trivial, ?_⟩
    have hsees : ∀ params : List Text, (∀ x ∈ params, .param x ∈ here) →
        Scoped here (params.map fun x => .see (.param x) : Steps) := by
      intro params hparams
      induction params with
      | nil => trivial
      | cons x params ih =>
        exact ⟨hparams x (by simp), ih fun y hy => hparams y (List.mem_cons_of_mem x hy)⟩
    exact hsees params hparams
  · rcases returns with _ | ⟨r, returns⟩
    · rcases params with _ | ⟨x, params⟩
      · simp [returnSteps, Scoped, Step.Scoped]
      · simpa [returnSteps, Scoped, Step.Scoped, Step.vars] using hparams x (by simp)
    · simpa [returnSteps, Scoped, Step.Scoped, Step.vars] using hresult

/-- What the call uses is what the names of the call say. -/
theorem mem_freeNames_callSteps {functionName : Text} {returns params : List Text} {v : Var}
    (hv : params = [] → v ∈ frame) :
    v.name ∈ freeNames (callSteps functionName returns params) ↔
      v.name ∈ callNames functionName := by
  have hsees : freeNames (.free functionName :: params.map fun x => .see (.param x) : Steps) =
      [functionName] := by
    simp [freeNames]
  rw [callSteps, freeNames_append, hsees]
  rcases params with _ | ⟨x, params⟩
  · have hframe : ∀ v ∈ frame, v.name ≠ text "autoConvertOutput" := by decide
    have := hframe v (hv rfl)
    cases returns <;> simp [returnSteps, freeNames, callNames, this]
  · cases returns <;> simp only [returnSteps, freeNames, callNames, List.filterMap_cons,
      List.filterMap_nil, List.mem_append, List.mem_cons, List.not_mem_nil, or_false] <;> grind

theorem spares_callSteps (functionName : Text) (returns params : List Text) :
    (callSteps functionName returns params).Pairwise (Spares Var.name) := by
  rw [callSteps, pairwise_spares_append, introduced_sees]
  refine ⟨pairwise_spares_of ?_, pairwise_spares_of ?_, List.forall_mem_nil _⟩
  · rw [introduced_sees]
    exact List.forall_mem_nil _
  · rw [introduced_returnSteps]
    rcases returns with _ | ⟨r, returns⟩
    · exact List.forall_mem_nil _
    · have hresult : ∀ v ∈ [Var.result], v.name ∉ [text "string", text "autoConvertOutput", text "nil"] := by
        decide
      exact hresult

theorem mem_uses_iff {e : Expr} {v : Var} : .see v ∈ uses e ↔ .var v ∈ e := by
  rw [uses, List.mem_flatMap]
  constructor
  · rintro ⟨p, hp, hmem⟩
    cases p with
    | plain t => cases hmem
    | free n => simp at hmem
    | var w =>
      obtain rfl : v = w := by simpa using hmem
      exact hp
  · exact fun h => ⟨_, h, List.mem_singleton_self _⟩

/-- The call reads every parameter. -/
theorem named_of_hygienic {functionName : Text} {returns params : List Text} {call : Body}
    (hcall : callLines functionName returns params = .ok call) {scopes : List (List Var)}
    (h : Hygienic Var.name blankName scopes call) : ∀ x ∈ params, x ≠ blankName := by
  have hread : ∀ p ∈ built functionName (params.map .param), Meant Var.name blankName scopes.flatten p := by
    match returns with
    | [] =>
      obtain rfl := Except.ok.inj hcall
      exact h.1
    | [_] =>
      obtain rfl := Except.ok.inj hcall
      exact h.1.1
    | _ :: _ :: _ => cases hcall
  intro x hx
  have hmem : Piece.var (.param x) ∈ built functionName (params.map .param) := by
    rw [← mem_uses_iff, uses_built]
    simpa using hx
  exact (hread _ hmem).1

/-- What the body declares and uses. -/
def bodySteps (g : TypeSyntax) (functionName : Text) (skipPos : Bool) (bounds : List Bound)
    (returns : List Text) : Steps :=
  uses [.free (text "recover"), .free (text "nil"), .var .err, .free (text "fmt")] ++
    (bounds.flatMap (bindingSteps g skipPos) ++
      callSteps functionName returns (bounds.map Bound.name))

theorem introduced_bodySteps (g : TypeSyntax) (functionName : Text) (skipPos : Bool)
    (bounds : List Bound) (returns : List Text) :
    introduced (bodySteps g functionName skipPos bounds returns) =
      bounds.flatMap declared ++ resultVars returns := by
  rw [bodySteps, introduced_append, introduced_uses, introduced_append, introduced_bindings,
    introduced_callSteps, List.nil_append]

theorem scoped_bodySteps (g : TypeSyntax) (functionName : Text) (skipPos : Bool)
    {bounds : List Bound} (hnodup : (bounds.map Bound.name).Nodup) (returns : List Text) :
    Scoped frame (bodySteps g functionName skipPos bounds returns) := by
  have hresult : ∀ b, .result ∉ declared b := by
    intro b hmem
    rcases owner_declared b _ hmem with h | h <;> cases h
  rw [bodySteps, scoped_append_iff, scoped_append_iff, introduced_uses, introduced_bindings]
  refine ⟨by simp [uses, Scoped, Step.Scoped, Step.vars, frame], ?_, ?_⟩
  · refine scoped_bindings g skipPos hnodup (by simp [frame]) (by simp [frame]) ?_
    intro v hv b _
    have howner : ∀ v ∈ frame, owner v = none := by decide
    simp [howner v hv]
  · refine scoped_callSteps functionName returns _ (fun x hx => ?_) ?_
    · obtain ⟨b, hb, rfl⟩ := List.mem_map.mp hx
      refine List.mem_append_left _ (List.mem_reverse.mpr (List.mem_flatMap.mpr ⟨b, hb, ?_⟩))
      simp [declared]
    · simp [hresult, frame]

theorem pairwise_spares_bindings (g : TypeSyntax) (skipPos : Bool) (bounds : List Bound) :
    (bounds.flatMap (bindingSteps g skipPos)).Pairwise (Spares Var.name) ↔
      (∀ b ∈ bounds, b.name ∉ lateNames b.shape ∧ (Var.raw b.name).name ∉ typeNames g b ∧
        Var.ok.name ∉ typeNames g b) ∧
      bounds.Pairwise fun b c =>
        ∀ v ∈ declared b, v.name ∉ fixedNames skipPos c.shape ++ typeNames g c := by
  rw [List.pairwise_flatMap]
  simp only [pairwise_spares_binding, forall_spares_iff, introduced_binding,
    mem_freeNames_binding]

/-- What the wrapper's own variables could capture is a name of a type, or the function's. -/
theorem frame_spares_iff (g : TypeSyntax) (functionName : Text) (skipPos : Bool)
    (bounds : List Bound) (returns : List Text) {v : Var} (hv : v ∈ frame) :
    v.name ∉ freeNames (bodySteps g functionName skipPos bounds returns) ↔
      (∀ b ∈ bounds, v.name ∉ typeNames g b) ∧ v.name ∉ callNames functionName := by
  have hdefer : ∀ v ∈ frame, v.name ∉ [text "recover", text "nil", text "fmt"] := by decide
  have hfirst : v.name ∉ freeNames
      (uses [.free (text "recover"), .free (text "nil"), .var .err, .free (text "fmt")] : Steps) :=
    hdefer v hv
  have hbinding : ∀ b, v.name ∈ freeNames (bindingSteps g skipPos b) ↔ v.name ∈ typeNames g b := by
    intro b
    have hfixed : v.name ∉ fixedNames skipPos b.shape := fun hmem =>
      (fixedNames_plain skipPos b.shape _ hmem).2 v (List.mem_cons_of_mem _ hv) rfl
    rw [mem_freeNames_binding, List.mem_append, or_iff_right hfixed]
  have hbindings : v.name ∈ freeNames (bounds.flatMap (bindingSteps g skipPos)) ↔
      ∃ b ∈ bounds, v.name ∈ typeNames g b := by
    rw [freeNames, List.filterMap_flatMap, List.mem_flatMap]
    exact exists_congr fun b => and_congr_right fun _ => hbinding b
  rw [bodySteps, freeNames_append, freeNames_append, List.mem_append, List.mem_append,
    or_iff_right hfirst, hbindings, mem_freeNames_callSteps fun _ => hv]
  simp

/-- Capture in the whole body, parameter by parameter. -/
theorem spares_bodySteps_iff (g : TypeSyntax) (functionName : Text) (skipPos : Bool)
    (bounds : List Bound) (returns : List Text) :
    ((bodySteps g functionName skipPos bounds returns).Pairwise (Spares Var.name) ∧
        ∀ v ∈ frame, v.name ∉ freeNames (bodySteps g functionName skipPos bounds returns)) ↔
      (∀ b ∈ bounds, b.name ∉ lateNames b.shape ∧
        ∀ v ∈ .raw b.name :: .ok :: frame, v.name ∉ typeNames g b) ∧
      (bounds.Pairwise fun b c =>
        ∀ v ∈ declared b, v.name ∉ fixedNames skipPos c.shape ++ typeNames g c) ∧
      ∀ v ∈ frame ++ bounds.flatMap declared, v.name ∉ callNames functionName := by
  have hdefer : (uses [.free (text "recover"), .free (text "nil"), .var .err,
      .free (text "fmt")] : Steps).Pairwise (Spares Var.name) := by
    refine pairwise_spares_of ?_
    rw [introduced_uses]
    exact List.forall_mem_nil _
  have hcall : (∀ v ∈ bounds.flatMap declared,
        v.name ∉ freeNames (callSteps functionName returns (bounds.map Bound.name))) ↔
      ∀ v ∈ bounds.flatMap declared, v.name ∉ callNames functionName := by
    refine forall₂_congr fun v hv => not_congr (mem_freeNames_callSteps fun hnil => ?_)
    rw [List.map_eq_nil_iff.mp hnil] at hv
    cases hv
  have hbody : (bodySteps g functionName skipPos bounds returns).Pairwise (Spares Var.name) ↔
      ((∀ b ∈ bounds, b.name ∉ lateNames b.shape ∧ (Var.raw b.name).name ∉ typeNames g b ∧
        Var.ok.name ∉ typeNames g b) ∧
      bounds.Pairwise fun b c =>
        ∀ v ∈ declared b, v.name ∉ fixedNames skipPos c.shape ++ typeNames g c) ∧
      ∀ v ∈ bounds.flatMap declared, v.name ∉ callNames functionName := by
    rw [bodySteps, pairwise_spares_append, introduced_uses, pairwise_spares_append,
      introduced_bindings, pairwise_spares_bindings, hcall]
    have := spares_callSteps functionName returns (bounds.map Bound.name)
    simp only [hdefer, this, true_and, List.not_mem_nil, false_imp_iff, implies_true, and_true]
  have hframe := fun v (hv : v ∈ frame) => frame_spares_iff g functionName skipPos bounds returns hv
  rw [hbody, forall₂_congr hframe]
  simp only [List.forall_mem_cons, List.forall_mem_append]
  grind

/-- Every variable of the body has a name, where every parameter has. -/
theorem named_introduced_body {bounds : List Bound} (returns : List Text)
    (h : ∀ b ∈ bounds, b.name ≠ blankName) :
    ∀ v ∈ bounds.flatMap declared ++ resultVars returns, v.name ≠ blankName := by
  have hdeclared : ∀ b ∈ bounds, ∀ v ∈ declared b, v = .param b.name ∨ 1 < v.name.length := by
    rintro ⟨x, type, shape⟩ _
    cases shape <;> simp [declared, helpers, Var.name, text]
  intro v hv
  rcases List.mem_append.mp hv with hv | hv
  · obtain ⟨b, hb, hvb⟩ := List.mem_flatMap.mp hv
    rcases hdeclared b hb v hvb with rfl | hlength
    · exact h b hb
    · exact ne_blankName hlength
  · rw [resultVars] at hv
    split_ifs at hv
    · cases hv
    · rw [List.mem_singleton.mp hv]
      decide

/-- The names of the body are in nobody's way. -/
theorem hygienic_body_iff (g : TypeSyntax) {functionName : Text} (skipPos : Bool)
    {bounds : List Bound} (hnodup : (bounds.map Bound.name).Nodup) {returns : List Text}
    {call : Body} (hcall : callLines functionName returns (bounds.map Bound.name) = .ok call) :
    Hygienic Var.name blankName [frame] (deferLines ++ (paramLines g skipPos bounds ++ call)) ↔
      Collisionless g functionName skipPos bounds returns := by
  have hlinear : Linear Var.name blankName (deferLines ++ (paramLines g skipPos bounds ++ call))
      (bodySteps g functionName skipPos bounds returns) :=
    interior_defer.linear.append ((linear_paramLines g skipPos bounds).append (linear_call hcall))
  have hframe : Named Var.name blankName frame := ⟨by decide, by decide⟩
  have hiff : (∀ b ∈ bounds, b.name ≠ blankName) →
      (Hygienic Var.name blankName [frame] (deferLines ++ (paramLines g skipPos bounds ++ call)) ↔
        Collisionless g functionName skipPos bounds returns) := by
    intro hnamed
    rw [hlinear.hygienic_iff hframe (scoped_bodySteps g functionName skipPos hnodup returns)
      (introduced_bodySteps g functionName skipPos bounds returns ▸
        named_introduced_body returns hnamed), spares_bodySteps_iff, introduced_bodySteps]
    exact ⟨fun h => ⟨hnamed, h.1, h.2.1, h.2.2.1, h.2.2.2⟩,
      fun h => ⟨h.distinct, h.own, h.earlier, h.called⟩⟩
  constructor
  · intro h
    have hparts := (hygienic_append _ _ _).mp ((hygienic_append _ _ _).mp h).2
    have hnamed := named_of_hygienic hcall hparts.2
    exact (hiff fun b hb => hnamed b.name (List.mem_map_of_mem hb)).mp h
  · exact fun h => (hiff h.named).mpr h

theorem names_of_mapM_bound {params : List (Text × Text)} {bounds : List Bound}
    (h : params.mapM bound = .ok bounds) : bounds.map Bound.name = params.map Prod.fst := by
  induction params generalizing bounds with
  | nil =>
    obtain rfl := Except.ok.inj h
    rfl
  | cons param params ih =>
    rw [List.mapM_cons] at h
    cases hfirst : bound param with
    | error e =>
      rw [hfirst] at h
      cases h
    | ok b =>
      cases hrest : params.mapM bound with
      | error e =>
        rw [hfirst, hrest] at h
        cases h
      | ok rest =>
        rw [hfirst, hrest] at h
        obtain rfl := Except.ok.inj h
        rw [List.map_cons, List.map_cons, ih hrest]
        congr 1
        rw [bound] at hfirst
        cases hshape : shapeOf param.2 with
        | error e =>
          rw [hshape] at hfirst
          cases hfirst
        | ok shape =>
          rw [hshape] at hfirst
          rw [← Except.ok.inj hfirst]

/-- For every signature that is accepted, with names that differ, the body that is made for
it is hygienic exactly when the names of its parameters are in nobody's way. -/
theorem bindings_hygienic_iff (g : TypeSyntax) (functionName code : Text)
    (sig : List (Text × Text) × List Text) (bounds : List Bound) (body : Body)
    (hsig : Go.signature functionName code = .ok sig) (hnodup : (sig.1.map Prod.fst).Nodup)
    (hbounds : sig.1.mapM bound = .ok bounds)
    (hbody : generateBody g functionName code = .ok body) :
    Hygienic Var.name blankName [frame] body ↔
      Collisionless g functionName (skipsPos sig.1) bounds sig.2 := by
  have hnames := names_of_mapM_bound hbounds
  rw [generateBody, hsig] at hbody
  change executeBody g functionName sig = .ok body at hbody
  rw [executeBody, hbounds, ← hnames] at hbody
  cases hcall : callLines functionName sig.2 (bounds.map Bound.name) with
  | error e =>
    rw [hcall] at hbody
    cases hbody
  | ok call =>
    rw [hcall] at hbody
    obtain rfl := Except.ok.inj hbody
    rw [List.append_assoc]
    exact hygienic_body_iff g _ (hnames ▸ hnodup) hcall

/-- A type as a sequence of words and what stands between them. -/
def wordTypes : TypeSyntax where
  pieces := fun type => (type.splitBy fun c d => asciiWord c == asciiWord d).map fun part =>
    (part, part.head?.any startsName)
  whole := by
    intro type
    rw [List.flatMap_map]
    exact List.flatMap_id.trans (List.flatten_splitBy _ type)

instance : DecidableRel Distinct := fun v w => inferInstanceAs (Decidable (v.name = w.name → v = w))

def mergeText : Text :=
  text "func merge(head *ListNode, k int, s []byte) []int \x7b return nil \x7d"

def mergeSignature : List (Text × Text) × List Text :=
  ([(text "head", text "*ListNode"), (text "k", text "int"), (text "s", text "[]byte")],
    [text "[]int"])

def mergeBounds : List Bound :=
  [⟨text "head", text "*ListNode", .listPointer⟩, ⟨text "k", text "int", .other⟩,
    ⟨text "s", text "[]byte", .bytes .decodeBytes⟩]

theorem bindings_hygienic_merge :
    Go.signature (text "merge") mergeText = .ok mergeSignature ∧
      ∃ body, generateBody wordTypes (text "merge") mergeText = .ok body ∧
        Hygienic Var.name blankName [frame] body := by
  have hsig : Go.signature (text "merge") mergeText = .ok mergeSignature :=
    eq_ok_of_toOption (by decide +kernel)
  have hbounds : mergeSignature.1.mapM bound = .ok mergeBounds :=
    eq_ok_of_toOption (by decide +kernel)
  have hbody : generateBody wordTypes (text "merge") mergeText =
      executeBody wordTypes (text "merge") mergeSignature := by
    rw [generateBody, hsig]
    rfl
  refine ⟨hsig, _, hbody, ?_⟩
  refine (bindings_hygienic_iff wordTypes (text "merge") mergeText mergeSignature mergeBounds _ hsig
    (by decide) hbounds hbody).mpr ⟨?_, ?_, ?_, ?_, ?_⟩ <;> decide +kernel

def longestPathText : Text :=
  text "func lengthLongestPath(input string) int \x7b return len(input) \x7d"

def longestPathSignature : List (Text × Text) × List Text :=
  ([(text "input", text "string")], [text "int"])

/-- A parameter named `input` is declared in the body where `input` is declared already. -/
theorem input_declared_twice :
    Go.signature (text "lengthLongestPath") longestPathText = .ok longestPathSignature ∧
      (longestPathSignature.1.map Prod.fst).Nodup ∧
      ∃ body, generateBody wordTypes (text "lengthLongestPath") longestPathText = .ok body ∧
        ¬ Hygienic Var.name blankName [frame] body := by
  have hsig : Go.signature (text "lengthLongestPath") longestPathText =
      .ok longestPathSignature := eq_ok_of_toOption (by decide +kernel)
  have hbody : generateBody wordTypes (text "lengthLongestPath") longestPathText =
      executeBody wordTypes (text "lengthLongestPath") longestPathSignature := by
    rw [generateBody, hsig]
    rfl
  refine ⟨hsig, by decide, _, hbody, ?_⟩
  decide +kernel

end ExecutionEngine.GoHygiene
