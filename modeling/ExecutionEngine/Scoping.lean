import Mathlib.Data.List.Basic
import Mathlib.Data.List.Pairwise
import Mathlib.Tactic

/-!
# Names in a block-structured body

A body is written over variables and printed over names. Whoever reads the printed body
takes a name for the nearest variable that was declared with it; the body is hygienic when
that is always the variable it was written with, and when no block declares a name twice.
Where the inner blocks capture nothing, a body is as hygienic as the list of what it
declares and uses, one after the other.
-/
namespace ExecutionEngine.Scoping

/-- A piece of an expression: plain text, a name from outside of the body, or a variable. -/
inductive Piece (ν N : Type*)
  | plain (t : N)
  | free (n : N)
  | var (v : ν)
  deriving DecidableEq

/-- A line of the body: `x, y := e`, `var x T`, an expression, `if test { body }`,
`if x := e; test {`, another line that opens a block, one that closes it, an empty one. -/
inductive Line (ν N : Type*)
  | define (vars : List ν) (value : List (Piece ν N))
  | declare (v : ν) (type : List (Piece ν N))
  | run (e : List (Piece ν N))
  | guard (test body : List (Piece ν N))
  | branch (vars : List ν) (value test : List (Piece ν N))
  | nested (head : List (Piece ν N))
  | close (foot : N)
  | blank
  deriving DecidableEq

variable {ν N : Type*}

/-- The scopes after a line, the innermost first. A block stands in a block of its own,
which holds what its first line declares. -/
def after (scopes : List (List ν)) : Line ν N → List (List ν)
  | .define vars _ => (vars.reverse ++ scopes.headD []) :: scopes.tail
  | .declare v _ => (v :: scopes.headD []) :: scopes.tail
  | .branch vars _ _ => [] :: vars.reverse :: scopes
  | .nested _ => [] :: [] :: scopes
  | .close _ => scopes.drop 2
  | _ => scopes

section
variable [DecidableEq ν] [DecidableEq N] (name : ν → N) (blank : N)

/-- The variable that a name stands for. -/
def lookup (visible : List ν) (n : N) : Option ν := visible.find? fun v => name v = n

/-- A piece stands for what it was written for. Nothing can be read from a blank name. -/
def Meant (visible : List ν) : Piece ν N → Prop
  | .plain _ => True
  | .free n => lookup name visible n = none
  | .var v => name v ≠ blank ∧ lookup name visible (name v) = some v

/-- A variable with a name that its scope does not have. -/
def New (scope : List ν) (v : ν) : Prop := name v = blank ∨ ∀ w ∈ scope, name w ≠ name v

/-- `x, y := e` declares at least one variable and assigns the others. -/
def Defines (scope vars : List ν) : Prop :=
  vars.Pairwise (fun v w => name v = blank ∨ name v ≠ name w) ∧
    (∀ v ∈ vars, v ∈ scope ∨ New name blank scope v) ∧ ∃ v ∈ vars, name v ≠ blank ∧ v ∉ scope

/-- What is asked of a line. -/
def Legal (scopes : List (List ν)) : Line ν N → Prop
  | .define vars value =>
      (∀ p ∈ value, Meant name blank scopes.flatten p) ∧
        Defines name blank (scopes.headD []) vars
  | .declare v type =>
      (∀ p ∈ type, Meant name blank scopes.flatten p) ∧ New name blank (scopes.headD []) v
  | .run e => ∀ p ∈ e, Meant name blank scopes.flatten p
  | .guard test body => ∀ p ∈ test ++ body, Meant name blank scopes.flatten p
  | .branch vars value test =>
      (∀ p ∈ value, Meant name blank scopes.flatten p) ∧ Defines name blank [] vars ∧
        ∀ p ∈ test, Meant name blank (vars.reverse ++ scopes.flatten) p
  | .nested head => ∀ p ∈ head, Meant name blank scopes.flatten p
  | .close _ => True
  | .blank => True

/-- No name is declared twice in a block, and every piece stands for what it was written
for. -/
def Hygienic (scopes : List (List ν)) : List (Line ν N) → Prop
  | [] => True
  | line :: lines => Legal name blank scopes line ∧ Hygienic (after scopes line) lines

instance (visible : List ν) (p : Piece ν N) : Decidable (Meant name blank visible p) :=
  match p with
  | .plain _ => .isTrue trivial
  | .free n => inferInstanceAs (Decidable (lookup name visible n = none))
  | .var v => inferInstanceAs (Decidable (name v ≠ blank ∧ lookup name visible (name v) = some v))

instance (scope : List ν) (v : ν) : Decidable (New name blank scope v) :=
  inferInstanceAs (Decidable (_ ∨ ∀ w ∈ scope, name w ≠ name v))

instance (scope vars : List ν) : Decidable (Defines name blank scope vars) :=
  inferInstanceAs (Decidable (_ ∧ (∀ v ∈ vars, v ∈ scope ∨ New name blank scope v) ∧
    ∃ v ∈ vars, name v ≠ blank ∧ v ∉ scope))

instance (scopes : List (List ν)) (line : Line ν N) : Decidable (Legal name blank scopes line) :=
  match line with
  | .define vars value => inferInstanceAs (Decidable
      ((∀ p ∈ value, Meant name blank scopes.flatten p) ∧
        Defines name blank (scopes.headD []) vars))
  | .declare v type => inferInstanceAs (Decidable
      ((∀ p ∈ type, Meant name blank scopes.flatten p) ∧ New name blank (scopes.headD []) v))
  | .run e => inferInstanceAs (Decidable (∀ p ∈ e, Meant name blank scopes.flatten p))
  | .guard test body => inferInstanceAs (Decidable
      (∀ p ∈ test ++ body, Meant name blank scopes.flatten p))
  | .branch vars value test => inferInstanceAs (Decidable
      ((∀ p ∈ value, Meant name blank scopes.flatten p) ∧ Defines name blank [] vars ∧
        ∀ p ∈ test, Meant name blank (vars.reverse ++ scopes.flatten) p))
  | .nested head => inferInstanceAs (Decidable (∀ p ∈ head, Meant name blank scopes.flatten p))
  | .close _ => .isTrue trivial
  | .blank => .isTrue trivial

instance decidableHygienic (scopes : List (List ν)) (lines : List (Line ν N)) :
    Decidable (Hygienic name blank scopes lines) :=
  match lines with
  | [] => .isTrue trivial
  | line :: lines =>
    have := decidableHygienic (after scopes line) lines
    inferInstanceAs (Decidable (_ ∧ _))

end

/-- The scopes after several lines. -/
def afterAll (scopes : List (List ν)) (lines : List (Line ν N)) : List (List ν) :=
  lines.foldl after scopes

theorem afterAll_append (scopes : List (List ν)) (lines more : List (Line ν N)) :
    afterAll scopes (lines ++ more) = afterAll (afterAll scopes lines) more := List.foldl_append

/-- What a body does with names: it uses one from outside, uses a variable, declares one,
or declares one unless it is there. -/
inductive Step (ν N : Type*)
  | free (n : N)
  | see (v : ν)
  | intro (v : ν)
  | again (v : ν)

def Step.vars : Step ν N → List ν
  | .free _ => []
  | .see _ => []
  | .intro v => [v]
  | .again v => [v]

def introduced (steps : List (Step ν N)) : List ν := steps.flatMap Step.vars

def Step.Scoped (here : List ν) : Step ν N → Prop
  | .free _ => True
  | .see v => v ∈ here
  | .intro v => v ∉ here
  | .again _ => True

/-- Variables are declared once, before they are used; their names do not matter. -/
def Scoped (here : List ν) : List (Step ν N) → Prop
  | [] => True
  | s :: steps => s.Scoped here ∧ Scoped (s.vars ++ here) steps

/-- The uses of an expression. -/
def uses (e : List (Piece ν N)) : List (Step ν N) :=
  e.flatMap fun
    | .plain _ => []
    | .free n => [.free n]
    | .var v => [.see v]

section
variable (name : ν → N) (blank : N)

/-- The name of a variable is not in the way of a later step. -/
def Avoids (v : ν) : Step ν N → Prop
  | .free n => name v ≠ n
  | .see _ => True
  | .intro w => name v = name w → v = w
  | .again w => name v = name w → v = w

/-- What the first of two steps declares is not in the way of the second. -/
def Clear (s t : Step ν N) : Prop := ∀ v ∈ s.vars, Avoids name v t

/-- Variables with names of their own. -/
structure Named (here : List ν) : Prop where
  apart : ∀ v ∈ here, ∀ w ∈ here, name v = name w → v = w
  named : ∀ v ∈ here, name v ≠ blank

end

section
variable {name : ν → N} {blank : N}

theorem scoped_append_iff {here : List ν} {steps later : List (Step ν N)} :
    Scoped here (steps ++ later) ↔
      Scoped here steps ∧ Scoped ((introduced steps).reverse ++ here) later := by
  induction steps generalizing here with
  | nil => simp [Scoped, introduced]
  | cons s steps ih =>
    have hvars : s.vars.reverse = s.vars := by cases s <;> rfl
    rw [List.cons_append, Scoped, Scoped, ih, and_assoc]
    simp [introduced, hvars]

theorem mem_introduced_iff {steps : List (Step ν N)} {v : ν} :
    v ∈ introduced steps ↔ ∃ s ∈ steps, v ∈ s.vars := List.mem_flatMap

theorem introduced_append (steps later : List (Step ν N)) :
    introduced (steps ++ later) = introduced steps ++ introduced later := List.flatMap_append

theorem vars_of_mem_uses {e : List (Piece ν N)} {s : Step ν N} (h : s ∈ uses e) : s.vars = [] := by
  obtain ⟨p, -, hp⟩ := List.mem_flatMap.mp h
  cases p with
  | plain t => cases hp
  | free n => rw [List.mem_singleton.mp hp, Step.vars]
  | var v => rw [List.mem_singleton.mp hp, Step.vars]

theorem introduced_uses (e : List (Piece ν N)) : introduced (uses e) = [] := by
  rw [introduced, List.flatMap_eq_nil_iff]
  exact fun s hs => vars_of_mem_uses hs

theorem pairwise_uses (e : List (Piece ν N)) : (uses e).Pairwise (Clear name) := by
  refine List.pairwise_of_forall_mem_list fun s hs t _ v hv => ?_
  rw [vars_of_mem_uses hs] at hv
  cases hv

theorem Named.append {here new : List ν} (h : Named name blank here)
    (hnew : Named name blank new) (happart : ∀ v ∈ here, ∀ w ∈ new, name v = name w → v = w) :
    Named name blank (new ++ here) where
  apart := by
    intro v hv w hw heq
    rcases List.mem_append.mp hv with hv | hv <;> rcases List.mem_append.mp hw with hw | hw
    · exact hnew.apart v hv w hw heq
    · exact (happart w hw v hv heq.symm).symm
    · exact happart v hv w hw heq
    · exact h.apart v hv w hw heq
  named := by
    intro v hv
    rcases List.mem_append.mp hv with hv | hv
    · exact hnew.named v hv
    · exact h.named v hv

theorem avoids_of_mem_vars {v w : ν} {s : Step ν N} (h : w ∈ s.vars) :
    Avoids name v s ↔ (name v = name w → v = w) := by
  cases s with
  | free n => cases h
  | see u => cases h
  | intro u => rw [List.mem_singleton.mp h, Avoids]
  | again u => rw [List.mem_singleton.mp h, Avoids]

/-- The names from outside that a body uses. -/
def freeNames (steps : List (Step ν N)) : List N :=
  steps.filterMap fun
    | .free n => some n
    | _ => none

theorem freeNames_append (steps later : List (Step ν N)) :
    freeNames (steps ++ later) = freeNames steps ++ freeNames later := List.filterMap_append

theorem forall_avoids_iff {v : ν} {steps : List (Step ν N)} :
    (∀ s ∈ steps, Avoids name v s) ↔
      name v ∉ freeNames steps ∧ ∀ w ∈ introduced steps, name v = name w → v = w := by
  induction steps with
  | nil => simp [freeNames, introduced]
  | cons s steps ih =>
    have hcons : introduced (s :: steps) = s.vars ++ introduced steps := List.flatMap_cons
    rw [List.forall_mem_cons, ih, hcons]
    cases s <;> simp [Avoids, freeNames, Step.vars] <;> tauto

/-- What the first of two steps declares does not capture the name that the second uses. -/
def Spares (name : ν → N) (s t : Step ν N) : Prop := ∀ v ∈ s.vars, name v ∉ freeNames [t]

theorem pairwise_clear_iff {steps : List (Step ν N)} :
    steps.Pairwise (Clear name) ↔
      (introduced steps).Pairwise (fun v w => name v = name w → v = w) ∧
        steps.Pairwise (Spares name) := by
  have hclear : ∀ s t : Step ν N, Clear name s t ↔
      (∀ v ∈ s.vars, ∀ w ∈ t.vars, name v = name w → v = w) ∧ Spares name s t := by
    intro s t
    have hone : ∀ v, Avoids name v t ↔
        name v ∉ freeNames [t] ∧ ∀ w ∈ t.vars, name v = name w → v = w := by
      intro v
      have h := @forall_avoids_iff _ _ name v [t]
      rw [List.forall_mem_singleton] at h
      simpa [introduced] using h
    simp only [Clear, hone, Spares]
    exact ⟨fun h => ⟨fun v hv => (h v hv).2, fun v hv => (h v hv).1⟩,
      fun h v hv => ⟨h.2 v hv, h.1 v hv⟩⟩
  have hvars : ∀ s ∈ steps, s.vars.Pairwise fun v w => name v = name w → v = w := by
    intro s _
    cases s <;> simp [Step.vars]
  rw [introduced, List.pairwise_flatMap, and_iff_right hvars, ← List.pairwise_and_iff]
  exact ⟨fun h => h.imp fun {s t} => (hclear s t).mp, fun h => h.imp fun {s t} => (hclear s t).mpr⟩

theorem mem_freeNames_iff {steps : List (Step ν N)} {n : N} :
    n ∈ freeNames steps ↔ ∃ s ∈ steps, n ∈ freeNames [s] := by
  induction steps with
  | nil => simp [freeNames]
  | cons s steps ih =>
    rw [show s :: steps = [s] ++ steps from rfl, freeNames_append, List.mem_append, ih]
    simp

theorem forall_spares_iff {steps later : List (Step ν N)} :
    (∀ s ∈ steps, ∀ t ∈ later, Spares name s t) ↔
      ∀ v ∈ introduced steps, name v ∉ freeNames later := by
  constructor
  · intro h v hv hmem
    obtain ⟨s, hs, hvs⟩ := mem_introduced_iff.mp hv
    obtain ⟨t, ht, hvt⟩ := mem_freeNames_iff.mp hmem
    exact h s hs t ht v hvs hvt
  · intro h s hs t ht v hv hmem
    exact h v (mem_introduced_iff.mpr ⟨s, hs, hv⟩) (mem_freeNames_iff.mpr ⟨t, ht, hmem⟩)

theorem pairwise_spares_append {steps later : List (Step ν N)} :
    (steps ++ later).Pairwise (Spares name) ↔ steps.Pairwise (Spares name) ∧
      later.Pairwise (Spares name) ∧ ∀ v ∈ introduced steps, name v ∉ freeNames later := by
  rw [List.pairwise_append, forall_spares_iff]

theorem pairwise_spares_of {steps : List (Step ν N)}
    (h : ∀ v ∈ introduced steps, name v ∉ freeNames steps) : steps.Pairwise (Spares name) :=
  List.pairwise_of_forall_mem_list (forall_spares_iff.mpr h)

/-- Variables that are not in each other's way have names of their own. -/
theorem named_introduced {steps : List (Step ν N)} (h : steps.Pairwise (Clear name))
    (hnamed : ∀ v ∈ introduced steps, name v ≠ blank) :
    Named name blank (introduced steps) := by
  induction steps with
  | nil => exact ⟨by simp [introduced], hnamed⟩
  | cons s steps ih =>
    obtain ⟨hclear, hrest⟩ := List.pairwise_cons.mp h
    have hcons : introduced (s :: steps) = s.vars ++ introduced steps := List.flatMap_cons
    rw [hcons] at hnamed ⊢
    have hs : Named name blank s.vars := by
      refine ⟨fun v hv w hw _ => ?_, fun v hv => hnamed v (List.mem_append_left _ hv)⟩
      cases s <;> simp_all [Step.vars]
    have hlater := ih hrest fun v hv => hnamed v (List.mem_append_right _ hv)
    refine hlater.append hs fun v hv w hw heq => ?_
    obtain ⟨t, ht, hvt⟩ := mem_introduced_iff.mp hv
    exact ((avoids_of_mem_vars hvt).mp (hclear t ht w hw) heq.symm).symm

end

section
variable [DecidableEq N] {name : ν → N} {blank : N}

theorem hygienic_append (scopes : List (List ν)) (lines more : List (Line ν N)) :
    Hygienic name blank scopes (lines ++ more) ↔
      Hygienic name blank scopes lines ∧ Hygienic name blank (afterAll scopes lines) more := by
  induction lines generalizing scopes with
  | nil => simp [Hygienic, afterAll]
  | cons line lines ih =>
    rw [List.cons_append, Hygienic, Hygienic, ih, and_assoc]
    rfl

theorem lookup_of_mem {here : List ν} (h : Named name blank here) {v : ν} (hv : v ∈ here) :
    lookup name here (name v) = some v := by
  rw [lookup]
  cases hfind : here.find? fun w => name w = name v with
  | none =>
    have := List.find?_eq_none.mp hfind v hv
    simp at this
  | some w =>
    have hname : name w = name v := by simpa using List.find?_some hfind
    rw [h.apart w (List.mem_of_find?_eq_some hfind) v hv hname]

theorem lookup_eq_none_iff {here : List ν} {n : N} :
    lookup name here n = none ↔ ∀ v ∈ here, name v ≠ n := by
  simp [lookup, List.find?_eq_none]

/-- Under names of their own, variables are seen, and a name from outside is one that no
variable has. -/
theorem meant_iff {here : List ν} (h : Named name blank here) {e : List (Piece ν N)}
    (he : Scoped here (uses e)) :
    (∀ p ∈ e, Meant name blank here p) ↔ ∀ v ∈ here, ∀ s ∈ uses e, Avoids name v s := by
  induction e with
  | nil => simp [uses]
  | cons p e ih =>
    have hcons : uses (p :: e) = uses [p] ++ uses e := by simp [uses]
    rw [hcons] at he ⊢
    obtain ⟨hp, hrest⟩ := scoped_append_iff.mp he
    rw [introduced_uses] at hrest
    have hhead : Meant name blank here p ↔ ∀ v ∈ here, ∀ s ∈ uses [p], Avoids name v s := by
      cases p with
      | plain t => simp [Meant, uses]
      | free n => simp [Meant, uses, Avoids, lookup_eq_none_iff]
      | var v =>
        have hv : v ∈ here := hp.1
        simp [Meant, uses, Avoids, lookup_of_mem h hv, h.named v hv]
    rw [List.forall_mem_cons, hhead, ih hrest]
    simp only [List.mem_append, or_imp, forall_and]

/-- A body whose blocks capture nothing, and what it declares and uses at its top. -/
structure Linear (name : ν → N) (blank : N) (lines : List (Line ν N)) (steps : List (Step ν N)) :
    Prop where
  scopes : ∀ here, afterAll [here] lines = [(introduced steps).reverse ++ here]
  hygienic : ∀ here, Named name blank here → Scoped here steps →
    (∀ v ∈ introduced steps, name v ≠ blank) →
    (Hygienic name blank [here] lines ↔
      steps.Pairwise (Clear name) ∧ ∀ v ∈ here, ∀ s ∈ steps, Avoids name v s)

/-- Hygiene in terms of names: variables differ, and no name is captured. -/
theorem Linear.hygienic_iff {lines : List (Line ν N)} {steps : List (Step ν N)}
    (h : Linear name blank lines steps) {here : List ν} (hnamed : Named name blank here)
    (hscoped : Scoped here steps) (hblank : ∀ v ∈ introduced steps, name v ≠ blank) :
    Hygienic name blank [here] lines ↔
      (here ++ introduced steps).Pairwise (fun v w => name v = name w → v = w) ∧
        steps.Pairwise (Spares name) ∧ ∀ v ∈ here, name v ∉ freeNames steps := by
  have hhere : here.Pairwise fun v w => name v = name w → v = w :=
    List.pairwise_of_forall_mem_list hnamed.apart
  rw [h.hygienic here hnamed hscoped hblank, pairwise_clear_iff, List.pairwise_append]
  simp only [forall_avoids_iff, hhere, true_and]
  grind

theorem Linear.nil : Linear name blank [] [] where
  scopes := fun _ => rfl
  hygienic := by simp [Hygienic]

theorem Linear.append {lines more : List (Line ν N)} {steps later : List (Step ν N)}
    (h : Linear name blank lines steps) (hmore : Linear name blank more later) :
    Linear name blank (lines ++ more) (steps ++ later) where
  scopes := by
    intro here
    rw [afterAll_append, h.scopes, hmore.scopes, introduced_append, List.reverse_append,
      List.append_assoc]
  hygienic := by
    intro here hnamed hscoped hblank
    obtain ⟨hsteps, hlater⟩ := scoped_append_iff.mp hscoped
    rw [introduced_append] at hblank
    have hfirst := h.hygienic here hnamed hsteps fun v hv => hblank v (List.mem_append_left _ hv)
    rw [hygienic_append, h.scopes, hfirst, List.pairwise_append]
    have hsecond : steps.Pairwise (Clear name) → (∀ v ∈ here, ∀ s ∈ steps, Avoids name v s) →
        (Hygienic name blank [(introduced steps).reverse ++ here] more ↔
          later.Pairwise (Clear name) ∧ (∀ s ∈ steps, ∀ t ∈ later, Clear name s t) ∧
            ∀ v ∈ here, ∀ s ∈ later, Avoids name v s) := by
      intro hpairs havoid
      have hintro := named_introduced hpairs fun v hv => hblank v (List.mem_append_left _ hv)
      have hall : Named name blank ((introduced steps).reverse ++ here) := by
        refine hnamed.append ?_ fun v hv w hw heq => ?_
        · exact ⟨by simpa using hintro.apart, by simpa using hintro.named⟩
        · obtain ⟨s, hs, hws⟩ := mem_introduced_iff.mp (List.mem_reverse.mp hw)
          exact (avoids_of_mem_vars hws).mp (havoid v hv s hs) heq
      rw [hmore.hygienic _ hall hlater fun v hv => hblank v (List.mem_append_right _ hv)]
      refine and_congr_right fun _ => ?_
      simp only [List.mem_append, List.mem_reverse, mem_introduced_iff, Clear]
      grind
    grind

/-- Lines that declare nothing outside of their own blocks, and what they use from there. -/
structure Interior (name : ν → N) (blank : N) (lines : List (Line ν N)) (e : List (Piece ν N)) :
    Prop where
  scopes : ∀ scopes, afterAll scopes lines = scopes
  hygienic : ∀ scopes, Hygienic name blank scopes lines ↔
    ∀ p ∈ e, Meant name blank scopes.flatten p

theorem Interior.linear {lines : List (Line ν N)} {e : List (Piece ν N)}
    (h : Interior name blank lines e) : Linear name blank lines (uses e) where
  scopes := by
    intro here
    rw [introduced_uses, h.scopes]
    rfl
  hygienic := by
    intro here hnamed hscoped _
    rw [h.hygienic, List.flatten_singleton, meant_iff hnamed hscoped]
    exact (and_iff_right (pairwise_uses e)).symm

theorem Interior.run (e : List (Piece ν N)) : Interior name blank [.run e] e where
  scopes := fun _ => rfl
  hygienic := by simp [Hygienic, Legal]

theorem Interior.guard (test body : List (Piece ν N)) :
    Interior name blank [.guard test body] (test ++ body) where
  scopes := fun _ => rfl
  hygienic := by simp [Hygienic, Legal]

theorem Interior.empty : Interior name blank [.blank] [] where
  scopes := fun _ => rfl
  hygienic := by simp [Hygienic, Legal]

theorem Interior.nested {lines : List (Line ν N)} {e : List (Piece ν N)}
    (h : Interior name blank lines e) (head : List (Piece ν N)) (foot : N) :
    Interior name blank (.nested head :: lines ++ [.close foot]) (head ++ e) where
  scopes := by
    intro scopes
    rw [afterAll_append]
    change afterAll (afterAll ([] :: [] :: scopes) lines) [.close foot] = scopes
    rw [h.scopes]
    rfl
  hygienic := by
    intro scopes
    rw [hygienic_append, Hygienic, h.hygienic]
    simp [Legal, Hygienic, after, or_imp, forall_and]

/-- A line that declares variables, each with a step of its own. -/
theorem Linear.of_declares {line : Line ν N} {e : List (Piece ν N)} {steps : List (Step ν N)}
    (hafter : ∀ here, after [here] line = [(introduced steps).reverse ++ here])
    (hlegal : ∀ here, Named name blank here → Scoped here steps →
      (∀ v ∈ introduced steps, name v ≠ blank) →
      (Legal name blank [here] line ↔ (∀ p ∈ e, Meant name blank here p) ∧
        steps.Pairwise (Clear name) ∧ ∀ v ∈ here, ∀ s ∈ steps, Avoids name v s)) :
    Linear name blank [line] (uses e ++ steps) where
  scopes := by
    intro here
    rw [introduced_append, introduced_uses]
    exact hafter here
  hygienic := by
    intro here hnamed hscoped hblank
    obtain ⟨huses, hsteps⟩ := scoped_append_iff.mp hscoped
    rw [introduced_uses] at hsteps
    rw [introduced_append, introduced_uses] at hblank
    rw [Hygienic, Hygienic, and_true, hlegal here hnamed hsteps hblank, meant_iff hnamed huses,
      List.pairwise_append]
    have hclear : ∀ s ∈ uses e, ∀ t ∈ steps, Clear name s t := by
      intro s hs t _ v hv
      rw [vars_of_mem_uses hs] at hv
      cases hv
    have := @pairwise_uses _ _ name e
    grind

omit [DecidableEq N] in
theorem forall_ne_iff {here : List ν} {v : ν} (h : v ∉ here) :
    (∀ w ∈ here, name w ≠ name v) ↔ ∀ w ∈ here, name w = name v → w = v := by
  refine forall₂_congr fun w hw => ?_
  have hne : w ≠ v := fun heq => h (heq ▸ hw)
  simp [hne]

theorem Linear.declare (v : ν) (type : List (Piece ν N)) :
    Linear name blank [.declare v type] (uses type ++ [.intro v]) := by
  refine .of_declares (fun _ => rfl) fun here _ hscoped hblank => ?_
  have hv : name v ≠ blank := hblank v (by simp [introduced, Step.vars])
  have hfresh := @forall_ne_iff _ _ name _ _ hscoped.1
  simp [Legal, New, hv, hfresh, Avoids]

theorem Linear.define (v : ν) (value : List (Piece ν N)) :
    Linear name blank [.define [v] value] (uses value ++ [.intro v]) := by
  refine .of_declares (fun _ => rfl) fun here _ hscoped hblank => ?_
  have hv : name v ≠ blank := hblank v (by simp [introduced, Step.vars])
  have hnew : v ∉ here := hscoped.1
  have hfresh := @forall_ne_iff _ _ name _ _ hnew
  simp [Legal, Defines, New, hv, hnew, hfresh, Avoids]

/-- The second variable may be there already. -/
theorem Linear.define_again {v w : ν} (hne : v ≠ w) (value : List (Piece ν N)) :
    Linear name blank [.define [v, w] value] (uses value ++ [.intro v, .again w]) := by
  refine .of_declares (fun _ => rfl) fun here hnamed hscoped hblank => ?_
  have hv : name v ≠ blank := hblank v (by simp [introduced, Step.vars])
  have hw : name w ≠ blank := hblank w (by simp [introduced, Step.vars])
  have hnew : v ∉ here := hscoped.1
  have hfresh := @forall_ne_iff _ _ name _ _ hnew
  have hagain : (w ∈ here ∨ ∀ u ∈ here, name u ≠ name w) ↔
      ∀ u ∈ here, name u = name w → u = w := by
    constructor
    · rintro (hmem | hfree) u hu heq
      · exact hnamed.apart u hu w hmem heq
      · exact absurd heq (hfree u hu)
    · intro h
      by_cases hmem : w ∈ here
      · exact .inl hmem
      · exact .inr fun u hu heq => hmem (h u hu heq ▸ hu)
  simp [Legal, Defines, New, hv, hw, hnew, hfresh, hagain, Avoids, Clear, Step.vars, hne,
    forall_and]

end

section
variable [DecidableEq ν] [DecidableEq N] {name : ν → N} {blank : N}

/-- The name of a piece, if it has one. -/
def Piece.name? (name : ν → N) : Piece ν N → Option N
  | .plain _ => none
  | .free n => some n
  | .var v => some (name v)

/-- What an expression uses besides the variables of its own block. -/
def outside (inner : List ν) (e : List (Piece ν N)) : List (Piece ν N) :=
  e.filter fun p => ∀ v ∈ inner, p ≠ .var v

/-- The variables of a block capture nothing. -/
def Uncaptured (name : ν → N) (inner : List ν) (e : List (Piece ν N)) : Prop :=
  ∀ p ∈ outside inner e, ∀ v ∈ inner, p.name? name ≠ some (name v)

theorem meant_append_iff {inner here : List ν} (h : Named name blank inner)
    {e : List (Piece ν N)} (he : Uncaptured name inner e) :
    (∀ p ∈ e, Meant name blank (inner ++ here) p) ↔
      ∀ p ∈ outside inner e, Meant name blank here p := by
  have hinner : ∀ v ∈ inner, Meant name blank (inner ++ here) (.var v : Piece ν N) := by
    intro v hv
    refine ⟨h.named v hv, ?_⟩
    rw [lookup, List.find?_append, ← lookup, lookup_of_mem h hv, Option.some_or]
  have houter : ∀ p ∈ outside inner e,
      (Meant name blank (inner ++ here) p ↔ Meant name blank here p) := by
    intro p hp
    have hlookup : ∀ n, p.name? name = some n →
        lookup name (inner ++ here) n = lookup name here n := by
      intro n hn
      have hnone : lookup name inner n = none := by
        refine lookup_eq_none_iff.mpr fun v hv heq => he p hp v hv ?_
        rw [hn, heq]
      rw [lookup, List.find?_append, ← lookup, hnone, Option.none_or, lookup]
    cases p with
    | plain t => rfl
    | free n => rw [Meant, Meant, hlookup n rfl]
    | var v => rw [Meant, Meant, hlookup _ rfl]
  constructor
  · intro hall p hp
    exact (houter p hp).mp (hall p (List.mem_of_mem_filter hp))
  · intro hall p hp
    by_cases hout : ∀ v ∈ inner, p ≠ .var v
    · have hmem : p ∈ outside inner e := List.mem_filter.mpr ⟨hp, by simpa using hout⟩
      exact (houter p hmem).mpr (hall p hmem)
    · obtain ⟨v, hv, hp⟩ : ∃ v ∈ inner, p = .var v := by simpa using hout
      exact hp ▸ hinner v hv

/-- The variables of the first line are visible in the block it opens. -/
theorem Interior.branch {lines : List (Line ν N)} {e : List (Piece ν N)}
    (h : Interior name blank lines e) {vars : List ν} (hne : vars ≠ []) (hnodup : vars.Nodup)
    (hvars : Named name blank vars) {test : List (Piece ν N)}
    (huncaptured : Uncaptured name vars.reverse (test ++ e)) (value : List (Piece ν N)) (foot : N) :
    Interior name blank (.branch vars value test :: lines ++ [.close foot])
      (value ++ outside vars.reverse (test ++ e)) where
  scopes := by
    intro scopes
    rw [afterAll_append]
    change afterAll (afterAll ([] :: vars.reverse :: scopes) lines) [.close foot] = scopes
    rw [h.scopes]
    rfl
  hygienic := by
    intro scopes
    have hdefines : Defines name blank [] vars := by
      obtain ⟨v, hv⟩ := List.exists_mem_of_ne_nil vars hne
      refine ⟨?_, fun v _ => .inr (.inr (by simp)), v, hv, hvars.named v hv, by simp⟩
      exact (List.Pairwise.and_mem.mp hnodup).imp fun {v w} hvw =>
        .inr fun heq => hvw.2.2 (hvars.apart v hvw.1 w hvw.2.1 heq)
    have hreverse : Named name blank vars.reverse :=
      ⟨by simpa using hvars.apart, by simpa using hvars.named⟩
    have hinside := @meant_append_iff _ _ _ _ name blank _ scopes.flatten hreverse _ huncaptured
    rw [hygienic_append, Hygienic, h.hygienic]
    simp only [Legal, hdefines, true_and, after, List.flatten_cons, List.nil_append, Hygienic,
      and_true, List.forall_mem_append, ← hinside, and_assoc]

end

end ExecutionEngine.Scoping
