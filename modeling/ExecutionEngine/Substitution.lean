import Mathlib.Algebra.BigOperators.Group.List.Basic
import Mathlib.Algebra.Order.Group.Int
import Mathlib.Data.List.Infix
import Mathlib.Tactic

/-!
# Filling a template by replacing

A template has placeholders in it, each between marks that occur in none of them. Replacing
one after the other acts on every slot by itself: what a slot holds in the end is what was
filled in, with the placeholders replaced that are replaced later. Whether a later
replacement changed anything is seen from weights, since what is replaced and what replaces
it weigh differently.
-/
namespace ExecutionEngine.Substitution

variable {α : Type*}

theorem prefix_append_cons_iff {p : List α} {d : α} (hd : d ∉ p) (a b : List α) :
    p <+: a ++ d :: b ↔ p <+: a := by
  induction a generalizing p with
  | nil =>
    cases p with
    | nil => simp
    | cons c p =>
      have hne : c ≠ d := fun h => hd (h ▸ List.mem_cons_self)
      simp [List.cons_prefix_cons, hne]
  | cons c a ih =>
    cases p with
    | nil => simp
    | cons e p =>
      rw [List.cons_append, List.cons_prefix_cons, List.cons_prefix_cons,
        ih fun h => hd (List.mem_cons_of_mem e h)]

/-- A part without the mark stands on one side of it. -/
theorem infix_append_cons_iff {p : List α} {d : α} (hd : d ∉ p) (a b : List α) :
    p <:+: a ++ d :: b ↔ p <:+: a ∨ p <:+: b := by
  induction a with
  | nil =>
    have hhead := prefix_append_cons_iff hd [] b
    rw [List.nil_append] at hhead
    rw [List.nil_append, List.infix_cons_iff, hhead, List.prefix_nil, List.infix_nil]
  | cons c a ih =>
    have hhead := prefix_append_cons_iff hd (c :: a) b
    rw [List.cons_append] at hhead
    rw [List.cons_append, List.infix_cons_iff, hhead, ih, List.infix_cons_iff, or_assoc]

section
variable [DecidableEq α]

/-- A text that begins and ends with a mark and does not have the part in it. -/
def walls (p t : List α) : Bool :=
  t.head?.any (fun d => decide (d ∉ p)) && t.getLast?.any (fun d => decide (d ∉ p)) &&
    decide (¬ p <:+: t)

/-- A part does not reach over such a text. -/
theorem infix_walls_iff {p t : List α} (h : walls p t = true) (a b : List α) :
    p <:+: a ++ (t ++ b) ↔ p <:+: a ∨ p <:+: b := by
  simp only [walls, Bool.and_eq_true, decide_eq_true_eq, Option.any_eq_true] at h
  obtain ⟨⟨⟨d, hhead, hd⟩, e, hlast, he⟩, hnot⟩ := h
  obtain ⟨t', rfl⟩ := List.head?_eq_some_iff.mp hhead
  rw [List.cons_append, infix_append_cons_iff hd]
  refine or_congr_right ?_
  have hnot' : ¬ p <:+: t' := fun hin => hnot (hin.trans (List.suffix_cons d t').isInfix)
  cases t' using List.reverseRecOn with
  | nil => rfl
  | append_singleton t'' c =>
    obtain rfl : c = e := by
      rw [← List.cons_append, List.getLast?_append] at hlast
      simpa using hlast
    rw [List.append_assoc, List.singleton_append, infix_append_cons_iff he]
    exact or_iff_right fun hin => hnot' (hin.trans (List.prefix_append t'' [c]).isInfix)

theorem ne_nil_of_walls {p t : List α} (h : walls p t = true) : p ≠ [] := by
  rintro rfl
  simp [walls] at h

theorem infix_walls_append_iff {p t : List α} (h : walls p t = true) (b : List α) :
    p <:+: t ++ b ↔ p <:+: b := by
  have hiff := infix_walls_iff h [] b
  rw [List.nil_append, List.infix_nil] at hiff
  rw [hiff, or_iff_right (ne_nil_of_walls h)]

theorem infix_intercalate_iff {p sep : List α} (h : walls p sep = true) (parts : List (List α)) :
    p <:+: sep.intercalate parts ↔ ∃ part ∈ parts, p <:+: part := by
  induction parts with
  | nil => simpa using ne_nil_of_walls h
  | cons part parts ih =>
    cases parts with
    | nil => simp
    | cons next parts =>
      rw [List.intercalate_cons_cons, List.append_assoc, infix_walls_iff h, ih]
      simp

theorem infix_append_walls_iff {p t : List α} (h : walls p t = true) (a : List α) :
    p <:+: a ++ t ↔ p <:+: a := by
  have hiff := infix_walls_iff h a []
  rw [List.append_nil, List.infix_nil] at hiff
  rw [hiff, or_iff_left (ne_nil_of_walls h)]

end

theorem not_infix_of_not_mem {p t : List α} {c : α} (hp : c ∈ p) (ht : c ∉ t) : ¬ p <:+: t :=
  fun h => ht (h.subset hp)

section
variable [DecidableEq α]

/-- `s.replace(old, new)`, with the characters still to be skipped; `old` is not empty. -/
def replaceFrom (old new : List α) : ℕ → List α → List α
  | _, [] => []
  | skip + 1, _ :: rest => replaceFrom old new skip rest
  | 0, c :: rest =>
    if old.isPrefixOf (c :: rest) then new ++ replaceFrom old new (old.length - 1) rest
    else c :: replaceFrom old new 0 rest

def replace (old new s : List α) : List α := replaceFrom old new 0 s

variable {old new : List α}

theorem replaceFrom_eq (skip : ℕ) (s : List α) :
    replaceFrom old new skip s = replace old new (s.drop skip) := by
  induction skip generalizing s with
  | zero => rfl
  | succ skip ih =>
    cases s with
    | nil => rfl
    | cons c rest => exact ih rest

theorem replace_append (hold : old ≠ []) (t : List α) :
    replace old new (old ++ t) = new ++ replace old new t := by
  cases old with
  | nil => exact absurd rfl hold
  | cons c old =>
    have hbegins : (c :: old).isPrefixOf (c :: (old ++ t)) = true :=
      List.isPrefixOf_iff_prefix.mpr (List.prefix_append (c :: old) t)
    rw [List.cons_append, replace, replaceFrom, if_pos hbegins, replaceFrom_eq]
    simp

theorem replace_cons {c : α} {rest : List α} (h : ¬ old <+: c :: rest) :
    replace old new (c :: rest) = c :: replace old new rest := by
  rw [replace, replaceFrom, if_neg fun hbegins => h (List.isPrefixOf_iff_prefix.mp hbegins)]
  rfl

/-- The two ways in which a replacement goes on. -/
theorem replace_induction {motive : List α → Prop} (hold : old ≠ []) (nil : motive [])
    (found : ∀ t, motive t → motive (old ++ t))
    (kept : ∀ c t, ¬ old <+: c :: t → motive t → motive (c :: t)) (s : List α) : motive s := by
  induction hn : s.length using Nat.strong_induction_on generalizing s with
  | _ n ih =>
    cases s with
    | nil => exact nil
    | cons c rest =>
      by_cases h : old <+: c :: rest
      · obtain ⟨t, ht⟩ := h
        rw [← ht]
        refine found t (ih t.length ?_ t rfl)
        have hlength := congrArg List.length ht
        rw [List.length_append] at hlength
        have := List.length_pos_iff.mpr hold
        omega
      · refine kept c rest h (ih rest.length ?_ rest rfl)
        rw [← hn, List.length_cons]
        omega

theorem replace_append_cons (hold : old ≠ []) {d : α} (hd : d ∉ old) (s t : List α) :
    replace old new (s ++ d :: t) = replace old new s ++ d :: replace old new t := by
  induction s using replace_induction hold with
  | nil =>
    have hnot : ¬ old <+: d :: t := by
      have := prefix_append_cons_iff hd [] t
      rw [List.nil_append, List.prefix_nil] at this
      exact fun h => hold (this.mp h)
    exact replace_cons hnot
  | found s ih => rw [List.append_assoc, replace_append hold, ih, replace_append hold,
      List.append_assoc]
  | kept c s hnot ih =>
    have hcons : ¬ old <+: c :: (s ++ d :: t) := fun h =>
      hnot ((prefix_append_cons_iff hd (c :: s) t).mp h)
    rw [List.cons_append, replace_cons hcons, replace_cons hnot, ih, List.cons_append]

theorem replace_eq_self {s : List α} (h : ¬ old <:+: s) : replace old new s = s := by
  induction s with
  | nil => rfl
  | cons c s ih =>
    rw [List.infix_cons_iff, not_or] at h
    rw [replace_cons h.1, ih h.2]

def weight (w : α → ℤ) (s : List α) : ℤ := (s.map w).sum

omit [DecidableEq α] in
theorem weight_append (w : α → ℤ) (s t : List α) :
    weight w (s ++ t) = weight w s + weight w t := by
  simp [weight]

omit [DecidableEq α] in
theorem weight_cons (w : α → ℤ) (c : α) (s : List α) :
    weight w (c :: s) = w c + weight w s := by
  simp [weight]

/-- How often a character occurs. -/
def occurrences (c : α) : α → ℤ := fun d => if d = c then 1 else 0

theorem weight_occurrences (c : α) (s : List α) : weight (occurrences c) s = s.count c := by
  induction s with
  | nil => rfl
  | cons d s ih =>
    rw [weight_cons, ih, List.count_cons, occurrences]
    by_cases h : d = c <;> simp [h, add_comm]

theorem occurrences_le {c : α} {s : List α} (hs : c ∉ s) (t : List α) :
    weight (occurrences c) s ≤ weight (occurrences c) t := by
  rw [weight_occurrences, weight_occurrences, List.count_eq_zero_of_not_mem hs]
  exact Int.natCast_nonneg _

theorem occurrences_lt {c : α} {s t : List α} (hs : c ∉ s) (ht : c ∈ t) :
    weight (occurrences c) s < weight (occurrences c) t := by
  rw [weight_occurrences, weight_occurrences, List.count_eq_zero_of_not_mem hs]
  exact_mod_cast List.count_pos_iff.mpr ht

/-- How short a text is. -/
def shortness : α → ℤ := fun _ => -1

omit [DecidableEq α] in
theorem weight_shortness (s : List α) : weight shortness s = -s.length := by
  induction s with
  | nil => rfl
  | cons c s ih =>
    rw [weight_cons, ih, List.length_cons, shortness]
    push_cast
    omega

theorem weight_replace_le {w : α → ℤ} (hold : old ≠ []) (h : weight w old ≤ weight w new)
    (s : List α) : weight w s ≤ weight w (replace old new s) := by
  induction s using replace_induction hold with
  | nil => exact le_refl _
  | found s ih =>
    rw [replace_append hold, weight_append, weight_append]
    omega
  | kept c s hnot ih =>
    rw [replace_cons hnot, weight_cons, weight_cons]
    omega

theorem weight_replace_lt {w : α → ℤ} (hold : old ≠ []) (h : weight w old < weight w new)
    {s : List α} (hs : old <:+: s) : weight w s < weight w (replace old new s) := by
  induction s using replace_induction hold with
  | nil => exact absurd (List.infix_nil.mp hs) hold
  | found s ih =>
    have hrest := weight_replace_le hold h.le s
    rw [replace_append hold, weight_append, weight_append]
    omega
  | kept c s hnot ih =>
    have hrest := ih ((List.infix_cons_iff.mp hs).resolve_left hnot)
    rw [replace_cons hnot, weight_cons, weight_cons]
    omega

end

/-- A piece of a template: text that stays, or a slot. -/
inductive Cell (η α : Type*)
  | fixed (t : List α)
  | slot (h : η)
  deriving DecidableEq

variable {η : Type*}

def Cell.text (f : η → List α) : Cell η α → List α
  | .fixed t => t
  | .slot h => f h

/-- Cells with a mark before all but the first. -/
def joined (f : η → List α) (first : Cell η α) (rest : List (α × Cell η α)) : List α :=
  first.text f ++ rest.flatMap fun p => p.1 :: p.2.text f

/-- A template. No placeholder occurs in the text that stays or in another placeholder, and
none has a mark in it. -/
structure Template (η α : Type*) where
  placeholder : η → List α
  first : Cell η α
  rest : List (α × Cell η α)
  nonempty : ∀ h, placeholder h ≠ []
  marks : ∀ p ∈ rest, ∀ h, p.1 ∉ placeholder h
  fixed : ∀ t, .fixed t ∈ first :: rest.map Prod.snd → ∀ h, ¬ placeholder h <:+: t
  apart : ∀ h k, placeholder h <:+: placeholder k → h = k

namespace Template

def fill (T : Template η α) (f : η → List α) : List α := joined f T.first T.rest

/-- The text of the template itself. -/
def source (T : Template η α) : List α := T.fill T.placeholder

def cells (T : Template η α) : List (Cell η α) := T.first :: T.rest.map Prod.snd

end Template

theorem joined_cons (f : η → List α) (first next : Cell η α) (d : α)
    (rest : List (α × Cell η α)) :
    joined f first ((d, next) :: rest) = first.text f ++ d :: joined f next rest := by
  simp [joined]

theorem infix_joined_iff {p : List α} {first : Cell η α} {rest : List (α × Cell η α)}
    (h : ∀ q ∈ rest, q.1 ∉ p) (f : η → List α) :
    p <:+: joined f first rest ↔ ∃ c ∈ first :: rest.map Prod.snd, p <:+: c.text f := by
  induction rest generalizing first with
  | nil => simp [joined]
  | cons q rest ih =>
    obtain ⟨d, next⟩ := q
    rw [joined_cons, infix_append_cons_iff (h _ List.mem_cons_self),
      ih fun q hq => h q (List.mem_cons_of_mem _ hq)]
    simp

theorem text_infix_joined {first c : Cell η α} {rest : List (α × Cell η α)}
    (hc : c ∈ first :: rest.map Prod.snd) (f : η → List α) :
    c.text f <:+: joined f first rest := by
  induction rest generalizing first with
  | nil =>
    obtain rfl : c = first := by simpa using hc
    simp [joined]
  | cons q rest ih =>
    obtain ⟨d, next⟩ := q
    rw [joined_cons]
    rcases List.mem_cons.mp hc with rfl | hc
    · exact (List.prefix_append _ _).isInfix
    · refine (ih hc).trans ?_
      exact ((List.suffix_cons d _).trans (List.suffix_append _ _)).isInfix

theorem weight_joined_le {w : α → ℤ} {f g : η → List α} (h : ∀ i, weight w (f i) ≤ weight w (g i))
    (first : Cell η α) (rest : List (α × Cell η α)) :
    weight w (joined f first rest) ≤ weight w (joined g first rest) := by
  have hcell : ∀ c : Cell η α, weight w (c.text f) ≤ weight w (c.text g) := by
    intro c
    cases c with
    | fixed t => exact le_refl _
    | slot i => exact h i
  induction rest generalizing first with
  | nil => simpa [joined] using hcell first
  | cons q rest ih =>
    obtain ⟨d, next⟩ := q
    have := hcell first
    have := ih next
    rw [joined_cons, joined_cons, weight_append, weight_append, weight_cons, weight_cons]
    omega

/-- Where the texts of all slots weigh no less and the whole weighs the same, each of them
weighs the same. -/
theorem weight_slot_eq {w : α → ℤ} {f g : η → List α} (h : ∀ i, weight w (f i) ≤ weight w (g i))
    {first : Cell η α} {rest : List (α × Cell η α)}
    (heq : weight w (joined f first rest) = weight w (joined g first rest)) {i : η}
    (hi : .slot i ∈ first :: rest.map Prod.snd) : weight w (f i) = weight w (g i) := by
  have hcell : ∀ c : Cell η α, weight w (c.text f) ≤ weight w (c.text g) := by
    intro c
    cases c with
    | fixed t => exact le_refl _
    | slot i => exact h i
  induction rest generalizing first with
  | nil =>
    obtain rfl : .slot i = first := by simpa using hi
    simpa [joined, Cell.text] using heq
  | cons q rest ih =>
    obtain ⟨d, next⟩ := q
    have hfirst := hcell first
    have hrest := weight_joined_le h next rest
    rw [joined_cons, joined_cons, weight_append, weight_append, weight_cons, weight_cons] at heq
    rcases List.mem_cons.mp hi with rfl | hi
    · have : weight w (f i) ≤ weight w (g i) := h i
      change weight w (f i) + _ = weight w (g i) + _ at heq
      omega
    · have htail : weight w (joined f next rest) = weight w (joined g next rest) := by omega
      exact ih htail hi

/-- Where all slots but one hold the same, so does this one, as far as weights tell. -/
theorem weight_slot_eq_of_others {w : α → ℤ} {f g : η → List α} {i : η}
    (h : ∀ j, j ≠ i → f j = g j) {first : Cell η α} {rest : List (α × Cell η α)}
    (heq : joined f first rest = joined g first rest)
    (hi : .slot i ∈ first :: rest.map Prod.snd) : weight w (f i) = weight w (g i) := by
  have hle : ∀ f g : η → List α, (∀ j, j ≠ i → f j = g j) → weight w (f i) ≤ weight w (g i) →
      ∀ j, weight w (f j) ≤ weight w (g j) := by
    intro f g h hi j
    by_cases hj : j = i
    · exact hj ▸ hi
    · rw [h j hj]
  rcases le_total (weight w (f i)) (weight w (g i)) with hfg | hgf
  · exact weight_slot_eq (hle f g h hfg) (congrArg (weight w) heq) hi
  · exact (weight_slot_eq (hle g f (fun j hj => (h j hj).symm) hgf)
      (congrArg (weight w) heq.symm) hi).symm

section
variable [DecidableEq α]

namespace Template

variable (T : Template η α)

/-- The replacements, one after the other. -/
def run (passes : List (η × List α)) (s : List α) : List α :=
  passes.foldl (fun s pass => replace (T.placeholder pass.1) pass.2 s) s

theorem replace_fill (h : η) (new : List α) (f : η → List α) :
    replace (T.placeholder h) new (T.fill f) =
      T.fill fun i => replace (T.placeholder h) new (f i) := by
  have hcell : ∀ c : Cell η α, (∀ t, .fixed t = c → ¬ T.placeholder h <:+: t) →
      replace (T.placeholder h) new (c.text f) =
        c.text fun i => replace (T.placeholder h) new (f i) := by
    intro c hfixed
    cases c with
    | fixed t => exact replace_eq_self (hfixed t rfl)
    | slot i => rfl
  have hall : ∀ (first : Cell η α) (rest : List (α × Cell η α)),
      (∀ q ∈ rest, q.1 ∉ T.placeholder h) →
      (∀ t, .fixed t ∈ first :: rest.map Prod.snd → ¬ T.placeholder h <:+: t) →
      replace (T.placeholder h) new (joined f first rest) =
        joined (fun i => replace (T.placeholder h) new (f i)) first rest := by
    intro first rest hmarks hfixed
    induction rest generalizing first with
    | nil =>
      have hfirst := hcell first fun t ht => hfixed t (ht ▸ List.mem_cons_self)
      simpa [joined] using hfirst
    | cons q rest ih =>
      obtain ⟨d, next⟩ := q
      rw [joined_cons, joined_cons,
        replace_append_cons (T.nonempty h) (hmarks _ List.mem_cons_self),
        hcell first fun t ht => hfixed t (ht ▸ List.mem_cons_self),
        ih next (fun q hq => hmarks q (List.mem_cons_of_mem _ hq))
          fun t ht => hfixed t (List.mem_cons_of_mem _ ht)]
  exact hall T.first T.rest (fun p hp => T.marks p hp h) fun t ht => T.fixed t ht h

theorem run_fill (passes : List (η × List α)) (f : η → List α) :
    T.run passes (T.fill f) = T.fill fun i => T.run passes (f i) := by
  induction passes generalizing f with
  | nil => rfl
  | cons pass passes ih =>
    change T.run passes (replace (T.placeholder pass.1) pass.2 (T.fill f)) = _
    rw [replace_fill, ih]
    rfl

theorem run_append (passes later : List (η × List α)) (s : List α) :
    T.run (passes ++ later) s = T.run later (T.run passes s) := List.foldl_append

theorem run_eq_self {passes : List (η × List α)} {s : List α}
    (h : ∀ pass ∈ passes, ¬ T.placeholder pass.1 <:+: s) : T.run passes s = s := by
  induction passes with
  | nil => rfl
  | cons pass passes ih =>
    change T.run passes (replace (T.placeholder pass.1) pass.2 s) = s
    rw [replace_eq_self (h pass List.mem_cons_self)]
    exact ih fun p hp => h p (List.mem_cons_of_mem _ hp)

/-- Replacements by what weighs no less. -/
theorem weight_run_le {w : α → ℤ} {passes : List (η × List α)}
    (h : ∀ pass ∈ passes, weight w (T.placeholder pass.1) ≤ weight w pass.2) (s : List α) :
    weight w s ≤ weight w (T.run passes s) := by
  induction passes generalizing s with
  | nil => exact le_refl _
  | cons pass passes ih =>
    have hfirst := weight_replace_le (T.nonempty pass.1) (h pass List.mem_cons_self) s
    have hrest := ih (fun p hp => h p (List.mem_cons_of_mem _ hp))
      (replace (T.placeholder pass.1) pass.2 s)
    exact hfirst.trans hrest

/-- A replacement by what weighs more found nothing, where the weight is the same. -/
theorem not_infix_of_weight_eq {w : α → ℤ} {before later : List (η × List α)} {h : η}
    {new s : List α} (hbefore : ∀ pass ∈ before, weight w (T.placeholder pass.1) ≤ weight w pass.2)
    (hlater : ∀ pass ∈ later, weight w (T.placeholder pass.1) ≤ weight w pass.2)
    (hnew : weight w (T.placeholder h) < weight w new)
    (heq : weight w (T.run (before ++ (h, new) :: later) s) = weight w s) :
    ¬ T.placeholder h <:+: T.run before s := by
  intro hin
  have hfirst := T.weight_run_le hbefore s
  have hgain := weight_replace_lt (T.nonempty h) hnew hin
  have hrest := T.weight_run_le hlater (replace (T.placeholder h) new (T.run before s))
  rw [run_append] at heq
  change weight w (T.run later (replace (T.placeholder h) new (T.run before s))) = weight w s at heq
  omega

/-- A slot is filled by its own replacement; the later ones act on what was filled in. -/
theorem run_placeholder {before later : List (η × List α)} {h : η} (new : List α)
    (hbefore : ∀ pass ∈ before, pass.1 ≠ h) :
    T.run (before ++ (h, new) :: later) (T.placeholder h) = T.run later new := by
  have hkept : T.run before (T.placeholder h) = T.placeholder h :=
    T.run_eq_self fun pass hpass hin => hbefore pass hpass (T.apart _ _ hin)
  have hfilled : replace (T.placeholder h) new (T.placeholder h) = new := by
    have := @replace_append _ _ (T.placeholder h) new (T.nonempty h) []
    simpa [replace, replaceFrom] using this
  rw [run_append, hkept]
  change T.run later (replace (T.placeholder h) new (T.placeholder h)) = _
  rw [hfilled]

/-- The same, for the replacements in a given order. -/
theorem run_order (order : List η) (c : η → List α) {n : ℕ} {h : η} (hn : order[n]? = some h)
    (hbefore : h ∉ order.take n) :
    T.run (order.map fun k => (k, c k)) (T.placeholder h) =
      T.run ((order.map fun k => (k, c k)).drop (n + 1)) (c h) := by
  obtain ⟨hlt, hget⟩ := List.getElem?_eq_some_iff.mp hn
  have hsplit : order = order.take n ++ h :: order.drop (n + 1) := by
    rw [← hget, ← List.drop_eq_getElem_cons hlt, List.take_append_drop]
  conv_lhs => rw [hsplit, List.map_append, List.map_cons]
  rw [T.run_placeholder, List.map_drop]
  intro pass hpass heq
  obtain ⟨k, hk, rfl⟩ := List.mem_map.mp hpass
  exact hbefore (heq ▸ hk)

end Template

end

end ExecutionEngine.Substitution
