import Mathlib.Data.List.Basic
import Mathlib.Data.List.Count
import Mathlib.Data.List.Nodup
import Mathlib.Tactic

/-!
# Nested brackets

A text over any alphabet, read with the closing brackets it still waits for. A separator
counts where nothing is waited for. A reader that keeps one depth for all brackets, or one
for each kind, has the length of that stack, or the number of times each kind occurs in it.
-/
namespace ExecutionEngine.Nesting

variable {α : Type*}

/-- The brackets of a text: pairs of an opening and a closing one, no two of them alike. -/
structure Brackets (α : Type*) where
  pairs : List (α × α)
  nodup : (pairs.map Prod.fst ++ pairs.map Prod.snd).Nodup

namespace Brackets

def IsClosing (b : Brackets α) (c : α) : Prop := c ∈ b.pairs.map Prod.snd

section
variable {b : Brackets α}

theorem isClosing_snd {p : α × α} (hp : p ∈ b.pairs) : b.IsClosing p.2 :=
  List.mem_map_of_mem hp

theorem fst_ne_of_isClosing {p : α × α} (hp : p ∈ b.pairs) {c : α} (hc : b.IsClosing c) :
    p.1 ≠ c := by
  rintro rfl
  exact (List.nodup_append.mp b.nodup).2.2 _ (List.mem_map_of_mem hp) _ hc rfl

theorem eq_of_fst_eq {p q : α × α} (hp : p ∈ b.pairs) (hq : q ∈ b.pairs) (h : p.1 = q.1) :
    p = q :=
  List.inj_on_of_nodup_map (List.nodup_append.mp b.nodup).1 hp hq h

theorem eq_of_snd_eq {p q : α × α} (hp : p ∈ b.pairs) (hq : q ∈ b.pairs) (h : p.2 = q.2) :
    p = q :=
  List.inj_on_of_nodup_map (List.nodup_append.mp b.nodup).2.1 hp hq h

end

variable [DecidableEq α]

def opening (b : Brackets α) (c : α) : Option (α × α) := b.pairs.find? fun p => p.1 = c

instance (b : Brackets α) (c : α) : Decidable (b.IsClosing c) :=
  inferInstanceAs (Decidable (_ ∈ _))

/-- The stack after a character; none where a bracket closes what was not opened. -/
def push (b : Brackets α) (stack : List α) (c : α) : Option (List α) :=
  match b.opening c with
  | some p => some (p.2 :: stack)
  | none =>
    if b.IsClosing c then
      match stack with
      | top :: stack => if c = top then some stack else none
      | [] => none
    else some stack

/-- The text closes what the stack waits for and what it opens itself, and `sep` stands in it
only inside brackets. -/
def Nested (b : Brackets α) (sep : α) : List α → List α → Bool
  | stack, [] => stack.isEmpty
  | stack, c :: rest =>
    (c ≠ sep || !stack.isEmpty) && (b.push stack c).any fun stack => b.Nested sep stack rest

section
variable {b : Brackets α}

/-- A character opens, closes what was opened last, or is no bracket. -/
theorem push_cases {stack stack' : List α} {c : α} (h : b.push stack c = some stack') :
    (∃ p ∈ b.pairs, c = p.1 ∧ stack' = p.2 :: stack) ∨ (b.IsClosing c ∧ stack = c :: stack') ∨
      ((∀ p ∈ b.pairs, p.1 ≠ c) ∧ ¬ b.IsClosing c ∧ stack' = stack) := by
  unfold push at h
  cases hopen : b.opening c with
  | some p =>
    rw [hopen] at h
    have hc : p.1 = c := by simpa using List.find?_some hopen
    exact .inl ⟨p, List.mem_of_find?_eq_some hopen, hc.symm, (Option.some.inj h).symm⟩
  | none =>
    rw [hopen] at h
    have hne : ∀ p ∈ b.pairs, p.1 ≠ c := by simpa using List.find?_eq_none.mp hopen
    dsimp only at h
    split_ifs at h with hclose
    · cases stack with
      | nil => cases h
      | cons top stack =>
        dsimp only at h
        split_ifs at h with htop
        exact .inr (.inl ⟨hclose, by rw [htop, Option.some.inj h]⟩)
    · exact .inr (.inr ⟨hne, hclose, (Option.some.inj h).symm⟩)

theorem push_of_plain {c : α} (hopen : ∀ p ∈ b.pairs, p.1 ≠ c) (hclose : ¬ b.IsClosing c)
    (stack : List α) : b.push stack c = some stack := by
  have hnone : b.opening c = none := List.find?_eq_none.mpr (by simpa using hopen)
  unfold push
  rw [hnone]
  exact if_neg hclose

theorem push_isClosing {stack stack' : List α} {c : α} (h : b.push stack c = some stack')
    (hstack : ∀ x ∈ stack, b.IsClosing x) : ∀ x ∈ stack', b.IsClosing x := by
  obtain ⟨p, hp, -, rfl⟩ | ⟨-, rfl⟩ | ⟨-, -, rfl⟩ := push_cases h
  · exact List.forall_mem_cons.mpr ⟨isClosing_snd hp, hstack⟩
  · exact fun x hx => hstack x (List.mem_cons_of_mem c hx)
  · exact hstack

/-- The depth of one kind of bracket. -/
theorem count_push {stack stack' : List α} {c : α} (h : b.push stack c = some stack')
    {p : α × α} (hp : p ∈ b.pairs) :
    (if c = p.1 then stack.count p.2 + 1 else if c = p.2 then stack.count p.2 - 1
      else stack.count p.2) = stack'.count p.2 := by
  obtain ⟨q, hq, rfl, rfl⟩ | ⟨hclose, rfl⟩ | ⟨hopen, hclose, rfl⟩ := push_cases h
  · by_cases hqp : q = p
    · rw [hqp, if_pos rfl, List.count_cons_self]
    · rw [if_neg fun h => hqp (eq_of_fst_eq hq hp h),
        if_neg fun h => fst_ne_of_isClosing hq (isClosing_snd hp) h,
        List.count_cons_of_ne fun h => hqp (eq_of_snd_eq hq hp h)]
  · rw [if_neg fun h => fst_ne_of_isClosing hp hclose h.symm]
    split_ifs with hcp
    · rw [← hcp, List.count_cons_self, Nat.add_sub_cancel]
    · rw [List.count_cons_of_ne hcp]
  · rw [if_neg fun h => hopen p hp h.symm, if_neg]
    rintro rfl
    exact hclose (isClosing_snd hp)

/-- The depths are all zero where nothing is waited for, and only there. -/
theorem count_eq_zero_iff {stack : List α} (hstack : ∀ x ∈ stack, b.IsClosing x) :
    (∀ p ∈ b.pairs, stack.count p.2 = 0) ↔ stack = [] := by
  constructor
  · intro h
    rw [List.eq_nil_iff_forall_not_mem]
    intro x hx
    obtain ⟨p, hp, rfl⟩ := List.mem_map.mp (hstack x hx)
    exact List.count_eq_zero.mp (h p hp) hx
  · rintro rfl p -
    rfl

end

section
variable {b : Brackets α} {sep : α}

theorem nested_cons {stack : List α} {c : α} {rest : List α} :
    b.Nested sep stack (c :: rest) = true ↔
      (c = sep → stack ≠ []) ∧ ∃ stack', b.push stack c = some stack' ∧
        b.Nested sep stack' rest = true := by
  rw [Nested, Bool.and_eq_true, Option.any_eq_true, Bool.or_eq_true, decide_eq_true_iff,
    Bool.not_eq_true', List.isEmpty_eq_false_iff, ← imp_iff_not_or]

/-- A reader that goes on after each character of a nested text, with the stack as its
state, goes on after the whole of it. -/
theorem Nested.scan {β : Type*} {scan : List α → List α → List α → β}
    (hkeep : ∀ {current stack stack' : List α} {c : α} (rest : List α),
      (∀ x ∈ stack, b.IsClosing x) → (c = sep → stack ≠ []) → b.push stack c = some stack' →
      scan current stack (c :: rest) = scan (current ++ [c]) stack' rest)
    {stack s : List α} (hstack : ∀ x ∈ stack, b.IsClosing x) (h : b.Nested sep stack s = true)
    (current rest : List α) : scan current stack (s ++ rest) = scan (current ++ s) [] rest := by
  induction s generalizing stack current with
  | nil =>
    obtain rfl := List.isEmpty_iff.mp h
    rw [List.nil_append, List.append_nil]
  | cons c s ih =>
    obtain ⟨hsep, stack', hpush, hnested⟩ := nested_cons.mp h
    rw [List.cons_append, hkeep _ hstack hsep hpush, ih (push_isClosing hpush hstack) hnested,
      List.append_assoc]
    rfl

/-- A text without brackets and separators. -/
theorem nested_of_plain {s : List α} (hs : ∀ c ∈ s, c ≠ sep ∧ b.push [] c = some []) (t : List α) :
    b.Nested sep [] (s ++ t) = b.Nested sep [] t := by
  induction s with
  | nil => rfl
  | cons c s ih =>
    obtain ⟨hsep, hpush⟩ := hs c (by simp)
    rw [List.cons_append, Nested, hpush, Option.any_some, ih fun d hd => hs d (by simp [hd])]
    simp [hsep]

end

end Brackets

section
variable (f : α → ℤ)

/-- A bracket of one kind counts up or down, and every other character is level. -/
def height (s : List α) : ℤ := (s.map f).sum

/-- No beginning of the text lies lower than `k`. -/
def Stays (k : ℤ) (s : List α) : Prop := ∀ p, p <+: s → k ≤ height f p

variable {f}

@[simp] theorem height_nil : height f [] = 0 := rfl

@[simp] theorem height_cons (c : α) (s : List α) : height f (c :: s) = f c + height f s := by
  rw [height, List.map_cons, List.sum_cons, height]

@[simp] theorem height_append (s t : List α) : height f (s ++ t) = height f s + height f t := by
  rw [height, List.map_append, List.sum_append, height, height]

theorem stays_nil {k : ℤ} : Stays f k [] ↔ k ≤ 0 := by
  constructor
  · intro h
    exact h [] List.prefix_rfl
  · intro hk p hp
    rwa [List.prefix_nil.mp hp]

theorem stays_cons {k : ℤ} {c : α} {s : List α} :
    Stays f k (c :: s) ↔ k ≤ 0 ∧ Stays f (k - f c) s := by
  constructor
  · intro h
    refine ⟨h [] List.nil_prefix, fun p hp => ?_⟩
    have := h (c :: p) (List.cons_prefix_cons.mpr ⟨rfl, hp⟩)
    rw [height_cons] at this
    omega
  · rintro ⟨hk, h⟩ p hp
    rcases List.prefix_cons_iff.mp hp with rfl | ⟨q, rfl, hq⟩
    · exact hk
    · have := h q hq
      rw [height_cons]
      omega

theorem stays_append {k : ℤ} {s t : List α} :
    Stays f k (s ++ t) ↔ Stays f k s ∧ Stays f (k - height f s) t := by
  induction s generalizing k with
  | nil =>
    rw [List.nil_append, stays_nil, height_nil, sub_zero]
    exact ⟨fun h => ⟨h [] List.nil_prefix, h⟩, And.right⟩
  | cons c s ih => rw [List.cons_append, stays_cons, stays_cons, ih, height_cons, sub_sub, and_assoc]

section
variable {keep : α → Bool} (hlevel : ∀ c, keep c = false → f c = 0)
include hlevel

theorem height_filter (s : List α) : height f (s.filter keep) = height f s := by
  induction s with
  | nil => rfl
  | cons c s ih =>
    cases hc : keep c with
    | true => rw [List.filter_cons_of_pos hc, height_cons, height_cons, ih]
    | false => rw [List.filter_cons_of_neg (by simp [hc]), height_cons, hlevel c hc, zero_add, ih]

/-- Level characters do not matter. -/
theorem stays_filter {k : ℤ} (s : List α) : Stays f k (s.filter keep) ↔ Stays f k s := by
  induction s generalizing k with
  | nil => rfl
  | cons c s ih =>
    cases hc : keep c with
    | true => rw [List.filter_cons_of_pos hc, stays_cons, stays_cons, ih]
    | false =>
      rw [List.filter_cons_of_neg (by simp [hc]), stays_cons, hlevel c hc, sub_zero, ih,
        iff_and_self]
      exact fun h => h [] List.nil_prefix

end

end

end ExecutionEngine.Nesting
