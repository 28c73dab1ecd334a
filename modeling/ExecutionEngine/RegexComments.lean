import ExecutionEngine.RegexSignature

/-!
# Comments in a Go or Rust signature

The pattern is searched in the code as it was written, comments included. Where it matches
is decided by the text up to the brace that ends the match, so comments elsewhere change
nothing, unless the pattern is matched before it because of one.
-/
namespace ExecutionEngine.RegexSignature
open Pipeline TextScan CSignature

/-- The two languages whose signatures are found so. -/
inductive Language
  | go
  | rust
  deriving DecidableEq, Repr

/-- Where a text stands between comments and literals. The second character of `/*` and of
`*/` has a state of its own, with the depth after it. -/
inductive Lexing
  | code
  | line
  | pair (depth : ℕ)
  | block (depth : ℕ)
  | literal (quote : CodePoint)
  | escaped (quote : CodePoint)
  | prefixed (hashes : ℕ)
  | raw (hashes : ℕ)
  deriving DecidableEq, Repr

/-- A character outside comments and literals. In Rust a quote also begins a lifetime, and an
`r` may begin a raw literal. -/
def Language.codeNext (language : Language) (c : CodePoint) (rest : Text) : CodePoint × Lexing :=
  if c = ch '/' ∧ rest.head? = some (ch '/') then (ch ' ', .line)
  else if c = ch '/' ∧ rest.head? = some (ch '*') then (ch ' ', .pair 1)
  else if c = ch '"' then (c, .literal c)
  else
    match language with
    | .go =>
      if c.val = 39 then (c, .literal c) else if c.val = 96 then (c, .raw 0) else (c, .code)
    | .rust =>
      if c.val = 39 then
        if rest.head? = some (ch '\\') ∨ rest[1]? = some c then (c, .literal c) else (c, .code)
      else if c = ch 'r' then (c, .prefixed 0)
      else (c, .code)

/-- One character: what is written for it and how the scan goes on. Comments nest in Rust. -/
def Language.next (language : Language) (state : Lexing) (c : CodePoint) (rest : Text) :
    CodePoint × Lexing :=
  match state with
  | .code => language.codeNext c rest
  | .line => if c = ch '\n' then (c, .code) else (ch ' ', .line)
  | .pair depth => (ch ' ', if depth = 0 then .code else .block depth)
  | .block depth =>
    if c = ch '*' ∧ rest.head? = some (ch '/') then (ch ' ', .pair (depth - 1))
    else if language = .rust ∧ c = ch '/' ∧ rest.head? = some (ch '*') then
      (ch ' ', .pair (depth + 1))
    else (blank c, .block depth)
  | .literal quote =>
    if c = quote then (c, .code)
    else if c = ch '\\' then (c, .escaped quote)
    else (c, .literal quote)
  | .escaped quote => (c, .literal quote)
  | .prefixed hashes =>
    if c = ch '#' then (c, .prefixed (hashes + 1))
    else if c = ch '"' then (c, .raw hashes)
    else language.codeNext c rest
  | .raw hashes =>
    match language with
    | .go => if c.val = 96 then (c, .code) else (c, .raw hashes)
    | .rust =>
      if c = ch '"' ∧ (List.replicate hashes (ch '#')).isPrefixOf rest then (c, .code)
      else (c, .raw hashes)

/-- The code with blanks in the place of its comments. -/
def Language.blankComments (language : Language) (code : Text) : Text :=
  transduce language.next .code code

/-- The outcome for a function: its parameters and its results. -/
def Language.signature (language : Language) (functionName code : Text) :
    Except PyExc (List (Text × Text) × List Text) :=
  match language with
  | .go => Go.signature functionName code
  | .rust => (Rust.signature functionName code).map fun r => (r.1, [r.2])

/-- The text ends with an opening brace. -/
def Ends (v : Text) : Prop := v.getLast? = some (ch '\x7b')

theorem Ends.mem {v : Text} (h : Ends v) : ch '\x7b' ∈ v := List.mem_of_getLast? h

theorem Ends.of_append {u v : Text} (h : Ends (u ++ v)) (hne : v ≠ []) : Ends v := by
  rwa [Ends, List.getLast?_append_of_ne_nil _ hne] at h

theorem Ends.append (u : Text) {v : Text} (h : Ends v) : Ends (u ++ v) := by
  have hne : v ≠ [] := List.ne_nil_of_mem h.mem
  rwa [Ends, List.getLast?_append_of_ne_nil _ hne]

theorem Ends.dropWhile {v : Text} (h : Ends v) {p : CodePoint → Bool} {c : CodePoint}
    (hc : c ∈ v) (hp : p c = false) : Ends (v.dropWhile p) := by
  rw [← List.takeWhile_append_dropWhile (p := p) (l := v)] at h
  exact h.of_append (dropWhile_ne_nil_of_mem hc hp)

theorem Ends.tail {c : CodePoint} {v : Text} (h : Ends (c :: v)) (hc : c ≠ ch '\x7b') : Ends v := by
  refine Ends.of_append (u := [c]) h ?_
  rintro rfl
  exact hc (Option.some.inj h)

/-- A result with more text left. -/
def leaving {β : Type} (r : Text) (x : β × Text) : β × Text := (x.1, x.2 ++ r)

theorem brace_append {v : Text} (h : Ends v) (r : Text) :
    brace (v ++ r) = (brace v).map (· ++ r) := by
  have hspace : isSpace (ch '\x7b') = false := by decide
  rw [brace, brace, dropWhile_append_of_mem h.mem hspace]
  cases hdrop : v.dropWhile isSpace with
  | nil => exact absurd hdrop (dropWhile_ne_nil_of_mem h.mem hspace)
  | cons c rest =>
    rw [List.cons_append]
    dsimp only
    split_ifs
    · rfl
    · rfl

theorem head?_of_brace {s left : Text} (h : brace s = some left) :
    (s.dropWhile isSpace).head? = some (ch '\x7b') := by
  rw [brace] at h
  cases hdrop : s.dropWhile isSpace with
  | nil =>
    rw [hdrop] at h
    cases h
  | cons c rest =>
    rw [hdrop] at h
    dsimp only at h
    split_ifs at h with hc
    exact congrArg some hc

theorem brace_eq_some {s left : Text} (h : brace s = some left) :
    ∃ v, s = v ++ left ∧ Ends v := by
  rw [brace] at h
  cases hdrop : s.dropWhile isSpace with
  | nil =>
    rw [hdrop] at h
    cases h
  | cons c rest =>
    rw [hdrop] at h
    dsimp only at h
    split_ifs at h with hc
    obtain rfl := Option.some.inj h
    refine ⟨s.takeWhile isSpace ++ [c], ?_, ?_⟩
    · rw [List.append_assoc, List.singleton_append, ← hdrop, List.takeWhile_append_dropWhile]
    · rw [Ends, List.getLast?_concat, hc]

/-- How a match of one text is one of another that begins with the same: it is the same and
leaves the rest, or it goes beyond. -/
def SameOrBeyond {β : Type} (g : β) (r' : Text) (g' : β) (r'' : Text) : Prop :=
  (g' = g ∧ r'' = r') ∨ r''.length < r'.length

/-- A pattern that is matched after a parenthesis. How it fails is decided by the text up to
a brace, if there is another parenthesis in it. Where it matches it ends with a brace, and in
a text that is the same up to there it matches as well, in the same way or beyond. -/
structure LocalTail {β : Type} (tail : Text → Option (β × Text)) : Prop where
  fails : ∀ {v r r' : Text}, Ends v → ch ')' ∈ v → tail (v ++ r) = none → tail (v ++ r') = none
  consumes : ∀ {t r : Text} {g : β}, tail t = some (g, r) → ∃ v, t = v ++ r ∧ Ends v ∧
    ∀ r', ∃ g' r'', tail (v ++ r') = some (g', r'') ∧ SameOrBeyond g r' g' r''

theorem eq_some_of_append {β : Type} {f : Text → Option (β × Text)} {v r : Text} {g : β}
    (happend : ∀ r, f (v ++ r) = (f v).map (leaving r)) (h : f (v ++ r) = some (g, r))
    (r' : Text) : f (v ++ r') = some (g, r') := by
  rw [happend, Option.map_eq_some_iff] at h
  obtain ⟨⟨g', x⟩, hx, heq⟩ := h
  obtain ⟨rfl, hr⟩ := Prod.mk.inj heq
  obtain rfl : x = [] := List.append_left_eq_self.mp hr
  rw [happend, hx]
  rfl

theorem eq_none_of_append {β : Type} {f : Text → Option (β × Text)} {v r : Text}
    (happend : ∀ r, f (v ++ r) = (f v).map (leaving r)) (h : f (v ++ r) = none) (r' : Text) :
    f (v ++ r') = none := by
  rw [happend, Option.map_eq_none_iff] at h
  rw [happend, h, Option.map_none]

/-- What `dropWhile` stops at. -/
theorem eq_of_dropWhile_ne {d c : CodePoint} {s rest : Text}
    (h : (s.dropWhile fun c => decide (c ≠ d)) = c :: rest) : c = d := by
  have hnot := List.head?_dropWhile_not (fun c => decide (c ≠ d)) s
  rw [h] at hnot
  simpa using hnot

namespace Go

theorem wordGroup_append {v : Text} (h : Ends v) (r : Text) :
    wordGroup (v ++ r) = (wordGroup v).map (leaving r) := by
  have hword : inWord (ch '\x7b') = false := by decide
  rw [wordGroup, wordGroup, takeWhile_append_of_mem h.mem hword,
    dropWhile_append_of_mem h.mem hword, brace_append (h.dropWhile h.mem hword)]
  split_ifs
  · rfl
  · rw [Option.map_map, Option.map_map]
    rfl

theorem parenGroup_append {v : Text} (h : Ends v) (hparen : ch ')' ∈ v) (r : Text) :
    parenGroup (v ++ r) = (parenGroup v).map (leaving r) := by
  have hstop : decide (ch ')' ≠ ch ')') = false := by decide
  rw [parenGroup, parenGroup, List.head?_append_of_ne_nil _ (List.ne_nil_of_mem hparen),
    dropWhile_append_of_mem hparen hstop, takeWhile_append_of_mem hparen hstop]
  split_ifs
  · cases hdrop : v.dropWhile fun c => decide (c ≠ ch ')') with
    | nil => exact absurd hdrop (dropWhile_ne_nil_of_mem hparen hstop)
    | cons c rest =>
      obtain rfl := eq_of_dropWhile_ne hdrop
      have hrest : Ends rest := by
        have : Ends (v.dropWhile fun c => decide (c ≠ ch ')')) := h.dropWhile hparen hstop
        rw [hdrop] at this
        exact this.tail (by decide)
      rw [List.cons_append]
      dsimp only
      rw [brace_append hrest, Option.map_map, Option.map_map]
      rfl
  · rfl

/-- The parenthesis that closes the result is found in the text, or none is opened. -/
def Closed (v : Text) : Prop := ch ')' ∈ v ∨ (v.dropWhile isSpace).head? ≠ some (ch '(')

theorem tail_append {v : Text} (h : Ends v) (hclosed : Closed v) (r : Text) :
    tail (v ++ r) = (tail v).map (leaving r) := by
  have hspace : isSpace (ch '\x7b') = false := by decide
  have hu : Ends (v.dropWhile isSpace) := h.dropWhile h.mem hspace
  have hparen : parenGroup (v.dropWhile isSpace ++ r) =
      (parenGroup (v.dropWhile isSpace)).map (leaving r) := by
    rcases hclosed with hmem | hhead
    · refine parenGroup_append hu ?_ r
      rw [← List.takeWhile_append_dropWhile (p := isSpace) (l := v)] at hmem
      rcases List.mem_append.mp hmem with hblank | hmem
      · exact absurd (List.mem_takeWhile_imp hblank) (by decide)
      · exact hmem
    · have hne := List.ne_nil_of_mem hu.mem
      rw [parenGroup, parenGroup, List.head?_append_of_ne_nil _ hne, if_neg hhead, if_neg hhead]
      rfl
  rw [tail, tail, brace_append h, dropWhile_append_of_mem h.mem hspace, hparen,
    wordGroup_append hu]
  cases brace v with
  | some left => rfl
  | none =>
    cases parenGroup (v.dropWhile isSpace) with
    | some x => rfl
    | none => rfl

/-- A group that is closed in the second part ends there. -/
theorem parenGroup_left {u r left : Text} {g : Text} (hu : ch ')' ∉ u)
    (h : parenGroup (u ++ r) = some (g, left)) : left.length < r.length := by
  have hskip : ∀ c ∈ u, decide (c ≠ ch ')') = true := by
    intro c hc
    rw [decide_eq_true_eq]
    rintro rfl
    exact hu hc
  rw [parenGroup, List.dropWhile_append_of_pos hskip] at h
  split_ifs at h
  cases hdrop : r.dropWhile fun c => decide (c ≠ ch ')') with
  | nil =>
    rw [hdrop] at h
    cases h
  | cons c rest =>
    rw [hdrop] at h
    dsimp only at h
    obtain ⟨x, hx, heq⟩ := Option.map_eq_some_iff.mp h
    obtain ⟨-, rfl⟩ := Prod.mk.inj heq
    obtain ⟨w, hw, -⟩ := brace_eq_some hx
    have hlength := List.length_dropWhile_le (fun c => decide (c ≠ ch ')')) r
    rw [hdrop, hw, List.length_cons, List.length_append] at hlength
    omega

/-- In a text with an open result the group is closed later, or the word matches as before. -/
theorem tail_open {v r : Text} {g : Text} (h : Ends v) (hopen : ¬ Closed v)
    (hbrace : brace (v ++ r) = none) (hword : wordGroup ((v ++ r).dropWhile isSpace) = some (g, r))
    (r' : Text) : ∃ g' r'', tail (v ++ r') = some (g', r'') ∧ SameOrBeyond g r' g' r'' := by
  have hspace : isSpace (ch '\x7b') = false := by decide
  have hu : Ends (v.dropWhile isSpace) := h.dropWhile h.mem hspace
  have hparen : ch ')' ∉ v.dropWhile isSpace :=
    fun hmem => hopen (.inl ((List.dropWhile_suffix isSpace).subset hmem))
  rw [brace_append h, Option.map_eq_none_iff] at hbrace
  rw [dropWhile_append_of_mem h.mem hspace] at hword
  have hword' := eq_some_of_append (wordGroup_append hu) hword r'
  rw [tail, brace_append h, hbrace, Option.map_none, dropWhile_append_of_mem h.mem hspace]
  dsimp only
  cases hgroup : parenGroup (v.dropWhile isSpace ++ r') with
  | some x => exact ⟨x.1, x.2, rfl, .inr (parenGroup_left hparen hgroup)⟩
  | none => exact ⟨g, r', by rw [Option.none_or, hword'], .inl ⟨rfl, rfl⟩⟩

theorem parenGroup_eq_some {u r g : Text} (h : parenGroup u = some (g, r)) :
    ∃ v, u = v ++ r ∧ Ends v ∧ ch ')' ∈ v := by
  rw [parenGroup] at h
  split_ifs at h
  cases hdrop : u.dropWhile fun c => decide (c ≠ ch ')') with
  | nil =>
    rw [hdrop] at h
    cases h
  | cons c rest =>
    rw [hdrop] at h
    obtain ⟨x, hx, heq⟩ := Option.map_eq_some_iff.mp h
    obtain ⟨-, rfl⟩ := Prod.mk.inj heq
    obtain ⟨w, hw, hends⟩ := brace_eq_some hx
    obtain rfl := eq_of_dropWhile_ne hdrop
    refine ⟨u.takeWhile (fun c => decide (c ≠ ch ')')) ++ (ch ')' :: w), ?_, ?_, by simp⟩
    · rw [List.append_assoc, List.cons_append, ← hw, ← hdrop, List.takeWhile_append_dropWhile]
    · exact (hends.append [ch ')']).append _

theorem wordGroup_eq_some {u r g : Text} (h : wordGroup u = some (g, r)) :
    ∃ v, u = v ++ r ∧ Ends v := by
  rw [wordGroup] at h
  split_ifs at h
  obtain ⟨x, hx, heq⟩ := Option.map_eq_some_iff.mp h
  obtain ⟨-, rfl⟩ := Prod.mk.inj heq
  obtain ⟨w, hw, hends⟩ := brace_eq_some hx
  refine ⟨u.takeWhile inWord ++ w, ?_, hends.append _⟩
  rw [List.append_assoc, ← hw, List.takeWhile_append_dropWhile]

theorem localTail : LocalTail tail where
  fails h hparen hnone := eq_none_of_append (tail_append h (.inl hparen)) hnone _
  consumes := by
    intro t r g h
    have hkeep : ∀ {v}, t = v ++ r → Ends v → Closed v → ∃ v, t = v ++ r ∧ Ends v ∧
        ∀ r', ∃ g' r'', tail (v ++ r') = some (g', r'') ∧ SameOrBeyond g r' g' r'' := by
      intro v ht hends hclosed
      refine ⟨v, ht, hends, fun r' => ⟨g, r', ?_, .inl ⟨rfl, rfl⟩⟩⟩
      rw [ht] at h
      exact eq_some_of_append (tail_append hends hclosed) h r'
    have hsplit : ∀ {v}, t.dropWhile isSpace = v ++ r → t = (t.takeWhile isSpace ++ v) ++ r := by
      intro v hv
      rw [List.append_assoc, ← hv, List.takeWhile_append_dropWhile]
    rw [tail] at h
    cases hbrace : brace t with
    | some left =>
      rw [hbrace] at h
      obtain ⟨rfl, rfl⟩ := Prod.mk.inj (Option.some.inj h)
      obtain ⟨v, ht, hends⟩ := brace_eq_some hbrace
      rw [ht, brace_append hends] at hbrace
      obtain ⟨x, hx, -⟩ := Option.map_eq_some_iff.mp hbrace
      refine hkeep ht hends (.inr ?_)
      rw [head?_of_brace hx]
      decide
    | none =>
      rw [hbrace] at h
      dsimp only at h
      cases hgroup : parenGroup (t.dropWhile isSpace) with
      | some x =>
        rw [hgroup, Option.some_or] at h
        obtain rfl := Option.some.inj h
        obtain ⟨v, hv, hends, hmem⟩ := parenGroup_eq_some hgroup
        exact hkeep (hsplit hv) (hends.append _) (.inl (by simp [hmem]))
      | none =>
        rw [hgroup, Option.none_or] at h
        obtain ⟨v, hv, hends⟩ := wordGroup_eq_some h
        have ht := hsplit hv
        by_cases hclosed : Closed (t.takeWhile isSpace ++ v)
        · exact hkeep ht (hends.append _) hclosed
        · refine ⟨_, ht, hends.append _, tail_open (hends.append _) hclosed (r := r) ?_ ?_⟩
          · rw [← ht, hbrace]
          · rw [← ht, h]

end Go

namespace Rust

theorem arrowGroup_append {v : Text} (h : Ends v) (r : Text) :
    arrowGroup (v ++ r) = (arrowGroup v).map (leaving r) := by
  have hstop : decide (ch '\x7b' ≠ ch '\x7b') = false := by decide
  rw [arrowGroup, arrowGroup, dropWhile_append_of_mem h.mem hstop,
    takeWhile_append_of_mem h.mem hstop]
  cases hdrop : v.dropWhile fun c => decide (c ≠ ch '\x7b') with
  | nil => exact absurd hdrop (dropWhile_ne_nil_of_mem h.mem hstop)
  | cons c rest =>
    rw [List.cons_append]
    dsimp only
    split_ifs
    · rw [Option.map_map]
      rfl
    · rfl

theorem tail_append {v : Text} (h : Ends v) (r : Text) :
    tail (v ++ r) = (tail v).map (leaving r) := by
  have hspace : isSpace (ch '\x7b') = false := by decide
  have hu : Ends (v.dropWhile isSpace) := h.dropWhile h.mem hspace
  rw [tail, tail, brace_append h, dropWhile_append_of_mem h.mem hspace]
  cases hbrace : brace v with
  | some left => rfl
  | none =>
    -- what is no brace has a character before the last
    have hlength : (text "->").length ≤ (v.dropWhile isSpace).length := by
      cases hdrop : v.dropWhile isSpace with
      | nil => exact absurd hdrop (dropWhile_ne_nil_of_mem h.mem hspace)
      | cons c rest =>
        rw [brace, hdrop] at hbrace
        dsimp only at hbrace
        split_ifs at hbrace with hc
        rw [hdrop] at hu
        have := List.length_pos_of_mem (hu.tail hc).mem
        exact Nat.succ_le_succ this
    rw [Option.map_none]
    dsimp only
    rw [after_append hlength]
    cases hafter : after (text "->") (v.dropWhile isSpace) with
    | none => rfl
    | some x =>
      have hx : Ends x := by
        rw [after_eq_some.mp hafter] at hu
        refine hu.of_append ?_
        rintro rfl
        revert hu
        rw [Ends]
        decide
      rw [Option.map_some, Option.bind_some, Option.bind_some, arrowGroup_append hx,
        Option.map_map, Option.map_map]
      rfl

theorem arrowGroup_eq_some {u r g : Text} (h : arrowGroup u = some (g, r)) :
    ∃ v, u = v ++ r ∧ Ends v := by
  rw [arrowGroup] at h
  cases hdrop : u.dropWhile fun c => decide (c ≠ ch '\x7b') with
  | nil =>
    rw [hdrop] at h
    cases h
  | cons c rest =>
    rw [hdrop] at h
    dsimp only at h
    obtain rfl := eq_of_dropWhile_ne hdrop
    have hrest : rest = r := by
      split_ifs at h
      · obtain ⟨d, -, heq⟩ := Option.map_eq_some_iff.mp h
        exact (Prod.mk.inj heq).2
      · exact (Prod.mk.inj (Option.some.inj h)).2
    refine ⟨u.takeWhile (fun c => decide (c ≠ ch '\x7b')) ++ [ch '\x7b'], ?_, ?_⟩
    · rw [List.append_assoc, List.singleton_append, ← hrest, ← hdrop,
        List.takeWhile_append_dropWhile]
    · exact Ends.append _ rfl

theorem localTail : LocalTail tail where
  fails h _ hnone := eq_none_of_append (tail_append h) hnone _
  consumes := by
    intro t r g h
    obtain ⟨v, ht, hends⟩ : ∃ v, t = v ++ r ∧ Ends v := by
      rw [tail] at h
      cases hbrace : brace t with
      | some left =>
        rw [hbrace] at h
        obtain ⟨-, rfl⟩ := Prod.mk.inj (Option.some.inj h)
        exact brace_eq_some hbrace
      | none =>
        rw [hbrace] at h
        obtain ⟨x, hx, heq⟩ := Option.map_eq_some_iff.mp h
        obtain ⟨-, rfl⟩ := Prod.mk.inj heq
        obtain ⟨u, hu, hgroup⟩ := Option.bind_eq_some_iff.mp hx
        obtain ⟨v, rfl, hends⟩ := arrowGroup_eq_some hgroup
        refine ⟨t.takeWhile isSpace ++ (text "->" ++ v), ?_, (hends.append _).append _⟩
        rw [List.append_assoc, List.append_assoc, ← after_eq_some.mp hu,
          List.takeWhile_append_dropWhile]
    refine ⟨v, ht, hends, fun r' => ⟨g, r', ?_, .inl ⟨rfl, rfl⟩⟩⟩
    rw [ht] at h
    exact eq_some_of_append (tail_append hends) h r'

end Rust

/-- Blanks, the name, blanks and a parenthesis. -/
def opened (name sp sp' inside : Text) : Text := sp ++ (name ++ (sp' ++ ch '(' :: inside))

theorem dropWhile_open {sp : Text} (hsp : ∀ c ∈ sp, isSpace c = true) (inside : Text) :
    (sp ++ ch '(' :: inside).dropWhile isSpace = ch '(' :: inside := by
  rw [List.dropWhile_append_of_pos hsp]
  rfl

/-- However the blanks are shared out, what follows the parenthesis is the same. -/
theorem opened_inj {name sp₁ sp₁' sp₂ sp₂' x y : Text} (h₁ : ∀ c ∈ sp₁, isSpace c = true)
    (h₁' : ∀ c ∈ sp₁', isSpace c = true) (h₂ : ∀ c ∈ sp₂, isSpace c = true)
    (h₂' : ∀ c ∈ sp₂', isSpace c = true) (h : opened name sp₁ sp₁' x = opened name sp₂ sp₂' y) :
    x = y := by
  have hdrop := congrArg (List.dropWhile isSpace) h
  rw [opened, opened, List.dropWhile_append_of_pos h₁, List.dropWhile_append_of_pos h₂,
    @List.dropWhile_append _ _ name, @List.dropWhile_append _ _ name] at hdrop
  split_ifs at hdrop
  · rw [dropWhile_open h₁', dropWhile_open h₂'] at hdrop
    exact (List.cons.inj hdrop).2
  · have hrest := congrArg (List.dropWhile isSpace) (List.append_cancel_left hdrop)
    rw [dropWhile_open h₁', dropWhile_open h₂'] at hrest
    exact (List.cons.inj hrest).2

theorem callAt_eq_some {name s x : Text} (h : callAt name s = some x) :
    ∃ sp', (∀ c ∈ sp', isSpace c = true) ∧ s = opened name [] sp' x := by
  obtain ⟨rest, hafter, hrest⟩ := Option.bind_eq_some_iff.mp h
  cases hdrop : rest.dropWhile isSpace with
  | nil =>
    rw [hdrop] at hrest
    cases hrest
  | cons c inside =>
    rw [hdrop] at hrest
    dsimp only at hrest
    split_ifs at hrest with hc
    obtain rfl := Option.some.inj hrest
    refine ⟨rest.takeWhile isSpace, fun c hc => List.mem_takeWhile_imp hc, ?_⟩
    rw [opened, List.nil_append, ← hc, ← hdrop, List.takeWhile_append_dropWhile]
    exact after_eq_some.mp hafter

theorem callAt_opened (name : Text) {sp' : Text} (h : ∀ c ∈ sp', isSpace c = true) (x : Text) :
    callAt name (opened name [] sp' x) = some x := by
  have hafter : after name (opened name [] sp' x) = some (sp' ++ ch '(' :: x) :=
    after_eq_some.mpr rfl
  rw [callAt, hafter, Option.bind_some, dropWhile_open h]
  rfl

theorem blanksThen_eq_some {name s x : Text} (h : blanksThen name s = some x) :
    ∃ sp sp', (∀ c ∈ sp, isSpace c = true) ∧ (∀ c ∈ sp', isSpace c = true) ∧
      s = opened name sp sp' x := by
  induction s with
  | nil =>
    obtain ⟨sp', h', hs⟩ := callAt_eq_some h
    exact ⟨[], sp', by simp, h', hs⟩
  | cons c rest ih =>
    have hcall : callAt name (c :: rest) = some x → ∃ sp sp', (∀ c ∈ sp, isSpace c = true) ∧
        (∀ c ∈ sp', isSpace c = true) ∧ c :: rest = opened name sp sp' x := by
      intro hx
      obtain ⟨sp', h', hs⟩ := callAt_eq_some hx
      exact ⟨[], sp', by simp, h', hs⟩
    rw [blanksThen] at h
    split_ifs at h with hc
    · cases hrest : blanksThen name rest with
      | none =>
        rw [hrest, Option.none_or] at h
        exact hcall h
      | some y =>
        rw [hrest, Option.some_or] at h
        obtain rfl := Option.some.inj h
        obtain ⟨sp, sp', hsp, hsp', rfl⟩ := ih hrest
        refine ⟨c :: sp, sp', ?_, hsp', rfl⟩
        simpa [hc] using hsp
    · exact hcall h

theorem blanksThen_opened (name : Text) {sp sp' : Text} (h : ∀ c ∈ sp, isSpace c = true)
    (h' : ∀ c ∈ sp', isSpace c = true) (x : Text) :
    blanksThen name (opened name sp sp' x) = some x := by
  induction sp with
  | nil =>
    have hcall := callAt_opened name h' x
    cases hs : opened name [] sp' x with
    | nil => rw [blanksThen, ← hs, hcall]
    | cons c rest =>
      rw [hs] at hcall
      rw [blanksThen]
      split_ifs with hc
      · cases hrest : blanksThen name rest with
        | none => rw [Option.none_or, hcall]
        | some y =>
          obtain ⟨sp₁, sp₁', h₁, h₁', rfl⟩ := blanksThen_eq_some hrest
          have hcons : ∀ d ∈ c :: sp₁, isSpace d = true := by simpa [hc] using h₁
          rw [Option.some_or, opened_inj (by simp) h' hcons h₁' hs]
      · exact hcall
  | cons c sp ih =>
    have hc : isSpace c = true := h c (by simp)
    have hrest := ih fun d hd => h d (by simp [hd])
    have hs : opened name (c :: sp) sp' x = c :: opened name sp sp' x := rfl
    rw [hs, blanksThen, if_pos hc, hrest, Option.some_or]

/-- A head is decided by the text up to its parenthesis. -/
theorem headAt_eq_some {keyword name s x : Text} (h : headAt keyword name s = some x) :
    ∃ p, s = p ++ x ∧ ∀ x', headAt keyword name (p ++ x') = some x' := by
  obtain ⟨rest, hafter, hrest⟩ := Option.bind_eq_some_iff.mp h
  cases rest with
  | nil => cases hrest
  | cons c rest =>
    dsimp only at hrest
    split_ifs at hrest with hc
    obtain ⟨sp, sp', hsp, hsp', rfl⟩ := blanksThen_eq_some hrest
    have hsplit : ∀ y, keyword ++ c :: opened name sp sp' y =
        (keyword ++ c :: (sp ++ name ++ sp' ++ [ch '('])) ++ y := by
      intro y
      simp [opened]
    refine ⟨keyword ++ c :: (sp ++ name ++ sp' ++ [ch '(']), ?_, fun x' => ?_⟩
    · rw [← hsplit]
      exact after_eq_some.mp hafter
    · rw [← hsplit, headAt, after_eq_some.mpr rfl, Option.bind_some]
      dsimp only
      rw [if_pos hc, blanksThen_opened name hsp hsp']

theorem paren_mem_of_headAt {keyword name s x : Text} (h : headAt keyword name s = some x) :
    ch '(' ∈ s := by
  obtain ⟨rest, hafter, hrest⟩ := Option.bind_eq_some_iff.mp h
  cases rest with
  | nil => cases hrest
  | cons c rest =>
    dsimp only at hrest
    split_ifs at hrest with hc
    obtain ⟨sp, sp', -, -, rfl⟩ := blanksThen_eq_some hrest
    rw [after_eq_some.mp hafter]
    simp [opened]

section
variable {β : Type} {tail : Text → Option (β × Text)} (hlocal : LocalTail tail)

include hlocal in
theorem closeAt_eq_some {params s g₁ r : Text} {g : β}
    (h : closeAt tail params s = some (g₁, g, r)) :
    ∃ v, s = v ++ r ∧ Ends v ∧ ch ')' ∈ v ∧ ∀ r', ∃ g' r'',
      closeAt tail params (v ++ r') = some (g₁, g', r'') ∧ SameOrBeyond g r' g' r'' := by
  induction s generalizing params with
  | nil => cases h
  | cons c rest ih =>
    rw [closeAt] at h
    split_ifs at h with hc
    · cases htail : tail rest with
      | some x =>
        rw [htail] at h
        obtain ⟨rfl, heq⟩ := Prod.mk.inj (Option.some.inj h)
        rw [Prod.mk.eta.symm.trans heq] at htail
        obtain ⟨v, rfl, hends, hv⟩ := hlocal.consumes htail
        refine ⟨c :: v, rfl, hends.append [c], by simp [hc], fun r' => ?_⟩
        obtain ⟨g', r'', htail', hsame⟩ := hv r'
        refine ⟨g', r'', ?_, hsame⟩
        rw [List.cons_append, closeAt, if_pos hc, htail']
      | none =>
        rw [htail] at h
        obtain ⟨v, rfl, hends, hmem, hv⟩ := ih h
        refine ⟨c :: v, rfl, hends.append [c], by simp [hmem], fun r' => ?_⟩
        rw [List.cons_append, closeAt, if_pos hc, hlocal.fails hends hmem htail]
        exact hv r'
    · obtain ⟨v, rfl, hends, hmem, hv⟩ := ih h
      refine ⟨c :: v, rfl, hends.append [c], by simp [hmem], fun r' => ?_⟩
      rw [List.cons_append, closeAt, if_neg hc]
      exact hv r'

variable (keyword name : Text)

include hlocal in
theorem matchAt_eq_some {s g₁ r : Text} {g : β}
    (h : matchAt keyword name tail s = some (g₁, g, r)) :
    ∃ v, s = v ++ r ∧ v ≠ [] ∧ ∀ r', ∃ g' r'',
      matchAt keyword name tail (v ++ r') = some (g₁, g', r'') ∧ SameOrBeyond g r' g' r'' := by
  obtain ⟨inside, hhead, hclose⟩ := Option.bind_eq_some_iff.mp h
  obtain ⟨p, rfl, hp⟩ := headAt_eq_some hhead
  obtain ⟨v, rfl, hends, -, hv⟩ := closeAt_eq_some hlocal hclose
  refine ⟨p ++ v, (List.append_assoc ..).symm, ?_, fun r' => ?_⟩
  · exact List.append_ne_nil_of_right_ne_nil p (List.ne_nil_of_mem hends.mem)
  · obtain ⟨g', r'', hclose', hsame⟩ := hv r'
    refine ⟨g', r'', ?_, hsame⟩
    rw [List.append_assoc, matchAt, hp, Option.bind_some, hclose']

theorem searchFrom_eq_some {i : ℕ} {s : Text} {m : Matched β}
    (h : searchFrom keyword name tail i s = some m) :
    ∃ before rest r, s = before ++ rest ∧ m.start = i + before.length ∧
      matchAt keyword name tail rest = some (m.params, m.result, r) ∧
      m.stop = m.start + rest.length - r.length := by
  induction s generalizing i with
  | nil => cases h
  | cons c rest ih =>
    rw [searchFrom] at h
    cases hmatch : matchAt keyword name tail (c :: rest) with
    | some x =>
      rw [hmatch] at h
      obtain rfl := Option.some.inj h
      exact ⟨[], c :: rest, x.2.2, rfl, rfl, hmatch, rfl⟩
    | none =>
      rw [hmatch] at h
      obtain ⟨before, rest', r, rfl, hstart, hrest, hstop⟩ := ih h
      refine ⟨c :: before, rest', r, rfl, ?_, hrest, hstop⟩
      rw [hstart, List.length_cons]
      omega

theorem searchFrom_skip {before rest : Text} {i : ℕ}
    (h : ∀ k < before.length, matchAt keyword name tail ((before ++ rest).drop k) = none) :
    searchFrom keyword name tail i (before ++ rest) =
      searchFrom keyword name tail (i + before.length) rest := by
  induction before generalizing i with
  | nil => rfl
  | cons c before ih =>
    have hnone : matchAt keyword name tail (c :: (before ++ rest)) = none := h 0 (by simp)
    have hrest : ∀ k < before.length,
        matchAt keyword name tail ((before ++ rest).drop k) = none := by
      intro k hk
      exact h (k + 1) (by simpa using hk)
    rw [List.cons_append, searchFrom, hnone]
    dsimp only
    rw [ih hrest, List.length_cons, Nat.add_assoc, Nat.add_comm 1]

/-- No comment disturbs the match of a text: the other text is the same from where it begins to
where it ends, and is not matched before it. -/
def Undisturbed {β : Type} (keyword name : Text) (tail : Text → Option (β × Text))
    (s t : Text) : Prop :=
  ∀ m, searchFrom keyword name tail 0 s = some m →
    (∀ k < m.stop, m.start ≤ k → s[k]? = t[k]?) ∧
      ∀ k < m.start, matchAt keyword name tail (t.drop k) = none

instance (s t : Text) : Decidable (Undisturbed keyword name tail s t) :=
  match h : searchFrom keyword name tail 0 s with
  | none => .isTrue fun m hm => by rw [h] at hm; cases hm
  | some m => decidable_of_iff ((∀ k < m.stop, m.start ≤ k → s[k]? = t[k]?) ∧
      ∀ k < m.start, matchAt keyword name tail (t.drop k) = none)
      ⟨fun hp m' hm' => Option.some.inj (h.symm.trans hm') ▸ hp, fun hp => hp m h⟩

/-- Two texts that agree from one place to another have the same part there. -/
theorem drop_eq_append {s t before v r : Text} (hs : s = before ++ (v ++ r))
    (h : ∀ k < before.length + v.length, before.length ≤ k → s[k]? = t[k]?) :
    t.drop before.length = v ++ t.drop (before.length + v.length) := by
  apply List.ext_getElem?
  intro k
  rw [List.getElem?_drop]
  by_cases hk : k < v.length
  · rw [List.getElem?_append_left hk, ← h (before.length + k) (by omega) (by omega), hs,
      List.getElem?_append_right (by omega), Nat.add_sub_cancel_left,
      List.getElem?_append_left hk]
  · rw [List.getElem?_append_right (by omega), List.getElem?_drop]
    congr 1
    omega

variable {keyword name}

include hlocal in
theorem Undisturbed.search {s t : Text} (h : Undisturbed keyword name tail s t)
    (hlength : s.length = t.length) {m : Matched β}
    (hm : searchFrom keyword name tail 0 s = some m) :
    ∃ m', searchFrom keyword name tail 0 t = some m' ∧ (m' = m ∨ m.stop < m'.stop) := by
  obtain ⟨hagree, hearlier⟩ := h m hm
  obtain ⟨before, rest, r, hs, hstart, hmatch, hstop⟩ := searchFrom_eq_some keyword name hm
  obtain ⟨v, rfl, hne, hv⟩ := matchAt_eq_some hlocal keyword name hmatch
  rw [Nat.zero_add] at hstart
  have hstop' : m.stop = before.length + v.length := by
    rw [hstop, hstart, List.length_append]
    omega
  rw [hstart] at hearlier
  rw [hstart, hstop'] at hagree
  have hdrop := drop_eq_append hs hagree
  obtain ⟨r', hr'⟩ : ∃ r', r' = t.drop (before.length + v.length) := ⟨_, rfl⟩
  rw [← hr'] at hdrop
  obtain ⟨g', r'', hmatch', hsame⟩ := hv r'
  have hle : before.length ≤ t.length := by
    rw [← hlength, hs, List.length_append]
    omega
  have htake : (t.take before.length).length = before.length := List.length_take_of_le hle
  have ht : t = t.take before.length ++ (v ++ r') := by rw [← hdrop, List.take_append_drop]
  have hsearch : searchFrom keyword name tail 0 t =
      some ⟨before.length, before.length + (v ++ r').length - r''.length, m.params, g'⟩ := by
    rw [ht, searchFrom_skip keyword name, htake, Nat.zero_add]
    · obtain ⟨c, v', rfl⟩ := List.exists_cons_of_ne_nil hne
      rw [List.cons_append, searchFrom, ← List.cons_append, hmatch']
    · intro k hk
      rw [← ht]
      exact hearlier k (by omega)
  refine ⟨_, hsearch, ?_⟩
  rw [List.length_append]
  rcases hsame with ⟨rfl, rfl⟩ | hbeyond
  · left
    have hend : before.length + (v.length + r''.length) - r''.length = m.stop := by omega
    rw [hend, ← hstart]
  · right
    rw [hstop']
    dsimp only
    omega

include hlocal in
/-- Two texts that do not disturb each other's match have the same match. -/
theorem searchFrom_eq {s t : Text} (hlength : s.length = t.length)
    (hst : Undisturbed keyword name tail s t) (hts : Undisturbed keyword name tail t s) :
    searchFrom keyword name tail 0 s = searchFrom keyword name tail 0 t := by
  cases hs : searchFrom keyword name tail 0 s with
  | some m =>
    obtain ⟨m', ht, hm'⟩ := hst.search hlocal hlength hs
    obtain ⟨m'', hs'', hm''⟩ := hts.search hlocal hlength.symm ht
    obtain rfl := Option.some.inj (hs.symm.trans hs'')
    rcases hm' with rfl | hlt
    · exact ht.symm
    · rcases hm'' with rfl | hlt'
      · exact ht.symm
      · omega
  | none =>
    cases ht : searchFrom keyword name tail 0 t with
    | none => rfl
    | some m =>
      obtain ⟨m', hs', -⟩ := hts.search hlocal hlength.symm ht
      rw [hs] at hs'
      cases hs'

end

/-- The code and the code without comments do not disturb each other's match. -/
def CommentsApart (language : Language) (functionName code : Text) : Prop :=
  match language with
  | .go => Undisturbed (text "func") functionName Go.tail code (language.blankComments code) ∧
      Undisturbed (text "func") functionName Go.tail (language.blankComments code) code
  | .rust => Undisturbed (text "fn") functionName Rust.tail code (language.blankComments code) ∧
      Undisturbed (text "fn") functionName Rust.tail (language.blankComments code) code

instance (language : Language) (functionName code : Text) :
    Decidable (CommentsApart language functionName code) :=
  match language with
  | .go => inferInstanceAs (Decidable (Undisturbed _ _ _ _ _ ∧ Undisturbed _ _ _ _ _))
  | .rust => inferInstanceAs (Decidable (Undisturbed _ _ _ _ _ ∧ Undisturbed _ _ _ _ _))

/-- Comments do not change a signature where none stands in the text that is matched and none
hides or shows a match before it. -/
theorem signature_without_comments (language : Language) (functionName code : Text)
    (h : CommentsApart language functionName code) :
    language.signature functionName code =
      language.signature functionName (language.blankComments code) := by
  have hlength : code.length = (language.blankComments code).length :=
    (length_transduce language.next .code code).symm
  cases language with
  | go =>
    have hsearch : Go.search functionName code = Go.search functionName _ :=
      searchFrom_eq Go.localTail hlength h.1 h.2
    rw [Language.signature, Language.signature, Go.signature, hsearch, Go.signature]
  | rust =>
    have hsearch : Rust.search functionName code = Rust.search functionName _ :=
      searchFrom_eq Rust.localTail hlength h.1 h.2
    rw [Language.signature, Language.signature, Rust.signature, hsearch, Rust.signature]

def commentedBody : Text :=
  text "// sum\nfunc add(a, b int) int \x7b\n  return a + b // func add(c int) \x7b\n\x7d"

theorem signature_without_comments_body :
    CommentsApart .go (text "add") commentedBody ∧
      commentedBody ≠ Language.go.blankComments commentedBody ∧
      Language.go.signature (text "add") commentedBody =
        Language.go.signature (text "add") (Language.go.blankComments commentedBody) := by
  have h : CommentsApart .go (text "add") commentedBody := by decide +kernel
  exact ⟨h, by decide +kernel, signature_without_comments .go (text "add") commentedBody h⟩

def goCommentedOut : Text :=
  text "// func add(a int) int \x7b\nfunc add(a, b int) int \x7b return a + b \x7d"

def rustCommentedOut : Text :=
  text "// fn add(a: i32) -> i32 \x7b\nfn add(a: i32, b: i32) -> i32 \x7b a + b \x7d"

/-- A version that is commented out is taken for the definition, in both languages. -/
theorem commented_version_taken :
    Language.go.signature (text "add") goCommentedOut ≠
        Language.go.signature (text "add") (Language.go.blankComments goCommentedOut) ∧
      Language.rust.signature (text "add") rustCommentedOut ≠
        Language.rust.signature (text "add") (Language.rust.blankComments rustCommentedOut) := by
  constructor
  · intro h
    have hread := congrArg Except.toOption h
    revert hread
    decide +kernel
  · intro h
    have hread := congrArg Except.toOption h
    revert hread
    decide +kernel

end ExecutionEngine.RegexSignature
