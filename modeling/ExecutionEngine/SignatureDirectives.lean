import ExecutionEngine.SignatureComments

/-!
# Preprocessor lines before a C or C++ function

The return type is what stands between the name and the nearest delimiter before it. The
sign `#` is a delimiter, the end of its line is none: where the code has no delimiter
before the function, the line of a directive becomes part of the return type.
-/
namespace ExecutionEngine.CSignature
open Pipeline TextScan

/-- Lines that begin with `#`, without quotes, comments and the name. -/
structure Directives (functionName block : Text) : Prop where
  lines : ∃ bodies : List Text, (∀ body ∈ bodies, ch '\n' ∉ body) ∧
    block = (bodies.map fun body => ch '#' :: body ++ [ch '\n']).flatten
  no_quote : ∀ c ∈ block, ¬ (c = ch '"' ∨ c.val = 39)
  no_comment : ¬ text "//" <:+: block ∧ ¬ text "/*" <:+: block
  no_name : ¬ functionName <:+: block

/-- The name is not a part of every directive, and stands on one line. -/
def IsName (functionName : Text) : Prop :=
  functionName ≠ [] ∧ functionName ≠ text "#" ∧ ch '\n' ∉ functionName

/-- The scan of `_return_type_before` meets a delimiter. -/
def meetsDelimiter : Option CodePoint → Text → Bool
  | _, [] => false
  | next, c :: before => delimits before.head? next c || meetsDelimiter (some c) before

/-- There is a delimiter before a place. -/
def DelimiterBefore (clean : Text) (place : ℕ) : Prop :=
  meetsDelimiter (clean.drop place).head? (clean.take place).reverse = true

section
variable (w : WordClass)

/-- The closing parenthesis of a match that a brace follows. -/
def closing (clean : Text) (m : Match) : Option ℕ :=
  (matchingParen 0 (clean.drop (m.stop - 1))).bind fun n =>
    if (skipQualifiers w 0 (clean.drop (m.stop - 1 + n + 1))).head? = some (ch '\x7b') then
      some (m.stop - 1 + n)
    else none

/-- The first match that a brace follows has a delimiter before it. -/
def FirstDelimited (clean functionName : Text) : Prop :=
  ∀ m, ((finditer w functionName 0 0 none clean).find? fun m => (closing w clean m).isSome) =
    some m → DelimiterBefore clean m.start

theorem definitionAt_eq (clean : Text) (m : Match) :
    definitionAt w clean m = (closing w clean m).bind fun closeIndex =>
      let returnType := returnTypeBefore w (clean.take m.start) (clean.drop m.start)
      if returnType = [] then none else some (closeIndex, returnType) := by
  simp only [definitionAt, closing, Option.bind_eq_bind, Option.bind_assoc]
  congr 1
  funext n
  by_cases hbrace : (skipQualifiers w 0 (clean.drop (m.stop - 1 + n + 1))).head? =
      some (ch '\x7b')
  · simp [hbrace]
  · simp [hbrace]

end

theorem delimits_append {before after : Text} (hafter : after.head? ≠ some (ch ':'))
    (next : Option CodePoint) (c : CodePoint) :
    delimits (before ++ after).head? next c = delimits before.head? next c := by
  cases before with
  | nil => simp [delimits, hafter]
  | cons b before => rfl

theorem getLast?_cons_or (c : CodePoint) (before : Text) (next : Option CodePoint) :
    (c :: before).getLast?.or next = before.getLast?.or (some c) := by
  rw [List.getLast?_cons]
  cases before.getLast? with
  | none => rfl
  | some b => rfl

/-- A text between a delimiter and a place is read as before when the delimiter is in it,
and goes on in what precedes it otherwise. -/
theorem backTo_append {after : Text} (hafter : after.head? ≠ some (ch ':')) (before : Text)
    (next : Option CodePoint) :
    backTo next (before ++ after) =
      if meetsDelimiter next before then backTo next before
      else before ++ backTo (before.getLast?.or next) after := by
  induction before generalizing next with
  | nil => simp [meetsDelimiter]
  | cons c before ih =>
    rw [List.cons_append, backTo, backTo, meetsDelimiter, delimits_append hafter, ih,
      getLast?_cons_or]
    cases delimits before.head? next c with
    | true => rfl
    | false =>
      cases meetsDelimiter (some c) before with
      | true => rfl
      | false => rfl

theorem meetsDelimiter_append (before after : Text) (next : Option CodePoint)
    (h : meetsDelimiter (before.getLast?.or next) after = true) :
    meetsDelimiter next (before ++ after) = true := by
  induction before generalizing next with
  | nil => simpa using h
  | cons c before ih =>
    have hlater : meetsDelimiter (some c) (before ++ after) = true := by
      apply ih
      rwa [getLast?_cons_or] at h
    rw [List.cons_append, meetsDelimiter, hlater, Bool.or_true]

theorem DelimiterBefore.mono {clean : Text} {place place' : ℕ} (h : DelimiterBefore clean place)
    (hle : place ≤ place') : DelimiterBefore clean place' := by
  obtain ⟨k, rfl⟩ := Nat.exists_eq_add_of_le hle
  rw [DelimiterBefore, List.take_add, List.reverse_append]
  apply meetsDelimiter_append
  rw [List.getLast?_reverse]
  cases k with
  | zero => exact h
  | succ k =>
    cases hdrop : clean.drop place with
    | nil =>
      have hnil : clean.drop (place + (k + 1)) = [] := by rw [← List.drop_drop, hdrop]; rfl
      rw [hnil]
      rwa [DelimiterBefore, hdrop] at h
    | cons c rest => rwa [DelimiterBefore, hdrop] at h

theorem stripFrom_append {block : Text} (hquote : ∀ c ∈ block, ¬ (c = ch '"' ∨ c.val = 39))
    (hcomment : ¬ text "//" <:+: block ∧ ¬ text "/*" <:+: block)
    (hend : block.getLast? ≠ some (ch '/')) (code : Text) :
    stripFrom .code (block ++ code) = block ++ stripFrom .code code := by
  induction block with
  | nil => rfl
  | cons c block ih =>
    have hslash : ∀ d : CodePoint, ¬ [ch '/', d] <:+: c :: block →
        ¬ (c = ch '/' ∧ (block ++ code).head? = some d) := by
      rintro d hpair ⟨rfl, hd⟩
      cases block with
      | nil => exact hend rfl
      | cons b block =>
        obtain rfl : b = d := by simpa using hd
        exact hpair ⟨[], block, rfl⟩
    have hnext : Mode.next .code c (block ++ code) = (c, .code) := by
      dsimp only [Mode.next]
      rw [if_neg (hslash (ch '/') hcomment.1), if_neg (hslash (ch '*') hcomment.2),
        if_neg (hquote c (by simp))]
    have htail : ∀ {pair : Text}, ¬ pair <:+: c :: block → ¬ pair <:+: block :=
      fun h hpart => h (hpart.trans (List.suffix_cons c block).isInfix)
    rw [List.cons_append, stripFrom_cons, hnext, List.cons_append,
      ih (fun d hd => hquote d (by simp [hd])) ⟨htail hcomment.1, htail hcomment.2⟩]
    intro hlast
    rw [List.getLast?_cons, hlast] at hend
    exact hend rfl

theorem callLength_spec {name s : Text} {n : ℕ} (h : callLength name s = some n) :
    name <+: s ∧ 0 < n := by
  rw [callLength, Option.bind_eq_some_iff] at h
  obtain ⟨rest, hafter, h⟩ := h
  split_ifs at h
  have hn := Option.some.inj h
  exact ⟨⟨rest, (after_eq_some.mp hafter).symm⟩, by omega⟩

section
variable (w : WordClass)

/-- The same match after `n` more characters. -/
def Match.shift (n : ℕ) (m : Match) : Match := ⟨m.start + n, m.stop + n⟩

theorem finditer_shift (name : Text) (n skip i : ℕ) (before : Option CodePoint) (s : Text) :
    finditer w name skip (i + n) before s =
      (finditer w name skip i before s).map (Match.shift n) := by
  induction s generalizing skip i before with
  | nil => cases skip <;> rfl
  | cons c rest ih =>
    have hi : i + n + 1 = i + 1 + n := by omega
    cases skip with
    | succ skip => rw [finditer, finditer, hi, ih]
    | zero =>
      rw [finditer, finditer, hi]
      split_ifs
      · cases callLength name (c :: rest) with
        | none => exact ih 0 (i + 1) (some c)
        | some k =>
          dsimp only
          rw [List.map_cons, ih, Match.shift, Nat.add_right_comm]
      · exact ih 0 (i + 1) (some c)

/-- Where the name is not called, there is no match. -/
theorem finditer_miss {name block clean : Text} (i : ℕ) (before : Option CodePoint)
    (hmiss : ∀ start t, block = start ++ t → t ≠ [] →
      w.boundary (start.getLast?.or before) t.head? = true → callLength name (t ++ clean) = none) :
    finditer w name 0 i before (block ++ clean) =
      finditer w name 0 (i + block.length) (block.getLast?.or before) clean := by
  induction block generalizing i before with
  | nil => rfl
  | cons c block ih =>
    have hnone : w.boundary before (some c) = true →
        callLength name (c :: (block ++ clean)) = none :=
      hmiss [] (c :: block) rfl (by simp)
    have hrest := ih (i + 1) (some c) fun start t ht hne hb =>
      hmiss (c :: start) t (by rw [ht, List.cons_append]) hne (by rwa [getLast?_cons_or])
    rw [List.cons_append, finditer, hrest, getLast?_cons_or, List.length_cons, Nat.add_assoc,
      Nat.add_comm 1]
    split_ifs with hb
    · rw [hnone hb]
    · rfl

theorem finditer_skip {name block clean : Text}
    (hmiss : ∀ t, t <:+ block → t ≠ [] → ¬ name <+: t ++ clean) (i : ℕ)
    (before : Option CodePoint) :
    finditer w name 0 i before (block ++ clean) =
      finditer w name 0 (i + block.length) (block.getLast?.or before) clean := by
  refine finditer_miss w i before fun start t ht hne _ => ?_
  rw [Option.eq_none_iff_forall_ne_some]
  intro n hn
  exact hmiss t ⟨start, ht.symm⟩ hne (callLength_spec hn).1

/-- A line break is no word character: a word begins after it as at the beginning. -/
theorem finditer_newline (name : Text) (i : ℕ) (s : Text) :
    finditer w name 0 i (some (ch '\n')) s = finditer w name 0 i none s := by
  have hword : w.isWord (ch '\n') = false := by
    rw [w.ascii _ (by decide)]
    rfl
  have hboundary : ∀ next, w.boundary (some (ch '\n')) next = w.boundary none next := by
    intro next
    rw [WordClass.boundary, WordClass.boundary, Option.any_some, hword, Option.any_none]
  cases s with
  | nil => rfl
  | cons c rest => rw [finditer, finditer, hboundary]

variable {w}

theorem finditer_bounds {name s : Text} {skip i : ℕ} {before : Option CodePoint} {m : Match}
    (h : m ∈ finditer w name skip i before s) : i ≤ m.start ∧ m.start < m.stop := by
  induction s generalizing skip i before with
  | nil => cases skip <;> cases h
  | cons c rest ih =>
    have hlater : ∀ {k : ℕ}, m ∈ finditer w name k (i + 1) (some c) rest →
        i ≤ m.start ∧ m.start < m.stop := by
      intro k hm
      have := ih hm
      omega
    cases skip with
    | succ skip => exact hlater h
    | zero =>
      rw [finditer] at h
      split_ifs at h
      · cases hcall : callLength name (c :: rest) with
        | none =>
          rw [hcall] at h
          exact hlater h
        | some n =>
          rw [hcall] at h
          rcases List.mem_cons.mp h with rfl | hm
          · have := (callLength_spec hcall).2
            exact ⟨le_rfl, Nat.lt_add_of_pos_right this⟩
          · exact hlater hm
      · exact hlater h

theorem finditer_sorted (name : Text) (skip i : ℕ) (before : Option CodePoint) (s : Text) :
    (finditer w name skip i before s).Pairwise fun m m' => m.start < m'.start := by
  induction s generalizing skip i before with
  | nil => cases skip <;> exact .nil
  | cons c rest ih =>
    cases skip with
    | succ skip => exact ih skip (i + 1) (some c)
    | zero =>
      rw [finditer]
      split_ifs
      · cases callLength name (c :: rest) with
        | none => exact ih 0 (i + 1) (some c)
        | some n => exact .cons (fun m hm => (finditer_bounds hm).1) (ih (n - 1) (i + 1) (some c))
      · exact ih 0 (i + 1) (some c)

end

section
variable {w : WordClass} {functionName block clean : Text}

theorem Directives.getLast?_eq (h : Directives functionName block) :
    block = [] ∨ block.getLast? = some (ch '\n') := by
  obtain ⟨bodies, -, rfl⟩ := h.lines
  rcases List.eq_nil_or_concat bodies with rfl | ⟨init, last, rfl⟩
  · exact .inl rfl
  · right
    simp [List.getLast?_append, List.getLast?_cons]

/-- The name begins nowhere in a block of directives. -/
theorem Directives.not_prefix (h : Directives functionName block) (hname : IsName functionName)
    {t : Text} (ht : t <:+ block) (hne : t ≠ []) : ¬ functionName <+: t ++ clean := by
  intro hbegins
  rcases le_total functionName.length t.length with hle | hle
  · have hpart := List.prefix_of_prefix_length_le hbegins (List.prefix_append t clean) hle
    exact h.no_name (hpart.isInfix.trans ht.isInfix)
  · have hpart := List.prefix_of_prefix_length_le (List.prefix_append t clean) hbegins hle
    have hlast : t.getLast? = some (ch '\n') := by
      obtain ⟨s, rfl⟩ := ht
      rcases h.getLast?_eq with hnil | hlast
      · exact absurd (List.append_eq_nil_iff.mp hnil).2 hne
      · rwa [List.getLast?_append_of_ne_nil _ hne] at hlast
    exact hname.2.2 (hpart.subset (List.mem_of_getLast? hlast))

theorem finditer_directives (h : Directives functionName block) (hname : IsName functionName)
    (hlast : block.getLast? = some (ch '\n')) :
    finditer w functionName 0 0 none (block ++ clean) =
      (finditer w functionName 0 0 none clean).map (Match.shift block.length) := by
  rw [finditer_skip w (fun t ht hne => h.not_prefix hname ht hne), hlast, Option.some_or,
    finditer_newline, finditer_shift]

theorem drop_shift (place : ℕ) :
    (block ++ clean).drop (place + block.length) = clean.drop place := by
  rw [Nat.add_comm, List.drop_length_add_append]

theorem closing_shift {m : Match} (hm : m.start < m.stop) :
    closing w (block ++ clean) (m.shift block.length) =
      (closing w clean m).map (· + block.length) := by
  have hstop : (m.shift block.length).stop - 1 = m.stop - 1 + block.length := by
    change m.stop + block.length - 1 = m.stop - 1 + block.length
    omega
  have hplace : ∀ n, m.stop - 1 + block.length + n + 1 = m.stop - 1 + n + 1 + block.length := by
    intro n
    omega
  rw [closing, closing, hstop, drop_shift]
  cases matchingParen 0 (clean.drop (m.stop - 1)) with
  | none => rfl
  | some n =>
    rw [Option.bind_some, Option.bind_some, hplace, drop_shift]
    split_ifs
    · rw [Option.map_some]
      congr 1
      omega
    · rfl

/-- The return type in the longer text. -/
theorem returnTypeBefore_shift (hlast : block.getLast? = some (ch '\n')) (place : ℕ) :
    returnTypeBefore w ((block ++ clean).take (place + block.length))
        ((block ++ clean).drop (place + block.length)) =
      trim isSpace (dropQualifier w none (unwords (ch ' ') (typeWords
        (if meetsDelimiter (clean.drop place).head? (clean.take place).reverse then
          (backTo (clean.drop place).head? (clean.take place).reverse).reverse
        else
          (backTo ((clean.take place).reverse.getLast?.or (clean.drop place).head?)
            block.reverse).reverse ++ clean.take place)))) := by
  have hcolon : block.reverse.head? ≠ some (ch ':') := by
    rw [List.head?_reverse, hlast]
    decide
  rw [returnTypeBefore, drop_shift, Nat.add_comm, List.take_length_add_append,
    List.reverse_append, backTo_append hcolon]
  split_ifs
  · rfl
  · rw [List.reverse_append, List.reverse_reverse]

theorem FirstDelimited.delimiterBefore (h : FirstDelimited w clean functionName) {m : Match}
    (hm : m ∈ finditer w functionName 0 0 none clean) (hclosing : (closing w clean m).isSome) :
    DelimiterBefore clean m.start := by
  cases hfind : (finditer w functionName 0 0 none clean).find?
      fun m => (closing w clean m).isSome with
  | none => exact absurd hclosing (List.find?_eq_none.mp hfind m hm)
  | some first =>
    obtain ⟨-, earlier, later, hmatches, hearlier⟩ := List.find?_eq_some_iff_append.mp hfind
    have hsorted := @finditer_sorted w functionName 0 0 none clean
    rw [hmatches] at hm hsorted
    refine (h first hfind).mono ?_
    rcases List.mem_append.mp hm with hm | hm
    · have := hearlier m hm
      rw [hclosing] at this
      cases this
    rcases List.mem_cons.mp hm with rfl | hm
    · exact le_rfl
    · exact (List.rel_of_pairwise_cons (List.pairwise_append.mp hsorted).2.1 hm).le

theorem definitionAt_shift (hlast : block.getLast? = some (ch '\n')) {m : Match}
    (hm : m.start < m.stop)
    (hdelimiter : (closing w clean m).isSome → DelimiterBefore clean m.start) :
    definitionAt w (block ++ clean) (m.shift block.length) =
      (definitionAt w clean m).map fun d => (d.1 + block.length, d.2) := by
  rw [definitionAt_eq, definitionAt_eq, closing_shift hm]
  cases hclosing : closing w clean m with
  | none => rfl
  | some closeIndex =>
    have hbefore : meetsDelimiter (clean.drop m.start).head? (clean.take m.start).reverse = true :=
      hdelimiter (by rw [hclosing]; rfl)
    have hreturn := @returnTypeBefore_shift w block clean hlast m.start
    rw [if_pos hbefore] at hreturn
    dsimp only [Option.map_some, Option.bind_some, Match.shift]
    rw [hreturn, returnTypeBefore]
    split_ifs
    · rfl
    · rfl

/-- The same definition after `n` more characters. -/
def Found.shift (n : ℕ) (d : Found) : Found :=
  ⟨d.start + n, d.openIndex + n, d.closeIndex + n, d.returnType⟩

theorem findDefinition_directives (h : Directives functionName block)
    (hname : IsName functionName) (hlast : block.getLast? = some (ch '\n'))
    (hfirst : FirstDelimited w clean functionName) :
    findDefinition w (block ++ clean) functionName =
      (findDefinition w clean functionName).map (Found.shift block.length) := by
  rw [findDefinition, findDefinition, finditer_directives h hname hlast, List.findSome?_map,
    List.map_findSome?, ← List.head?_filterMap, ← List.head?_filterMap]
  congr 1
  apply List.filterMap_congr
  intro m hm
  have hbounds := (finditer_bounds hm).2
  rw [Function.comp_apply, Function.comp_apply,
    definitionAt_shift hlast hbounds (hfirst.delimiterBefore hm), Option.map_map, Option.map_map]
  congr 1
  funext d
  have hstop : m.stop + block.length - 1 = m.stop - 1 + block.length := by omega
  simp only [Function.comp_apply, Found.shift, Match.shift, hstop]

theorem between_shift (s : Text) (i j : ℕ) :
    between (block ++ s) (i + block.length) (j + block.length) = between s i j := by
  rw [between, between, Nat.add_right_comm, drop_shift, Nat.add_sub_add_right]

/-- What the directives are not to change. -/
def SameReading (x : Except PyExc Signature) (sig : Signature) : Prop :=
  ∃ sig', x = .ok sig' ∧ sig'.returnType = sig.returnType ∧ sig'.params = sig.params

theorem stripComments_directives (h : Directives functionName block)
    (hlast : block.getLast? = some (ch '\n')) (code : Text) :
    stripComments (block ++ code) = block ++ stripComments code := by
  refine stripFrom_append h.no_quote h.no_comment ?_ code
  rw [hlast]
  decide

theorem sameReading_of_delimited {code : Text} {sig : Signature} (h : Directives functionName block)
    (hname : IsName functionName) (hsig : parseSignature w code functionName = .ok sig)
    (hfirst : FirstDelimited w (stripComments code) functionName) :
    SameReading (parseSignature w (block ++ code) functionName) sig := by
  rcases h.getLast?_eq with rfl | hlast
  · exact ⟨sig, hsig, rfl, rfl⟩
  obtain ⟨d, params, hd, hparams, rfl⟩ := (parseSignature_ok_iff w).mp hsig
  have hfound := findDefinition_directives h hname hlast hfirst
  rw [hd, Option.map_some, ← stripComments_directives h hlast] at hfound
  refine ⟨_, (parseSignature_ok_iff w).mpr ⟨_, params, hfound, ?_, rfl⟩, rfl, rfl⟩
  rw [stripComments_directives h hlast]
  dsimp only [Found.shift]
  rw [between_shift, between_shift, hparams]

end

/-- A directive with one long word. -/
def longDirective (letter : CodePoint) (n : ℕ) : Text :=
  ch '#' :: List.replicate n letter ++ [ch '\n']

theorem longDirective_getLast? (letter : CodePoint) (n : ℕ) :
    (longDirective letter n).getLast? = some (ch '\n') := List.getLast?_concat

section
variable {letter : CodePoint} (hletter : letter = ch 'a' ∨ letter = ch 'b')
include hletter

theorem directives_long {functionName : Text} (hname : IsName functionName)
    (hlast : functionName.getLast? ≠ some letter) (n : ℕ) :
    Directives functionName (longDirective letter n) := by
  have hmem : ∀ c ∈ longDirective letter n, c = ch '#' ∨ c = letter ∨ c = ch '\n' := by
    intro c hc
    have : c = ch '#' ∨ (n ≠ 0 ∧ c = letter) ∨ c = ch '\n' := by simpa [longDirective] using hc
    tauto
  have hslash : ch '/' ∉ longDirective letter n := by
    intro hc
    have := hmem _ hc
    rcases hletter with rfl | rfl <;> revert this <;> decide
  constructor
  · refine ⟨[List.replicate n letter], ?_, by simp [longDirective]⟩
    intro body hbody
    obtain rfl := List.mem_singleton.mp hbody
    intro hc
    obtain rfl := List.eq_of_mem_replicate hc
    rcases hletter with h | h <;> revert h <;> decide
  · intro c hc
    rcases hmem c hc with rfl | rfl | rfl
    · decide
    · rcases hletter with rfl | rfl <;> decide
    · decide
  · constructor
    · exact fun h => hslash (h.subset (by decide))
    · exact fun h => hslash (h.subset (by decide))
  · rintro ⟨a, b, hpart⟩
    obtain ⟨init, x, rfl⟩ := List.eq_nil_or_concat functionName |>.resolve_left hname.1
    have hx : x ≠ letter := fun h => hlast (by simp [h])
    have hbreak : x ≠ ch '\n' := fun h => hname.2.2 (by simp [h])
    have hxmem : x ∈ longDirective letter n := by
      rw [← hpart]
      simp
    obtain rfl : x = ch '#' := by
      rcases hmem x hxmem with h | h | h
      · exact h
      · exact absurd h hx
      · exact absurd h hbreak
    -- the sign stands nowhere but at the beginning
    have hrest : ch '#' ∉ List.replicate n letter ++ [ch '\n'] := by
      intro hc
      have : (n ≠ 0 ∧ ch '#' = letter) ∨ ch '#' = ch '\n' := by simpa using hc
      rcases this with h | h
      · exact hx h.2
      · exact hbreak h
    cases hpre : a ++ init with
    | nil =>
      obtain ⟨rfl, rfl⟩ := List.append_eq_nil_iff.mp hpre
      exact hname.2.1 rfl
    | cons y t =>
      have hcons : y :: (t ++ ch '#' :: b) = ch '#' :: (List.replicate n letter ++ [ch '\n']) := by
        rw [← List.cons_append, ← hpre]
        simpa [longDirective] using hpart
      exact hrest ((List.cons.inj hcons).2 ▸ by simp)

omit hletter in
theorem meetsDelimiter_eq_false {s : Text} (h : ∀ c ∈ s, c ∉ text ";\x7b\x7d#:")
    (next : Option CodePoint) : meetsDelimiter next s = false := by
  induction s generalizing next with
  | nil => rfl
  | cons c s ih =>
    have hc : delimits s.head? next c = false := by
      have hmem := h c (by simp)
      have hcolon : c ≠ ch ':' := fun heq => hmem (by rw [heq]; decide)
      have hsign : c ∉ text ";\x7b\x7d#" := fun hin => hmem
        ((by decide : ∀ d ∈ text ";\x7b\x7d#", d ∈ text ";\x7b\x7d#:") c hin)
      simp [delimits, hcolon, hsign]
    rw [meetsDelimiter, hc, ih fun d hd => h d (by simp [hd])]
    rfl

/-- The scan goes through the line to its sign. -/
theorem backTo_longDirective (n : ℕ) (next : Option CodePoint) :
    (backTo next (longDirective letter n).reverse).reverse =
      List.replicate n letter ++ [ch '\n'] := by
  have hplain : ∀ c ∈ ch '\n' :: List.replicate n letter, c ∉ text ";\x7b\x7d#:" := by
    intro c hc
    rcases List.mem_cons.mp hc with rfl | hc
    · decide
    · obtain rfl := List.eq_of_mem_replicate hc
      rcases hletter with rfl | rfl <;> decide
  have hreverse : (longDirective letter n).reverse =
      (ch '\n' :: List.replicate n letter) ++ [ch '#'] := by simp [longDirective]
  have hsign : ∀ next, delimits none next (ch '#') = true := by
    intro next
    rw [delimits, Bool.or_eq_true]
    exact .inl (by decide)
  rw [hreverse, backTo_append (by decide), meetsDelimiter_eq_false hplain]
  simp [backTo, hsign]

theorem exists_dropQualifier (w : WordClass) (n : ℕ) (before : Option CodePoint) (s : Text) :
    ∃ t, dropQualifier w before (List.replicate n letter ++ s) = List.replicate n letter ++ t := by
  have hends : ∀ rest, endsQualifier (letter :: rest) = false := by
    intro rest
    have hafter : after (text "Solution") (letter :: rest) = none := by
      rw [Option.eq_none_iff_forall_ne_some]
      intro r hr
      obtain ⟨h, -⟩ := List.cons.inj (after_eq_some.mp hr)
      rcases hletter with rfl | rfl <;> revert h <;> decide
    rw [endsQualifier, hafter]
  induction n generalizing before with
  | zero => exact ⟨_, rfl⟩
  | succ n ih =>
    obtain ⟨t, ht⟩ := ih (some letter)
    refine ⟨t, ?_⟩
    rw [List.replicate_succ, List.cons_append, dropQualifier, hends, Bool.and_false,
      if_neg Bool.false_ne_true, ht, List.cons_append]

theorem isSpace_replicate (n : ℕ) : ∀ c ∈ List.replicate n letter, isSpace c = false := by
  intro c hc
  obtain rfl := List.eq_of_mem_replicate hc
  rcases hletter with rfl | rfl <;> decide

theorem typeWords_replicate {n : ℕ} (hn : 10 ≤ n) (s : Text) :
    typeWords (List.replicate n letter ++ ch '\n' :: s) =
      List.replicate n letter :: typeWords s := by
  have hspace := isSpace_replicate hletter n
  have hne : List.replicate n letter ≠ [] := by
    rw [ne_eq, List.replicate_eq_nil_iff]
    omega
  have hkeyword : List.replicate n letter ∉ returnTypeKeywords := by
    intro hmem
    have := (by decide : ∀ word ∈ returnTypeKeywords, word.length < 10) _ hmem
    rw [List.length_replicate] at this
    omega
  have hbracket : (text "[[").isPrefixOf (List.replicate n letter) = false := by
    obtain ⟨k, rfl⟩ := Nat.exists_eq_add_of_le hn
    rw [Nat.add_comm, Bool.eq_false_iff, ne_eq, List.isPrefixOf_iff_prefix]
    rintro ⟨t, ht⟩
    rw [List.replicate_succ] at ht
    obtain ⟨h, -⟩ := List.cons.inj ht
    rcases hletter with rfl | rfl <;> revert h <;> decide
  rw [typeWords, words_append_cons hspace hne (by decide), List.filter_cons_of_pos, typeWords]
  simp [hkeyword, hbracket]

/-- Where the code has no delimiter, the word of the directive begins the return type. -/
theorem le_length_returnType (w : WordClass) {n : ℕ} (hn : 10 ≤ n) {clean : Text} {place : ℕ}
    (h : ¬ DelimiterBefore clean place) :
    n ≤ (returnTypeBefore w
      ((longDirective letter n ++ clean).take (place + (longDirective letter n).length))
      ((longDirective letter n ++ clean).drop
        (place + (longDirective letter n).length))).length := by
  have hlast := longDirective_getLast? letter n
  have hspace := isSpace_replicate hletter n
  rw [DelimiterBefore] at h
  rw [returnTypeBefore_shift hlast, if_neg h, backTo_longDirective hletter, List.append_assoc,
    List.singleton_append, typeWords_replicate hletter hn]
  obtain ⟨s, hs⟩ := exists_unwords_cons (ch ' ') (List.replicate n letter)
    (typeWords (clean.take place))
  obtain ⟨t, ht⟩ := exists_dropQualifier hletter w n none s
  rw [hs, ht]
  have := length_le_trim hspace t
  rwa [List.length_replicate] at this

end

section
variable {w : WordClass} {functionName clean : Text}

/-- The first match that a brace follows is the definition, if it has a return type. -/
theorem findDefinition_first {block returnType : Text} (h : Directives functionName block)
    (hname : IsName functionName) (hlast : block.getLast? = some (ch '\n')) {first : Match}
    (hfind : ((finditer w functionName 0 0 none clean).find? fun m => (closing w clean m).isSome) =
      some first)
    (hreturn : returnTypeBefore w ((block ++ clean).take (first.start + block.length))
      ((block ++ clean).drop (first.start + block.length)) = returnType)
    (hne : returnType ≠ []) :
    ∃ d, findDefinition w (block ++ clean) functionName = some d ∧ d.returnType = returnType := by
  obtain ⟨hclosing, earlier, later, hmatches, hearlier⟩ := List.find?_eq_some_iff_append.mp hfind
  have hbounds : ∀ m ∈ earlier ++ first :: later, m.start < m.stop := by
    intro m hm
    rw [← hmatches] at hm
    exact (finditer_bounds hm).2
  have hnone : ∀ m ∈ earlier, definitionAt w (block ++ clean) (m.shift block.length) = none := by
    intro m hm
    have hm' : closing w clean m = none := by simpa using hearlier m hm
    rw [definitionAt_eq, closing_shift (hbounds m (by simp [hm])), hm', Option.map_none,
      Option.bind_none]
  obtain ⟨closeIndex, hclose⟩ := Option.isSome_iff_exists.mp hclosing
  have hfirst : definitionAt w (block ++ clean) (first.shift block.length) =
      some (closeIndex + block.length, returnType) := by
    rw [definitionAt_eq, closing_shift (hbounds first (by simp)), hclose, Option.map_some,
      Option.bind_some]
    dsimp only [Match.shift]
    rw [hreturn, if_neg hne]
  refine ⟨⟨first.start + block.length, first.stop + block.length - 1,
    closeIndex + block.length, returnType⟩, ?_, rfl⟩
  rw [findDefinition, finditer_directives h hname hlast, hmatches, List.findSome?_map,
    List.findSome?_append, List.findSome?_eq_none_iff.mpr, Option.none_or, List.findSome?_cons,
    Function.comp_apply, hfirst, Option.map_some]
  · rfl
  · intro m hm
    rw [Function.comp_apply, hnone m hm, Option.map_none]

end

/-- Directives before a code do not change what is read, whatever they are, exactly where the
code has a delimiter before the first match of the name that a body follows. -/
theorem directives_ignored_iff (w : WordClass) (code functionName : Text) (sig : Signature)
    (hname : IsName functionName) (hsig : parseSignature w code functionName = .ok sig) :
    (∀ block, Directives functionName block →
      SameReading (parseSignature w (block ++ code) functionName) sig) ↔
      FirstDelimited w (stripComments code) functionName := by
  constructor
  · intro hall first hfind
    by_contra hnot
    obtain ⟨letter, hletter, hlast⟩ : ∃ letter, (letter = ch 'a' ∨ letter = ch 'b') ∧
        functionName.getLast? ≠ some letter := by
      by_cases ha : functionName.getLast? = some (ch 'a')
      · exact ⟨ch 'b', .inr rfl, by rw [ha]; decide⟩
      · exact ⟨ch 'a', .inl rfl, ha⟩
    -- a word longer than the return type that was read without it
    obtain ⟨n, hn⟩ : ∃ n, n = sig.returnType.length + 10 := ⟨_, rfl⟩
    have hblock := directives_long hletter hname hlast n
    have hbreak := longDirective_getLast? letter n
    have hlength := le_length_returnType hletter w (by omega : 10 ≤ n) hnot
    obtain ⟨d, hd, hreturn⟩ := findDefinition_first hblock hname hbreak hfind rfl
      (List.ne_nil_of_length_pos (by omega))
    obtain ⟨sig', hsig', hsame, -⟩ := hall _ hblock
    obtain ⟨d', params, hd', -, rfl⟩ := (parseSignature_ok_iff w).mp hsig'
    rw [stripComments_directives hblock hbreak, hd] at hd'
    obtain rfl := Option.some.inj hd'
    rw [← hreturn] at hlength
    have : d.returnType.length = sig.returnType.length := congrArg List.length hsame
    omega
  · exact fun hfirst block hblock => sameReading_of_delimited hblock hname hsig hfirst

def includeLine : Text := text "#include <stdio.h>\n"

theorem directives_includeLine : Directives (text "twice") includeLine where
  lines := ⟨[text "include <stdio.h>"], by decide, by decide⟩
  no_quote := by decide
  no_comment := by decide +kernel
  no_name := by decide +kernel

def twiceText : Text := text "int twice(int a) \x7b return 2 * a; \x7d"

/-- The signature of the function in the text above, after a text of a given length. -/
def twiceSignature (code : Text) (n : ℕ) : Signature :=
  signatureOf asciiWords code ⟨n + 4, n + 9, n + 15, text "int"⟩
    [⟨text "int", text "a", text "int a"⟩]

theorem directives_ignored_global :
    FirstDelimited asciiWords (stripComments (text "int one;\n" ++ twiceText)) (text "twice") ∧
      SameReading (parseSignature asciiWords (includeLine ++ (text "int one;\n" ++ twiceText))
        (text "twice")) (twiceSignature (text "int one;\n" ++ twiceText) 9) := by
  have hfirst : FirstDelimited asciiWords (stripComments (text "int one;\n" ++ twiceText))
      (text "twice") := by
    have hfind : ((finditer asciiWords (text "twice") 0 0 none
        (stripComments (text "int one;\n" ++ twiceText))).find? fun m => (closing asciiWords
          (stripComments (text "int one;\n" ++ twiceText)) m).isSome) = some ⟨13, 19⟩ := by
      decide +kernel
    intro m hm
    obtain rfl := Option.some.inj (hfind.symm.trans hm)
    unfold DelimiterBefore
    decide +kernel
  have hname : IsName (text "twice") := ⟨by decide, by decide, by decide⟩
  refine ⟨hfirst, (directives_ignored_iff asciiWords _ (text "twice") _ hname ?_).mpr hfirst _
    directives_includeLine⟩
  exact (parseSignature_ok_iff asciiWords).mpr
    ⟨⟨13, 18, 24, text "int"⟩, _, by decide +kernel, eq_ok_of_toOption (by decide +kernel), rfl⟩

/-- Before the only function of a file, the line becomes part of the return type. -/
theorem include_in_return_type :
    parseSignature asciiWords twiceText (text "twice") = .ok (twiceSignature twiceText 0) ∧
      Directives (text "twice") includeLine ∧
      ¬ SameReading (parseSignature asciiWords (includeLine ++ twiceText) (text "twice"))
        (twiceSignature twiceText 0) := by
  refine ⟨?_, directives_includeLine, ?_⟩
  · exact (parseSignature_ok_iff asciiWords).mpr
      ⟨_, _, by decide +kernel, eq_ok_of_toOption (by decide +kernel), rfl⟩
  · rintro ⟨sig', hsig', hreturn, -⟩
    have hread : (parseSignature asciiWords (includeLine ++ twiceText)
        (text "twice")).toOption.map Signature.returnType =
          some (text "include <stdio.h> int") := by decide +kernel
    rw [hsig', Except.toOption, Option.map_some, hreturn] at hread
    revert hread
    decide +kernel

end ExecutionEngine.CSignature
