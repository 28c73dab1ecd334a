import ExecutionEngine.CSignature

/-!
# Comments in a C or C++ signature

The definition is searched in the blanked text, but its parameters are read from the text
as written. Blanking a text twice is blanking it once, so a signature and that of the
blanked text differ in what is read between the parentheses and nowhere else.
-/
namespace ExecutionEngine.CSignature
open Pipeline TextScan

/-- How blanked text is read again. -/
def Mode.again : Mode → Mode
  | .literal quote | .escaped quote => .literal quote
  | _ => .code

/-- A literal stands between quotes. -/
def Mode.Quoted : Mode → Prop
  | .literal quote | .escaped quote => quote = ch '"' ∨ quote.val = 39
  | _ => True

theorem blank_cases (c : CodePoint) : blank c = ch '\n' ∨ blank c = ch ' ' := by
  unfold blank
  split_ifs with h
  · exact .inl h
  · exact .inr rfl

/-- Neither a line break nor a blank begins or ends anything outside a line comment. -/
theorem next_blank {mode : Mode} (hmode : mode.Quoted) {c : CodePoint}
    (hc : c = ch '\n' ∨ c = ch ' ') (rest : Text) : mode.again.next c rest = (c, mode.again) := by
  have hne : ∀ q : CodePoint, q = ch '"' ∨ q.val = 39 → c ≠ q := by
    rintro q (rfl | hq) rfl
    · revert hc
      decide
    · rcases hc with rfl | rfl <;> revert hq <;> decide
  have hslash : c ≠ ch '/' := by rcases hc with rfl | rfl <;> decide
  have hback : c ≠ ch '\\' := by rcases hc with rfl | rfl <;> decide
  have hblank : blank c = c := by rcases hc with rfl | rfl <;> decide
  cases mode with
  | literal quote => simp [Mode.again, Mode.next, hne quote hmode, hback, hblank]
  | escaped quote => simp [Mode.again, Mode.next, hne quote hmode, hback, hblank]
  | _ =>
    have hquote : c ≠ ch '"' := hne _ (.inl rfl)
    have happ : c.val ≠ 39 := fun h => hne c (.inr h) rfl
    simp [Mode.again, Mode.next, hslash, hquote, happ]

/-- What a character is written as: a blank or a line break, or the character itself, in the
code or as a quote. -/
theorem next_cases (mode : Mode) (c : CodePoint) (rest : Text) :
    (((mode.next c rest).1 = ch '\n' ∨ (mode.next c rest).1 = ch ' ') ∧
        (mode.next c rest).2.again = mode.again) ∨
      (mode = .code ∧ mode.next c rest = (c, .code) ∧
        ¬ (c = ch '/' ∧ (rest.head? = some (ch '/') ∨ rest.head? = some (ch '*'))) ∧
        ¬ (c = ch '"' ∨ c.val = 39)) ∨
      (mode = .code ∧ mode.next c rest = (c, .literal c) ∧ (c = ch '"' ∨ c.val = 39)) ∨
      (mode = .literal c ∧ mode.next c rest = (c, .code)) := by
  cases mode with
  | code =>
    dsimp only [Mode.next]
    split_ifs with h₁ h₂ h₃
    · exact .inl ⟨.inr rfl, rfl⟩
    · exact .inl ⟨.inr rfl, rfl⟩
    · exact .inr (.inr (.inl ⟨rfl, rfl, h₃⟩))
    · refine .inr (.inl ⟨rfl, rfl, ?_, h₃⟩)
      rintro ⟨hc, h | h⟩
      · exact h₁ ⟨hc, h⟩
      · exact h₂ ⟨hc, h⟩
  | line =>
    dsimp only [Mode.next]
    split_ifs with h
    · exact .inl ⟨.inl h, rfl⟩
    · exact .inl ⟨.inr rfl, rfl⟩
  | blockOpen => exact .inl ⟨.inr rfl, rfl⟩
  | block =>
    dsimp only [Mode.next]
    split_ifs
    · exact .inl ⟨.inr rfl, rfl⟩
    · exact .inl ⟨blank_cases c, rfl⟩
  | blockClose => exact .inl ⟨.inr rfl, rfl⟩
  | literal quote =>
    dsimp only [Mode.next]
    split_ifs with h₁
    · exact .inr (.inr (.inr ⟨by rw [h₁], rfl⟩))
    · exact .inl ⟨.inr rfl, rfl⟩
    · exact .inl ⟨blank_cases c, rfl⟩
  | escaped quote => exact .inl ⟨.inr rfl, rfl⟩

theorem next_quoted {mode : Mode} (hmode : mode.Quoted) (c : CodePoint) (rest : Text) :
    (mode.next c rest).2.Quoted := by
  have hagain : ∀ m : Mode, m.again.Quoted ↔ m.Quoted := fun m => by cases m <;> rfl
  obtain ⟨-, h⟩ | ⟨-, h, -⟩ | ⟨-, h, hc⟩ | ⟨-, h⟩ := next_cases mode c rest
  · rwa [← hagain, h, hagain]
  · rw [h]
    trivial
  · rw [h]
    exact hc
  · rw [h]
    trivial

/-- A slash that begins no comment begins none in the blanked text: what follows it is
copied. -/
theorem stripFrom_not_comment {rest : Text}
    (h : ¬ (rest.head? = some (ch '/') ∨ rest.head? = some (ch '*'))) :
    ¬ ((stripFrom .code rest).head? = some (ch '/') ∨
      (stripFrom .code rest).head? = some (ch '*')) := by
  cases rest with
  | nil => exact h
  | cons d rest =>
    have hd : (Mode.next .code d rest).1 = d := by
      have hslash : d ≠ ch '/' := fun hd => h (.inl (congrArg some hd))
      dsimp only [Mode.next]
      split_ifs with h₁ h₂
      · exact absurd h₁.1 hslash
      · exact absurd h₂.1 hslash
      · rfl
      · rfl
    rw [stripFrom_cons, hd]
    exact h

theorem next_again {mode : Mode} (hmode : mode.Quoted) (c : CodePoint) (rest : Text) :
    mode.again.next (mode.next c rest).1 (stripFrom (mode.next c rest).2 rest) =
      ((mode.next c rest).1, (mode.next c rest).2.again) := by
  obtain ⟨hblank, h⟩ | ⟨rfl, h, hcomment, hquote⟩ | ⟨rfl, h, hquote⟩ | ⟨rfl, h⟩ :=
    next_cases mode c rest
  · rw [h, next_blank hmode hblank]
  · rw [h]
    have hslash : c = ch '/' → ¬ ((stripFrom .code rest).head? = some (ch '/') ∨
        (stripFrom .code rest).head? = some (ch '*')) :=
      fun hc => stripFrom_not_comment fun hr => hcomment ⟨hc, hr⟩
    dsimp only [Mode.again, Mode.next]
    rw [if_neg fun h' => hslash h'.1 (.inl h'.2), if_neg fun h' => hslash h'.1 (.inr h'.2),
      if_neg hquote]
  · rw [h]
    have hslash : c ≠ ch '/' := by
      rintro rfl
      revert hquote
      decide
    dsimp only [Mode.again, Mode.next]
    rw [if_neg fun h' => hslash h'.1, if_neg fun h' => hslash h'.1, if_pos hquote]
  · rw [h]
    dsimp only [Mode.again, Mode.next]
    rw [if_pos rfl]

theorem stripFrom_again {mode : Mode} (hmode : mode.Quoted) (s : Text) :
    stripFrom mode.again (stripFrom mode s) = stripFrom mode s := by
  induction s generalizing mode with
  | nil => rfl
  | cons c rest ih =>
    rw [stripFrom_cons, stripFrom_cons, next_again hmode, ih (next_quoted hmode c rest)]

theorem stripComments_idempotent (code : Text) :
    stripComments (stripComments code) = stripComments code :=
  @stripFrom_again .code trivial code

/-- No blank cuts the list or changes the depth. -/
theorem separates_of_isSpace {c : CodePoint} (hc : isSpace c = true) :
    c ≠ ch ',' ∧ c ≠ ch '=' ∧ ∀ depth, depthAfter depth c = depth := by
  have hne : ∀ d : CodePoint, isSpace d = false → c ≠ d := by
    rintro d hd rfl
    rw [hc] at hd
    cases hd
  have hopens : opens c = false := by
    rw [opens, decide_eq_false_iff_not]
    exact fun hmem => hne c ((by decide : ∀ d ∈ text "<([\x7b", isSpace d = false) c hmem) rfl
  have hcloses : closes c = false := by
    rw [closes, decide_eq_false_iff_not]
    exact fun hmem => hne c ((by decide : ∀ d ∈ text ">)]\x7d", isSpace d = false) c hmem) rfl
  refine ⟨hne _ (by decide), hne _ (by decide), fun depth => ?_⟩
  simp [depthAfter, hopens, hcloses]

theorem splitFrom_append_left {a : Text} (ha : ∀ c ∈ a, isSpace c = true) (current : Text)
    (depth : ℕ) (s : Text) : splitFrom (a ++ current) depth s = splitFrom current depth s := by
  induction s generalizing current depth with
  | nil => simp only [splitFrom, trim_append_left ha]
  | cons c rest ih => simp only [splitFrom, trim_append_left ha, List.append_assoc, ih]

theorem splitFrom_space {a : Text} (ha : ∀ c ∈ a, isSpace c = true) (current : Text)
    (depth : ℕ) (s : Text) :
    splitFrom current depth (a ++ s) = splitFrom (current ++ a) depth s := by
  induction a generalizing current with
  | nil => simp
  | cons c a ih =>
    obtain ⟨hcomma, -, hdepth⟩ := separates_of_isSpace (ha c (by simp))
    rw [List.cons_append, splitFrom, if_neg fun h => hcomma h.1, hdepth,
      ih (fun d hd => ha d (by simp [hd])), List.append_assoc]
    rfl

theorem splitFrom_append_right {b : Text} (hb : ∀ c ∈ b, isSpace c = true) (current : Text)
    (depth : ℕ) (s : Text) : splitFrom current depth (s ++ b) = splitFrom current depth s := by
  induction s generalizing current depth with
  | nil =>
    have h := splitFrom_space hb current depth []
    rw [List.append_nil] at h
    rw [List.nil_append, h]
    simp only [splitFrom, trim_append_right hb]
  | cons c rest ih => simp only [List.cons_append, splitFrom, ih]

theorem splitTopLevel_trim (s : Text) : splitTopLevel (trim isSpace s) = splitTopLevel s := by
  obtain ⟨a, b, hs, ha, hb⟩ := exists_trim isSpace s
  generalize trim isSpace s = t at hs
  subst hs
  rw [splitTopLevel, splitTopLevel, splitFrom_append_right hb, splitFrom_space ha,
    List.nil_append, ← List.append_nil a, splitFrom_append_left ha]

theorem trim_beforeDefault_trim (s : Text) :
    trim isSpace (beforeDefault (trim isSpace s)) = trim isSpace (beforeDefault s) :=
  trim_takeWhile_trim (fun _ hc => by simpa using (separates_of_isSpace hc).2.1) s

/-- The list is cut at this character. -/
def Cut (depth : ℕ) (c : CodePoint) : Prop := c = ch ',' ∧ depthAfter depth c = 0

instance (depth : ℕ) (c : CodePoint) : Decidable (Cut depth c) :=
  inferInstanceAs (Decidable (_ ∧ _))

theorem splitFrom_cut {depth : ℕ} {c : CodePoint} (h : Cut depth c) (current rest : Text) :
    splitFrom current depth (c :: rest) = trim isSpace current :: splitFrom [] 0 rest := if_pos h

theorem splitFrom_keep {depth : ℕ} {c : CodePoint} (h : ¬ Cut depth c) (current rest : Text) :
    splitFrom current depth (c :: rest) =
      splitFrom (current ++ [c]) (depthAfter depth c) rest := if_neg h

/-- A text and what blanking made of it, scanned together: they are cut at the same commas,
and a character differs only after the `=` of its parameter. -/
def BlankedInDefaults (inDefault : Bool) (depth depth' : ℕ) : Text → Text → Prop
  | [], [] => True
  | r :: raw, c :: clean =>
    (r = c ∨ inDefault = true) ∧ (Cut depth r ↔ Cut depth' c) ∧
      if Cut depth' c then BlankedInDefaults false 0 0 raw clean
      else BlankedInDefaults (inDefault || decide (c = ch '=')) (depthAfter depth r)
        (depthAfter depth' c) raw clean
  | _, _ => False

instance decidableBlankedInDefaults : ∀ (inDefault : Bool) (depth depth' : ℕ) (raw clean : Text),
    Decidable (BlankedInDefaults inDefault depth depth' raw clean)
  | _, _, _, [], [] => .isTrue trivial
  | _, _, _, [], _ :: _ => .isFalse id
  | _, _, _, _ :: _, [] => .isFalse id
  | inDefault, depth, depth', r :: raw, c :: clean =>
    haveI := decidableBlankedInDefaults false 0 0 raw clean
    haveI := decidableBlankedInDefaults (inDefault || decide (c = ch '=')) (depthAfter depth r)
      (depthAfter depth' c) raw clean
    inferInstanceAs (Decidable ((r = c ∨ inDefault = true) ∧ (Cut depth r ↔ Cut depth' c) ∧
      if Cut depth' c then BlankedInDefaults false 0 0 raw clean
      else BlankedInDefaults (inDefault || decide (c = ch '=')) (depthAfter depth r)
        (depthAfter depth' c) raw clean))

/-- Two parts that are read alike up to the default value. -/
def SameHead (p q : Text) : Prop := trim isSpace (beforeDefault p) = trim isSpace (beforeDefault q)

theorem SameHead.of_trim {p q : Text} (h : beforeDefault p = beforeDefault q) :
    SameHead (trim isSpace p) (trim isSpace q) := by
  rw [SameHead, trim_beforeDefault_trim, trim_beforeDefault_trim, h]

/-- The current parts of the two texts: the same up to an `=`, and after it of any content. -/
inductive Current : Bool → Text → Text → Prop
  | head {p : Text} (h : ch '=' ∉ p) : Current false p p
  | default {p q : Text} (h : beforeDefault p = beforeDefault q) (hp : ch '=' ∈ p)
      (hq : ch '=' ∈ q) : Current true p q

theorem Current.beforeDefault_eq {inDefault : Bool} {p q : Text} (h : Current inDefault p q) :
    beforeDefault p = beforeDefault q := by
  cases h with
  | head => rfl
  | default h => exact h

theorem beforeDefault_append {p : Text} (hp : ch '=' ∈ p) (s : Text) :
    beforeDefault (p ++ s) = beforeDefault p := by
  rw [beforeDefault, beforeDefault, takeWhile_append_of_mem hp (by simp)]

theorem Current.step {inDefault : Bool} {p q : Text} (h : Current inDefault p q)
    {r c : CodePoint} (hrc : r = c ∨ inDefault = true) :
    Current (inDefault || decide (c = ch '=')) (p ++ [r]) (q ++ [c]) := by
  cases h with
  | head h =>
    obtain rfl : r = c := by simpa using hrc
    by_cases hr : r = ch '='
    · have hmem : ch '=' ∈ p ++ [r] := by simp [hr]
      simpa [hr] using Current.default rfl hmem hmem
    · have hmem : ch '=' ∉ p ++ [r] := by simp [h, Ne.symm hr]
      simpa [hr] using Current.head hmem
  | default h hp hq =>
    rw [Bool.true_or]
    refine .default ?_ (by simp [hp]) (by simp [hq])
    rw [beforeDefault_append hp, beforeDefault_append hq, h]

theorem Current.trim_eq_nil {inDefault : Bool} {p q : Text} (h : Current inDefault p q) :
    trim isSpace p = [] ↔ trim isSpace q = [] := by
  have hne : ∀ {s : Text}, ch '=' ∈ s → trim isSpace s ≠ [] := by
    intro s hs hnil
    have := trim_eq_nil_iff.mp hnil _ hs
    revert this
    decide
  cases h with
  | head => rfl
  | default _ hp hq => exact iff_of_false (hne hp) (hne hq)

/-- The parts have the same beginnings, one by one. -/
theorem splitFrom_sameHead {raw clean p q : Text} {inDefault : Bool} {depth depth' : ℕ}
    (h : BlankedInDefaults inDefault depth depth' raw clean) (hcurrent : Current inDefault p q) :
    List.Forall₂ SameHead (splitFrom p depth raw) (splitFrom q depth' clean) := by
  induction raw generalizing clean p q inDefault depth depth' with
  | nil =>
    cases clean with
    | nil =>
      simp only [splitFrom, hcurrent.trim_eq_nil]
      split_ifs
      · exact .nil
      · exact .cons (.of_trim hcurrent.beforeDefault_eq) .nil
    | cons c clean => exact h.elim
  | cons r raw ih =>
    cases clean with
    | nil => exact h.elim
    | cons c clean =>
      obtain ⟨hrc, hcut, hrest⟩ := h
      by_cases hc : Cut depth' c
      · rw [splitFrom_cut (hcut.mpr hc), splitFrom_cut hc]
        rw [if_pos hc] at hrest
        exact .cons (.of_trim hcurrent.beforeDefault_eq) (ih hrest (.head List.not_mem_nil))
      · rw [splitFrom_keep (hcut.not.mpr hc), splitFrom_keep hc]
        rw [if_neg hc] at hrest
        exact ih hrest (hcurrent.step hrc)

/-- Both raise `CompileError`, or both return, alike in what is seen of them. -/
def Agree {α β : Type} (view : α → β) (x y : Except PyExc α) : Prop :=
  (∃ m m', x = .error (.compileError m) ∧ y = .error (.compileError m')) ∨
    ∃ a b, x = .ok a ∧ y = .ok b ∧ view a = view b

theorem Agree.refl_ok {α β : Type} {view : α → β} (a : α) :
    Agree view (.ok a) (.ok a) := .inr ⟨a, a, rfl, rfl, rfl⟩

theorem Agree.isSome_eq {α β : Type} {view : α → β} {x y : Except PyExc α} (h : Agree view x y) :
    x.toOption.isSome = y.toOption.isSome := by
  obtain ⟨m, m', rfl, rfl⟩ | ⟨a, b, rfl, rfl, -⟩ := h
  · rfl
  · rfl

theorem Agree.bind {α β γ δ : Type} {view : α → β} {view' : γ → δ} {x y : Except PyExc α}
    {f g : α → Except PyExc γ} (h : Agree view x y)
    (hfg : ∀ a b, view a = view b → Agree view' (f a) (g b)) : Agree view' (x >>= f) (y >>= g) := by
  obtain ⟨m, m', rfl, rfl⟩ | ⟨a, b, rfl, rfl, hab⟩ := h
  · exact .inl ⟨m, m', rfl, rfl⟩
  · exact hfg a b hab

theorem Agree.map {α β γ δ : Type} {view : α → β} {view' : γ → δ} {x y : Except PyExc α}
    {f g : α → γ} (h : Agree view x y) (hfg : ∀ a b, view a = view b → view' (f a) = view' (g b)) :
    Agree view' (x.map f) (y.map g) := by
  obtain ⟨m, m', rfl, rfl⟩ | ⟨a, b, rfl, rfl, hab⟩ := h
  · exact .inl ⟨m, m', rfl, rfl⟩
  · exact .inr ⟨f a, g b, rfl, rfl, hfg a b hab⟩

theorem Agree.mapM {α β γ : Type} {view : β → γ} {f : α → Except PyExc β} {xs ys : List α}
    (h : List.Forall₂ (fun x y => Agree view (f x) (f y)) xs ys) :
    Agree (List.map view) (xs.mapM f) (ys.mapM f) := by
  induction h with
  | nil => exact .refl_ok []
  | cons hxy _ ih =>
    rw [List.mapM_cons, List.mapM_cons]
    refine hxy.bind fun a b hab => ih.bind fun as bs habs => ?_
    exact .inr ⟨a :: as, b :: bs, rfl, rfl, by rw [List.map_cons, List.map_cons, hab, habs]⟩

/-- The type and the name of a parameter. -/
def Param.declared (p : Param) : Text × Text := (p.type, p.name)

/-- What is seen of a signature: not the parameters as they were written. -/
def Signature.declared (sig : Signature) : Text × Bool × List (Text × Text) :=
  (sig.returnType, sig.inSolutionClass, sig.params.map Param.declared)

theorem parseParam_agree (w : WordClass) {p q : Text} (h : SameHead p q) :
    Agree Param.declared (parseParam w p) (parseParam w q) := by
  rw [parseParam, parseParam, h]
  cases matchParam w [] (trim isSpace (beforeDefault q)) with
  | none => exact .inl ⟨_, _, rfl, rfl⟩
  | some r =>
    dsimp only
    split_ifs
    · exact .inl ⟨_, _, rfl, rfl⟩
    · exact .inr ⟨_, _, rfl, rfl, rfl⟩

/-- The parameter list is blank or `void`. -/
def NoParams (clean : Text) : Prop :=
  trim isSpace clean = [] ∨ trim isSpace clean = text "void"

/-- In the parameter list of the definition that is found, if there are parameters, comments
and literals stand in default values and leave the commas as they are. -/
def CommentsInDefaults (w : WordClass) (code functionName : Text) : Prop :=
  ∀ d, findDefinition w (stripComments code) functionName = some d →
    NoParams (between (stripComments code) d.openIndex d.closeIndex) ∨
      BlankedInDefaults false 0 0 (between code d.openIndex d.closeIndex)
        (between (stripComments code) d.openIndex d.closeIndex)

theorem parseParams_agree (w : WordClass) {raw clean : Text}
    (h : NoParams clean ∨ BlankedInDefaults false 0 0 raw clean) :
    Agree (List.map Param.declared) (parseParams w raw clean) (parseParams w clean clean) := by
  unfold parseParams
  split_ifs with hnone
  · exact .refl_ok []
  · rw [splitTopLevel_trim, splitTopLevel_trim]
    have hparts := splitFrom_sameHead (h.resolve_left hnone) (.head List.not_mem_nil)
    exact .mapM (hparts.imp fun _ _ => parseParam_agree w)

/-- Comments and literals do not change a signature where they stand outside its parameter
list, or in default values without changing where the list is cut. -/
theorem signature_ignores_comments (w : WordClass) (code functionName : Text)
    (h : CommentsInDefaults w code functionName) :
    Agree Signature.declared (parseSignature w code functionName)
      (parseSignature w (stripComments code) functionName) := by
  rw [parseSignature_eq, parseSignature_eq, stripComments_idempotent]
  cases hd : findDefinition w (stripComments code) functionName with
  | none => exact .inl ⟨_, _, rfl, rfl⟩
  | some d =>
    refine (parseParams_agree w (h d hd)).map fun params params' heq => ?_
    rw [Signature.declared, Signature.declared, signatureOf, signatureOf, heq,
      stripComments_idempotent]

def commentedDefault : Text :=
  text "// sum\nint add(int a, int b = \x27(\x27 /* one */) \x7b return a + b; \x7d"

theorem signature_ignores_comments_default :
    CommentsInDefaults asciiWords commentedDefault (text "add") ∧
      commentedDefault ≠ stripComments commentedDefault ∧
      Agree Signature.declared (parseSignature asciiWords commentedDefault (text "add"))
        (parseSignature asciiWords (stripComments commentedDefault) (text "add")) := by
  have hfound : findDefinition asciiWords (stripComments commentedDefault) (text "add") =
      some ⟨11, 14, 43, text "int"⟩ := by decide +kernel
  have h : CommentsInDefaults asciiWords commentedDefault (text "add") := by
    intro d hd
    obtain rfl := Option.some.inj (hfound.symm.trans hd)
    exact .inr (by decide +kernel)
  exact ⟨h, by decide +kernel,
    signature_ignores_comments asciiWords commentedDefault (text "add") h⟩

def commentedParameter : Text := text "int twice(int a /* x */) \x7b return 2 * a; \x7d"

/-- A comment after a parameter: as written the parameter is rejected, blanked it is read. -/
theorem comment_after_parameter_rejected :
    ¬ Agree Signature.declared (parseSignature asciiWords commentedParameter (text "twice"))
      (parseSignature asciiWords (stripComments commentedParameter) (text "twice")) := by
  intro h
  have := h.isSome_eq
  revert this
  decide +kernel

end ExecutionEngine.CSignature
