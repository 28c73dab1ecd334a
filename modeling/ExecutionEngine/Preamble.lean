import ExecutionEngine.CSignature
import ExecutionEngine.Nesting

/-!
# Dropping the preamble of Java and C# code

Before the code goes into its wrapper, `_strip_java_preamble` and `_strip_csharp_preamble`
drop the lines that begin like an import, a package, a using directive or a namespace, with
all that stands on them. The braces of the result are those of the lines that stay; the
braces that the dropped lines opened or closed are missed by the others.
-/
namespace ExecutionEngine.Preamble
open Pipeline TextScan CSignature Nesting

/-- The characters at which `str.splitlines` breaks. -/
def isLineBreak (c : CodePoint) : Bool :=
  let n := c.val
  (10 ≤ n && n ≤ 13) || (28 ≤ n && n ≤ 30) || n == 0x85 || n == 0x2028 || n == 0x2029

/-- The lines from here on, the current one begun; a line feed after a carriage return
belongs to the same break. -/
def linesFrom (current : Text) (afterReturn : Bool) : Text → List Text
  | [] => if current = [] then [] else [current]
  | c :: rest =>
    if afterReturn = true ∧ c = ch '\n' then linesFrom current false rest
    else if isLineBreak c then current :: linesFrom [] (decide (c = ch '\r')) rest
    else linesFrom (current ++ [c]) false rest

/-- `code.splitlines()` -/
def splitLines (code : Text) : List Text := linesFrom [] false code

/-- `"\n".join(lines)` -/
def joinLines (lines : List Text) : Text := unwords (ch '\n') lines

/-- A keyword and a blank: `keyword\s+`. -/
def keywordAt (keyword s : Text) : Bool := (after keyword s).any fun rest => rest.head?.any isSpace

section
variable (w : WordClass)

/-- `using\s+[\w.]+\s*;` -/
def usingAt (s : Text) : Bool :=
  (after (text "using") s).any fun rest =>
    let name := rest.dropWhile isSpace
    let dotted := fun c => w.isWord c || decide (c = ch '.')
    rest.head?.any isSpace && !(name.takeWhile dotted).isEmpty &&
      decide (((name.dropWhile dotted).dropWhile isSpace).head? = some (ch ';'))

/-- `re.match(r"^\s*(using\s+[\w.]+\s*;|namespace\s+)", line)` -/
def csharpDrops (line : Text) : Bool :=
  let s := line.dropWhile isSpace
  usingAt w s || keywordAt (text "namespace") s

/-- `_strip_csharp_preamble` -/
def stripCsharpPreamble (code : Text) : Text :=
  joinLines ((splitLines code).filter fun line => !csharpDrops w line)

/-- `re.match(r"^\s*(import|package)\s+", line)` -/
def javaDrops (line : Text) : Bool :=
  let s := line.dropWhile isSpace
  keywordAt (text "import") s || keywordAt (text "package") s

/-- `class\s+Solution\b` -/
def solutionAt (s : Text) : Bool :=
  (after (text "class") s).any fun rest =>
    rest.head?.any isSpace && (after (text "Solution") (rest.dropWhile isSpace)).any fun left =>
      w.boundary (some (ch 'n')) left.head?

/-- `public\s+(class\s+Solution\b)`: the text from the group on. -/
def publicSolution (s : Text) : Option Text :=
  (after (text "public") s).bind fun rest =>
    if rest.head?.any isSpace && solutionAt w (rest.dropWhile isSpace) then
      some (rest.dropWhile isSpace)
    else none

/-- `\bpublic\s+(class\s+Solution\b)` at a place. -/
def demotedAt (before : Option CodePoint) (s : Text) : Option Text :=
  if w.boundary before s.head? then publicSolution w s else none

/-- `re.sub(r"\bpublic\s+(class\s+Solution\b)", r"\1", line)`, with the characters still to
be skipped. No match begins in the group that is copied. -/
def demote : ℕ → Option CodePoint → Text → Text
  | _, _, [] => []
  | skip + 1, _, c :: rest => demote skip (some c) rest
  | 0, before, c :: rest =>
    match demotedAt w before (c :: rest) with
    | some body => demote (rest.length - body.length) (some c) rest
    | none => c :: demote 0 (some c) rest

/-- `class\s+\w+` -/
def classAt (s : Text) : Bool :=
  (after (text "class") s).any fun rest =>
    rest.head?.any isSpace && (rest.dropWhile isSpace).head?.any w.isWord

/-- `re.search(r"\bclass\s+\w+", s)` -/
def declaresClass : Option CodePoint → Text → Bool
  | _, [] => false
  | before, c :: rest =>
    (w.boundary before (some c) && classAt w (c :: rest)) || declaresClass (some c) rest

/-- `_strip_java_preamble` -/
def stripJavaPreamble (code : Text) : Text :=
  let filtered := ((splitLines code).filter fun line => !javaDrops line).map (demote w 0 none)
  let result := joinLines filtered
  if declaresClass w none result then result
  else text "class Solution \x7b\n" ++ result ++ text "\n\x7d"

end

/-- Every beginning has at least as many opening braces as closing ones, and the whole has as
many. -/
def Balanced (s : Text) : Prop :=
  (∀ p, p <+: s → p.count (ch '\x7d') ≤ p.count (ch '\x7b')) ∧
    s.count (ch '\x7b') = s.count (ch '\x7d')

def brace (c : CodePoint) : ℤ :=
  if c = ch '\x7b' then 1 else if c = ch '\x7d' then -1 else 0

def isBrace (c : CodePoint) : Bool := decide (c = ch '\x7b' ∨ c = ch '\x7d')

/-- The braces of a text. -/
def braces (s : Text) : Text := s.filter isBrace

theorem brace_of_not_isBrace (c : CodePoint) (hc : isBrace c = false) : brace c = 0 := by
  have hne : ¬ (c = ch '\x7b' ∨ c = ch '\x7d') := of_decide_eq_false hc
  rw [brace, if_neg fun h => hne (.inl h), if_neg fun h => hne (.inr h)]

theorem height_brace (s : Text) :
    height brace s = (s.count (ch '\x7b') : ℤ) - s.count (ch '\x7d') := by
  have hne : ch '\x7b' ≠ ch '\x7d' := by decide
  induction s with
  | nil => rfl
  | cons c s ih =>
    rw [height_cons, ih, List.count_cons, List.count_cons, brace]
    by_cases hopen : c = ch '\x7b'
    · subst hopen
      simp [hne]
      omega
    · by_cases hclose : c = ch '\x7d'
      · subst hclose
        simp [Ne.symm hne]
        omega
      · simp [hopen, hclose]

theorem balanced_iff {s : Text} : Balanced s ↔ Stays brace 0 s ∧ height brace s = 0 := by
  have hprefix : (∀ p, p <+: s → p.count (ch '\x7d') ≤ p.count (ch '\x7b')) ↔ Stays brace 0 s := by
    refine forall₂_congr fun p _ => ?_
    rw [height_brace]
    omega
  rw [Balanced, hprefix, height_brace]
  refine and_congr_right fun _ => ?_
  omega

theorem height_braces (s : Text) : height brace (braces s) = height brace s :=
  height_filter brace_of_not_isBrace s

theorem stays_braces {k : ℤ} (s : Text) : Stays brace k (braces s) ↔ Stays brace k s :=
  stays_filter brace_of_not_isBrace s

theorem braces_append (s t : Text) : braces (s ++ t) = braces s ++ braces t :=
  List.filter_append ..

theorem isBrace_eq_false {p : CodePoint → Bool} (hopen : p (ch '\x7b') = false)
    (hclose : p (ch '\x7d') = false) {c : CodePoint} (hc : p c = true) : isBrace c = false := by
  refine decide_eq_false ?_
  rintro (rfl | rfl)
  · rw [hopen] at hc
    cases hc
  · rw [hclose] at hc
    cases hc

theorem braces_linesFrom (current : Text) (afterReturn : Bool) (s : Text) :
    braces (linesFrom current afterReturn s).flatten = braces (current ++ s) := by
  induction s generalizing current afterReturn with
  | nil =>
    rw [linesFrom]
    split_ifs with h
    · rw [h]
      rfl
    · rw [List.flatten_singleton, List.append_nil]
  | cons c rest ih =>
    have hskip : isBrace c = false → braces (current ++ c :: rest) = braces (current ++ rest) := by
      intro hc
      rw [braces_append, braces_append, braces, braces, braces,
        List.filter_cons_of_neg (by simp [hc])]
    rw [linesFrom]
    split_ifs with hreturn hbreak
    · rw [ih, hskip]
      rw [hreturn.2]
      rfl
    · rw [List.flatten_cons, braces_append, ih, List.nil_append, ← braces_append,
        hskip (isBrace_eq_false (by decide) (by decide) hbreak)]
    · rw [ih, List.append_assoc]
      rfl

theorem braces_joinLines (lines : List Text) : braces (joinLines lines) = braces lines.flatten := by
  induction lines with
  | nil => rfl
  | cons line lines ih =>
    cases lines with
    | nil => rw [joinLines, unwords, List.intercalate_singleton, List.flatten_singleton]
    | cons next lines =>
      have hcons : joinLines (line :: next :: lines) =
          line ++ ([ch '\n'] ++ joinLines (next :: lines)) := by
        rw [joinLines, unwords, List.intercalate_cons_cons, List.append_assoc]
        rfl
      have hbreak : braces [ch '\n'] = [] := by decide
      rw [hcons, braces_append, braces_append, ih, hbreak, List.nil_append, ← braces_append]
      rfl

section
variable {w : WordClass}

/-- What is skipped before a class: the keyword and blanks. -/
theorem publicSolution_spec {s body : Text} (h : publicSolution w s = some body) :
    ∃ blanks, s = ch 'p' :: (text "ublic" ++ blanks ++ body) ∧
      (∀ c ∈ blanks, isSpace c = true) ∧ solutionAt w body = true := by
  obtain ⟨rest, hafter, h⟩ := Option.bind_eq_some_iff.mp h
  split_ifs at h with hsolution
  obtain rfl := Option.some.inj h
  refine ⟨rest.takeWhile isSpace, ?_, fun c hc => List.mem_takeWhile_imp hc, ?_⟩
  · rw [List.append_assoc, List.takeWhile_append_dropWhile, after_eq_some.mp hafter]
    rfl
  · exact (Bool.and_eq_true_iff.mp hsolution).2

theorem demotedAt_spec {before : Option CodePoint} {s body : Text}
    (h : demotedAt w before s = some body) :
    w.boundary before s.head? = true ∧ publicSolution w s = some body := by
  rw [demotedAt] at h
  split_ifs at h with hboundary
  exact ⟨hboundary, h⟩

theorem braces_demote {skip : ℕ} {s : Text} (hskip : ∀ c ∈ s.take skip, isBrace c = false)
    (before : Option CodePoint) : braces (demote w skip before s) = braces s := by
  induction s generalizing skip before with
  | nil => cases skip <;> rfl
  | cons c rest ih =>
    cases skip with
    | succ skip =>
      have hc : isBrace c = false := hskip c (by simp)
      rw [demote, ih (fun d hd => hskip d (by simp [hd])), braces, braces,
        List.filter_cons_of_neg (by simp [hc])]
    | zero =>
      rw [demote]
      cases hmatch : demotedAt w before (c :: rest) with
      | none =>
        dsimp only
        rw [braces, List.filter_cons]
        change (if isBrace c = true then c :: braces (demote w 0 (some c) rest)
          else braces (demote w 0 (some c) rest)) = _
        rw [ih (by simp), braces, braces, List.filter_cons]
      | some body =>
        obtain ⟨blanks, hs, hblanks, -⟩ := publicSolution_spec (demotedAt_spec hmatch).2
        obtain ⟨rfl, hsplit⟩ := List.cons.inj hs
        have hlevel : ∀ d ∈ text "ublic" ++ blanks, isBrace d = false := by
          intro d hd
          rcases List.mem_append.mp hd with hd | hd
          · exact (by decide : ∀ d ∈ text "ublic", isBrace d = false) d hd
          · exact isBrace_eq_false (by decide) (by decide) (hblanks d hd)
        have hlength : rest.length - body.length = (text "ublic" ++ blanks).length := by
          rw [hsplit, List.length_append, Nat.add_sub_cancel]
        dsimp only
        rw [hlength, ih]
        · rfl
        · rw [hsplit, List.take_left]
          exact hlevel

theorem braces_demoted (lines : List Text) :
    braces (lines.map (demote w 0 none)).flatten = braces lines.flatten := by
  induction lines with
  | nil => rfl
  | cons line lines ih =>
    rw [List.map_cons, List.flatten_cons, List.flatten_cons, braces_append, braces_append, ih,
      braces_demote (by simp)]

end

section
variable {w : WordClass}

theorem classAt_append {s : Text} (h : classAt w s = true) (t : Text) :
    classAt w (s ++ t) = true := by
  rw [classAt, Option.any_eq_true] at h ⊢
  obtain ⟨rest, hafter, h⟩ := h
  refine ⟨rest ++ t, after_eq_some.mpr (by rw [after_eq_some.mp hafter, List.append_assoc]), ?_⟩
  rw [Bool.and_eq_true, Option.any_eq_true, Option.any_eq_true] at h ⊢
  obtain ⟨⟨b, hb, hspace⟩, c, hc, hword⟩ := h
  have hne : rest.dropWhile isSpace ≠ [] := by
    intro hnil
    rw [hnil] at hc
    cases hc
  refine ⟨⟨b, ?_, hspace⟩, c, ?_, hword⟩
  · rw [List.head?_append, hb, Option.some_or]
  · rw [List.dropWhile_append, if_neg (by simpa using hne), List.head?_append, hc, Option.some_or]

theorem declaresClass_of_classAt {before : Option CodePoint} {s : Text}
    (hboundary : w.boundary before s.head? = true) (h : classAt w s = true) :
    declaresClass w before s = true := by
  cases s with
  | nil => cases h
  | cons c rest => exact Bool.or_eq_true_iff.mpr (.inl (Bool.and_eq_true_iff.mpr ⟨hboundary, h⟩))

theorem declaresClass_append_right {before : Option CodePoint} {s : Text}
    (h : declaresClass w before s = true) (t : Text) :
    declaresClass w before (s ++ t) = true := by
  induction s generalizing before with
  | nil => cases h
  | cons c rest ih =>
    rw [declaresClass, Bool.or_eq_true, Bool.and_eq_true] at h
    rw [List.cons_append, declaresClass, Bool.or_eq_true, Bool.and_eq_true]
    rcases h with ⟨hboundary, hclass⟩ | h
    · exact .inl ⟨hboundary, classAt_append hclass t⟩
    · exact .inr (ih h)

/-- A search from a place on finds no less than a search from the beginning finds there. -/
theorem declaresClass_append_left {s : Text} (t : Text) (before : Option CodePoint)
    (h : declaresClass w (t.getLast?.or before) s = true) :
    declaresClass w before (t ++ s) = true := by
  induction t generalizing before with
  | nil => exact h
  | cons c t ih =>
    rw [List.cons_append, declaresClass, Bool.or_eq_true]
    refine .inr (ih (some c) ?_)
    rw [← h]
    cases t with
    | nil => rfl
    | cons d t => rw [List.getLast?_cons_cons, List.getLast?_cons, Option.some_or, Option.some_or]

theorem declaresClass_newline (s : Text) :
    declaresClass w (some (ch '\n')) s = declaresClass w none s := by
  have hword : w.isWord (ch '\n') = false := w.ascii _ (by decide)
  cases s with
  | nil => rfl
  | cons c rest =>
    rw [declaresClass, declaresClass, WordClass.boundary, WordClass.boundary, Option.any_some,
      hword, Option.any_none]

theorem declaresClass_joinLines {lines : List Text} {line : Text} (hmem : line ∈ lines)
    (h : declaresClass w none line = true) : declaresClass w none (joinLines lines) = true := by
  induction lines with
  | nil => cases hmem
  | cons first lines ih =>
    cases lines with
    | nil =>
      obtain rfl := List.mem_singleton.mp hmem
      rwa [joinLines, unwords, List.intercalate_singleton]
    | cons next lines =>
      have hcons : joinLines (first :: next :: lines) =
          (first ++ [ch '\n']) ++ joinLines (next :: lines) := by
        rw [joinLines, unwords, List.intercalate_cons_cons]
        rfl
      rw [hcons]
      rcases List.mem_cons.mp hmem with rfl | hmem
      · rw [List.append_assoc]
        exact declaresClass_append_right h _
      · apply declaresClass_append_left
        rw [List.getLast?_append_of_ne_nil _ (by simp), List.getLast?_singleton, Option.some_or,
          declaresClass_newline]
        exact ih hmem

variable (w)

/-- A line in which `public class Solution` is demoted. -/
def demotes : Option CodePoint → Text → Bool
  | _, [] => false
  | before, c :: rest => (demotedAt w before (c :: rest)).isSome || demotes (some c) rest

variable {w}

theorem demote_eq_self {before : Option CodePoint} {s : Text} (h : demotes w before s = false) :
    demote w 0 before s = s := by
  induction s generalizing before with
  | nil => rfl
  | cons c rest ih =>
    rw [demotes, Bool.or_eq_false_iff, Option.isSome_eq_false_iff, Option.isNone_iff_eq_none] at h
    rw [demote, h.1]
    exact congrArg (c :: ·) (ih h.2)

/-- Where no `p` stands nothing is demoted. -/
theorem demote_append {s : Text} (hs : ch 'p' ∉ s) (before : Option CodePoint) (t : Text) :
    ∃ before', demote w 0 before (s ++ t) = s ++ demote w 0 before' t := by
  induction s generalizing before with
  | nil => exact ⟨before, rfl⟩
  | cons c s ih =>
    have hnone : demotedAt w before (c :: (s ++ t)) = none := by
      rw [Option.eq_none_iff_forall_ne_some]
      intro body hbody
      obtain ⟨blanks, hs', -, -⟩ := publicSolution_spec (demotedAt_spec hbody).2
      obtain rfl : c = ch 'p' := (List.cons.inj hs').1
      exact hs List.mem_cons_self
    obtain ⟨before', hrest⟩ := ih (fun h => hs (by simp [h])) (some c)
    refine ⟨before', ?_⟩
    rw [List.cons_append, demote, hnone]
    exact congrArg (c :: ·) hrest

theorem demote_drop {skip : ℕ} {s : Text} (t : Text) (hskip : skip = s.length)
    (before : Option CodePoint) :
    ∃ before', demote w skip before (s ++ t) = demote w 0 before' t := by
  induction s generalizing skip before with
  | nil =>
    subst hskip
    exact ⟨before, rfl⟩
  | cons c s ih =>
    subst hskip
    exact ih rfl (some c)

theorem solutionAt_spec {s : Text} (h : solutionAt w s = true) :
    ∃ blanks left, s = text "class" ++ (blanks ++ text "Solution") ++ left ∧ blanks ≠ [] ∧
      ∀ c ∈ blanks, isSpace c = true := by
  rw [solutionAt, Option.any_eq_true] at h
  obtain ⟨rest, hafter, h⟩ := h
  rw [Bool.and_eq_true, Option.any_eq_true, Option.any_eq_true] at h
  obtain ⟨⟨b, hb, hspace⟩, left, hleft, -⟩ := h
  refine ⟨rest.takeWhile isSpace, left, ?_, ?_, fun c hc => List.mem_takeWhile_imp hc⟩
  · rw [after_eq_some.mp hafter, List.append_assoc, List.append_assoc, ← after_eq_some.mp hleft,
      List.takeWhile_append_dropWhile]
  · obtain ⟨rest, rfl⟩ := List.head?_eq_some_iff.mp hb
    rw [List.takeWhile_cons_of_pos hspace]
    exact List.cons_ne_nil _ _

theorem classAt_solution {blanks : Text} (hne : blanks ≠ [])
    (hblanks : ∀ c ∈ blanks, isSpace c = true) (left : Text) :
    classAt w (text "class" ++ (blanks ++ text "Solution") ++ left) = true := by
  have hword : w.isWord (ch 'S') = true := w.ascii _ (by decide)
  have hafter : after (text "class") (text "class" ++ (blanks ++ text "Solution") ++ left) =
      some (blanks ++ (text "Solution" ++ left)) := by
    rw [after_eq_some, List.append_assoc, List.append_assoc]
  have hhead : (blanks ++ (text "Solution" ++ left)).head?.any isSpace = true := by
    obtain ⟨b, blanks, rfl⟩ := List.exists_cons_of_ne_nil hne
    exact hblanks b (by simp)
  have hname : (blanks ++ (text "Solution" ++ left)).dropWhile isSpace =
      text "Solution" ++ left := by
    rw [List.dropWhile_append_of_pos hblanks]
    exact List.dropWhile_cons_of_neg (by decide)
  rw [classAt, hafter, Option.any_some, hhead, hname, Bool.true_and]
  exact hword

/-- The class that is demoted is declared in what is left. -/
theorem declaresClass_demote {before : Option CodePoint} {s : Text}
    (h : demotes w before s = true) : declaresClass w before (demote w 0 before s) = true := by
  induction s generalizing before with
  | nil => cases h
  | cons c rest ih =>
    rw [demotes, Bool.or_eq_true] at h
    rw [demote]
    cases hmatch : demotedAt w before (c :: rest) with
    | none =>
      have hrest : demotes w (some c) rest = true := by simpa [hmatch] using h
      rw [declaresClass, ih hrest, Bool.or_true]
    | some body =>
      obtain ⟨hboundary, hpublic⟩ := demotedAt_spec hmatch
      obtain ⟨blanks, hs, -, hsolution⟩ := publicSolution_spec hpublic
      obtain ⟨blanks', left, hbody, hne, hblanks'⟩ := solutionAt_spec hsolution
      obtain ⟨rfl, hsplit⟩ := List.cons.inj hs
      have hp : ch 'p' ∉ text "class" ++ (blanks' ++ text "Solution") := by
        intro hmem
        rcases List.mem_append.mp hmem with hmem | hmem
        · revert hmem
          decide
        · rcases List.mem_append.mp hmem with hmem | hmem
          · exact absurd (hblanks' _ hmem) (by decide)
          · revert hmem
            decide
      have hskip : rest.length - body.length = (text "ublic" ++ blanks).length := by
        rw [hsplit, List.length_append, Nat.add_sub_cancel]
      obtain ⟨before', hdrop⟩ := @demote_drop w _ _ body hskip (some (ch 'p'))
      obtain ⟨before'', hcopy⟩ := @demote_append w _ hp before' left
      -- the place before `public` is now the place before `class`
      have hbefore : w.boundary before (some (ch 'c')) = true := by
        have hword : ∀ c : CodePoint, c = ch 'p' ∨ c = ch 'c' → w.isWord c = true := by
          rintro c (rfl | rfl)
          · exact w.ascii _ (by decide)
          · exact w.ascii _ (by decide)
        rw [← hboundary]
        change (before.any w.isWord != w.isWord (ch 'c')) =
          (before.any w.isWord != w.isWord (ch 'p'))
        rw [hword _ (.inl rfl), hword _ (.inr rfl)]
      dsimp only
      rw [← hsplit] at hdrop
      rw [hdrop, hbody, hcopy]
      exact declaresClass_of_classAt hbefore (classAt_solution hne hblanks' _)

end

/-- The lines declare a class, one that is demoted or one that stays as it is. -/
def LinesDeclareClass (w : WordClass) (lines : List Text) : Prop :=
  (∃ line ∈ lines, demotes w none line = true) ∨ declaresClass w none (joinLines lines) = true

instance (w : WordClass) (lines : List Text) : Decidable (LinesDeclareClass w lines) :=
  inferInstanceAs (Decidable (_ ∨ _))

theorem declaresClass_demoted (w : WordClass) (lines : List Text) :
    declaresClass w none (joinLines (lines.map (demote w 0 none))) = true ↔
      LinesDeclareClass w lines := by
  by_cases hdemotes : ∃ line ∈ lines, demotes w none line = true
  · obtain ⟨line, hmem, hline⟩ := hdemotes
    have hdeclared :=
      declaresClass_joinLines (List.mem_map_of_mem hmem) (declaresClass_demote hline)
    exact iff_of_true hdeclared (.inl ⟨line, hmem, hline⟩)
  · have hself : lines.map (demote w 0 none) = lines := by
      refine (List.map_congr_left fun line hline => ?_).trans (List.map_id lines)
      exact demote_eq_self (Bool.eq_false_iff.mpr fun h => hdemotes ⟨line, hline, h⟩)
    rw [hself, LinesDeclareClass, or_iff_right hdemotes]

/-- Read line by line with the braces that the dropped lines have opened so far and those that
are open in the source: at no place of a line that stays are fewer open than the dropped
lines have opened, up to the slack, and in the end the dropped lines have closed what they
opened. -/
def KeepsNesting (slack : ℤ) (drops : Text → Bool) : ℤ → ℤ → List Text → Prop
  | opened, _, [] => opened = 0
  | opened, depth, line :: lines =>
    if drops line then
      KeepsNesting slack drops (opened + height brace line) (depth + height brace line) lines
    else (∀ p ∈ line.inits, opened ≤ depth + height brace p + slack) ∧
      KeepsNesting slack drops opened (depth + height brace line) lines

instance decidableKeepsNesting (slack : ℤ) (drops : Text → Bool) :
    ∀ (opened depth : ℤ) (lines : List Text),
      Decidable (KeepsNesting slack drops opened depth lines)
  | opened, _, [] => inferInstanceAs (Decidable (opened = 0))
  | opened, depth, line :: lines =>
    haveI := decidableKeepsNesting slack drops (opened + height brace line)
      (depth + height brace line) lines
    haveI := decidableKeepsNesting slack drops opened (depth + height brace line) lines
    inferInstanceAs (Decidable (if drops line then
      KeepsNesting slack drops (opened + height brace line) (depth + height brace line) lines
    else (∀ p ∈ line.inits, opened ≤ depth + height brace p + slack) ∧
      KeepsNesting slack drops opened (depth + height brace line) lines))

theorem keepsNesting_iff {slack : ℤ} (hslack : 0 ≤ slack) (drops : Text → Bool) {lines : List Text}
    {opened depth : ℤ} (hdepth : depth + height brace lines.flatten = 0) :
    KeepsNesting slack drops opened depth lines ↔
      Stays brace (opened - depth - slack) (lines.filter fun line => !drops line).flatten ∧
        opened - depth = height brace (lines.filter fun line => !drops line).flatten := by
  induction lines generalizing opened depth with
  | nil =>
    rw [List.flatten_nil, height_nil] at hdepth
    rw [KeepsNesting, List.filter_nil, List.flatten_nil, stays_nil, height_nil]
    omega
  | cons line lines ih =>
    rw [List.flatten_cons, height_append] at hdepth
    have hrest : depth + height brace line + height brace lines.flatten = 0 := by omega
    rw [KeepsNesting]
    cases hdrops : drops line with
    | true =>
      have hsub : opened + height brace line - (depth + height brace line) = opened - depth := by
        omega
      rw [if_pos rfl, ih hrest, List.filter_cons_of_neg (by simp [hdrops]), hsub]
    | false =>
      have hline : (∀ p ∈ line.inits, opened ≤ depth + height brace p + slack) ↔
          Stays brace (opened - depth - slack) line := by
        refine forall_congr' fun p => ?_
        rw [List.mem_inits]
        refine imp_congr_right fun _ => ?_
        omega
      have hsub : opened - (depth + height brace line) - slack =
          opened - depth - slack - height brace line := by omega
      have htotal : opened - (depth + height brace line) =
            height brace (lines.filter fun line => !drops line).flatten ↔
          opened - depth = height brace line +
            height brace (lines.filter fun line => !drops line).flatten := by omega
      rw [if_neg (by simp), hline, ih hrest, List.filter_cons_of_pos (by simp [hdrops]),
        List.flatten_cons, stays_append, height_append, hsub, htotal, and_assoc]

theorem balanced_wrapped (s : Text) :
    Balanced (text "class Solution \x7b\n" ++ s ++ text "\n\x7d") ↔
      Stays brace (-1) s ∧ height brace s = 0 := by
  have hbraces : braces (text "class Solution \x7b\n" ++ s ++ text "\n\x7d") =
      ch '\x7b' :: (braces s ++ [ch '\x7d']) := by
    have hopen : braces (text "class Solution \x7b\n") = [ch '\x7b'] := by decide
    have hclose : braces (text "\n\x7d") = [ch '\x7d'] := by decide
    rw [braces_append, braces_append, hopen, hclose, List.append_assoc]
    rfl
  have hone : brace (ch '\x7b') = 1 := by decide
  have hminus : brace (ch '\x7d') = -1 := by decide
  rw [balanced_iff, ← stays_braces, ← height_braces, hbraces, stays_cons, stays_append, stays_cons,
    stays_nil, height_cons, height_append, height_cons, height_nil, height_braces, stays_braces,
    hone, hminus]
  constructor
  · rintro ⟨⟨-, hstays, -⟩, htotal⟩
    exact ⟨hstays, by omega⟩
  · rintro ⟨hstays, htotal⟩
    exact ⟨⟨le_rfl, hstays, by omega, by omega⟩, by omega⟩

theorem height_splitLines (code : Text) :
    height brace (splitLines code).flatten = height brace code := by
  rw [← height_braces, splitLines, braces_linesFrom, List.nil_append, height_braces]

/-- The lines that stay, before and after they are demoted and joined. -/
theorem stays_joinLines {k : ℤ} (lines : List Text) :
    Stays brace k (joinLines lines) ↔ Stays brace k lines.flatten := by
  rw [← stays_braces, braces_joinLines, stays_braces]

theorem height_joinLines (lines : List Text) :
    height brace (joinLines lines) = height brace lines.flatten := by
  rw [← height_braces, braces_joinLines, height_braces]

theorem stays_demoted (w : WordClass) {k : ℤ} (lines : List Text) :
    Stays brace k (joinLines (lines.map (demote w 0 none))) ↔ Stays brace k lines.flatten := by
  rw [stays_joinLines, ← stays_braces, braces_demoted, stays_braces]

theorem height_demoted (w : WordClass) (lines : List Text) :
    height brace (joinLines (lines.map (demote w 0 none))) = height brace lines.flatten := by
  rw [height_joinLines, ← height_braces, braces_demoted, height_braces]

/-- The lines of Java code that stay. -/
def javaKept (code : Text) : List Text := (splitLines code).filter fun line => !javaDrops line

/-- Code without a class is wrapped in one, which lends it a brace. -/
def javaSlack (w : WordClass) (code : Text) : ℤ :=
  if LinesDeclareClass w (javaKept code) then 0 else 1

theorem keepsNesting_zero_iff {slack : ℤ} (hslack : 0 ≤ slack) (drops : Text → Bool) {code : Text}
    (h : Balanced code) :
    KeepsNesting slack drops 0 0 (splitLines code) ↔
      Stays brace (-slack) ((splitLines code).filter fun line => !drops line).flatten ∧
        height brace ((splitLines code).filter fun line => !drops line).flatten = 0 := by
  have htotal : 0 + height brace (splitLines code).flatten = 0 := by
    rw [zero_add, height_splitLines, (balanced_iff.mp h).2]
  rw [keepsNesting_iff hslack drops htotal, sub_zero, zero_sub, eq_comm]

/-- What is left of balanced code is balanced where the dropped lines close what they open
and no line that stays closes what a dropped one opened, and nowhere else. -/
theorem preamble_balanced_iff (w : WordClass) (code : Text) (h : Balanced code) :
    (Balanced (stripJavaPreamble w code) ↔
        KeepsNesting (javaSlack w code) javaDrops 0 0 (splitLines code)) ∧
      (Balanced (stripCsharpPreamble w code) ↔
        KeepsNesting 0 (csharpDrops w) 0 0 (splitLines code)) := by
  constructor
  · have hstrip : stripJavaPreamble w code =
        if declaresClass w none (joinLines ((javaKept code).map (demote w 0 none))) then
          joinLines ((javaKept code).map (demote w 0 none))
        else text "class Solution \x7b\n" ++
          joinLines ((javaKept code).map (demote w 0 none)) ++ text "\n\x7d" := rfl
    rw [hstrip, javaSlack]
    by_cases hclass : LinesDeclareClass w (javaKept code)
    · rw [if_pos ((declaresClass_demoted w _).mpr hclass), if_pos hclass, balanced_iff,
        stays_demoted, height_demoted, keepsNesting_zero_iff le_rfl javaDrops h, neg_zero]
      rfl
    · rw [if_neg fun hc => hclass ((declaresClass_demoted w _).mp hc), if_neg hclass,
        balanced_wrapped, stays_demoted, height_demoted,
        keepsNesting_zero_iff zero_le_one javaDrops h]
      rfl
  · rw [stripCsharpPreamble, balanced_iff, stays_joinLines, height_joinLines,
      keepsNesting_zero_iff le_rfl (csharpDrops w) h, neg_zero]

instance (s : Text) : Decidable (Balanced s) :=
  decidable_of_iff ((∀ p ∈ s.inits, p.count (ch '\x7d') ≤ p.count (ch '\x7b')) ∧
    s.count (ch '\x7b') = s.count (ch '\x7d')) (by simp [Balanced])

def importCode : Text := text "import java.util.List;\npublic class Solution \x7b\n\x7d"

theorem preamble_balanced_imports :
    Balanced importCode ∧ Balanced (stripJavaPreamble asciiWords importCode) ∧
      Balanced (stripCsharpPreamble asciiWords importCode) := by
  have h : Balanced importCode := by decide +kernel
  obtain ⟨hjava, hcsharp⟩ := preamble_balanced_iff asciiWords importCode h
  exact ⟨h, hjava.mpr (by decide +kernel), hcsharp.mpr (by decide +kernel)⟩

def namespaceCode : Text := text "namespace A \x7b\nclass Solution \x7b \x7d\n\x7d"

def importedClass : Text := text "import java.util.List; class Solution \x7b\n\x7d"

/-- The line of a namespace or of an import goes with the brace it opens, and the closing one
stays. -/
theorem dropped_line_unbalances :
    (Balanced namespaceCode ∧ ¬ Balanced (stripCsharpPreamble asciiWords namespaceCode)) ∧
      Balanced importedClass ∧ ¬ Balanced (stripJavaPreamble asciiWords importedClass) := by
  decide +kernel

end ExecutionEngine.Preamble
