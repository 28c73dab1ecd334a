import ExecutionEngine.SignatureDirectives
import ExecutionEngine.TopLevelSplit

/-!
# Signatures read back from definitions

A definition in C or C++: the return type, the name, the parameters with their types, names
and brackets, with any blanks between them. Wherever it stands in the code,
`parse_signature` finds it and returns its parts, whatever comes before and after: only the
name may not be called before, and a delimiter has to separate the return type from what
precedes it.
-/
namespace ExecutionEngine.CSignature
open Pipeline TextScan Nesting TopLevelSplit

/-- `[A-Za-z_]\w*` in ASCII. -/
def IsIdentifier : Text → Prop
  | [] => False
  | c :: tail => startsName c = true ∧ ∀ d ∈ tail, asciiWord d = true

def isMark (c : CodePoint) : Bool := decide (c = ch '*' ∨ c = ch '&')

/-- The brackets behind the name of an array. -/
def brackets (dims : List Text) : Text := (dims.map fun dim => ch '[' :: dim ++ [ch ']']).flatten

/-- The words of a type, with a blank between two of them, but none next to a star or an
ampersand. -/
def fused : List Text → Text
  | [] => []
  | [x] => x
  | x :: y :: rest =>
    x ++ ((if x.getLast?.any isMark || y.head?.any isMark then [] else [ch ' ']) ++
      fused (y :: rest))

/-- A blank, a star or an ampersand, which may stand before a name. -/
def endsType (c : CodePoint) : Bool := decide (c ∈ text " \t\n*&")

/-- A parameter as it is written between two commas: a type and the blanks, stars or ampersands
up to the name, the name, and perhaps brackets. -/
structure WrittenParam where
  lead : Text
  type : Text
  name : Text
  dims : List Text
  trail : Text
  led : ∀ c ∈ lead, isSpace c = true
  trailed : ∀ c ∈ trail, isSpace c = true
  begins : ∀ c ∈ type.head?, isSpace c = false
  ends : type.getLast?.any endsType = true
  plain : ∀ c ∈ type, c ≠ ch '=' ∧ c ≠ ch '['
  named : IsIdentifier name
  dim : ∀ dim ∈ dims, ∀ c ∈ dim, c ≠ ch '[' ∧ c ≠ ch ']' ∧ c ≠ ch '='
  nested : cBrackets.Nested (ch ',') [] (lead ++ (type ++ (name ++ brackets dims)) ++ trail) = true

namespace WrittenParam

/-- The parameter without the blanks around it. -/
def core (p : WrittenParam) : Text := p.type ++ (p.name ++ brackets p.dims)

def written (p : WrittenParam) : Text := p.lead ++ p.core ++ p.trail

/-- What is to be read: an array is a pointer. -/
def param (p : WrittenParam) : Param where
  type := fused (words isSpace p.type) ++ List.replicate p.dims.length (ch '*')
  name := p.name
  raw := p.core

end WrittenParam

theorem lt_of_asciiWord {c : CodePoint} (h : asciiWord c = true) : c.val < 128 := by
  simp only [asciiWord, startsName, Bool.or_eq_true, Bool.and_eq_true, decide_eq_true_eq,
    beq_iff_eq] at h
  omega

theorem isWord_of_asciiWord (w : WordClass) {c : CodePoint} (h : asciiWord c = true) :
    w.isWord c = true := by
  rw [w.ascii c (lt_of_asciiWord h), h]

theorem isWord_eq_false (w : WordClass) {c : CodePoint} (hc : c.val < 128)
    (h : asciiWord c = false) : w.isWord c = false := by
  rw [w.ascii c hc, h]

theorem isSpace_of_asciiWord {c : CodePoint} (h : asciiWord c = true) : isSpace c = false := by
  have hlt := lt_of_asciiWord h
  simp only [asciiWord, startsName, Bool.or_eq_true, Bool.and_eq_true, decide_eq_true_eq,
    beq_iff_eq] at h
  simp only [isSpace, PyStr.isSpace, Bool.or_eq_false_iff, Bool.and_eq_false_iff,
    decide_eq_false_iff_not, beq_eq_false_iff_ne]
  omega

theorem asciiWord_of_startsName {c : CodePoint} (h : startsName c = true) :
    asciiWord c = true := by
  rw [asciiWord, h, Bool.true_or]

/-- A character that is no word character in ASCII is not in a name. -/
theorem IsIdentifier.ne {name : Text} (h : IsIdentifier name) {c : CodePoint} (hc : c ∈ name)
    {d : CodePoint} (hd : asciiWord d = false) : c ≠ d := by
  have hword : asciiWord c = true := by
    cases name with
    | nil => exact h.elim
    | cons x tail =>
      obtain rfl | hc := List.mem_cons.mp hc
      · exact asciiWord_of_startsName h.1
      · exact h.2 c hc
  rintro rfl
  rw [hword] at hd
  cases hd

theorem IsIdentifier.isSpace {name : Text} (h : IsIdentifier name) {c : CodePoint}
    (hc : c ∈ name) : isSpace c = false := by
  cases hs : CSignature.isSpace c with
  | false => rfl
  | true =>
    have hword : asciiWord c = false := by
      cases hw : asciiWord c with
      | false => rfl
      | true => rw [isSpace_of_asciiWord hw] at hs; cases hs
    exact absurd rfl (h.ne hc hword)

/-- Reading a word of a type. -/
theorem tighten_append {x : Text} (hne : x ≠ []) (hx : ∀ c ∈ x, isSpace c = false) (skip : Bool)
    (rest : Text) :
    tighten skip (x ++ rest) = x ++ tighten (x.getLast?.any isMark) rest := by
  induction x generalizing skip with
  | nil => exact absurd rfl hne
  | cons c x ih =>
    have hc : isSpace c = false := hx c (by simp)
    rw [List.cons_append, tighten, if_neg (by simp [hc])]
    cases x with
    | nil => rfl
    | cons d x =>
      rw [ih (by simp) fun e he => hx e (by simp [he])]
      rfl

/-- The blanks that are left stand between two words, neither of which has a sign there. -/
theorem tighten_unwords {ws : List Text} (hws : ∀ x ∈ ws, x ≠ [] ∧ ∀ c ∈ x, isSpace c = false)
    (skip : Bool) : tighten skip (unwords (ch ' ') ws) = fused ws := by
  induction ws generalizing skip with
  | nil => cases skip <;> rfl
  | cons x ws ih =>
    obtain ⟨hne, hx⟩ := hws x (by simp)
    cases ws with
    | nil =>
      have hword := tighten_append hne hx skip []
      rw [List.append_nil] at hword
      rw [unwords, List.intercalate_singleton, hword]
      exact List.append_nil x
    | cons y ws =>
      obtain ⟨hney, hy⟩ := hws y (by simp)
      have hrest := ih fun z hz => hws z (by simp [hz])
      obtain ⟨d, y', rfl⟩ := List.exists_cons_of_ne_nil hney
      obtain ⟨s, hs⟩ := exists_unwords_cons (ch ' ') (d :: y') ws
      have hnext : ((unwords (ch ' ') ((d :: y') :: ws)).dropWhile isSpace).head? = some d := by
        rw [hs, List.cons_append, List.dropWhile_cons_of_neg (by simp [hy d (by simp)])]
        rfl
      have hblank : isSpace (ch ' ') = true := by decide
      have hmark : (some d).any (fun e => decide (e = ch '*' ∨ e = ch '&')) = isMark d := rfl
      rw [unwords, List.intercalate_cons_cons, List.append_assoc, tighten_append hne hx]
      change x ++ tighten (x.getLast?.any isMark)
        (ch ' ' :: unwords (ch ' ') ((d :: y') :: ws)) = _
      rw [tighten, if_pos hblank, hnext, hmark, hrest, hrest, fused]
      congr 1
      change _ = (if x.getLast?.any isMark || isMark d then [] else [ch ' ']) ++ _
      cases x.getLast?.any isMark <;> cases isMark d <;> rfl

theorem brackets_cons (dim : Text) (dims : List Text) :
    brackets (dim :: dims) = ch '[' :: (dim ++ ch ']' :: brackets dims) := by
  simp [brackets]

theorem arraySuffix_inside {dim : Text} (hdim : ∀ c ∈ dim, c ≠ ch ']') (rest : Text) :
    arraySuffix true (dim ++ ch ']' :: rest) = arraySuffix false rest := by
  induction dim with
  | nil => rfl
  | cons c dim ih =>
    have hc : c ≠ ch ']' := hdim c (by simp)
    rw [List.cons_append, arraySuffix, decide_eq_true hc, ih fun d hd => hdim d (by simp [hd])]

theorem arraySuffix_brackets {dims : List Text} (hdims : ∀ dim ∈ dims, ∀ c ∈ dim, c ≠ ch ']') :
    arraySuffix false (brackets dims) = true := by
  induction dims with
  | nil => rfl
  | cons dim dims ih =>
    rw [brackets_cons, arraySuffix, arraySuffix_inside (hdims dim (by simp)),
      ih fun d hd => hdims d (by simp [hd])]
    rfl

theorem head?_brackets (dims : List Text) :
    ∀ c ∈ (brackets dims).head?, c = ch '[' := by
  cases dims with
  | nil => simp [brackets]
  | cons dim dims => simp [brackets]

theorem getLast?_brackets (dims : List Text) :
    ∀ c ∈ (brackets dims).getLast?, c = ch ']' := by
  obtain rfl | ⟨front, dim, rfl⟩ := List.eq_nil_or_concat dims
  · simp [brackets]
  · have hsplit : brackets (front.concat dim) = brackets front ++ (ch '[' :: dim) ++ [ch ']'] := by
      simp [brackets]
    intro c hc
    rw [hsplit, List.getLast?_concat] at hc
    exact (Option.some.inj hc).symm

theorem count_brackets {dims : List Text} (hdims : ∀ dim ∈ dims, ∀ c ∈ dim, c ≠ ch '[') :
    (brackets dims).count (ch '[') = dims.length := by
  induction dims with
  | nil => rfl
  | cons dim dims ih =>
    have hdim : dim.count (ch '[') = 0 :=
      List.count_eq_zero.mpr fun hmem => hdims dim (by simp) _ hmem rfl
    rw [brackets_cons, List.count_cons_self, List.count_append, hdim,
      List.count_cons_of_ne (by decide), ih fun d hd => hdims d (by simp [hd]), List.length_cons]
    omega

section
variable (w : WordClass)

/-- A type with its last character. -/
theorem exists_endsType {s : Text} (h : s.getLast?.any endsType = true) :
    ∃ front c, s = front ++ [c] ∧ endsType c = true := by
  obtain rfl | ⟨front, c, rfl⟩ := List.eq_nil_or_concat s
  · cases h
  · rw [List.concat_eq_append] at h ⊢
    rw [List.getLast?_concat] at h
    exact ⟨front, c, rfl, h⟩

theorem endsType_spec {c : CodePoint} (h : endsType c = true) :
    c.val < 128 ∧ asciiWord c = false ∧ c ∉ text "([=void" := by
  have hall : ∀ c ∈ text " \t\n*&", c.val < 128 ∧ asciiWord c = false ∧ c ∉ text "([=void" := by
    decide
  exact hall c (of_decide_eq_true h)

/-- Nothing in the type is taken for the name: something that is no bracket follows. -/
theorem nameAndSuffix_type {t : Text} (ht : ∀ c ∈ t, c ≠ ch '[') {e n : CodePoint}
    (he : endsType e = true) (hn : startsName n = true) (z : Text) :
    nameAndSuffix w (t ++ e :: n :: z) = none := by
  obtain ⟨hascii, hword, hother⟩ := endsType_spec he
  have hend : w.isWord e = false := isWord_eq_false w hascii hword
  cases t with
  | nil =>
    have hstart : startsName e = false := by
      rw [← Bool.not_eq_true]
      intro h
      rw [asciiWord_of_startsName h] at hword
      cases hword
    rw [List.nil_append, nameAndSuffix, hstart, Bool.false_and, if_neg (by simp)]
  | cons c t =>
    have hspace : isSpace n = false := isSpace_of_asciiWord (asciiWord_of_startsName hn)
    have hn' : n ≠ ch '[' := by
      rintro rfl
      revert hn
      decide
    obtain ⟨t', ht', hdrop⟩ := exists_dropWhile t hend (n :: z)
    obtain ⟨t'', ht'', hsep⟩ := exists_dropWhile (t' ++ [e]) hspace z
    have hrest : ((t ++ e :: n :: z).dropWhile w.isWord).dropWhile isSpace = t'' ++ n :: z := by
      rw [hdrop, ← hsep, List.append_assoc, List.singleton_append]
    have hsuffix : arraySuffix false (t'' ++ n :: z) = false := by
      cases t'' with
      | nil => simp [arraySuffix, hn']
      | cons d t'' =>
        have hd : d ≠ ch '[' := by
          have hmem : d ∈ t' ++ [e] := ht''.subset (by simp)
          obtain hmem | hmem := List.mem_append.mp hmem
          · exact ht d (List.mem_cons_of_mem c (ht'.subset hmem))
          · rw [List.mem_singleton.mp hmem]
            rintro rfl
            exact hother (by decide)
        simp [arraySuffix, hd]
    rw [List.cons_append, nameAndSuffix, hrest, hsuffix, Bool.and_false, if_neg (by simp)]

theorem nameAndSuffix_name {name : Text} (hname : IsIdentifier name) {dims : List Text}
    (hdims : ∀ dim ∈ dims, ∀ c ∈ dim, c ≠ ch ']') :
    nameAndSuffix w (name ++ brackets dims) = some (name, brackets dims) := by
  cases name with
  | nil => exact hname.elim
  | cons c tail =>
    obtain ⟨hc, htail⟩ := hname
    have hwords : ∀ d ∈ tail, w.isWord d = true := fun d hd =>
      isWord_of_asciiWord w (htail d hd)
    have hstop : (brackets dims).dropWhile w.isWord = brackets dims ∧
        (brackets dims).takeWhile w.isWord = [] ∧
        (brackets dims).dropWhile isSpace = brackets dims := by
      have hbracket : w.isWord (ch '[') = false := isWord_eq_false w (by decide) (by decide)
      have hspace : isSpace (ch '[') = false := by decide
      cases hb : brackets dims with
      | nil => exact ⟨rfl, rfl, rfl⟩
      | cons d rest =>
        obtain rfl : d = ch '[' := head?_brackets dims d (by rw [hb]; rfl)
        exact ⟨List.dropWhile_cons_of_neg (by simp [hbracket]),
          List.takeWhile_cons_of_neg (by simp [hbracket]),
          List.dropWhile_cons_of_neg (by simp [hspace])⟩
    rw [List.cons_append, nameAndSuffix, List.dropWhile_append_of_pos hwords, hstop.1, hstop.2.2,
      hc, arraySuffix_brackets hdims, List.takeWhile_append_of_pos hwords, hstop.2.1,
      List.append_nil]
    rfl

theorem matchParam_skip {block rest : Text}
    (hmiss : ∀ t, t <:+ block → t ≠ [] → nameAndSuffix w (t ++ rest) = none) (head : Text) :
    matchParam w head (block ++ rest) = matchParam w (head ++ block) rest := by
  induction block generalizing head with
  | nil => rw [List.nil_append, List.append_nil]
  | cons c block ih =>
    have hnone : nameAndSuffix w (c :: (block ++ rest)) = none :=
      hmiss (c :: block) List.suffix_rfl (by simp)
    rw [List.cons_append, matchParam, hnone]
    dsimp only
    rw [ih (fun t ht => hmiss t (ht.trans (List.suffix_cons c block))), List.append_assoc]
    rfl

end

namespace WrittenParam
variable (p : WrittenParam)

theorem matchParam_core (w : WordClass) :
    matchParam w [] p.core = some (p.type, p.name, brackets p.dims) := by
  have hname := p.named
  have hfound := nameAndSuffix_name w p.named fun dim hdim c hc => (p.dim dim hdim c hc).2.1
  rw [core]
  generalize p.name = name at hname hfound ⊢
  cases name with
  | nil => exact hname.elim
  | cons n tail =>
    rw [matchParam_skip, List.nil_append]
    · rw [List.cons_append] at hfound ⊢
      rw [matchParam, hfound]
    · intro t ht hne
      obtain ⟨front, e, htype, he⟩ := exists_endsType p.ends
      obtain ⟨t', d, rfl⟩ := (List.eq_nil_or_concat t).resolve_left hne
      rw [List.concat_eq_append] at ht ⊢
      obtain ⟨start, hstart⟩ := ht
      rw [htype, ← List.append_assoc] at hstart
      obtain ⟨hfront, hlast⟩ := List.append_inj' hstart rfl
      obtain rfl := List.singleton_inj.mp hlast
      have hplain : ∀ c ∈ t', c ≠ ch '[' := by
        intro c hc
        refine (p.plain c ?_).2
        rw [htype, ← hfront]
        simp [hc]
      rw [List.append_assoc, List.singleton_append, List.cons_append]
      exact nameAndSuffix_type w hplain he hname.1 _

theorem beforeDefault_core : beforeDefault p.core = p.core := by
  refine List.takeWhile_eq_self_iff.mpr fun c hc => ?_
  rw [core, List.mem_append, List.mem_append] at hc
  refine decide_eq_true ?_
  obtain hc | hc | hc := hc
  · exact (p.plain c hc).1
  · exact p.named.ne hc (by decide)
  · obtain ⟨part, hpart, hcp⟩ := List.mem_flatten.mp hc
    obtain ⟨dim, hdim, rfl⟩ := List.mem_map.mp hpart
    rw [List.mem_append, List.mem_cons, List.mem_singleton] at hcp
    obtain (rfl | hcp) | rfl := hcp
    · decide
    · exact (p.dim dim hdim c hcp).2.2
    · decide

theorem type_ne_nil : p.type ≠ [] := by
  obtain ⟨front, c, htype, -⟩ := exists_endsType p.ends
  simp [htype]

theorem core_ne_nil : p.core ≠ [] := List.append_ne_nil_of_left_ne_nil p.type_ne_nil _

theorem trim_core : trim isSpace p.core = p.core := by
  refine trim_eq_self (fun c hc => ?_) fun c hc => ?_
  · rw [core, List.head?_append_of_ne_nil _ p.type_ne_nil] at hc
    exact p.begins c hc
  · have hname : p.name ≠ [] := by
      intro hnil
      have hnamed := p.named
      rw [hnil] at hnamed
      exact hnamed
    rw [core, List.getLast?_append_of_ne_nil _ (by simp [hname])] at hc
    by_cases hdims : brackets p.dims = []
    · rw [hdims, List.append_nil] at hc
      exact p.named.isSpace (List.mem_of_getLast? hc)
    · rw [List.getLast?_append_of_ne_nil _ hdims] at hc
      rw [getLast?_brackets p.dims c hc]
      decide

theorem trim_written : trim isSpace p.written = p.core := by
  rw [written, trim_append_right p.trailed, trim_append_left p.led, trim_core]

/-- A parameter is read as it is meant. -/
theorem parseParam_core (w : WordClass) : parseParam w p.core = .ok p.param := by
  have htype : trim isSpace p.type ≠ [] := by
    obtain ⟨c, tail, hc⟩ := List.exists_cons_of_ne_nil p.type_ne_nil
    intro hnil
    have hspace := trim_eq_nil_iff.mp hnil c (by simp [hc])
    rw [p.begins c (by simp [hc])] at hspace
    cases hspace
  have hcount := count_brackets fun dim hdim c hc => (p.dim dim hdim c hc).1
  rw [parseParam, beforeDefault_core, trim_core, matchParam_core]
  dsimp only
  rw [if_neg htype, tighten_unwords fun x => mem_words, hcount]
  rfl

end WrittenParam

/-- The search for the closing parenthesis, with the characters it has read and the brackets it
is in. -/
def closingFrom (current stack s : Text) : Option ℕ :=
  (matchingParen (1 + stack.count (ch ')')) s).map (· + current.length)

/-- Inside a parameter list the open parentheses are those that the stack waits for. -/
theorem closingFrom_keep {current stack stack' : Text} {c : CodePoint} (rest : Text)
    (hpush : cBrackets.push stack c = some stack') :
    closingFrom current stack (c :: rest) = closingFrom (current ++ [c]) stack' rest := by
  have hpair : (ch '(', ch ')') ∈ cBrackets.pairs := by decide
  have hcount := Brackets.count_push hpush hpair
  have hshift : ∀ r : Option ℕ, (r.map (· + 1)).map (· + current.length) =
      r.map (· + (current ++ [c]).length) := by
    intro r
    rw [Option.map_map, List.length_append, List.length_singleton]
    congr 1
    funext n
    simp only [Function.comp_apply]
    omega
  rw [closingFrom, closingFrom, matchingParen]
  dsimp only at hcount
  split_ifs at hcount ⊢ with hopen hclose hlast
  · rw [hshift, ← hcount, Nat.add_assoc]
  · -- the stack waits for this parenthesis
    have hpos : 0 < stack.count (ch ')') := by
      subst hclose
      obtain ⟨p, hp, heq, -⟩ | ⟨-, rfl⟩ | ⟨-, hnot, -⟩ := Brackets.push_cases hpush
      · exact absurd heq.symm (Brackets.fst_ne_of_isClosing hp (Brackets.isClosing_snd hpair))
      · rw [List.count_cons_self]
        omega
      · exact absurd (Brackets.isClosing_snd hpair) hnot
    omega
  · have hdepth : 1 + stack.count (ch ')') - 1 = 1 + (stack.count (ch ')') - 1) := by omega
    rw [hshift, ← hcount, hdepth]
  · rw [hshift, hcount]

theorem matchingParen_nested {s : Text} (h : cBrackets.Nested (ch ',') [] s = true) (rest : Text) :
    matchingParen 1 (s ++ rest) = (matchingParen 1 rest).map (· + s.length) := by
  have hkeep : ∀ {current stack stack' : Text} {c : CodePoint} (rest : Text),
      (∀ x ∈ stack, cBrackets.IsClosing x) → (c = ch ',' → stack ≠ []) →
      cBrackets.push stack c = some stack' →
      closingFrom current stack (c :: rest) = closingFrom (current ++ [c]) stack' rest :=
    fun rest _ _ hpush => closingFrom_keep rest hpush
  have hscan : closingFrom [] [] (s ++ rest) = closingFrom ([] ++ s) [] rest :=
    Brackets.Nested.scan hkeep (List.forall_mem_nil _) h [] rest
  simpa [closingFrom] using hscan

/-- The list of the parameters. -/
def listed (pieces : List Text) : Text := [ch ','].intercalate pieces

theorem listed_cons_cons (s t : Text) (pieces : List Text) :
    listed (s :: t :: pieces) = s ++ ch ',' :: listed (t :: pieces) := by
  rw [listed, List.intercalate_cons_cons, List.append_assoc, List.singleton_append, listed]

theorem matchingParen_comma (s : Text) :
    matchingParen 1 (ch ',' :: s) = (matchingParen 1 s).map (· + 1) := by
  rw [matchingParen, if_neg (by decide), if_neg (by decide)]

/-- The parenthesis behind a parameter list. -/
theorem matchingParen_listed {pieces : List Text}
    (hnested : ∀ s ∈ pieces, cBrackets.Nested (ch ',') [] s = true) (rest : Text) :
    matchingParen 1 (listed pieces ++ ch ')' :: rest) = some (listed pieces).length := by
  induction pieces with
  | nil => rfl
  | cons s pieces ih =>
    have hfirst := hnested s (by simp)
    have hlater := ih fun t ht => hnested t (by simp [ht])
    cases pieces with
    | nil =>
      rw [listed, List.intercalate_singleton, matchingParen_nested hfirst]
      exact congrArg some (Nat.zero_add _)
    | cons t pieces =>
      rw [listed_cons_cons, List.append_assoc, List.cons_append, matchingParen_nested hfirst,
        matchingParen_comma, hlater, List.length_append, List.length_cons, Option.map_some,
        Option.map_some]
      exact congrArg some (by omega)

/-- A list is cut at its commas, and its parts are trimmed. -/
theorem splitTopLevel_listed {pieces : List Text}
    (hnested : ∀ s ∈ pieces, cBrackets.Nested (ch ',') [] s = true)
    (hne : ∀ s ∈ pieces, trim isSpace s ≠ []) :
    splitTopLevel (listed pieces) = pieces.map (trim isSpace) := by
  have hscan : ∀ {s : Text} (rest : Text), cBrackets.Nested (ch ',') [] s = true →
      splitFrom [] 0 (s ++ rest) = splitFrom s 0 rest :=
    fun rest hs => c_splitter.nested hs rest
  rw [splitTopLevel]
  induction pieces with
  | nil => rfl
  | cons s pieces ih =>
    have hs := hne s (by simp)
    have hfirst := hnested s (by simp)
    have hlater := ih (fun t ht => hnested t (by simp [ht])) fun t ht => hne t (by simp [ht])
    cases pieces with
    | nil =>
      have hstop : splitFrom s 0 [] = [trim isSpace s] :=
        (c_splitter.stop s).trans (if_neg hs)
      have hend := hscan [] hfirst
      rw [List.append_nil] at hend
      rw [listed, List.intercalate_singleton, hend, hstop, List.map_singleton]
    | cons t pieces =>
      have hcut := c_splitter.cut (listed (t :: pieces)) hs
      rw [listed_cons_cons, hscan _ hfirst, List.map_cons, ← hlater]
      exact hcut

theorem nested_written (ps : List WrittenParam) :
    ∀ s ∈ ps.map WrittenParam.written, cBrackets.Nested (ch ',') [] s = true := by
  intro s hs
  obtain ⟨p, -, rfl⟩ := List.mem_map.mp hs
  exact p.nested

theorem split_written (ps : List WrittenParam) :
    splitTopLevel (listed (ps.map WrittenParam.written)) = ps.map WrittenParam.core := by
  rw [splitTopLevel_listed (nested_written ps), List.map_map]
  · exact List.map_congr_left fun p _ => p.trim_written
  · intro s hs
    obtain ⟨p, -, rfl⟩ := List.mem_map.mp hs
    rw [p.trim_written]
    exact p.core_ne_nil

theorem mapM_parseParam (w : WordClass) (ps : List WrittenParam) :
    (ps.map WrittenParam.core).mapM (parseParam w) = .ok (ps.map WrittenParam.param) := by
  induction ps with
  | nil => rfl
  | cons p ps ih =>
    rw [List.map_cons, List.mapM_cons, p.parseParam_core, ih]
    rfl

/-- The parameters are read one by one. -/
theorem parseParams_listed (w : WordClass) (ps : List WrittenParam) :
    parseParams w (listed (ps.map WrittenParam.written)) (listed (ps.map WrittenParam.written)) =
      .ok (ps.map WrittenParam.param) := by
  have hsplit := (splitTopLevel_trim _).trans (split_written ps)
  rw [parseParams]
  split_ifs with hnone
  · cases ps with
    | nil => rfl
    | cons p ps =>
      exfalso
      obtain hnil | hvoid := hnone
      · rw [hnil] at hsplit
        cases hsplit
      · -- `void` ends no type
        have hcut : splitTopLevel (text "void") = [text "void"] := by decide
        rw [hvoid, hcut, List.map_cons] at hsplit
        obtain ⟨front, c, htype, hc⟩ := exists_endsType p.ends
        have hmem : c ∈ text "void" := by
          rw [(List.cons.inj hsplit).1, WrittenParam.core, htype]
          simp
        have hother : ∀ d ∈ text "void", d ∈ text "([=void" := by decide
        exact (endsType_spec hc).2.2 (hother c hmem)
  · rw [hsplit, mapM_parseParam]

/-- No semicolon, brace or `#`, and colons in pairs only. -/
inductive Undelimited : Text → Prop
  | nil : Undelimited []
  | char {c : CodePoint} {s : Text} (hc : c ∉ text ";\x7b\x7d#:") (h : Undelimited s) :
      Undelimited (c :: s)
  | colons {s : Text} (h : Undelimited s) : Undelimited (ch ':' :: ch ':' :: s)

theorem Undelimited.append {s t : Text} (hs : Undelimited s) (ht : Undelimited t) :
    Undelimited (s ++ t) := by
  induction hs with
  | nil => exact ht
  | char hc _ ih => exact .char hc ih
  | colons _ ih => exact .colons ih

theorem Undelimited.reverse {s : Text} (hs : Undelimited s) : Undelimited s.reverse := by
  induction hs with
  | nil => exact .nil
  | char hc _ ih =>
    rw [List.reverse_cons]
    exact ih.append (.char hc .nil)
  | colons _ ih =>
    rw [List.reverse_cons, List.reverse_cons, List.append_assoc]
    exact ih.append (.colons .nil)

theorem undelimited_of_isSpace {s : Text} (hs : ∀ c ∈ s, isSpace c = true) : Undelimited s := by
  induction s with
  | nil => exact .nil
  | cons c s ih =>
    have hc := hs c (by simp)
    refine .char (fun hmem => ?_) (ih fun d hd => hs d (by simp [hd]))
    have hnot : ∀ d ∈ text ";\x7b\x7d#:", isSpace d = false := by decide
    rw [hnot c hmem] at hc
    cases hc

/-- The scan backwards goes through such a text. -/
theorem backTo_undelimited {s : Text} (hs : Undelimited s) (next : Option CodePoint)
    (before : Text) :
    backTo next (s ++ before) = s ++ backTo (s.getLast?.or next) before := by
  induction hs generalizing next with
  | nil => rfl
  | @char c s hc hs ih =>
    have hnot : ∀ prev : Option CodePoint, delimits prev next c = false := by
      intro prev
      have hmem : ∀ d ∈ text ";\x7b\x7d#", d ∈ text ";\x7b\x7d#:" := by decide
      have hcolon : c ≠ ch ':' := by
        rintro rfl
        exact hc (by decide)
      rw [delimits, decide_eq_false fun h => hc (hmem c h), decide_eq_false hcolon]
      rfl
    rw [List.cons_append, backTo, hnot, if_neg (by simp), ih, getLast?_cons_or]
    rfl
  | @colons s hs ih =>
    have hfirst : delimits (ch ':' :: (s ++ before)).head? next (ch ':') = false := by
      rw [delimits]
      simp [show ch ':' ∉ text ";\x7b\x7d#" by decide]
    have hsecond : delimits (s ++ before).head? (some (ch ':')) (ch ':') = false := by
      rw [delimits]
      simp [show ch ':' ∉ text ";\x7b\x7d#" by decide]
    rw [List.cons_append, List.cons_append, backTo, hfirst, if_neg (by simp), backTo, hsecond,
      if_neg (by simp), ih, getLast?_cons_or, getLast?_cons_or]
    rfl

/-- What precedes a definition ends with a delimiter and blanks, or there are only blanks. -/
def Delimited (before after : Text) : Prop :=
  (∀ c ∈ before, isSpace c = true) ∨ ∃ (start : Text) (c : CodePoint) (blanks : Text),
    before = start ++ c :: blanks ∧ (∀ d ∈ blanks, isSpace d = true) ∧
      delimits start.getLast? (blanks ++ after).head? c = true

/-- The region of the return type. -/
theorem exists_region {before s : Text} (h : Delimited before s) (hs : Undelimited s)
    (hne : s ≠ []) (next : Option CodePoint) : ∃ blanks : Text, (∀ d ∈ blanks, isSpace d = true) ∧
      (backTo next (before ++ s).reverse).reverse = blanks ++ s := by
  have hstep : ∀ front : Text, (∀ c ∈ front, isSpace c = true) → ∀ start : Text,
      backTo next (start ++ (front ++ s)).reverse =
        (front ++ s).reverse ++ backTo ((front ++ s).head?.or next) start.reverse := by
    intro front hfront start
    have hall := ((undelimited_of_isSpace hfront).append hs).reverse
    rw [List.reverse_append, backTo_undelimited hall, List.getLast?_reverse]
  obtain hblank | ⟨start, c, blanks, rfl, hblanks, hc⟩ := h
  · refine ⟨before, hblank, ?_⟩
    have hregion := hstep before hblank []
    rw [List.nil_append] at hregion
    rw [hregion]
    simp [backTo]
  · refine ⟨blanks, hblanks, ?_⟩
    have hregion := hstep blanks hblanks (start ++ [c])
    have hhead : (blanks ++ s).head?.or next = (blanks ++ s).head? := by
      have hall : blanks ++ s ≠ [] := by simp [hne]
      obtain ⟨d, rest, hd⟩ := List.exists_cons_of_ne_nil hall
      rw [hd]
      rfl
    have hstop : backTo (blanks ++ s).head? (c :: start.reverse) = [] := by
      rw [backTo, List.head?_reverse, if_pos hc]
    have hback : (start ++ [c]).reverse = c :: start.reverse := by simp
    rw [hback, hhead, hstop, List.append_nil] at hregion
    have hsplit : start ++ c :: blanks ++ s = start ++ [c] ++ (blanks ++ s) := by simp
    rw [hsplit, hregion, List.reverse_reverse]

/-- A qualifier ends with a colon or a blank. -/
theorem endsQualifier_eq_false {s : Text} (hs : ∀ c ∈ s.getLast?, isSpace c = false ∧ c ≠ ch ':') :
    endsQualifier s = false := by
  rw [endsQualifier]
  split
  · rfl
  · rename_i rest hrest
    split
    · rfl
    · rename_i tail htail
      have hsplit : s = text "Solution" ++ (rest.takeWhile isSpace ++ (text "::" ++ tail)) := by
        rw [after_eq_some.mp hrest, ← after_eq_some.mp htail, List.takeWhile_append_dropWhile]
      rw [← Bool.not_eq_true]
      intro hall
      obtain rfl | ⟨front, c, rfl⟩ := List.eq_nil_or_concat tail
      · have hcolons : text "::" = [ch ':'] ++ [ch ':'] := rfl
        have hcolon : ch ':' ∈ s.getLast? := by
          rw [hsplit, hcolons, List.append_nil, ← List.append_assoc, ← List.append_assoc]
          exact List.getLast?_concat
        exact (hs _ hcolon).2 rfl
      · have hlast : c ∈ s.getLast? := by
          rw [hsplit, List.concat_eq_append]
          simp
        have hspace : isSpace c = true := List.all_eq_true.mp hall c (by simp)
        rw [(hs c hlast).1] at hspace
        cases hspace

theorem dropQualifier_eq_self (w : WordClass) {s : Text}
    (hs : ∀ c ∈ s.getLast?, isSpace c = false ∧ c ≠ ch ':') (before : Option CodePoint) :
    dropQualifier w before s = s := by
  induction s generalizing before with
  | nil => rfl
  | cons c rest ih =>
    have hrest : ∀ d ∈ rest.getLast?, isSpace d = false ∧ d ≠ ch ':' := by
      intro d hd
      refine hs d ?_
      rw [List.getLast?_cons, Option.mem_def.mp hd]
      rfl
    rw [dropQualifier, endsQualifier_eq_false hs, Bool.and_false, if_neg (by simp), ih hrest]

/-- A definition up to its brace: a return type of one or more words that are no specifiers, the
blanks, stars or ampersands up to the name, the name, and the parameters in parentheses. -/
structure Definition where
  returnText : Text
  name : Text
  gap : Text
  params : List WrittenParam
  blanks : Text
  begins : ∀ c ∈ returnText.head?, isSpace c = false
  ends : returnText.getLast?.any endsType = true
  kept : ∀ x ∈ words isSpace returnText, x ∉ returnTypeKeywords ∧ ¬ text "[[" <+: x
  undelimited : Undelimited returnText
  uncalled : ch '(' ∉ returnText
  unqualified : (unwords (ch ' ') (words isSpace returnText)).getLast? ≠ some (ch ':')
  named : IsIdentifier name
  apart : ∀ c ∈ gap, isSpace c = true
  spaced : ∀ c ∈ blanks, isSpace c = true

namespace Definition
variable (d : Definition)

/-- The words of the return type, with single blanks. -/
def returnType : Text := unwords (ch ' ') (words isSpace d.returnText)

def paramText : Text := listed (d.params.map WrittenParam.written)

/-- The text from the name on. -/
def call : Text :=
  d.name ++ (d.gap ++ ch '(' :: (d.paramText ++ ch ')' :: (d.blanks ++ [ch '\x7b'])))

def written : Text := d.returnText ++ d.call

theorem returnText_ne_nil : d.returnText ≠ [] := by
  obtain ⟨front, c, htext, -⟩ := exists_endsType d.ends
  simp [htext]

theorem returnType_ne_nil : d.returnType ≠ [] := by
  refine unwords_ne_nil (fun hnil => ?_) fun x hx => (mem_words hx).1
  obtain ⟨c, tail, hc⟩ := List.exists_cons_of_ne_nil d.returnText_ne_nil
  rw [hc] at hnil
  exact words_ne_nil (d.begins c (by simp [hc])) tail hnil

theorem typeWords_region {blanks : Text} (hblanks : ∀ c ∈ blanks, isSpace c = true) :
    typeWords (blanks ++ d.returnText) = words isSpace d.returnText := by
  rw [typeWords, words_append_left hblanks]
  refine List.filter_eq_self.mpr fun x hx => ?_
  obtain ⟨hkeyword, hattribute⟩ := d.kept x hx
  have hprefix : (text "[[").isPrefixOf x = false := by
    rw [← Bool.not_eq_true, List.isPrefixOf_iff_prefix]
    exact hattribute
  rw [decide_eq_true hkeyword, hprefix]
  rfl

/-- The return type is found between the delimiter and the name. -/
theorem returnTypeBefore_written (w : WordClass) {before : Text}
    (h : Delimited before d.returnText) (rest : Text) :
    returnTypeBefore w (before ++ d.returnText) rest = d.returnType := by
  obtain ⟨blanks, hblanks, hregion⟩ :=
    exists_region h d.undelimited d.returnText_ne_nil rest.head?
  have htrim : trim isSpace d.returnType = d.returnType := trim_unwords fun x => mem_words
  have hlast : ∀ c ∈ d.returnType.getLast?, isSpace c = false ∧ c ≠ ch ':' := by
    intro c hc
    refine ⟨getLast?_trim c (by rwa [htrim]), ?_⟩
    rintro rfl
    exact d.unqualified hc
  rw [returnTypeBefore, hregion, d.typeWords_region hblanks]
  exact (congrArg (trim isSpace) (dropQualifier_eq_self w hlast none)).trans htrim

/-- The name is not called, with or without blanks before the parenthesis. It may be the end of a
longer name that is called. -/
def Uncalled (w : WordClass) (name before : Text) : Prop :=
  ∀ start blanks rest : Text, (∀ c ∈ blanks, isSpace c = true) →
    before = start ++ (name ++ (blanks ++ [ch '('])) ++ rest →
      w.boundary start.getLast? name.head? = false

end Definition

theorem callLength_eq_some {name s : Text} {n : ℕ} (h : callLength name s = some n) :
    ∃ blanks rest : Text, (∀ c ∈ blanks, isSpace c = true) ∧
      s = name ++ (blanks ++ [ch '(']) ++ rest := by
  rw [callLength, Option.bind_eq_some_iff] at h
  obtain ⟨after, hafter, h⟩ := h
  split_ifs at h with hhead
  obtain ⟨rest, hrest⟩ := List.head?_eq_some_iff.mp hhead
  refine ⟨after.takeWhile isSpace, rest, fun c hc => List.mem_takeWhile_imp hc, ?_⟩
  have hsplit : after = after.takeWhile isSpace ++ ch '(' :: rest := by
    rw [← hrest, List.takeWhile_append_dropWhile]
  rw [after_eq_some.mp hafter]
  conv_lhs => rw [hsplit]
  simp

theorem IsIdentifier.exists_cons {name : Text} (h : IsIdentifier name) :
    ∃ (c : CodePoint) (tail : Text), name = c :: tail ∧ startsName c = true := by
  cases name with
  | nil => exact h.elim
  | cons c tail => exact ⟨c, tail, rfl, h.1⟩

theorem skipQualifiers_brace (w : WordClass) {blanks : Text}
    (hblanks : ∀ c ∈ blanks, isSpace c = true) (rest : Text) :
    skipQualifiers w 0 (blanks ++ ch '\x7b' :: rest) = ch '\x7b' :: rest := by
  induction blanks with
  | nil =>
    have hnone : qualifier w (ch '\x7b' :: rest) = none := rfl
    rw [List.nil_append, skipQualifiers, if_neg (by decide), hnone]
  | cons c blanks ih =>
    rw [List.cons_append, skipQualifiers, if_pos (by rw [hblanks c (by simp), Bool.true_or]),
      ih fun d hd => hblanks d (by simp [hd])]

namespace Definition
variable (d : Definition)

/-- A call that begins before the name does not go on behind what stands before it: neither a
blank nor a parenthesis follows there. -/
theorem not_call_across {t u z blanks rest : Text} {e : CodePoint} (hlast : t.getLast? = some e)
    (he : endsType e = true) (hblanks : ∀ c ∈ blanks, isSpace c = true)
    (hu : d.name ++ (blanks ++ [ch '(']) = t ++ u) (hrest : d.call ++ rest = u ++ z) : False := by
  obtain ⟨-, hword, hother⟩ := endsType_spec he
  have hsuffix : u <:+ blanks ++ [ch '('] :=
    suffix_of_mem hu (List.mem_of_getLast? hlast) fun hmem => d.named.ne hmem hword rfl
  obtain ⟨c, tail, hname, hc⟩ := d.named.exists_cons
  have hstart := asciiWord_of_startsName hc
  cases u with
  | nil =>
    have hparen : t.getLast? = some (ch '(') := by
      rw [List.append_nil] at hu
      rw [← hu, ← List.append_assoc]
      exact List.getLast?_concat
    rw [hlast] at hparen
    obtain rfl := Option.some.inj hparen
    exact hother (by decide)
  | cons x u =>
    have hx : x = c := by
      rw [call, hname] at hrest
      exact (List.cons.inj hrest).1.symm
    subst hx
    obtain hmem | hmem := List.mem_append.mp (hsuffix.subset List.mem_cons_self)
    · have hspace := hblanks x hmem
      rw [isSpace_of_asciiWord hstart] at hspace
      cases hspace
    · rw [List.mem_singleton.mp hmem] at hstart
      revert hstart
      decide

/-- A call that ends before the name ends before the return type, which has no parenthesis. -/
theorem exists_call {before start u blanks : Text}
    (h : start ++ (d.name ++ (blanks ++ [ch '('])) ++ u = before ++ d.returnText) :
    ∃ rest, before = start ++ (d.name ++ (blanks ++ [ch '('])) ++ rest := by
  obtain ⟨v, hv, -⟩ | ⟨v, hv, hu⟩ := List.append_eq_append_iff.mp h
  · exact ⟨v, hv⟩
  · obtain rfl | ⟨front, y, rfl⟩ := List.eq_nil_or_concat v
    · rw [List.append_nil] at hv
      exact ⟨[], by rw [List.append_nil, hv]⟩
    · exfalso
      have hy : ch '(' = y := by
        rw [List.concat_eq_append, ← List.append_assoc, ← List.append_assoc,
          ← List.append_assoc] at hv
        exact List.singleton_inj.mp (List.append_inj' hv rfl).2
      subst hy
      refine d.uncalled ?_
      rw [hu]
      simp

/-- No match begins before the name. -/
theorem callLength_before {w : WordClass} {before : Text} (h : Uncalled w d.name before)
    {start t rest : Text} (ht : before ++ d.returnText = start ++ t) (hne : t ≠ [])
    (hb : w.boundary start.getLast? t.head? = true) :
    callLength d.name (t ++ (d.call ++ rest)) = none := by
  rw [Option.eq_none_iff_forall_ne_some]
  intro n hn
  obtain ⟨blanks, z, hblanks, heq⟩ := callLength_eq_some hn
  obtain ⟨u, hu, hrest⟩ | ⟨u, hu, -⟩ := List.append_eq_append_iff.mp heq
  · obtain ⟨front, e, htext, he⟩ := exists_endsType d.ends
    have hlast : t.getLast? = some e := by
      rw [← List.getLast?_append_of_ne_nil start hne, ← ht, htext, ← List.append_assoc]
      exact List.getLast?_concat
    exact d.not_call_across hlast he hblanks hu hrest
  · have hsplit : start ++ (d.name ++ (blanks ++ [ch '('])) ++ u = before ++ d.returnText := by
      rw [ht, hu, List.append_assoc start]
    obtain ⟨more, hcall⟩ := d.exists_call hsplit
    have hhead : t.head? = d.name.head? := by
      obtain ⟨c, tail, hname, -⟩ := d.named.exists_cons
      rw [hu, hname]
      rfl
    have hapart := h start blanks more hblanks hcall
    rw [← hhead, hb] at hapart
    cases hapart

/-- The name, the parameters in their parentheses, and the brace. -/
theorem call_append (rest : Text) :
    d.call ++ rest = d.name ++ (d.gap ++
      ch '(' :: (d.paramText ++ ch ')' :: (d.blanks ++ ch '\x7b' :: rest))) := by
  simp [call]

/-- The place of the opening parenthesis. -/
def openIndex : ℕ := d.name.length + d.gap.length

theorem callLength_call (rest : Text) :
    callLength d.name (d.call ++ rest) = some (d.openIndex + 1) := by
  have hparen : isSpace (ch '(') = false := by decide
  rw [callLength, after_eq_some.mpr (d.call_append rest), Option.bind_some,
    List.dropWhile_append_of_pos d.apart, List.dropWhile_cons_of_neg (by simp [hparen]),
    List.takeWhile_append_of_pos d.apart, List.takeWhile_cons_of_neg (by simp [hparen]),
    List.append_nil]
  rfl

/-- The name is the first match. -/
theorem finditer_written (w : WordClass) {before : Text} (h : Uncalled w d.name before)
    (rest : Text) :
    ∃ others : List Match, finditer w d.name 0 0 none (before ++ (d.written ++ rest)) =
      ⟨(before ++ d.returnText).length,
        (before ++ d.returnText).length + (d.openIndex + 1)⟩ :: others := by
  have hsplit : before ++ (d.written ++ rest) = before ++ d.returnText ++ (d.call ++ rest) := by
    simp [written]
  obtain ⟨front, e, htext, he⟩ := exists_endsType d.ends
  obtain ⟨hascii, hword, -⟩ := endsType_spec he
  have hlast : (before ++ d.returnText).getLast?.or none = some e := by
    rw [htext, ← List.append_assoc, List.getLast?_concat]
    rfl
  have hcall := d.callLength_call rest
  obtain ⟨c, tail, hname, hc⟩ := d.named.exists_cons
  obtain ⟨more, hmore⟩ : ∃ more, d.call ++ rest = c :: more :=
    ⟨_, by rw [call, hname, List.cons_append, List.cons_append]⟩
  have hboundary : w.boundary (some e) (some c) = true := by
    rw [WordClass.boundary, Option.any_some, Option.any_some, isWord_eq_false w hascii hword,
      isWord_of_asciiWord w (asciiWord_of_startsName hc)]
    rfl
  have hmiss : ∀ start t : Text, before ++ d.returnText = start ++ t → t ≠ [] →
      w.boundary (start.getLast?.or none) t.head? = true →
        callLength d.name (t ++ (d.call ++ rest)) = none := by
    intro start t ht hne hb
    rw [Option.or_none] at hb
    exact d.callLength_before h ht hne hb
  rw [hsplit, finditer_miss w 0 none hmiss, hlast, hmore, finditer, if_pos hboundary, ← hmore,
    hcall, Nat.zero_add]
  exact ⟨_, rfl⟩

/-- The parentheses and the brace make the match a definition. -/
theorem definitionAt_written (w : WordClass) {before : Text} (h : Delimited before d.returnText)
    (rest : Text) {front : Text} (hfront : front = before ++ d.returnText) :
    definitionAt w (front ++ (d.call ++ rest)) ⟨front.length, front.length + (d.openIndex + 1)⟩ =
      some (front.length + d.openIndex + (d.paramText.length + 1), d.returnType) := by
  have hopen : (front ++ (d.call ++ rest)).drop (front.length + (d.openIndex + 1) - 1) =
      ch '(' :: (d.paramText ++ ch ')' :: (d.blanks ++ ch '\x7b' :: rest)) := by
    have hlength : front.length + (d.openIndex + 1) - 1 =
        (front ++ (d.name ++ d.gap)).length := by
      rw [List.length_append, List.length_append, openIndex]
      omega
    rw [d.call_append, ← List.append_assoc d.name, ← List.append_assoc front, hlength,
      List.drop_left]
  have hparen : matchingParen 0
      (ch '(' :: (d.paramText ++ ch ')' :: (d.blanks ++ ch '\x7b' :: rest))) =
      some (d.paramText.length + 1) := by
    rw [matchingParen, if_pos rfl, paramText, matchingParen_listed (nested_written d.params)]
    rfl
  have hclose : (front ++ (d.call ++ rest)).drop
      (front.length + (d.openIndex + 1) - 1 + (d.paramText.length + 1) + 1) =
      d.blanks ++ ch '\x7b' :: rest := by
    have hcons : ch '(' :: (d.paramText ++ ch ')' :: (d.blanks ++ ch '\x7b' :: rest)) =
        ch '(' :: (d.paramText ++ [ch ')']) ++ (d.blanks ++ ch '\x7b' :: rest) := by simp
    have hlength : d.paramText.length + 1 + 1 =
        (ch '(' :: (d.paramText ++ [ch ')'])).length := by simp
    rw [Nat.add_assoc, ← List.drop_drop, hopen, hcons, hlength, List.drop_left]
  have hbrace : (skipQualifiers w 0 (d.blanks ++ ch '\x7b' :: rest)).head? =
      some (ch '\x7b') := by
    rw [skipQualifiers_brace w d.spaced]
    rfl
  have hreturn : returnTypeBefore w front (d.call ++ rest) = d.returnType := by
    rw [hfront]
    exact d.returnTypeBefore_written w h _
  rw [definitionAt]
  simp only [hopen, hparen, Option.bind_eq_bind, Option.bind_some, hclose, hbrace, List.take_left,
    List.drop_left, hreturn, ne_eq, not_true_eq_false, if_false, d.returnType_ne_nil]
  exact congrArg (fun n => some (n, d.returnType)) (by omega)

theorem findDefinition_written (w : WordClass) {before : Text}
    (huncalled : Uncalled w d.name before) (h : Delimited before d.returnText) (rest : Text)
    {front : Text} (hfront : front = before ++ d.returnText) :
    findDefinition w (front ++ (d.call ++ rest)) d.name =
      some ⟨front.length, front.length + d.openIndex,
        front.length + d.openIndex + (d.paramText.length + 1), d.returnType⟩ := by
  obtain ⟨others, hothers⟩ := d.finditer_written w huncalled rest
  have hsplit : before ++ (d.written ++ rest) = front ++ (d.call ++ rest) := by
    simp [written, hfront]
  rw [hsplit, ← hfront] at hothers
  rw [findDefinition, hothers, List.findSome?_cons, d.definitionAt_written w h rest hfront]
  exact congrArg some (by simp)

/-- What stands between the parentheses. -/
theorem between_written (front rest : Text) :
    between (front ++ (d.call ++ rest)) (front.length + d.openIndex)
      (front.length + d.openIndex + (d.paramText.length + 1)) = d.paramText := by
  have hsplit : front ++ (d.call ++ rest) = front ++ (d.name ++ (d.gap ++ [ch '('])) ++
      (d.paramText ++ ch ')' :: (d.blanks ++ ch '\x7b' :: rest)) := by
    simp [d.call_append]
  have hlength : front.length + d.openIndex + 1 =
      (front ++ (d.name ++ (d.gap ++ [ch '(']))).length := by
    simp [openIndex, Nat.add_assoc]
  have htake : front.length + d.openIndex + (d.paramText.length + 1) -
      (front.length + d.openIndex + 1) = d.paramText.length := by omega
  rw [between, htake, hsplit, hlength, List.drop_left, List.take_left]

/-- A definition that stands in the code, in no comment and no literal, is read back: the first
text that looks like a call of the name is the definition itself, the return type reaches to the
delimiter before it, and the parameters come out one by one. -/
theorem parseSignature_written (w : WordClass) {before clean body rest : Text}
    (hclean : stripComments (before ++ (d.written ++ body)) = clean ++ (d.written ++ rest))
    (hlength : clean.length = before.length) (huncalled : Uncalled w d.name clean)
    (hdelimited : Delimited clean d.returnText) :
    parseSignature w (before ++ (d.written ++ body)) d.name = .ok {
      returnType := d.returnType
      params := d.params.map WrittenParam.param
      rawParams := trim isSpace d.paramText
      inSolutionClass := (classMatch w 0 none (clean ++ (d.written ++ rest))).any fun i =>
        decide (i < (clean ++ d.returnText).length) } := by
  have hsplit : ∀ x y : Text, x ++ (d.written ++ y) = x ++ d.returnText ++ (d.call ++ y) := by
    intro x y
    simp [written]
  have hfound := d.findDefinition_written w huncalled hdelimited rest rfl
  have hraw := d.between_written (before ++ d.returnText) body
  have hblanked := d.between_written (clean ++ d.returnText) rest
  have hplaces : (before ++ d.returnText).length = (clean ++ d.returnText).length := by
    simp only [List.length_append, hlength]
  rw [← hsplit] at hfound hraw hblanked
  rw [hplaces] at hraw
  rw [parseSignature_ok_iff]
  refine ⟨_, d.params.map WrittenParam.param, hclean ▸ hfound, ?_, ?_⟩
  · rw [hclean]
    dsimp only
    rw [hraw, hblanked]
    exact parseParams_listed w d.params
  · rw [signatureOf, hclean]
    dsimp only
    rw [hraw]

end Definition

/-- `int  *a` -/
def pointerParam : WrittenParam where
  lead := []
  type := text "int  *"
  name := text "a"
  dims := []
  trail := []
  led := by decide
  trailed := by decide
  begins := by decide
  ends := by decide
  plain := by decide
  named := ⟨by decide, by decide⟩
  dim := by decide
  nested := by decide

/-- `int b[]` -/
def arrayParam : WrittenParam where
  lead := text "\n"
  type := text "int "
  name := text "b"
  dims := [[]]
  trail := text " "
  led := by decide
  trailed := by decide
  begins := by decide
  ends := by decide
  plain := by decide
  named := ⟨by decide, by decide⟩
  dim := by decide
  nested := by decide

/-- `int *f (int  *a,`, and in the next line `int b[] )` and the brace -/
def twoPointers : Definition where
  returnText := text "int *"
  name := text "f"
  gap := text " "
  params := [pointerParam, arrayParam]
  blanks := text " "
  begins := by decide
  ends := by decide
  kept := by decide
  undelimited := .char (by decide) (.char (by decide) (.char (by decide) (.char (by decide)
    (.char (by decide) .nil))))
  uncalled := by decide
  unqualified := by decide
  named := ⟨by decide, by decide⟩
  apart := by decide
  spaced := by decide

theorem callLength_none {w : WordClass} {name s : Text} {i : ℕ} {before : Option CodePoint}
    (h : finditer w name 0 i before s = []) {start t : Text} (ht : s = start ++ t) (hne : t ≠ [])
    (hb : w.boundary (start.getLast?.or before) t.head? = true) : callLength name t = none := by
  induction s generalizing i before start with
  | nil =>
    obtain ⟨-, rfl⟩ := List.append_eq_nil_iff.mp ht.symm
    exact absurd rfl hne
  | cons c s ih =>
    rw [finditer] at h
    cases start with
    | nil =>
      obtain rfl : c :: s = t := ht
      have hfirst : w.boundary before (some c) = true := hb
      rw [if_pos hfirst] at h
      cases hcall : callLength name (c :: s) with
      | none => rfl
      | some n =>
        rw [hcall] at h
        cases h
    | cons d start =>
      obtain ⟨rfl, hrest⟩ := List.cons.inj ht
      have hlater : finditer w name 0 (i + 1) (some c) s = [] := by
        split_ifs at h
        · cases hcall : callLength name (c :: s) with
          | none =>
            rw [hcall] at h
            exact h
          | some n =>
            rw [hcall] at h
            cases h
        · exact h
      exact ih hlater hrest (by rwa [getLast?_cons_or] at hb)

/-- Where no call is found, there is none. -/
theorem uncalled_of_finditer {w : WordClass} {name before : Text}
    (hname : IsIdentifier name) (h : finditer w name 0 0 none before = []) :
    Definition.Uncalled w name before := by
  intro start blanks rest hblanks heq
  obtain ⟨c, tail, rfl, hc⟩ := hname.exists_cons
  rw [List.append_assoc] at heq
  rw [← Bool.not_eq_true]
  intro hb
  have hnone := callLength_none h heq (by simp) (by rw [Option.or_none]; exact hb)
  have hafter : (blanks ++ [ch '('] ++ rest).dropWhile isSpace = ch '(' :: rest := by
    rw [List.append_assoc, List.dropWhile_append_of_pos hblanks]
    exact List.dropWhile_cons_of_neg (by decide)
  rw [callLength, after_eq_some.mpr (List.append_assoc _ _ _), Option.bind_some, hafter] at hnone
  cases hnone

/-- `printf(` and `if (` are no calls of `f`, and a call in a comment is none. -/
def beforeTwoPointers : Text :=
  text "// f(1)\nvoid g() \x7b if (1) printf(\"\"); \x7d\n"

/-- The definition after other code. -/
theorem parseSignature_written_commented :
    parseSignature asciiWords (beforeTwoPointers ++ (twoPointers.written ++ text "\x7d"))
      (text "f") = .ok {
        returnType := text "int *"
        params := [⟨text "int*", text "a", text "int  *a"⟩, ⟨text "int*", text "b", text "int b[]"⟩]
        rawParams := text "int  *a,\nint b[]"
        inSolutionClass := false } := by
  have huncalled : Definition.Uncalled asciiWords twoPointers.name
      (stripComments beforeTwoPointers) :=
    uncalled_of_finditer twoPointers.named (by decide +kernel)
  have hdelimited : Delimited (stripComments beforeTwoPointers) twoPointers.returnText :=
    Or.inr ⟨text "       \nvoid g() \x7b if (1) printf(\"\"); ", ch '\x7d', text "\n",
      by decide +kernel, by decide, by decide +kernel⟩
  exact twoPointers.parseSignature_written asciiWords (by decide +kernel : stripComments
    (beforeTwoPointers ++ (twoPointers.written ++ text "\x7d")) =
      stripComments beforeTwoPointers ++ (twoPointers.written ++ text "\x7d"))
    (by decide +kernel) huncalled hdelimited

end ExecutionEngine.CSignature
