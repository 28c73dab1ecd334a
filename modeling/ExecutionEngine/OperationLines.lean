import ExecutionEngine.CSignature
import Mathlib.Data.List.DropRight

/-!
# Operations given as one text

Where a list of strings is expected, a test case may give the lines of one text, with or
without their number on the first of them. Four wrappers read such a text, each with its own
notion of a blank and of a number. They are compared here on texts in ASCII.
-/
namespace ExecutionEngine.OperationLines
open Pipeline TextScan CSignature

/-- `s.split("\n")` -/
def lines (s : Text) : List Text := cuts (ch '\n') [] s

/-- `isdigit` on ASCII, and `\d`. -/
def isDigit (c : CodePoint) : Bool := decide (48 ≤ c.val ∧ c.val ≤ 57)

/-- The first line is left out if it is a number. -/
def dropCount (isCount : Text → Bool) : List Text → List Text
  | [] => []
  | first :: rest => if isCount first then rest else first :: rest

def allDigits (line : Text) : Bool := line.all isDigit

/-- The branch of `auto_convert_inputs` for a text with a line break; any other is left as it
is. -/
def autoConvertInputs (value : Text) : Option (List Text) :=
  if ch '\n' ∈ value then
    some (dropCount allDigits (fields isSpace (lines (trim isSpace value))))
  else none

/-- The white space and line terminators of `String.prototype.trim`. -/
def isJsSpace (c : CodePoint) : Bool :=
  let n := c.val
  (9 ≤ n && n ≤ 13) || n == 32 || n == 0xA0 || n == 0x1680 || (0x2000 ≤ n && n ≤ 0x200A) ||
    n == 0x2028 || n == 0x2029 || n == 0x202F || n == 0x205F || n == 0x3000 || n == 0xFEFF

/-- The branch of `autoConvertInput`; `/^\d+$/` is tested on a line that is not empty. -/
def autoConvertInput (value : Text) : Option (List Text) :=
  if ch '\n' ∈ value then
    some (dropCount allDigits (fields isJsSpace (lines (trim isJsSpace value))))
  else none

/-- `getline` until the end; nothing follows a line break at the end. -/
def getlines (s : Text) : List Text :=
  if (lines s).getLast? = some [] then (lines s).dropLast else lines s

/-- `if (!line.empty() && line.back() == '\r') line.pop_back();` -/
def chop (line : Text) : Text := if line.getLast? = some (ch '\r') then line.dropLast else line

/-- The loop of `Arg<vector<string>>::get`. -/
def readLines (first : Bool) : List Text → List Text
  | [] => []
  | line :: rest =>
    if chop line = [] then readLines first rest
    else if first && allDigits (chop line) then readLines false rest
    else chop line :: readLines false rest

/-- `Arg<vector<string>>::get` of a string. -/
def argGet (value : Text) : List Text := readLines true (getlines value)

/-- `String.trim` takes off all characters up to the blank. -/
def isControl (c : CodePoint) : Bool := decide (c.val ≤ 32)

/-- `s.split("\n")`, without the empty strings at its end; a text without a line break is
the only element. -/
def javaSplit (s : Text) : List Text :=
  if ch '\n' ∈ s then (lines s).rdropWhile List.isEmpty else [s]

/-- The value of decimal digits. -/
def decimal (digits : Text) : ℕ := digits.foldl (fun n c => 10 * n + (c.val - 48)) 0

/-- The digits of a number up to a bound. -/
def boundedDigits (bound : ℕ) (digits : Text) : Option ℕ :=
  if digits ≠ [] ∧ allDigits digits = true ∧ decimal digits ≤ bound then some (decimal digits)
  else none

/-- `Integer.parseInt`; none where it throws `NumberFormatException`. -/
def parseInt (s : Text) : Option ℤ :=
  match s with
  | [] => none
  | c :: rest =>
    if c = ch '-' then (boundedDigits (2 ^ 31) rest).map fun n : ℕ => -(n : ℤ)
    else if c = ch '+' then (boundedDigits (2 ^ 31 - 1) rest).map fun n : ℕ => (n : ℤ)
    else (boundedDigits (2 ^ 31 - 1) s).map fun n : ℕ => (n : ℤ)

/-- `convertValue` for a `List` and a string; none where `lines[0]` raises. -/
def convertValue (value : Text) : Option (List Text) :=
  match javaSplit (trim isControl value) with
  | [] => none
  | first :: rest =>
    if (parseInt (trim isControl first)).isSome then some (fields isControl rest)
    else some (fields isControl (first :: rest))

/-- The lines that are not blank, trimmed, without the first where it is a number. -/
def operations (s : Text) : List Text := dropCount allDigits (fields isSpace (lines s))

theorem autoConvertInputs_eq {s : Text} (h : ch '\n' ∈ s) :
    autoConvertInputs s = some (operations s) := by
  rw [autoConvertInputs, if_pos h, lines, fields_trim, operations, lines]

theorem autoConvertInput_eq {s : Text} (h : ch '\n' ∈ s) :
    autoConvertInput s = some (dropCount allDigits (fields isJsSpace (lines s))) := by
  rw [autoConvertInput, if_pos h, lines, fields_trim, lines]

/-- The lines with something in them after the carriage return is taken off. -/
def chopped (parts : List Text) : List Text := (parts.map chop).filter fun x => !x.isEmpty

theorem readLines_false (parts : List Text) : readLines false parts = chopped parts := by
  induction parts with
  | nil => rfl
  | cons line rest ih =>
    rw [readLines, chopped, List.map_cons]
    by_cases h : chop line = []
    · rw [if_pos h, List.filter_cons_of_neg (by simp [h]), ih, chopped]
    · rw [if_neg h, List.filter_cons_of_pos (by simp [h]), ih, chopped]
      rfl

theorem readLines_true (parts : List Text) :
    readLines true parts = dropCount allDigits (chopped parts) := by
  induction parts with
  | nil => rfl
  | cons line rest ih =>
    rw [readLines, chopped, List.map_cons, readLines_false]
    by_cases h : chop line = []
    · rw [if_pos h, List.filter_cons_of_neg (by simp [h]), ih, chopped]
    · rw [if_neg h, List.filter_cons_of_pos (by simp [h]), dropCount, Bool.true_and, chopped]

theorem argGet_eq (s : Text) : argGet s = dropCount allDigits (chopped (lines s)) := by
  have hlast : chopped (getlines s) = chopped (lines s) := by
    rw [getlines]
    split_ifs with h
    · obtain ⟨init, hinit⟩ := List.getLast?_eq_some_iff.mp h
      rw [hinit, List.dropLast_concat, chopped, chopped, List.map_append, List.filter_append]
      exact (List.append_nil _).symm
    · rfl
  rw [argGet, readLines_true, hlast]

theorem fields_rdropWhile (parts : List Text) :
    fields isControl (parts.rdropWhile List.isEmpty) = fields isControl parts := by
  induction parts using List.reverseRecOn with
  | nil => rfl
  | append_singleton parts x ih =>
    by_cases hx : x.isEmpty = true
    · obtain rfl := List.isEmpty_iff.mp hx
      rw [List.rdropWhile_concat_pos _ _ _ rfl, ih, fields, fields, List.map_append,
        List.filter_append]
      exact (List.append_nil _).symm
    · rw [List.rdropWhile_concat_neg _ _ _ hx]

theorem fields_javaSplit (s : Text) :
    fields isControl (javaSplit s) = fields isControl (lines s) := by
  rw [javaSplit]
  split_ifs with h
  · exact fields_rdropWhile (lines s)
  · rw [lines, cuts_of_not_mem h, List.nil_append]

/-- The first line of a trimmed text is not blank. -/
theorem javaSplit_trim {s : Text} (h : trim isControl s ≠ []) :
    ∃ first rest, javaSplit (trim isControl s) = first :: rest ∧ trim isControl first ≠ [] := by
  obtain ⟨c, t, ht⟩ := List.exists_cons_of_ne_nil h
  have hc : isControl c = false := by
    refine @head?_trim _ isControl s c ?_
    rw [ht]
    rfl
  have hnewline : c ≠ ch '\n' := by
    rintro rfl
    revert hc
    decide
  have hfirst : ∀ x : Text, trim isControl (c :: x) ≠ [] := by
    intro x hnil
    have := trim_eq_nil_iff.mp hnil c (by simp)
    rw [hc] at this
    cases this
  obtain ⟨x, parts, hcuts⟩ := exists_cuts_cons (ch '\n') [c] t
  have hlines : lines (c :: t) = (c :: x) :: parts := by
    rw [lines, cuts, if_neg hnewline]
    exact hcuts
  rw [ht, javaSplit]
  split_ifs
  · have hne : (lines (c :: t)).rdropWhile List.isEmpty ≠ [] := by
      intro hnil
      have := List.rdropWhile_eq_nil_iff.mp hnil (c :: x) (by rw [hlines]; simp)
      cases this
    obtain ⟨first, rest, hsplit⟩ := List.exists_cons_of_ne_nil hne
    have hpart := List.rdropWhile_prefix List.isEmpty (lines (c :: t))
    rw [hsplit, hlines, List.cons_prefix_cons] at hpart
    exact ⟨first, rest, hsplit, hpart.1 ▸ hfirst x⟩
  · exact ⟨c :: t, [], rfl, hfirst t⟩

theorem convertValue_eq (s : Text) :
    convertValue s =
      some (dropCount (fun x => (parseInt x).isSome) (fields isControl (lines s))) := by
  have hfields : fields isControl (javaSplit (trim isControl s)) = fields isControl (lines s) := by
    rw [fields_javaSplit, lines, fields_trim, lines]
  rw [← hfields, convertValue]
  by_cases h : trim isControl s = []
  · rw [h]
    rfl
  · obtain ⟨first, rest, hsplit, hfirst⟩ := javaSplit_trim h
    have hcons : fields isControl (first :: rest) =
        trim isControl first :: fields isControl rest := by
      rw [fields, List.map_cons, List.filter_cons_of_pos (by simpa using hfirst)]
      rfl
    rw [hsplit, hcons, dropCount]
    dsimp only
    split_ifs
    · rfl
    · rw [hcons]

/-- A number with a sign that fits into 32 bits. -/
def Signed : Text → Prop
  | [] => False
  | c :: digits => digits ≠ [] ∧ allDigits digits = true ∧
      (c = ch '+' ∧ decimal digits < 2 ^ 31 ∨ c = ch '-' ∧ decimal digits ≤ 2 ^ 31)

instance : DecidablePred Signed
  | [] => .isFalse id
  | _ :: _ => inferInstanceAs (Decidable (_ ∧ _ ∧ _))

/-- A line that has no sign before its digits and, if it is a number, fits into 32 bits. -/
def PlainCount (line : Text) : Prop :=
  ¬ Signed line ∧ (allDigits line = true → decimal line < 2 ^ 31)

instance (line : Text) : Decidable (PlainCount line) := inferInstanceAs (Decidable (_ ∧ _))

theorem boundedDigits_isSome {bound : ℕ} {digits : Text} :
    (boundedDigits bound digits).isSome = true ↔
      digits ≠ [] ∧ allDigits digits = true ∧ decimal digits ≤ bound := by
  rw [boundedDigits]
  split_ifs with h
  · exact iff_of_true rfl h
  · exact iff_of_false Bool.false_ne_true h

theorem parseInt_isSome_iff {line : Text} (hne : line ≠ []) :
    (parseInt line).isSome = allDigits line ↔ PlainCount line := by
  obtain ⟨c, rest, rfl⟩ := List.exists_cons_of_ne_nil hne
  have hsign : isDigit c = false → allDigits (c :: rest) = false := by
    intro hc
    rw [allDigits, List.all_cons, hc, Bool.false_and]
  by_cases hminus : c = ch '-'
  · subst hminus
    have hparse : (parseInt (ch '-' :: rest)).isSome = (boundedDigits (2 ^ 31) rest).isSome := by
      rw [parseInt, if_pos rfl, Option.isSome_map]
    rw [hparse, hsign (by decide), PlainCount, hsign (by decide), Bool.eq_false_iff, ne_eq,
      boundedDigits_isSome, Signed]
    have : ch '-' ≠ ch '+' := by decide
    simp [this]
  · by_cases hplus : c = ch '+'
    · subst hplus
      have hparse : (parseInt (ch '+' :: rest)).isSome =
          (boundedDigits (2 ^ 31 - 1) rest).isSome := by
        rw [parseInt, if_neg (by decide), if_pos rfl, Option.isSome_map]
      have hbound : decimal rest ≤ 2 ^ 31 - 1 ↔ decimal rest < 2 ^ 31 := by omega
      rw [hparse, hsign (by decide), PlainCount, hsign (by decide), Bool.eq_false_iff, ne_eq,
        boundedDigits_isSome, Signed, hbound]
      have : ch '+' ≠ ch '-' := by decide
      simp [this]
    · have hparse : (parseInt (c :: rest)).isSome =
          (boundedDigits (2 ^ 31 - 1) (c :: rest)).isSome := by
        rw [parseInt, if_neg hminus, if_neg hplus, Option.isSome_map]
      have hunsigned : ¬ Signed (c :: rest) := by
        rintro ⟨-, -, ⟨h, -⟩ | ⟨h, -⟩⟩
        · exact hplus h
        · exact hminus h
      have hbound : decimal (c :: rest) ≤ 2 ^ 31 - 1 ↔ decimal (c :: rest) < 2 ^ 31 := by omega
      rw [hparse, Bool.eq_iff_iff, boundedDigits_isSome, PlainCount, hbound]
      tauto

/-- A line without blanks or control characters at its ends, but for one carriage return. -/
def Bare (line : Text) : Prop :=
  (∀ c ∈ (chop line).head?, isControl c = false) ∧ ∀ c ∈ (chop line).getLast?, isControl c = false

instance (line : Text) : Decidable (Bare line) := inferInstanceAs (Decidable (_ ∧ _))

theorem trim_chop {sep : CodePoint → Bool} (hsep : sep (ch '\r') = true) (line : Text) :
    trim sep (chop line) = trim sep line := by
  rw [chop]
  split_ifs with h
  · obtain ⟨init, hinit⟩ := List.getLast?_eq_some_iff.mp h
    rw [hinit, List.dropLast_concat, trim_append_right (by simpa using hsep)]
  · rfl

theorem isSpace_isControl {c : CodePoint} (hascii : c.val < 128) (hc : isSpace c = true) :
    isControl c = true := by
  simp only [isSpace, PyStr.isSpace, Bool.or_eq_true, Bool.and_eq_true, decide_eq_true_eq,
    beq_iff_eq] at hc
  rw [isControl, decide_eq_true_eq]
  omega

theorem isJsSpace_isControl {c : CodePoint} (hascii : c.val < 128) (hc : isJsSpace c = true) :
    isControl c = true := by
  simp only [isJsSpace, Bool.or_eq_true, Bool.and_eq_true, decide_eq_true_eq, beq_iff_eq] at hc
  rw [isControl, decide_eq_true_eq]
  omega

/-- Digits are neither blanks nor control characters. -/
theorem trim_allDigits {sep : CodePoint → Bool} (hsep : ∀ c, isDigit c = true → sep c = false)
    {line : Text} (h : allDigits line = true) : trim sep line = line :=
  trim_eq_self (fun c hc => hsep c (List.all_eq_true.mp h c (List.mem_of_head? hc)))
    fun c hc => hsep c (List.all_eq_true.mp h c (List.mem_of_getLast? hc))

theorem isControl_of_isDigit (c : CodePoint) (hc : isDigit c = true) : isControl c = false := by
  rw [isDigit, decide_eq_true_eq] at hc
  rw [isControl, decide_eq_false_iff_not]
  omega

theorem isSpace_of_isDigit (c : CodePoint) (hc : isDigit c = true) : isSpace c = false := by
  have hcontrol := isControl_of_isDigit c hc
  rw [isDigit, decide_eq_true_eq] at hc
  refine Bool.eq_false_iff.mpr fun h => ?_
  rw [isSpace_isControl (by omega) h] at hcontrol
  cases hcontrol

section
variable {line : Text} (hascii : ∀ c ∈ line, c.val < 128)
include hascii

theorem Bare.trim_eq (h : Bare line) {sep : CodePoint → Bool} (hreturn : sep (ch '\r') = true)
    (hsep : ∀ c, c.val < 128 → sep c = true → isControl c = true) :
    trim sep line = chop line := by
  have hkeep : ∀ c ∈ chop line, isControl c = false → sep c = false := by
    intro c hc hcontrol
    have hmem : c ∈ line := by
      rw [chop] at hc
      split_ifs at hc
      · exact List.mem_of_mem_dropLast hc
      · exact hc
    refine Bool.eq_false_iff.mpr fun hs => ?_
    rw [hsep c (hascii c hmem) hs] at hcontrol
    cases hcontrol
  rw [← trim_chop hreturn]
  exact trim_eq_self (fun c hc => hkeep c (List.mem_of_head? hc) (h.1 c hc))
    fun c hc => hkeep c (List.mem_of_getLast? hc) (h.2 c hc)

/-- What is left of a line by `str.strip` and then by `String.trim`. -/
theorem trim_isControl_trim : trim isControl (trim isSpace line) = trim isControl line := by
  obtain ⟨a, b, hline, ha, hb⟩ := exists_trim isSpace line
  have hcontrol : ∀ x : Text, (∀ c ∈ x, c ∈ line) → (∀ c ∈ x, isSpace c = true) →
      ∀ c ∈ x, isControl c = true :=
    fun x hx hspace c hc => isSpace_isControl (hascii c (hx c hc)) (hspace c hc)
  have hmem : ∀ c, c ∈ a ++ trim isSpace line ++ b → c ∈ line := fun c hc => hline ▸ hc
  have ha' := hcontrol a (fun c hc => hmem c (by simp [hc])) ha
  have hb' := hcontrol b (fun c hc => hmem c (by simp [hc])) hb
  conv_rhs => rw [hline]
  rw [trim_append_right hb', trim_append_left ha']

end

theorem mem_dropCount {isCount : Text → Bool} {parts : List Text} {x : Text} (hx : x ∈ parts)
    (hcount : isCount x = false) : x ∈ dropCount isCount parts := by
  cases parts with
  | nil => exact hx
  | cons first rest =>
    rw [dropCount]
    split_ifs with hfirst
    · rcases List.mem_cons.mp hx with rfl | hx
      · rw [hcount] at hfirst
        cases hfirst
      · exact hx
    · exact hx

theorem mem_of_mem_dropCount {isCount : Text → Bool} {parts : List Text} {x : Text}
    (hx : x ∈ dropCount isCount parts) : x ∈ parts := by
  cases parts with
  | nil => exact hx
  | cons first rest =>
    rw [dropCount] at hx
    split_ifs at hx
    · exact List.mem_cons_of_mem first hx
    · exact hx

theorem dropCount_eq_iff {p q : Text → Bool} {parts : List Text} :
    dropCount p parts = dropCount q parts ↔ ∀ first ∈ parts.head?, p first = q first := by
  cases parts with
  | nil => simp [dropCount]
  | cons first rest =>
    have hne : rest ≠ first :: rest := (List.cons_ne_self first rest).symm
    simp only [dropCount, List.head?_cons, Option.mem_def, Option.some.injEq, forall_eq']
    cases p first <;> cases q first <;> simp [hne]

/-- C++ agrees only on lines that are bare as far as blanks go. -/
theorem chop_eq_of_argGet {s : Text} (h : argGet s = operations s) :
    ∀ line ∈ lines s, chop line = trim isSpace line := by
  intro line hline
  by_contra hne
  have htrim : trim isSpace (chop line) ≠ chop line := by
    rw [trim_chop (by decide)]
    exact Ne.symm hne
  have hmem : chop line ∈ chopped (lines s) := by
    refine List.mem_filter.mpr ⟨List.mem_map_of_mem hline, ?_⟩
    rw [Bool.not_eq_true', List.isEmpty_eq_false_iff]
    intro hnil
    rw [hnil] at htrim
    exact htrim rfl
  have hdigits : allDigits (chop line) = false :=
    Bool.eq_false_iff.mpr fun hd => htrim (trim_allDigits isSpace_of_isDigit hd)
  have hread : chop line ∈ operations s := by
    rw [← h, argGet_eq]
    exact mem_dropCount hmem hdigits
  obtain ⟨-, part, -, hpart⟩ := mem_fields.mp (mem_of_mem_dropCount hread)
  rw [← hpart, trim_trim] at htrim
  exact htrim rfl

/-- Java agrees only on lines without other control characters at their ends. -/
theorem trim_eq_of_convertValue {s : Text} (hascii : ∀ c ∈ s, c.val < 128)
    (h : convertValue s = some (operations s)) :
    ∀ line ∈ lines s, trim isControl line = trim isSpace line := by
  intro line hline
  by_contra hne
  have hchars : ∀ c ∈ line, c.val < 128 :=
    fun c hc => hascii c (by simpa using mem_of_mem_cuts hline c hc)
  have htrim : trim isControl (trim isSpace line) ≠ trim isSpace line := by
    rw [trim_isControl_trim hchars]
    exact hne
  have hmem : trim isSpace line ∈ fields isSpace (lines s) := by
    refine mem_fields.mpr ⟨?_, line, hline, rfl⟩
    intro hnil
    rw [hnil] at htrim
    exact htrim rfl
  have hdigits : allDigits (trim isSpace line) = false :=
    Bool.eq_false_iff.mpr fun hd => htrim (trim_allDigits isControl_of_isDigit hd)
  have hread : trim isSpace line ∈
      dropCount (fun x => (parseInt x).isSome) (fields isControl (lines s)) := by
    rw [Option.some.inj ((convertValue_eq s).symm.trans h)]
    exact mem_dropCount hmem hdigits
  obtain ⟨-, part, -, hpart⟩ := mem_fields.mp (mem_of_mem_dropCount hread)
  rw [← hpart, trim_trim] at htrim
  exact htrim rfl

theorem fields_eq_chopped {sep : CodePoint → Bool} {parts : List Text}
    (h : ∀ line ∈ parts, trim sep line = chop line) : fields sep parts = chopped parts := by
  rw [fields, chopped, List.map_congr_left h]

/-- The four wrappers read the operations of a text in ASCII alike where its lines have no
blanks or control characters at their ends, but for one carriage return, and the first of
them is no number with a sign and none beyond 32 bits; and nowhere else. -/
theorem operations_agree_iff (s : Text) (hascii : ∀ c ∈ s, c.val < 128) (hbreak : ch '\n' ∈ s) :
    (autoConvertInputs s = some (operations s) ∧ autoConvertInput s = some (operations s) ∧
        argGet s = operations s ∧ convertValue s = some (operations s)) ↔
      (∀ line ∈ lines s, Bare line) ∧ ∀ first ∈ (chopped (lines s)).head?, PlainCount first := by
  have hchars : ∀ line ∈ lines s, ∀ c ∈ line, c.val < 128 :=
    fun line hline c hc => hascii c (by simpa using mem_of_mem_cuts hline c hc)
  have hfirst : ∀ first ∈ (chopped (lines s)).head?, first ≠ [] := by
    intro first hmem
    simpa using (List.mem_filter.mp (List.mem_of_head? hmem)).2
  -- on bare lines the raw lists are one, and only the test of the first line is left
  have hbare : (∀ line ∈ lines s, Bare line) →
      fields isSpace (lines s) = chopped (lines s) ∧
        fields isJsSpace (lines s) = chopped (lines s) ∧
        fields isControl (lines s) = chopped (lines s) := by
    intro h
    refine ⟨fields_eq_chopped fun line hline => ?_, fields_eq_chopped fun line hline => ?_,
      fields_eq_chopped fun line hline => ?_⟩
    · exact (h line hline).trim_eq (hchars line hline) (by decide) fun _ => isSpace_isControl
    · exact (h line hline).trim_eq (hchars line hline) (by decide) fun _ => isJsSpace_isControl
    · exact (h line hline).trim_eq (hchars line hline) (by decide) fun _ _ hc => hc
  have hcount : dropCount (fun x => (parseInt x).isSome) (chopped (lines s)) =
        dropCount allDigits (chopped (lines s)) ↔
      ∀ first ∈ (chopped (lines s)).head?, PlainCount first := by
    rw [dropCount_eq_iff]
    exact forall₂_congr fun first hmem => parseInt_isSome_iff (hfirst first hmem)
  rw [autoConvertInputs_eq hbreak, autoConvertInput_eq hbreak, argGet_eq, convertValue_eq]
  constructor
  · rintro ⟨-, -, hcpp, hjava⟩
    have hlines : ∀ line ∈ lines s, Bare line := by
      intro line hline
      have hchop := chop_eq_of_argGet ((argGet_eq s).trans hcpp) line hline
      have htrim := trim_eq_of_convertValue hascii ((convertValue_eq s).trans hjava) line hline
      rw [Bare, hchop, ← htrim]
      exact ⟨head?_trim, getLast?_trim⟩
    obtain ⟨hspace, -, hcontrol⟩ := hbare hlines
    refine ⟨hlines, hcount.mp ?_⟩
    rw [operations, hspace, hcontrol] at hjava
    exact Option.some.inj hjava
  · rintro ⟨hlines, hplain⟩
    obtain ⟨hspace, hjs, hcontrol⟩ := hbare hlines
    rw [operations, hspace, hjs, hcontrol, hcount.mpr hplain]
    exact ⟨rfl, rfl, rfl, rfl⟩

def countedOperations : Text := text "2\r\npush 1\r\npop\n"

theorem operations_agree_counted :
    autoConvertInputs countedOperations = some [text "push 1", text "pop"] ∧
      autoConvertInput countedOperations = some [text "push 1", text "pop"] ∧
      argGet countedOperations = [text "push 1", text "pop"] ∧
      convertValue countedOperations = some [text "push 1", text "pop"] := by
  have hoperations : operations countedOperations = [text "push 1", text "pop"] := by
    decide +kernel
  rw [← hoperations]
  exact (operations_agree_iff countedOperations (by decide) (by decide)).mpr
    ⟨by decide +kernel, by decide +kernel⟩

/-- A blank before a line stays in C++, and Java takes a number with a sign for a count. -/
theorem operations_differ :
    argGet (text "push 1\n pop") ≠ operations (text "push 1\n pop") ∧
      convertValue (text "+2\npush 1\npop") ≠ some (operations (text "+2\npush 1\npop")) := by
  decide +kernel

end ExecutionEngine.OperationLines
