import ExecutionEngine.FloatArithmetic
import ExecutionEngine.JsonText

/-!
# The built-in `float` on a string

`float` accepts blanks around the number, a sign, digits of any script, a point
without digits on one side of it, single underscores between digits, and the words
for infinity and NaN in any case. A number beyond the largest finite one gives an
infinity. Everything else is a `ValueError`.
-/
namespace ExecutionEngine.FloatText
open Binary64 JsonDecoder JsonEncoder JsonText

/-- The digits zero of Unicode beyond ASCII; each is followed by the other nine. -/
def decimalZeros : List ℕ :=
  [0x660, 0x6F0, 0x7C0, 0x966, 0x9E6, 0xA66, 0xAE6, 0xB66, 0xBE6, 0xC66, 0xCE6, 0xD66, 0xDE6,
    0xE50, 0xED0, 0xF20, 0x1040, 0x1090, 0x17E0, 0x1810, 0x1946, 0x19D0, 0x1A80, 0x1A90, 0x1B50,
    0x1BB0, 0x1C40, 0x1C50, 0xA620, 0xA8D0, 0xA900, 0xA9D0, 0xA9F0, 0xAA50, 0xABF0, 0xFF10,
    0x104A0, 0x10D30, 0x11066, 0x110F0, 0x11136, 0x111D0, 0x112F0, 0x11450, 0x114D0, 0x11650,
    0x116C0, 0x11730, 0x118E0, 0x11950, 0x11C50, 0x11D50, 0x11DA0, 0x16A60, 0x16AC0, 0x16B50,
    0x1D7CE, 0x1D7D8, 0x1D7E2, 0x1D7EC, 0x1D7F6, 0x1E140, 0x1E2F0, 0x1E950, 0x1FBF0]

/-- A character of `_PyUnicode_TransformDecimalAndSpaceToASCII`; `none` stands for its
question mark, which no number contains. -/
def asciiOf (c : CodePoint) : Option CodePoint :=
  if c.val < 127 then some c
  else if PyStr.isSpace c then some (ch ' ')
  else (decimalZeros.find? fun first => decide (first ≤ c.val ∧ c.val < first + 10)).map
    fun first => digitChar (c.val - first)

/-- The text without its underscores, each of which must stand between two digits. The
flag says whether the character before the text is a digit. -/
def dropUnderscores : Bool → List CodePoint → Option (List CodePoint)
  | _, [] => some []
  | after, c :: rest =>
    if c = ch '_' then
      if after && rest.head?.any isDigit then dropUnderscores false rest else none
    else (dropUnderscores (isDigit c) rest).map (c :: ·)

/-- `Py_ISSPACE` -/
def isAsciiSpace (c : CodePoint) : Bool := (9 ≤ c.val && c.val ≤ 13) || c.val == 32

def trim (s : List CodePoint) : List CodePoint :=
  ((s.dropWhile isAsciiSpace).reverse.dropWhile isAsciiSpace).reverse

def lower (c : CodePoint) : CodePoint :=
  if h : 65 ≤ c.val ∧ c.val ≤ 90 then ⟨c.val + 32, by omega⟩ else c

/-- `_Py_parse_inf_or_nan`, after the sign. -/
def infOrNan (negative : Bool) (s : List CodePoint) : Option Float64 :=
  let word := s.map lower
  if word = lit "inf" ∨ word = lit "infinity" then some (.infinity negative)
  else if word = lit "nan" then some .nan
  else none

/-- `(\.\d*)?`, the digits only. -/
def takePoint (s : List CodePoint) : List CodePoint × List CodePoint :=
  match s with
  | [] => ([], s)
  | c :: rest => if c = ch '.' then List.span isDigit rest else ([], s)

/-- `_Py_dg_strtod`, after the sign. -/
def decimal (negative : Bool) (s : List CodePoint) : Option Float64 :=
  let (whole, s) := List.span isDigit s
  let (fraction, s) := takePoint s
  let (exponent, s) := takeExponent s
  if (whole ++ fraction).isEmpty || !List.isEmpty s then none
  else some (ofDecimal negative (natOfDigits (whole ++ fraction))
    (exponent.getD 0 - fraction.length))

/-- `PyOS_string_to_double` on the whole text. -/
def scanFloat (s : List CodePoint) : Option Float64 :=
  let (sign, s) := takeSign [ch '-', ch '+'] s
  let negative := decide (sign = some (ch '-'))
  (decimal negative s).or (infOrNan negative s)

/-- `float(s)`; `none` where it raises `ValueError`. -/
def floatOfStr (s : PyStr) : Option Float64 := do
  let ascii ← List.mapM asciiOf s
  let text ← dropUnderscores false ascii
  scanFloat (trim text)

/-- A character of a JSON number. -/
def NumberChar (c : CodePoint) : Prop :=
  isDigit c = true ∨ c ∈ [ch '-', ch '+', ch '.', ch 'e', ch 'E']

theorem NumberChar.plain {c : CodePoint} (h : NumberChar c) :
    asciiOf c = some c ∧ c ≠ ch '_' ∧ isAsciiSpace c = false := by
  rcases h with h | h
  · have hval : 48 ≤ c.val ∧ c.val ≤ 57 := by simpa [isDigit] using h
    refine ⟨if_pos (by omega), ?_, ?_⟩
    · rintro rfl
      exact absurd h (by decide)
    · simp only [isAsciiSpace, Bool.or_eq_false_iff, Bool.and_eq_false_iff,
        decide_eq_false_iff_not, beq_eq_false_iff_ne]
      omega
  · simp only [List.mem_cons, List.not_mem_nil, or_false] at h
    rcases h with rfl | rfl | rfl | rfl | rfl <;> decide

theorem mapM_asciiOf {s : List CodePoint} (h : ∀ c ∈ s, asciiOf c = some c) :
    List.mapM asciiOf s = some s := by
  induction s with
  | nil => rfl
  | cons c s ih =>
    rw [List.mapM_cons, h c (by simp), ih fun d hd => h d (by simp [hd])]
    rfl

theorem dropUnderscores_plain {s : List CodePoint} (h : ∀ c ∈ s, c ≠ ch '_') :
    ∀ after, dropUnderscores after s = some s := by
  induction s with
  | nil => exact fun after => rfl
  | cons c s ih =>
    intro after
    rw [dropUnderscores, if_neg (h c (by simp)), ih fun d hd => h d (by simp [hd])]
    rfl

theorem trim_plain {s : List CodePoint} (h : ∀ c ∈ s, isAsciiSpace c = false) : trim s = s := by
  have hdrop : ∀ t : List CodePoint, (∀ c ∈ t, isAsciiSpace c = false) →
      t.dropWhile isAsciiSpace = t := by
    intro t ht
    cases t with
    | nil => rfl
    | cons c t => exact List.dropWhile_cons_of_neg (by simp [ht c (by simp)])
  rw [trim, hdrop s h, hdrop s.reverse fun c hc => h c (List.mem_reverse.mp hc),
    List.reverse_reverse]

/-- Text made of number characters is read as it stands. -/
theorem floatOfStr_plain {s : List CodePoint} (h : ∀ c ∈ s, NumberChar c) :
    floatOfStr s = scanFloat s := by
  unfold floatOfStr
  rw [mapM_asciiOf fun c hc => (h c hc).plain.1, Option.bind_eq_bind, Option.bind_some,
    dropUnderscores_plain (fun c hc => (h c hc).plain.2.1), Option.bind_some,
    trim_plain fun c hc => (h c hc).plain.2.2]

theorem takeSign_eq (signs s : List CodePoint) :
    ∃ (sign : Option CodePoint) (rest : List CodePoint), takeSign signs s = (sign, rest) ∧
      s = sign.toList ++ rest ∧ ∀ c ∈ sign, c ∈ signs := by
  cases s with
  | nil => exact ⟨none, [], rfl, rfl, by simp⟩
  | cons c s =>
    by_cases hc : c ∈ signs
    · exact ⟨some c, s, if_pos hc, rfl, fun d hd => by rw [← Option.some.inj hd]; exact hc⟩
    · exact ⟨none, c :: s, if_neg hc, rfl, by simp⟩

/-- An exponent at the end of the text. -/
theorem takeExponent_end {s : List CodePoint} {exponent : Option ℤ}
    (h : takeExponent s = (exponent, [])) :
    (∀ c ∈ s, NumberChar c) ∧ ∀ c ∈ s.head?, isDigit c = false ∧ c ≠ ch '.' := by
  cases s with
  | nil => simp
  | cons c s =>
    by_cases hmark : c = ch 'e' ∨ c = ch 'E'
    · have hhead : isDigit c = false ∧ c ≠ ch '.' := by
        rcases hmark with rfl | rfl <;> decide
      have hc : NumberChar c := by
        rcases hmark with rfl | rfl
        · exact .inr (by simp)
        · exact .inr (by simp)
      obtain ⟨sign, rest, hsign, rfl, hsigns⟩ := takeSign_eq [ch '-', ch '+'] s
      have hend : rest.dropWhile isDigit = [] := by
        rw [takeExponent, if_pos hmark, hsign] at h
        dsimp only at h
        rw [List.span_eq_takeWhile_dropWhile] at h
        split at h
        · cases (Prod.mk.inj h).2
        · rename_i digits tail _ hspan
          rw [(Prod.mk.inj hspan).2]
          exact (Prod.mk.inj h).2
      constructor
      · intro d hd
        rcases List.mem_cons.mp hd with rfl | hd
        · exact hc
        rcases List.mem_append.mp hd with hd | hd
        · have hd := hsigns d (Option.mem_toList.mp hd)
          refine .inr ?_
          simp only [List.mem_cons, List.not_mem_nil, or_false] at hd ⊢
          tauto
        · exact .inl (List.dropWhile_eq_nil_iff.mp hend d hd)
      · intro d hd
        obtain rfl : c = d := by simpa using hd
        exact hhead
    · have hnone : takeExponent (c :: s) = (none, c :: s) := if_neg hmark
      rw [hnone] at h
      cases (Prod.mk.inj h).2

/-- A fraction, and an exponent at the end of the text. -/
theorem takeFraction_end {s fraction rest : List CodePoint} {exponent : Option ℤ}
    (h : takeFraction s = (fraction, rest)) (hrest : takeExponent rest = (exponent, [])) :
    takePoint s = (fraction, rest) ∧ (∀ c ∈ s, NumberChar c) ∧
      ∀ c ∈ s.head?, isDigit c = false := by
  obtain ⟨hchars, hhead⟩ := takeExponent_end hrest
  cases s with
  | nil =>
    obtain ⟨rfl, rfl⟩ := Prod.mk.inj h
    exact ⟨rfl, by simp, by simp⟩
  | cons c s =>
    by_cases hpoint : c = ch '.'
    · subst hpoint
      rw [takeFraction, if_pos rfl, List.span_eq_takeWhile_dropWhile] at h
      split at h
      · -- a point without digits would be left over
        obtain ⟨-, rfl⟩ := Prod.mk.inj h
        exact absurd rfl (hhead (ch '.') rfl).2
      · rename_i digits tail _ hspan
        obtain ⟨rfl, rfl⟩ := Prod.mk.inj h
        obtain ⟨hdigits, htail⟩ := Prod.mk.inj hspan
        refine ⟨?_, ?_, point_not_digit s⟩
        · rw [takePoint, if_pos rfl, List.span_eq_takeWhile_dropWhile, hdigits, htail]
        · intro d hd
          rcases List.mem_cons.mp hd with rfl | hd
          · exact .inr (by simp)
          rw [← List.takeWhile_append_dropWhile (p := isDigit) (l := s)] at hd
          rcases List.mem_append.mp hd with hd | hd
          · exact .inl (List.mem_takeWhile_imp hd)
          · rw [htail] at hd
            exact hchars d hd
    · have hnone : takeFraction (c :: s) = ([], c :: s) := if_neg hpoint
      rw [hnone] at h
      obtain ⟨rfl, rfl⟩ := Prod.mk.inj h
      exact ⟨if_neg hpoint, hchars, fun d hd => (hhead d hd).1⟩

/-- A sign that JSON allows, or a digit, is no other sign. -/
theorem takeSign_both {s rest : List CodePoint} {sign : Option CodePoint}
    (h : takeSign [ch '-'] s = (sign, rest)) (hhead : ∀ c ∈ rest.head?, isDigit c = true) :
    takeSign [ch '-', ch '+'] s = (sign, rest) ∧ decide (sign = some (ch '-')) = sign.isSome := by
  cases s with
  | nil =>
    obtain ⟨rfl, rfl⟩ := Prod.mk.inj h
    exact ⟨rfl, rfl⟩
  | cons c s =>
    by_cases hc : c = ch '-'
    · subst hc
      obtain ⟨rfl, rfl⟩ := Prod.mk.inj h
      exact ⟨rfl, rfl⟩
    · have hnone : takeSign [ch '-'] (c :: s) = (none, c :: s) := if_neg (by simpa using hc)
      rw [hnone] at h
      obtain ⟨rfl, rfl⟩ := Prod.mk.inj h
      have hplus : c ≠ ch '+' := by
        rintro rfl
        exact absurd (hhead (ch '+') rfl) (by decide)
      exact ⟨if_neg (by simp [hc, hplus]), rfl⟩

/-- The parts of a JSON number at the end of the text are those that `float` finds. -/
theorem scanFloat_parts {s whole fraction s₁ s₂ s₃ : List CodePoint} {sign : Option CodePoint}
    {exponent : Option ℤ} (hsign : takeSign [ch '-'] s = (sign, s₁))
    (hwhole : takeInteger s₁ = some (whole, s₂)) (hfraction : takeFraction s₂ = (fraction, s₃))
    (hexponent : takeExponent s₃ = (exponent, [])) :
    floatOfStr s = some (ofDecimal sign.isSome (natOfDigits (whole ++ fraction))
      (exponent.getD 0 - fraction.length)) := by
  obtain ⟨hs₁, hdigits, hne⟩ := takeInteger_eq hwhole
  obtain ⟨hpoint, hchars, hhead⟩ := takeFraction_end hfraction hexponent
  have hstart : ∀ c ∈ s₁.head?, isDigit c = true := by
    rw [hs₁]
    exact head_append_of_digits hdigits hne s₂
  obtain ⟨hboth, hnegative⟩ := takeSign_both hsign hstart
  have hspan : List.span isDigit s₁ = (whole, s₂) := by
    rw [hs₁]
    exact span_digits hdigits hhead
  have hall : ∀ c ∈ s, NumberChar c := by
    obtain ⟨sign', rest, hsign', hs, hsigns⟩ := takeSign_eq [ch '-'] s
    rw [hsign] at hsign'
    obtain ⟨rfl, rfl⟩ := Prod.mk.inj hsign'
    intro c hc
    rw [hs, hs₁] at hc
    rcases List.mem_append.mp hc with hc | hc
    · refine .inr ?_
      rw [List.mem_singleton.mp (hsigns c (Option.mem_toList.mp hc))]
      simp
    · rcases List.mem_append.mp hc with hc | hc
      · exact .inl (hdigits c hc)
      · exact hchars c hc
  have hdecimal : decimal sign.isSome s₁ = some (ofDecimal sign.isSome
      (natOfDigits (whole ++ fraction)) (exponent.getD 0 - fraction.length)) := by
    simp only [decimal, hspan, hpoint, hexponent]
    rw [if_neg (by simp [hne])]
  rw [floatOfStr_plain hall, scanFloat, hboth]
  simp only [hnegative, hdecimal, Option.some_or]

theorem intRepr_signed {n : ℤ} {text : List CodePoint} (h : intRepr n = .ok text) :
    text = signed (decide (n < 0)) (digitChars n.natAbs) := by
  unfold intRepr at h
  dsimp only at h
  split_ifs at h with hlong hneg
  · rw [← Except.ok.inj h]
    simp [signed, hneg]
  · rw [← Except.ok.inj h]
    simp [signed, hneg]

/-- `float(str(n))` of an integer is the number nearest to it, or an infinity. -/
theorem floatOfStr_intRepr {n : ℤ} {text : List CodePoint} (h : intRepr n = .ok text) :
    floatOfStr text = some (ofDecimal (decide (n < 0)) n.natAbs 0) := by
  have hnumeral := numeral_digitChars n.natAbs
  have hhead : ∀ c ∈ (digitChars n.natAbs).head?, isDigit c = true := by
    simpa using head_append_of_digits hnumeral.digits hnumeral.ne_nil []
  obtain ⟨sign, hsign, hsome⟩ := takeSign_signed (decide (n < 0)) hhead
  have hwhole : takeInteger (digitChars n.natAbs) = some (digitChars n.natAbs, []) := by
    have hnil : ∀ c ∈ ([] : List CodePoint).head?, isDigit c = false := by simp
    simpa using takeInteger_numeral hnumeral hnil
  have hparts := scanFloat_parts hsign hwhole rfl rfl
  rw [intRepr_signed h, hparts, hsome, List.append_nil, natOfDigits_digitChars]
  rfl

/-- The text of a float in JSON is read as that float. -/
theorem floatOfStr_of_scanNumber {s : List CodePoint} {x : Float64}
    (h : scanNumber s = .ok (.float x, [])) : floatOfStr s = some x := by
  obtain ⟨sign, s₁, hsign, -⟩ := takeSign_eq [ch '-'] s
  simp only [scanNumber, hsign] at h
  cases hwhole : takeInteger s₁ with
  | none =>
    rw [hwhole] at h
    cases h
  | some p =>
    obtain ⟨whole, s₂⟩ := p
    rw [hwhole] at h
    obtain ⟨fraction, s₃, hfraction⟩ : ∃ fraction s₃, takeFraction s₂ = (fraction, s₃) :=
      ⟨_, _, rfl⟩
    obtain ⟨exponent, s₄, hexponent⟩ : ∃ exponent s₄, takeExponent s₃ = (exponent, s₄) :=
      ⟨_, _, rfl⟩
    simp only [hfraction, hexponent] at h
    split_ifs at h
    · cases (Prod.mk.inj (Except.ok.inj h)).1
    · cases (Prod.mk.inj (Except.ok.inj h)).1
    · obtain ⟨hx, hend⟩ := Prod.mk.inj (Except.ok.inj h)
      subst hend
      rw [scanFloat_parts hsign hwhole hfraction hexponent]
      exact congrArg some (Json.float.inj hx)

theorem floatOfStr_finiteRepr (x : Finite) : floatOfStr (finiteRepr x) = some (.finite x) := by
  have hfollows : Follows [] := by simp [Follows]
  have hscan := scanNumber_finiteRepr x hfollows
  rw [List.append_nil] at hscan
  exact floatOfStr_of_scanNumber hscan

/-- A bracket, as the opening character of a text. -/
def Opening (c : CodePoint) : Prop := c = ch '[' ∨ c = ch '{'

theorem scanFloat_opening {c : CodePoint} (hc : Opening c) (s : List CodePoint) :
    scanFloat (c :: s) = none := by
  have hsign : takeSign [ch '-', ch '+'] (c :: s) = (none, c :: s) := by
    rcases hc with rfl | rfl <;> rfl
  have hdigit : isDigit c = false := by
    rcases hc with rfl | rfl <;> decide
  have hspan : List.span isDigit (c :: s) = ([], c :: s) := by
    rw [List.span_eq_takeWhile_dropWhile, List.takeWhile_cons_of_neg (by simp [hdigit]),
      List.dropWhile_cons_of_neg (by simp [hdigit])]
  have hpoint : takePoint (c :: s) = ([], c :: s) := by
    rcases hc with rfl | rfl <;> rfl
  have hexponent : takeExponent (c :: s) = (none, c :: s) := by
    rcases hc with rfl | rfl <;> rfl
  have hdecimal : ∀ negative, decimal negative (c :: s) = none := by
    intro negative
    simp only [decimal, hspan, hpoint, hexponent]
    rfl
  have hwords : ∀ negative, infOrNan negative (c :: s) = none := by
    intro negative
    have hlower : ∀ w : List CodePoint, lower c ∉ w.head? → (c :: s).map lower ≠ w := by
      rintro w hw rfl
      exact hw rfl
    have hinf : lower c ∉ (lit "inf").head? := by rcases hc with rfl | rfl <;> decide
    have hinfinity : lower c ∉ (lit "infinity").head? := by rcases hc with rfl | rfl <;> decide
    have hnan : lower c ∉ (lit "nan").head? := by rcases hc with rfl | rfl <;> decide
    simp only [infOrNan, hlower _ hinf, hlower _ hinfinity, hlower _ hnan, or_self, if_false]
  simp only [scanFloat, hsign, hdecimal, hwords, Option.or_none]

theorem trim_opening {c : CodePoint} (hc : Opening c) (s : List CodePoint) :
    ∃ t, trim (c :: s) = c :: t := by
  have hspace : ¬ isAsciiSpace c = true := by
    rcases hc with rfl | rfl <;> decide
  rw [trim, List.dropWhile_cons_of_neg hspace, List.reverse_cons, List.dropWhile_append]
  split_ifs
  · rw [List.dropWhile_cons_of_neg hspace]
    exact ⟨[], rfl⟩
  · rw [List.reverse_append]
    exact ⟨_, rfl⟩

/-- No text that starts with a bracket is a number. -/
theorem floatOfStr_opening {c : CodePoint} (hc : Opening c) (s : List CodePoint) :
    floatOfStr (c :: s) = none := by
  have hascii : asciiOf c = some c := by
    rcases hc with rfl | rfl <;> rfl
  have hunderscore : c ≠ ch '_' := by
    rcases hc with rfl | rfl <;> decide
  unfold floatOfStr
  rw [List.mapM_cons, hascii]
  cases List.mapM asciiOf s with
  | none => rfl
  | some ascii =>
    change (dropUnderscores false (c :: ascii)).bind (fun text => scanFloat (trim text)) = none
    rw [dropUnderscores, if_neg hunderscore]
    cases dropUnderscores (isDigit c) ascii with
    | none => rfl
    | some text =>
      obtain ⟨t, ht⟩ := trim_opening hc text
      change scanFloat (trim (c :: text)) = none
      rw [ht, scanFloat_opening hc]

end ExecutionEngine.FloatText
