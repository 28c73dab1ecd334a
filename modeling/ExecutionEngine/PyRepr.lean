import ExecutionEngine.FloatText
import ExecutionEngine.JsonRoundTrip

/-!
# The built-ins `repr` and `str` on decoded values

A string is quoted by `repr` and left as it is by `str`; every other value has one
text. Which characters beyond ASCII are printed as they are is a table of the
interpreter, and a parameter here. An integer with too many digits raises
`ValueError`.

The text of a value determines the value, whatever follows it in a list or an
object. Two values of which neither is a string have therefore the same `str` only
if they are the same.
-/
namespace ExecutionEngine.PyRepr
open Binary64 JsonDecoder JsonEncoder JsonText JsonRoundTrip FloatText

section
variable (printable : CodePoint → Bool)

def apostrophe : CodePoint := ⟨0x27, by decide⟩

/-- Double quotes are used for a string with an apostrophe and no double quote. -/
def quoteOf (s : List CodePoint) : CodePoint :=
  if apostrophe ∈ s ∧ ch '"' ∉ s then ch '"' else apostrophe

/-- `\xXX`, `\uXXXX` or `\UXXXXXXXX` -/
def hexEscape (n : ℕ) : List CodePoint :=
  if n < 0x100 then [ch '\\', ch 'x', hexChar (n / 16), hexChar n]
  else if n < 0x10000 then unicodeEscape n
  else
    [ch '\\', ch 'U', hexChar (n / 2 ^ 28), hexChar (n / 2 ^ 24), hexChar (n / 2 ^ 20),
      hexChar (n / 2 ^ 16), hexChar (n / 4096), hexChar (n / 256), hexChar (n / 16), hexChar n]

/-- The text of a character between the given quotes. -/
def charRepr (quote c : CodePoint) : List CodePoint :=
  if c = quote ∨ c = ch '\\' then [ch '\\', c]
  else if c.val = 9 then lit "\\t"
  else if c.val = 10 then lit "\\n"
  else if c.val = 13 then lit "\\r"
  else if c.val < 0x20 ∨ c.val = 0x7F then hexEscape c.val
  else if c.val < 0x7F ∨ printable c then [c]
  else hexEscape c.val

/-- `str.__repr__` -/
def strRepr (s : List CodePoint) : List CodePoint :=
  quoteOf s :: (s.flatMap (charRepr printable (quoteOf s)) ++ [quoteOf s])

/-- `float.__repr__` -/
def floatRepr : Float64 → List CodePoint
  | .nan => lit "nan"
  | .infinity negative => lit (if negative then "-inf" else "inf")
  | .finite x => finiteRepr x

mutual

/-- `repr(value)`; `none` where it raises `ValueError`. -/
def valueRepr : Json → Option (List CodePoint)
  | .null => some (lit "None")
  | .bool b => some (lit (if b then "True" else "False"))
  | .int n => (intRepr n).toOption
  | .float x => some (floatRepr x)
  | .str s => some (strRepr printable s)
  | .arr items => (itemsRepr items).map fun texts => ch '[' :: (joinTexts texts ++ [ch ']'])
  | .obj items => (membersRepr items).map fun texts => ch '{' :: (joinTexts texts ++ [ch '}'])

def itemsRepr : List Json → Option (List (List CodePoint))
  | [] => some []
  | item :: rest => do
    let text ← valueRepr item
    let texts ← itemsRepr rest
    some (text :: texts)

def membersRepr : List (PyStr × Json) → Option (List (List CodePoint))
  | [] => some []
  | (key, value) :: rest => do
    let text ← valueRepr value
    let texts ← membersRepr rest
    some ((strRepr printable key ++ lit ": " ++ text) :: texts)

end

/-- `str(value)`; `none` where it raises `ValueError`. -/
def pyStr : Json → Option PyStr
  | .str s => some s
  | v => valueRepr printable v

end

/-- The character of two hexadecimal units. -/
def wide (high low : CodePoint) : Option CodePoint :=
  if h : 0x10000 * high.val + low.val < 0x110000 then some ⟨0x10000 * high.val + low.val, h⟩
  else none

theorem tab_lt : 9 < 0x110000 := by decide

theorem lineFeed_lt : 10 < 0x110000 := by decide

theorem return_lt : 13 < 0x110000 := by decide

/-- A character as it stands in the text of a string, and the text after it. -/
def readChar : List CodePoint → Option (CodePoint × List CodePoint)
  | [] => none
  | c :: rest =>
    if c = ch '\\' then
      match rest with
      | [] => none
      | e :: rest =>
        if e = ch 't' then some (⟨9, tab_lt⟩, rest)
        else if e = ch 'n' then some (⟨10, lineFeed_lt⟩, rest)
        else if e = ch 'r' then some (⟨13, return_lt⟩, rest)
        else if e = ch 'x' then
          match rest with
          | a :: b :: rest => (hexUnit (ch '0') (ch '0') a b).map (·, rest)
          | _ => none
        else if e = ch 'u' then
          match rest with
          | a :: b :: c :: d :: rest => (hexUnit a b c d).map (·, rest)
          | _ => none
        else if e = ch 'U' then
          match rest with
          | a₁ :: b₁ :: c₁ :: d₁ :: a₂ :: b₂ :: c₂ :: d₂ :: rest => do
            let high ← hexUnit a₁ b₁ c₁ d₁
            let low ← hexUnit a₂ b₂ c₂ d₂
            (wide high low).map (·, rest)
          | _ => none
        else some (e, rest)
    else some (c, rest)

theorem hexUnit_low (n : ℕ) :
    hexUnit (hexChar (n / 4096)) (hexChar (n / 256)) (hexChar (n / 16)) (hexChar n) =
      some ⟨n % 0x10000, by omega⟩ := by
  have hsum : 4096 * (n / 4096 % 16) + 256 * (n / 256 % 16) + 16 * (n / 16 % 16) + n % 16 =
      n % 0x10000 := by omega
  simp only [hexUnit, hexDigit_hexChar, bind, Option.bind, hsum]
  rw [dif_pos (by omega)]

theorem readChar_hexEscape (c : CodePoint) (rest : List CodePoint) :
    readChar (hexEscape c.val ++ rest) = some (c, rest) := by
  have hlt := c.isLt
  unfold hexEscape
  split_ifs with hbyte hunit
  · have hhex : hexUnit (ch '0') (ch '0') (hexChar (c.val / 16)) (hexChar c.val) = some c := by
      have h := hexUnit_hexChar (show c.val < 0x10000 by omega)
      rwa [show c.val / 4096 = 0 by omega, show c.val / 256 = 0 by omega] at h
    change (hexUnit (ch '0') (ch '0') (hexChar (c.val / 16)) (hexChar c.val)).map (·, rest) = _
    rw [hhex]
    rfl
  · change (hexUnit (hexChar (c.val / 4096)) (hexChar (c.val / 256)) (hexChar (c.val / 16))
      (hexChar c.val)).map (·, rest) = _
    rw [hexUnit_hexChar (by omega)]
    rfl
  · have hhigh := hexUnit_low (c.val / 2 ^ 16)
    rw [Nat.div_div_eq_div_mul, Nat.div_div_eq_div_mul, Nat.div_div_eq_div_mul] at hhigh
    have hlow := hexUnit_low c.val
    have hwide :
        wide ⟨c.val / 2 ^ 16 % 0x10000, by omega⟩ ⟨c.val % 0x10000, by omega⟩ = some c := by
      have hsum : 0x10000 * (c.val / 2 ^ 16 % 0x10000) + c.val % 0x10000 = c.val := by omega
      simp only [wide, hsum]
      exact dif_pos hlt
    change (hexUnit (hexChar (c.val / 2 ^ 28)) (hexChar (c.val / 2 ^ 24)) (hexChar (c.val / 2 ^ 20))
      (hexChar (c.val / 2 ^ 16))).bind (fun high => (hexUnit (hexChar (c.val / 4096))
        (hexChar (c.val / 256)) (hexChar (c.val / 16)) (hexChar c.val)).bind fun low =>
          (wide high low).map (·, rest)) = _
    rw [hlow]
    refine (congrArg (Option.bind · _) hhigh).trans ?_
    exact congrArg (Option.map (·, rest)) hwide

theorem readChar_backslash {e : CodePoint} (rest : List CodePoint)
    (h : e = apostrophe ∨ e = ch '"' ∨ e = ch '\\') :
    readChar (ch '\\' :: e :: rest) = some (e, rest) := by
  rcases h with rfl | rfl | rfl <;> rfl

theorem readChar_self {c : CodePoint} (rest : List CodePoint) (h : c ≠ ch '\\') :
    readChar (c :: rest) = some (c, rest) := if_neg h

/-- The quotes of a string. -/
def Quote (q : CodePoint) : Prop := q = apostrophe ∨ q = ch '"'

theorem quote_quoteOf (s : List CodePoint) : Quote (quoteOf s) := by
  unfold quoteOf
  split_ifs
  · exact .inr rfl
  · exact .inl rfl

section
variable {printable : CodePoint → Bool} {q : CodePoint}

theorem readChar_charRepr (hq : Quote q) (c : CodePoint) (rest : List CodePoint) :
    readChar (charRepr printable q c ++ rest) = some (c, rest) := by
  unfold charRepr
  split_ifs with hself htab hline hreturn hcontrol hprint
  · refine readChar_backslash rest ?_
    rcases hself with rfl | rfl
    · exact hq.imp_right .inl
    · exact .inr (.inr rfl)
  · exact congrArg (fun c => some (c, rest)) (Fin.ext htab.symm)
  · exact congrArg (fun c => some (c, rest)) (Fin.ext hline.symm)
  · exact congrArg (fun c => some (c, rest)) (Fin.ext hreturn.symm)
  · exact readChar_hexEscape c rest
  · exact readChar_self rest fun h => hself (.inr h)
  · exact readChar_hexEscape c rest

/-- The text of a character is never taken for the closing quote. -/
theorem charRepr_ne_quote (hq : Quote q) (c : CodePoint) (rest tail : List CodePoint) :
    charRepr printable q c ++ rest ≠ q :: tail := by
  have hback : ch '\\' ≠ q := by
    rcases hq with rfl | rfl <;> decide
  have hlit : ∀ (text : List CodePoint), text.head? = some (ch '\\') →
      text ++ rest ≠ q :: tail := by
    intro text htext h
    cases text with
    | nil => cases htext
    | cons d text =>
      have hd := (List.cons.inj h).1
      exact hback ((Option.some.inj htext).symm.trans hd)
  unfold charRepr hexEscape unicodeEscape
  split_ifs with hself
  all_goals first | exact hlit _ rfl | exact fun h => hself (.inl (List.cons.inj h).1)

theorem body_injective (hq : Quote q) {s t : List CodePoint} {a b : List CodePoint}
    (h : s.flatMap (charRepr printable q) ++ q :: a = t.flatMap (charRepr printable q) ++ q :: b) :
    s = t ∧ a = b := by
  induction s generalizing t with
  | nil =>
    cases t with
    | nil => exact ⟨rfl, (List.cons.inj h).2⟩
    | cons d t =>
      rw [List.flatMap_cons, List.append_assoc] at h
      exact absurd h.symm (charRepr_ne_quote hq d _ _)
  | cons c s ih =>
    cases t with
    | nil =>
      rw [List.flatMap_cons, List.append_assoc] at h
      exact absurd h (charRepr_ne_quote hq c _ _)
    | cons d t =>
      rw [List.flatMap_cons, List.flatMap_cons, List.append_assoc, List.append_assoc] at h
      have hread := congrArg readChar h
      rw [readChar_charRepr hq, readChar_charRepr hq] at hread
      obtain ⟨rfl, hrest⟩ := Prod.mk.inj (Option.some.inj hread)
      obtain ⟨rfl, hab⟩ := ih hrest
      exact ⟨rfl, hab⟩

/-- The text of a string determines it, whatever follows. -/
theorem strRepr_injective {s t : List CodePoint} {a b : List CodePoint}
    (h : strRepr printable s ++ a = strRepr printable t ++ b) : s = t ∧ a = b := by
  unfold strRepr at h
  rw [List.cons_append, List.cons_append, List.append_assoc, List.append_assoc] at h
  obtain ⟨hquote, hbody⟩ := List.cons.inj h
  rw [← hquote] at hbody
  exact body_injective (quote_quoteOf s) hbody

end

inductive Kind
  | none | bool | number | text | list | dict
  deriving DecidableEq

def kindOf : Json → Kind
  | .null => .none
  | .bool _ => .bool
  | .int _ => .number
  | .float _ => .number
  | .str _ => .text
  | .arr _ => .list
  | .obj _ => .dict

/-- The kind of a value by the first character of its text. -/
def kindOfChar (c : CodePoint) : Option Kind :=
  if isDigit c ∨ c = ch '-' ∨ c = ch 'i' ∨ c = ch 'n' then some .number
  else if c = ch 'N' then some .none
  else if c = ch 'T' ∨ c = ch 'F' then some .bool
  else if c = apostrophe ∨ c = ch '"' then some .text
  else if c = ch '[' then some .list
  else if c = ch '{' then some .dict
  else none

theorem kindOfChar_signed {c : CodePoint} {text : List CodePoint} (negative : Bool)
    (h : isDigit c = true) :
    ∃ d rest, signed negative (c :: text) = d :: rest ∧ kindOfChar d = some .number := by
  cases negative with
  | true => exact ⟨ch '-', c :: text, rfl, by decide⟩
  | false => exact ⟨c, text, rfl, if_pos (.inl h)⟩

theorem intRepr_of_toOption {n : ℤ} {text : List CodePoint}
    (h : (intRepr n).toOption = some text) : intRepr n = .ok text := by
  cases hn : intRepr n with
  | error e =>
    rw [hn] at h
    cases h
  | ok t =>
    rw [hn] at h
    exact congrArg Except.ok (Option.some.inj h)

section
variable {printable : CodePoint → Bool}

theorem kindOfChar_head {v : Json} {text : List CodePoint} (h : valueRepr printable v = some text) :
    ∃ c rest, text = c :: rest ∧ kindOfChar c = some (kindOf v) := by
  cases v with
  | null =>
    obtain rfl := Option.some.inj h
    exact ⟨ch 'N', _, rfl, by decide⟩
  | bool b =>
    obtain rfl := Option.some.inj h
    cases b with
    | false => exact ⟨ch 'F', _, rfl, by decide⟩
    | true => exact ⟨ch 'T', _, rfl, by decide⟩
  | int n =>
    obtain rfl := intRepr_signed (intRepr_of_toOption h)
    have hnumeral := numeral_digitChars n.natAbs
    obtain ⟨d, tail, hd⟩ := List.exists_cons_of_ne_nil hnumeral.ne_nil
    rw [hd]
    exact kindOfChar_signed _ (hnumeral.digits d (by rw [hd]; simp))
  | float x =>
    obtain rfl := Option.some.inj h
    cases x with
    | nan => exact ⟨ch 'n', _, rfl, by decide⟩
    | infinity negative =>
      cases negative with
      | true => exact ⟨ch '-', _, rfl, by decide⟩
      | false => exact ⟨ch 'i', _, rfl, by decide⟩
    | finite x =>
      obtain ⟨c, tail, htext, hc⟩ := finiteRepr_digit x
      rw [floatRepr, htext]
      exact kindOfChar_signed _ hc
  | str s =>
    obtain rfl := Option.some.inj h
    refine ⟨quoteOf s, _, rfl, ?_⟩
    rcases quote_quoteOf s with hq | hq <;> rw [hq] <;> rfl
  | arr items =>
    obtain ⟨texts, -, rfl⟩ := Option.map_eq_some_iff.mp h
    exact ⟨ch '[', _, rfl, rfl⟩
  | obj items =>
    obtain ⟨texts, -, rfl⟩ := Option.map_eq_some_iff.mp h
    exact ⟨ch '{', _, rfl, rfl⟩

/-- What follows an item of a list or of an object. -/
def Ends (s : List CodePoint) : Prop := ∀ c ∈ s.head?, c = ch ',' ∨ c = ch ']' ∨ c = ch '}'

theorem Ends.follows {s : List CodePoint} (h : Ends s) : Follows s := by
  intro c hc
  rcases h c hc with rfl | rfl | rfl <;> decide

/-- The text of the thing determines it and where it ends. -/
def Determines {α : Type} (write : α → Option (List CodePoint)) (x : α) : Prop :=
  ∀ y text text' s t, write x = some text → write y = some text' → Ends s → Ends t →
    text ++ s = text' ++ t → x = y ∧ s = t

/-- No text starts as a list or an object ends. -/
def NeverCloses {α : Type} (write : α → Option (List CodePoint)) : Prop :=
  ∀ x text, write x = some text → ∃ c rest, text = c :: rest ∧ c ≠ ch ']' ∧ c ≠ ch '}'

/-- The items after the first, and the closing bracket. -/
def tailText (close : CodePoint) (rest : List CodePoint) : List (List CodePoint) → List CodePoint
  | [] => close :: rest
  | text :: texts => lit ", " ++ (text ++ tailText close rest texts)

theorem joinTexts_cons (close : CodePoint) (rest text : List CodePoint)
    (texts : List (List CodePoint)) :
    joinTexts (text :: texts) ++ close :: rest = text ++ tailText close rest texts := by
  induction texts generalizing text with
  | nil => rfl
  | cons next texts ih =>
    rw [joinTexts, List.append_assoc, List.append_assoc, ih, tailText]
    simp

section
variable {α : Type} {write : α → Option (List CodePoint)} {close : CodePoint}

theorem ends_tailText (hclose : close = ch ']' ∨ close = ch '}') (rest : List CodePoint)
    (texts : List (List CodePoint)) : Ends (tailText close rest texts) := by
  intro c hc
  cases texts with
  | nil =>
    obtain rfl : close = c := by simpa [tailText] using hc
    exact .inr hclose
  | cons text texts =>
    obtain rfl := Option.some.inj (show some (ch ',') = some c from hc)
    exact .inl rfl

theorem mapM_cons_eq_some {x : α} {xs : List α} {texts : List (List CodePoint)}
    (h : (x :: xs).mapM write = some texts) :
    ∃ text texts', write x = some text ∧ xs.mapM write = some texts' ∧ texts = text :: texts' := by
  rw [List.mapM_cons] at h
  obtain ⟨text, htext, h⟩ := Option.bind_eq_some_iff.mp h
  obtain ⟨texts', htexts, h⟩ := Option.bind_eq_some_iff.mp h
  exact ⟨text, texts', htext, htexts, (Option.some.inj h).symm⟩

theorem tailText_injective (hclose : close = ch ']' ∨ close = ch '}') {xs ys : List α}
    (hxs : ∀ x ∈ xs, Determines write x) {texts texts' : List (List CodePoint)}
    (hx : xs.mapM write = some texts) (hy : ys.mapM write = some texts') {s t : List CodePoint}
    (h : tailText close s texts = tailText close t texts') : xs = ys ∧ s = t := by
  have hcomma : close ≠ ch ',' := by
    rcases hclose with rfl | rfl <;> decide
  induction xs generalizing ys texts texts' with
  | nil =>
    obtain rfl := Option.some.inj hx
    cases ys with
    | nil =>
      obtain rfl := Option.some.inj hy
      exact ⟨rfl, (List.cons.inj h).2⟩
    | cons y ys =>
      obtain ⟨text, rest, -, -, rfl⟩ := mapM_cons_eq_some hy
      exact absurd (List.cons.inj h).1 hcomma
  | cons x xs ih =>
    obtain ⟨text, rest, htext, hrest, rfl⟩ := mapM_cons_eq_some hx
    cases ys with
    | nil =>
      obtain rfl := Option.some.inj hy
      exact absurd (List.cons.inj h).1.symm hcomma
    | cons y ys =>
      obtain ⟨text', rest', htext', hrest', rfl⟩ := mapM_cons_eq_some hy
      obtain ⟨rfl, htail⟩ := hxs x (by simp) y text text' _ _ htext htext'
        (ends_tailText hclose s rest) (ends_tailText hclose t rest')
        (List.append_cancel_left h)
      obtain ⟨rfl, hst⟩ := ih (fun z hz => hxs z (by simp [hz])) hrest hrest' htail
      exact ⟨rfl, hst⟩

/-- The text of a list determines its items, if the text of each item does. -/
theorem joinTexts_injective (hclose : close = ch ']' ∨ close = ch '}') (hstart : NeverCloses write)
    {xs ys : List α} (hxs : ∀ x ∈ xs, Determines write x) {texts texts' : List (List CodePoint)}
    (hx : xs.mapM write = some texts) (hy : ys.mapM write = some texts') {s t : List CodePoint}
    (h : joinTexts texts ++ close :: s = joinTexts texts' ++ close :: t) : xs = ys ∧ s = t := by
  have hfirst : ∀ (z : α) (text : List CodePoint), write z = some text → ∀ a b : List CodePoint,
      close :: a ≠ text ++ b := by
    rintro z text hz a b heq
    obtain ⟨c, rest, rfl, hbracket, hbrace⟩ := hstart z text hz
    obtain rfl := (List.cons.inj heq).1
    rcases hclose with rfl | rfl
    · exact hbracket rfl
    · exact hbrace rfl
  cases xs with
  | nil =>
    obtain rfl := Option.some.inj hx
    cases ys with
    | nil =>
      obtain rfl := Option.some.inj hy
      exact ⟨rfl, (List.cons.inj h).2⟩
    | cons y ys =>
      obtain ⟨text, rest, htext, -, rfl⟩ := mapM_cons_eq_some hy
      rw [joinTexts_cons] at h
      exact absurd h (hfirst y text htext _ _)
  | cons x xs =>
    obtain ⟨text, rest, htext, hrest, rfl⟩ := mapM_cons_eq_some hx
    rw [joinTexts_cons] at h
    cases ys with
    | nil =>
      obtain rfl := Option.some.inj hy
      exact absurd h.symm (hfirst x text htext _ _)
    | cons y ys =>
      obtain ⟨text', rest', htext', hrest', rfl⟩ := mapM_cons_eq_some hy
      rw [joinTexts_cons] at h
      obtain ⟨rfl, htail⟩ := hxs x (by simp) y text text' _ _ htext htext'
        (ends_tailText hclose s rest) (ends_tailText hclose t rest') h
      obtain ⟨rfl, hst⟩ := tailText_injective hclose (fun z hz => hxs z (by simp [hz])) hrest
        hrest' htail
      exact ⟨rfl, hst⟩

end

/-- The float is infinite or NaN. -/
def NotFinite (x : Float64) : Prop := x = .nan ∨ ∃ negative, x = .infinity negative

/-- A number is read by the scanner, unless it is infinite or NaN. -/
theorem scanNumber_valueRepr {v : Json} {text : List CodePoint} (hkind : kindOf v = .number)
    (h : valueRepr printable v = some text) :
    (∀ s, Follows s → scanNumber (text ++ s) = .ok (v, s)) ∨
      ∃ x, v = .float x ∧ NotFinite x ∧
        ∀ s : List CodePoint, scanNumber (text ++ s) = .error .malformed := by
  cases v with
  | int n => exact .inl fun s hs => scanNumber_intRepr (intRepr_of_toOption h) hs
  | float x =>
    obtain rfl := Option.some.inj h
    cases x with
    | nan => exact .inr ⟨_, rfl, .inl rfl, fun s => rfl⟩
    | infinity negative =>
      refine .inr ⟨_, rfl, .inr ⟨negative, rfl⟩, ?_⟩
      cases negative with
      | true => exact fun s => rfl
      | false => exact fun s => rfl
    | finite x => exact .inl fun s hs => scanNumber_finiteRepr x hs
  | _ => cases hkind

theorem floatRepr_injective {x y : Float64} {s t : List CodePoint}
    (hx : NotFinite x) (hy : NotFinite y) (h : floatRepr x ++ s = floatRepr y ++ t) :
    x = y ∧ s = t := by
  have hhead : ∀ {a b : CodePoint} {l r : List CodePoint}, a :: l = b :: r → a ≠ b → False :=
    fun h hne => hne (List.cons.inj h).1
  rcases hx with rfl | ⟨p, rfl⟩
  · rcases hy with rfl | ⟨n, rfl⟩
    · exact ⟨rfl, List.append_cancel_left h⟩
    · cases n with
      | true => exact (hhead h (by decide)).elim
      | false => exact (hhead h (by decide)).elim
  · rcases hy with rfl | ⟨n, rfl⟩
    · cases p with
      | true => exact (hhead h (by decide)).elim
      | false => exact (hhead h (by decide)).elim
    · cases p with
      | true =>
        cases n with
        | true => exact ⟨rfl, List.append_cancel_left h⟩
        | false => exact (hhead h (by decide)).elim
      | false =>
        cases n with
        | true => exact (hhead h (by decide)).elim
        | false => exact ⟨rfl, List.append_cancel_left h⟩

theorem determines_number {v : Json} (hkind : kindOf v = .number) :
    ∀ w text text' s t, kindOf w = .number → valueRepr printable v = some text →
      valueRepr printable w = some text' → Ends s → Ends t → text ++ s = text' ++ t →
      v = w ∧ s = t := by
  intro w text text' s t hw hv hw' hs ht h
  rcases scanNumber_valueRepr hkind hv with hv' | ⟨x, rfl, hx, hscan⟩
  · have hread := hv' s hs.follows
    rw [h] at hread
    rcases scanNumber_valueRepr hw hw' with hw'' | ⟨y, -, -, hscan'⟩
    · rw [hw'' t ht.follows] at hread
      obtain ⟨rfl, rfl⟩ := Prod.mk.inj (Except.ok.inj hread)
      exact ⟨rfl, rfl⟩
    · rw [hscan' t] at hread
      cases hread
  · have hread := hscan s
    rw [h] at hread
    rcases scanNumber_valueRepr hw hw' with hw'' | ⟨y, rfl, hy, -⟩
    · rw [hw'' t ht.follows] at hread
      cases hread
    · obtain rfl := Option.some.inj hv
      obtain rfl := Option.some.inj hw'
      obtain ⟨rfl, hst⟩ := floatRepr_injective hx hy h
      exact ⟨rfl, hst⟩

/-- The text of a member of an object. -/
def memberRepr (printable : CodePoint → Bool) (member : PyStr × Json) : Option (List CodePoint) :=
  (valueRepr printable member.2).map fun text => strRepr printable member.1 ++ lit ": " ++ text

theorem itemsRepr_eq (items : List Json) :
    itemsRepr printable items = items.mapM (valueRepr printable) := by
  induction items with
  | nil => rfl
  | cons item rest ih =>
    rw [itemsRepr, List.mapM_cons, ih]
    rfl

theorem membersRepr_eq (items : List (PyStr × Json)) :
    membersRepr printable items = items.mapM (memberRepr printable) := by
  induction items with
  | nil => rfl
  | cons item rest ih =>
    obtain ⟨key, value⟩ := item
    rw [membersRepr, List.mapM_cons, ih, memberRepr]
    cases valueRepr printable value <;> rfl

theorem neverCloses_valueRepr : NeverCloses (valueRepr printable) := by
  intro v text h
  obtain ⟨c, rest, rfl, hkind⟩ := kindOfChar_head h
  refine ⟨c, rest, rfl, ?_, ?_⟩
  · rintro rfl
    exact absurd hkind (by rw [show kindOfChar (ch ']') = none by decide]; simp)
  · rintro rfl
    exact absurd hkind (by rw [show kindOfChar (ch '}') = none by decide]; simp)

theorem neverCloses_memberRepr : NeverCloses (memberRepr printable) := by
  intro member text h
  obtain ⟨tail, -, rfl⟩ := Option.map_eq_some_iff.mp h
  refine ⟨quoteOf member.1, _, rfl, ?_⟩
  rcases quote_quoteOf member.1 with hq | hq <;> rw [hq] <;> decide

theorem determines_member {member : PyStr × Json}
    (h : Determines (valueRepr printable) member.2) : Determines (memberRepr printable) member := by
  intro other text text' s t hmember hother hs ht heq
  obtain ⟨value, hvalue, rfl⟩ := Option.map_eq_some_iff.mp hmember
  obtain ⟨value', hvalue', rfl⟩ := Option.map_eq_some_iff.mp hother
  rw [List.append_assoc, List.append_assoc, List.append_assoc, List.append_assoc] at heq
  obtain ⟨hkey, htail⟩ := strRepr_injective heq
  obtain ⟨hval, hst⟩ := h other.2 value value' s t hvalue hvalue' hs ht
    (List.append_cancel_left htail)
  exact ⟨Prod.ext hkey hval, hst⟩

/-- Texts that start alike are of values of one kind. -/
theorem kindOf_eq {v w : Json} {text text' s t : List CodePoint}
    (hv : valueRepr printable v = some text) (hw : valueRepr printable w = some text')
    (h : text ++ s = text' ++ t) : kindOf v = kindOf w := by
  obtain ⟨c, rest, rfl, hc⟩ := kindOfChar_head hv
  obtain ⟨d, rest', rfl, hd⟩ := kindOfChar_head hw
  obtain rfl := (List.cons.inj h).1
  exact Option.some.inj (hc.symm.trans hd)

/-- The text of a value determines it, and where it ends. -/
theorem determines_value (v : Json) : Determines (valueRepr printable) v := by
  induction v using Json.induct with
  | null =>
    intro w text text' s t hv hw hs ht h
    have hkind := kindOf_eq hv hw h
    cases w with
    | null =>
      obtain rfl := Option.some.inj hv
      obtain rfl := Option.some.inj hw
      exact ⟨rfl, List.append_cancel_left h⟩
    | _ => cases hkind
  | bool b =>
    intro w text text' s t hv hw hs ht h
    have hkind := kindOf_eq hv hw h
    cases w with
    | bool b' =>
      obtain rfl := Option.some.inj hv
      obtain rfl := Option.some.inj hw
      cases b <;> cases b'
      · exact ⟨rfl, List.append_cancel_left h⟩
      · exact absurd (List.cons.inj h).1 (by decide)
      · exact absurd (List.cons.inj h).1 (by decide)
      · exact ⟨rfl, List.append_cancel_left h⟩
    | _ => cases hkind
  | int n =>
    intro w text text' s t hv hw hs ht h
    exact determines_number rfl w text text' s t (kindOf_eq hv hw h).symm hv hw hs ht h
  | float x =>
    intro w text text' s t hv hw hs ht h
    exact determines_number rfl w text text' s t (kindOf_eq hv hw h).symm hv hw hs ht h
  | str a =>
    intro w text text' s t hv hw hs ht h
    have hkind := kindOf_eq hv hw h
    cases w with
    | str b =>
      obtain rfl := Option.some.inj hv
      obtain rfl := Option.some.inj hw
      obtain ⟨rfl, hst⟩ := strRepr_injective h
      exact ⟨rfl, hst⟩
    | _ => cases hkind
  | arr items ih =>
    intro w text text' s t hv hw hs ht h
    have hkind := kindOf_eq hv hw h
    cases w with
    | arr others =>
      obtain ⟨texts, htexts, rfl⟩ := Option.map_eq_some_iff.mp hv
      obtain ⟨texts', htexts', rfl⟩ := Option.map_eq_some_iff.mp hw
      rw [itemsRepr_eq] at htexts htexts'
      rw [List.cons_append, List.cons_append, List.append_assoc, List.append_assoc] at h
      obtain ⟨rfl, hst⟩ := joinTexts_injective (.inl rfl) neverCloses_valueRepr ih htexts htexts'
        (List.cons.inj h).2
      exact ⟨rfl, hst⟩
    | _ => cases hkind
  | obj items ih =>
    intro w text text' s t hv hw hs ht h
    have hkind := kindOf_eq hv hw h
    cases w with
    | obj others =>
      obtain ⟨texts, htexts, rfl⟩ := Option.map_eq_some_iff.mp hv
      obtain ⟨texts', htexts', rfl⟩ := Option.map_eq_some_iff.mp hw
      rw [membersRepr_eq] at htexts htexts'
      rw [List.cons_append, List.cons_append, List.append_assoc, List.append_assoc] at h
      obtain ⟨rfl, hst⟩ := joinTexts_injective (.inr rfl) neverCloses_memberRepr
        (fun member hmember => determines_member (ih member hmember)) htexts htexts'
        (List.cons.inj h).2
      exact ⟨rfl, hst⟩
    | _ => cases hkind

/-- `repr` is injective. -/
theorem valueRepr_injective {v w : Json} {text : List CodePoint}
    (hv : valueRepr printable v = some text) (hw : valueRepr printable w = some text) : v = w :=
  (determines_value v w text text [] [] hv hw (by simp [Ends]) (by simp [Ends]) rfl).1

/-- `float(repr(x))` -/
theorem floatOfStr_floatRepr (x : Float64) : floatOfStr (floatRepr x) = some x := by
  cases x with
  | nan => decide
  | infinity negative => cases negative <;> decide
  | finite x => exact floatOfStr_finiteRepr x

/-- Of the values other than strings, only numbers have the text of a number. -/
theorem floatOfStr_valueRepr {v : Json} {text : List CodePoint} {x : Float64}
    (htext : kindOf v ≠ .text) (h : valueRepr printable v = some text)
    (hx : floatOfStr text = some x) :
    (∃ n, v = .int n ∧ x = ofDecimal (decide (n < 0)) n.natAbs 0) ∨ v = .float x := by
  cases v with
  | null =>
    obtain rfl := Option.some.inj h
    rw [show floatOfStr (lit "None") = none by decide] at hx
    cases hx
  | bool b =>
    obtain rfl := Option.some.inj h
    rw [show floatOfStr (lit (if b then "True" else "False")) = none by cases b <;> decide] at hx
    cases hx
  | int n =>
    rw [floatOfStr_intRepr (intRepr_of_toOption h)] at hx
    exact .inl ⟨n, rfl, (Option.some.inj hx).symm⟩
  | float y =>
    obtain rfl := Option.some.inj h
    rw [floatOfStr_floatRepr] at hx
    exact .inr (congrArg Json.float (Option.some.inj hx))
  | str s => exact absurd rfl htext
  | arr items =>
    obtain ⟨texts, -, rfl⟩ := Option.map_eq_some_iff.mp h
    rw [floatOfStr_opening (.inl rfl)] at hx
    cases hx
  | obj items =>
    obtain ⟨texts, -, rfl⟩ := Option.map_eq_some_iff.mp h
    rw [floatOfStr_opening (.inr rfl)] at hx
    cases hx

end

end ExecutionEngine.PyRepr
