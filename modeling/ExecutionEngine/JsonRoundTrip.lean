import ExecutionEngine.JsonText

/-!
# What `json.loads` makes of the text of `json.dumps`

A decoded value nests at most as deeply as the decoder had room for, its integers
are not too long, and its objects have each key once. Every such value is written
to a text from which the decoder reads it back, as long as no string has a
surrogate.
-/
namespace ExecutionEngine.JsonRoundTrip
open Binary64 JsonDecoder JsonEncoder JsonText

theorem skipBlanks_of_not_blank {c : CodePoint} (h : isBlank c = false) (rest : List CodePoint) :
    skipBlanks (c :: rest) = c :: rest :=
  List.dropWhile_cons_of_neg (by simp [h])

/-- The first character of a value. -/
def Starts (text : List CodePoint) : Prop :=
  ∃ c rest, text = c :: rest ∧ isBlank c = false ∧ c ≠ ch ']' ∧ c ≠ ch '}' ∧ c.val ≠ 0xFEFF

theorem Starts.append {text : List CodePoint} (h : Starts text) (rest : List CodePoint) :
    Starts (text ++ rest) := by
  obtain ⟨c, tail, rfl, hc⟩ := h
  exact ⟨c, tail ++ rest, rfl, hc⟩

theorem Starts.skipBlanks {text : List CodePoint} (h : Starts text) : skipBlanks text = text := by
  obtain ⟨c, rest, rfl, hc, -⟩ := h
  exact skipBlanks_of_not_blank hc rest

/-- The scanner reads the value from the text, whatever follows. -/
def Scans (scan : PyStr → Except DecodeError (Scanned Json)) (text : List CodePoint) (v : Json) :
    Prop := ∀ rest, Follows rest → scan (text ++ rest) = .ok (v, rest)

theorem follows_of_eq {c : CodePoint} (rest : List CodePoint)
    (h : isDigit c = false ∧ c ≠ ch '.' ∧ c ≠ ch 'e' ∧ c ≠ ch 'E') : Follows (c :: rest) := by
  intro d hd
  obtain rfl : c = d := by simpa using hd
  exact h

theorem follows_close (rest : List CodePoint) :
    Follows (ch ']' :: rest) ∧ Follows (ch '}' :: rest) ∧ Follows (ch ',' :: rest) :=
  ⟨follows_of_eq rest (by decide), follows_of_eq rest (by decide), follows_of_eq rest (by decide)⟩

theorem length_le_joinTexts {texts : List (List CodePoint)} (h : ∀ text ∈ texts, Starts text) :
    texts.length ≤ (joinTexts texts).length := by
  induction texts with
  | nil => exact Nat.zero_le _
  | cons text texts ih =>
    obtain ⟨c, rest, rfl, -⟩ := h text (by simp)
    have hrest := ih fun t ht => h t (by simp [ht])
    cases texts with
    | nil => simp [joinTexts]
    | cons next texts =>
      simp only [joinTexts, List.length_append, List.length_cons] at hrest ⊢
      omega

theorem starts_joinTexts {text : List CodePoint} (h : Starts text)
    (texts : List (List CodePoint)) : Starts (joinTexts (text :: texts)) := by
  cases texts with
  | nil => exact h
  | cons next texts => exact (h.append _).append _

theorem joinTexts_next (text next : List CodePoint) (texts : List (List CodePoint))
    (rest : List CodePoint) : joinTexts (text :: next :: texts) ++ rest =
      text ++ ch ',' :: ch ' ' :: (joinTexts (next :: texts) ++ rest) := by
  simp [joinTexts, lit, PyStr.ofString, ch]

/-- The blank after a comma is passed over. -/
theorem skipBlanks_joinTexts {text : List CodePoint} (h : Starts text)
    (texts : List (List CodePoint)) (rest : List CodePoint) :
    skipBlanks (ch ' ' :: (joinTexts (text :: texts) ++ rest)) =
      joinTexts (text :: texts) ++ rest :=
  ((starts_joinTexts h texts).append rest).skipBlanks

section
variable {scan : PyStr → Except DecodeError (Scanned Json)}

theorem scanItems_last {s rest : PyStr} {value : Json} (h : scan s = .ok (value, ch ']' :: rest))
    (turns : ℕ) (done : List Json) :
    scanItems scan (turns + 1) done s = .ok (done ++ [value], rest) := by
  rw [scanItems, h]
  rfl

theorem scanItems_next {s rest : PyStr} {value : Json} (h : scan s = .ok (value, ch ',' :: rest))
    (turns : ℕ) (done : List Json) :
    scanItems scan (turns + 1) done s =
      scanItems scan turns (done ++ [value]) (skipBlanks rest) := by
  rw [scanItems, h]
  rfl

theorem scanItems_joinTexts {texts : List (List CodePoint)} {items : List Json}
    (h : List.Forall₂ (Scans scan) texts items) (hstarts : ∀ text ∈ texts, Starts text)
    (hne : texts ≠ []) {turns : ℕ} (hturns : texts.length ≤ turns) (done : List Json)
    (rest : List CodePoint) :
    scanItems scan turns done (joinTexts texts ++ ch ']' :: rest) = .ok (done ++ items, rest) := by
  induction h generalizing turns done with
  | nil => exact absurd rfl hne
  | @cons text value texts items hscan hmore ih =>
    obtain ⟨turns, rfl⟩ : ∃ n, turns = n + 1 := ⟨turns - 1, by simp at hturns; omega⟩
    cases hmore with
    | nil => exact scanItems_last (hscan (ch ']' :: rest) (follows_close rest).1) turns done
    | @cons next value' texts items hnext hmore =>
      have hblank := skipBlanks_joinTexts (hstarts next (by simp)) texts (ch ']' :: rest)
      have hvalue := hscan _
        (follows_close (ch ' ' :: (joinTexts (next :: texts) ++ ch ']' :: rest))).2.2
      have hrest := ih (fun t ht => hstarts t (by simp [ht])) (by simp) (by simpa using hturns)
        (done ++ [value])
      rw [joinTexts_next]
      refine (scanItems_next hvalue turns done).trans ?_
      rw [hblank, hrest, List.append_assoc, List.singleton_append]

theorem scanArray_of_items {c : CodePoint} {s rest : List CodePoint} {items : List Json}
    (hblank : isBlank c = false) (hclose : c ≠ ch ']')
    (h : scanItems scan (c :: s).length [] (c :: s) = .ok (items, rest)) :
    scanArray scan (c :: s) = .ok (.arr items, rest) := by
  have hskip := skipBlanks_of_not_blank hblank s
  unfold scanArray
  rw [hskip]
  refine (if_neg hclose).trans ?_
  exact congrArg (Except.map _) h

theorem scanArray_joinTexts {texts : List (List CodePoint)} {items : List Json}
    (h : List.Forall₂ (Scans scan) texts items) (hstarts : ∀ text ∈ texts, Starts text)
    (rest : List CodePoint) :
    scanArray scan (joinTexts texts ++ ch ']' :: rest) = .ok (.arr items, rest) := by
  cases texts with
  | nil =>
    cases h
    rfl
  | cons text texts =>
    have hlength := length_le_joinTexts hstarts
    have hitems := scanItems_joinTexts h hstarts (by simp)
      (show (text :: texts).length ≤ (joinTexts (text :: texts) ++ ch ']' :: rest).length by
        rw [List.length_append]; omega) [] rest
    obtain ⟨c, tail, hc, hblank, hclose, -, -⟩ :=
      (starts_joinTexts (hstarts text (by simp)) texts).append (ch ']' :: rest)
    rw [hc] at hitems ⊢
    exact scanArray_of_items hblank hclose hitems

/-- The text of a member with a key and the text of its value. -/
def memberText (ensureAscii : Bool) (key : PyStr) (text : List CodePoint) : List CodePoint :=
  quote ensureAscii key ++ lit ": " ++ text

theorem starts_memberText (ensureAscii : Bool) (key : PyStr) (text : List CodePoint) :
    Starts (memberText ensureAscii key text) :=
  ⟨ch '"', _, rfl, by decide⟩

theorem scanMember_of {key s s' rest : PyStr} {value : Json}
    (hkey : scanString s = .ok (key, ch ':' :: s'))
    (hvalue : scan (skipBlanks s') = .ok (value, rest)) :
    scanMember scan (ch '"' :: s) = .ok ((key, value), rest) := by
  have hcolon : skipBlanks (ch ':' :: s') = ch ':' :: s' := rfl
  refine (scanMember.eq_def scan _).trans ?_
  simp only [if_true, hkey, bind, Except.bind, hcolon, hvalue]

theorem scanMember_memberText (ensureAscii : Bool) {key text : List CodePoint} {value : Json}
    (hkey : Unpaired key) (hstart : Starts text) (hscan : Scans scan text value)
    {rest : List CodePoint} (hrest : Follows rest) :
    scanMember scan (memberText ensureAscii key text ++ rest) = .ok ((key, value), rest) := by
  have hstring := scanString_quote ensureAscii hkey (ch ':' :: ch ' ' :: (text ++ rest))
  have hblank : skipBlanks (ch ' ' :: (text ++ rest)) = text ++ rest :=
    (hstart.append rest).skipBlanks
  have htext : memberText ensureAscii key text ++ rest =
      ch '"' :: (List.flatMap (escape ensureAscii) key ++
        ch '"' :: ch ':' :: ch ' ' :: (text ++ rest)) := by
    simp [memberText, quote, lit, PyStr.ofString, ch]
  have hvalue := hscan rest hrest
  rw [← hblank] at hvalue
  rw [htext]
  exact scanMember_of hstring hvalue

theorem insert_of_not_mem {d : Dict} {key : PyStr} (h : key ∉ d.map Prod.fst) (value : Json) :
    JsonDecoder.insert d key value = d ++ [(key, value)] := by
  have hcontains : d.contains key = false := by
    simp only [Dict.contains, Dict.lookup, Option.isSome_map, Option.isSome_eq_false_iff,
      Option.isNone_iff_eq_none, List.find?_eq_none, decide_eq_true_eq]
    intro item hitem hkey
    exact h (List.mem_map.mpr ⟨item, hitem, hkey⟩)
  rw [JsonDecoder.insert, hcontains]
  rfl

theorem scanMembers_last {s rest : PyStr} {key : PyStr} {value : Json}
    (h : scanMember scan s = .ok ((key, value), ch '}' :: rest)) (turns : ℕ) (d : Dict) :
    scanMembers scan (turns + 1) d s = .ok (JsonDecoder.insert d key value, rest) := by
  rw [scanMembers, h]
  rfl

theorem scanMembers_next {s rest : PyStr} {key : PyStr} {value : Json}
    (h : scanMember scan s = .ok ((key, value), ch ',' :: rest)) (turns : ℕ) (d : Dict) :
    scanMembers scan (turns + 1) d s =
      scanMembers scan turns (JsonDecoder.insert d key value) (skipBlanks rest) := by
  rw [scanMembers, h]
  rfl

/-- The text of a member is read as the member. -/
def ScansMember (scan : PyStr → Except DecodeError (Scanned Json)) (text : List CodePoint)
    (item : PyStr × Json) : Prop :=
  ∀ rest, Follows rest → scanMember scan (text ++ rest) = .ok (item, rest)

theorem scanMembers_joinTexts {texts : List (List CodePoint)} {items : Dict}
    (h : List.Forall₂ (ScansMember scan) texts items) (hstarts : ∀ text ∈ texts, Starts text)
    (hne : texts ≠ []) {turns : ℕ} (hturns : texts.length ≤ turns) (d : Dict)
    (hkeys : ((d ++ items).map Prod.fst).Nodup) (rest : List CodePoint) :
    scanMembers scan turns d (joinTexts texts ++ ch '}' :: rest) = .ok (d ++ items, rest) := by
  induction h generalizing turns d with
  | nil => exact absurd rfl hne
  | @cons text item texts items hscan hmore ih =>
    obtain ⟨turns, rfl⟩ : ∃ n, turns = n + 1 := ⟨turns - 1, by simp at hturns; omega⟩
    have hinsert : JsonDecoder.insert d item.1 item.2 = d ++ [item] := by
      refine insert_of_not_mem (fun hmem => ?_) item.2
      rw [List.map_append, List.nodup_append] at hkeys
      exact hkeys.2.2 _ hmem item.1 (by simp) rfl
    cases hmore with
    | nil =>
      have hlast := scanMembers_last (hscan (ch '}' :: rest) (follows_close rest).2.1) turns d
      rw [hinsert] at hlast
      exact hlast
    | @cons next item' texts items hnext hmore =>
      have hblank := skipBlanks_joinTexts (hstarts next (by simp)) texts (ch '}' :: rest)
      have hitem := hscan _
        (follows_close (ch ' ' :: (joinTexts (next :: texts) ++ ch '}' :: rest))).2.2
      have hrest := ih (fun t ht => hstarts t (by simp [ht])) (by simp) (by simpa using hturns)
        (d ++ [item]) (by simpa using hkeys)
      rw [joinTexts_next]
      refine (scanMembers_next hitem turns d).trans ?_
      rw [hinsert, hblank, hrest, List.append_assoc, List.singleton_append]

theorem scanObject_of_members {c : CodePoint} {s rest : List CodePoint} {items : Dict}
    (hblank : isBlank c = false) (hclose : c ≠ ch '}')
    (h : scanMembers scan (c :: s).length [] (c :: s) = .ok (items, rest)) :
    scanObject scan (c :: s) = .ok (.obj items, rest) := by
  have hskip := skipBlanks_of_not_blank hblank s
  unfold scanObject
  rw [hskip]
  refine (if_neg hclose).trans ?_
  exact congrArg (Except.map _) h

theorem scanObject_joinTexts {texts : List (List CodePoint)} {items : Dict}
    (h : List.Forall₂ (ScansMember scan) texts items) (hstarts : ∀ text ∈ texts, Starts text)
    (hkeys : (items.map Prod.fst).Nodup) (rest : List CodePoint) :
    scanObject scan (joinTexts texts ++ ch '}' :: rest) = .ok (.obj items, rest) := by
  cases texts with
  | nil =>
    cases h
    rfl
  | cons text texts =>
    have hlength := length_le_joinTexts hstarts
    have hmembers := scanMembers_joinTexts h hstarts (by simp)
      (show (text :: texts).length ≤ (joinTexts (text :: texts) ++ ch '}' :: rest).length by
        rw [List.length_append]; omega) [] hkeys rest
    obtain ⟨c, tail, hc, hblank, -, hclose, -⟩ :=
      (starts_joinTexts (hstarts text (by simp)) texts).append (ch '}' :: rest)
    rw [hc] at hmembers ⊢
    exact scanObject_of_members hblank hclose hmembers

end

section
variable (number : Float64 → Prop) (text : PyStr → Prop)

/-- A value that nests at most so deeply, whose integers are not too long, whose objects
have each key once, and whose floats and strings pass the tests. -/
inductive Within : ℕ → Json → Prop
  | null {room : ℕ} : Within room .null
  | bool {room : ℕ} (b : Bool) : Within room (.bool b)
  | int {room : ℕ} {n : ℤ} (h : (digitChars n.natAbs).length ≤ intMaxStrDigits) :
    Within room (.int n)
  | float {room : ℕ} {x : Float64} (h : number x) : Within room (.float x)
  | str {room : ℕ} {s : PyStr} (h : text s) : Within room (.str s)
  | arr {room : ℕ} {items : List Json} (h : ∀ item ∈ items, Within room item) :
    Within (room + 1) (.arr items)
  | obj {room : ℕ} {items : List (PyStr × Json)} (hkeys : (items.map Prod.fst).Nodup)
    (htext : ∀ item ∈ items, text item.1) (h : ∀ item ∈ items, Within room item.2) :
    Within (room + 1) (.obj items)

end

/-- The string has no surrogate. -/
def PlainStr (s : List CodePoint) : Prop := ∀ c ∈ s, Plain c

/-- The floats that the encoder writes. -/
def Writable (style : Style) (x : Float64) : Prop := style.allowNan = true ∨ ∃ y, x = .finite y

/-- The value is written, and read again. -/
def Reread (style : Style) (room : ℕ) (v : Json) : Prop :=
  ∃ text, Starts text ∧ (∀ a, room ≤ a → dumps style v a = .ok text) ∧
    ∀ b, room ≤ b → Scans (scanOnce b) text v

theorem scans_literal {text : List CodePoint} {v : Json}
    (hstart : ∃ c rest, text = c :: rest ∧ c ≠ ch '"' ∧ c ≠ ch '{' ∧ c ≠ ch '[')
    (h : ∀ rest : List CodePoint, scanLiteral (text ++ rest) = some (v, rest)) (room : ℕ) :
    Scans (scanOnce room) text v := by
  intro rest hrest
  obtain ⟨c, tail, rfl, hquote, hbrace, hbracket⟩ := hstart
  refine (scanOnce.eq_def room _).trans ?_
  have hliteral := h rest
  rw [List.cons_append] at hliteral
  simp only [List.cons_append, if_neg hquote, if_neg hbrace, if_neg hbracket, hliteral]
  rfl

theorem scans_number {negative : Bool} {text : List CodePoint} {v : Json} (hne : text ≠ [])
    (hhead : ∀ c ∈ text.head?, isDigit c = true)
    (h : ∀ rest, Follows rest → scanNumber (signed negative text ++ rest) = .ok (v, rest))
    (room : ℕ) : Scans (scanOnce room) (signed negative text) v := by
  intro rest hrest
  have hnumber := h rest hrest
  have hliteral : scanLiteral (signed negative text ++ rest) = none := by
    rw [signed_append]
    refine scanLiteral_signed negative (by simp [hne]) ?_
    intro c hc
    cases text with
    | nil => exact absurd rfl hne
    | cons d text => exact hhead c hc
  obtain ⟨c, tail, htext, hquote, hbrace, hbracket⟩ : ∃ c tail, signed negative text ++ rest =
      c :: tail ∧ c ≠ ch '"' ∧ c ≠ ch '{' ∧ c ≠ ch '[' := by
    obtain ⟨c, tail, rfl⟩ := List.exists_cons_of_ne_nil hne
    have hne : ∀ d, isDigit d = false → c ≠ d := by
      rintro d hd rfl
      rw [hhead c rfl] at hd
      cases hd
    cases negative with
    | true => exact ⟨ch '-', c :: (tail ++ rest), rfl, by decide, by decide, by decide⟩
    | false =>
      exact ⟨c, tail ++ rest, rfl, hne _ (by decide), hne _ (by decide), hne _ (by decide)⟩
  rw [htext] at hliteral hnumber ⊢
  refine (scanOnce.eq_def room _).trans ?_
  simp only [if_neg hquote, if_neg hbrace, if_neg hbracket, hliteral]
  exact hnumber

theorem starts_signed (negative : Bool) {text : List CodePoint} (hne : text ≠ [])
    (hhead : ∀ c ∈ text.head?, isDigit c = true) : Starts (signed negative text) := by
  obtain ⟨c, tail, rfl⟩ := List.exists_cons_of_ne_nil hne
  have hdigit : isDigit c = true := hhead c rfl
  cases negative with
  | true => exact ⟨ch '-', c :: tail, rfl, by decide⟩
  | false =>
    refine ⟨c, tail, rfl, ?_, ?_, ?_, ?_⟩
    · rw [Bool.eq_false_iff]
      intro hblank
      simp only [isBlank, Bool.or_eq_true, decide_eq_true_eq] at hblank
      rcases hblank with ((rfl | rfl) | rfl) | rfl <;> exact absurd hdigit (by decide)
    · rintro rfl
      exact absurd hdigit (by decide)
    · rintro rfl
      exact absurd hdigit (by decide)
    · simp only [isDigit, Bool.and_eq_true, decide_eq_true_eq] at hdigit
      omega

theorem reread_number {style : Style} {room : ℕ} {v : Json} {negative : Bool}
    {text : List CodePoint} (hne : text ≠ []) (hhead : ∀ c ∈ text.head?, isDigit c = true)
    (hdumps : ∀ a, dumps style v a = .ok (signed negative text))
    (hscan : ∀ rest, Follows rest → scanNumber (signed negative text ++ rest) = .ok (v, rest)) :
    Reread style room v :=
  ⟨signed negative text, starts_signed negative hne hhead, fun a _ => hdumps a,
    fun b _ => scans_number hne hhead hscan b⟩

theorem reread_int {style : Style} {room : ℕ} {n : ℤ}
    (h : (digitChars n.natAbs).length ≤ intMaxStrDigits) : Reread style room (.int n) := by
  have hnumeral := numeral_digitChars n.natAbs
  have htext : intRepr n = .ok (signed (decide (n < 0)) (digitChars n.natAbs)) := by
    rw [intRepr, if_neg (by omega)]
    simp [signed]
  have hhead := head_append_of_digits hnumeral.digits hnumeral.ne_nil []
  rw [List.append_nil] at hhead
  exact reread_number hnumeral.ne_nil hhead (fun a => htext)
    fun rest hrest => scanNumber_intRepr htext hrest

/-- Without its sign, the text of a float begins with a digit. -/
theorem finiteRepr_digit (x : Finite) :
    ∃ c tail, finiteRepr x = signed x.negative (c :: tail) ∧ isDigit c = true := by
  have hnumeral := numeral_digitChars x.shortest.1
  obtain ⟨d, tail, hd⟩ := List.exists_cons_of_ne_nil hnumeral.ne_nil
  have hdigit : isDigit d = true := hnumeral.digits d (by rw [hd]; simp)
  have hpositional : ∀ point, ∃ c rest, positional (d :: tail) point = c :: rest ∧
      isDigit c = true := by
    intro point
    unfold positional
    split_ifs with hsmall hlarge
    · exact ⟨ch '0', _, rfl, by decide⟩
    · exact ⟨d, _, rfl, hdigit⟩
    · obtain ⟨n, hn⟩ : ∃ n, point.toNat = n + 1 := ⟨point.toNat - 1, by omega⟩
      rw [hn]
      exact ⟨d, _, rfl, hdigit⟩
  have hscientific : ∀ point, ∃ rest, scientific (d :: tail) point = d :: rest :=
    fun point => ⟨_, rfl⟩
  unfold finiteRepr
  rw [hd]
  dsimp only
  generalize hpoint : ((d :: tail).length : ℤ) + x.shortest.2 = point
  split_ifs with hnegative hshort hshort
  · obtain ⟨c, rest, htext, hc⟩ := hpositional point
    exact ⟨c, rest, by rw [htext]; simp [signed, hnegative], hc⟩
  · obtain ⟨rest, htext⟩ := hscientific point
    exact ⟨d, rest, by rw [htext]; simp [signed, hnegative], hdigit⟩
  · obtain ⟨c, rest, htext, hc⟩ := hpositional point
    exact ⟨c, rest, by rw [htext]; simp [signed, hnegative], hc⟩
  · obtain ⟨rest, htext⟩ := hscientific point
    exact ⟨d, rest, by rw [htext]; simp [signed, hnegative], hdigit⟩

theorem reread_finite (style : Style) (room : ℕ) (x : Finite) :
    Reread style room (.float (.finite x)) := by
  obtain ⟨c, tail, htext, hc⟩ := finiteRepr_digit x
  have hhead : ∀ d ∈ (c :: tail).head?, isDigit d = true := by
    intro d hd
    obtain rfl : c = d := by simpa using hd
    exact hc
  refine reread_number (by simp) hhead (fun a => congrArg Except.ok htext) fun rest hrest => ?_
  rw [← htext]
  exact scanNumber_finiteRepr x hrest

theorem reread_literal {style : Style} {room : ℕ} {v : Json} (text : List CodePoint)
    (hstart : ∃ c rest, text = c :: rest ∧
      (isBlank c = false ∧ c ≠ ch ']' ∧ c ≠ ch '}' ∧ c.val ≠ 0xFEFF) ∧
        c ≠ ch '"' ∧ c ≠ ch '{' ∧ c ≠ ch '[')
    (hdumps : ∀ a, dumps style v a = .ok text)
    (hscan : ∀ rest : List CodePoint, scanLiteral (text ++ rest) = some (v, rest)) :
    Reread style room v := by
  obtain ⟨c, rest, htext, hvalue, hkind⟩ := hstart
  exact ⟨text, ⟨c, rest, htext, hvalue⟩, fun a _ => hdumps a,
    fun b _ => scans_literal ⟨c, rest, htext, hkind⟩ hscan b⟩

theorem reread_float {style : Style} {room : ℕ} {x : Float64} (h : Writable style x) :
    Reread style room (.float x) := by
  cases x with
  | finite y => exact reread_finite style room y
  | nan =>
    have hallow : style.allowNan = true := h.resolve_right (by simp)
    refine reread_literal (lit "NaN") ⟨_, _, rfl, by decide⟩ (fun a => ?_) fun _ => rfl
    simp [dumps, floatText, hallow]
  | infinity negative =>
    have hallow : style.allowNan = true := h.resolve_right (by simp)
    cases negative with
    | true =>
      refine reread_literal (lit "-Infinity") ⟨_, _, rfl, by decide⟩ (fun a => ?_) fun _ => rfl
      simp [dumps, floatText, hallow]
    | false =>
      refine reread_literal (lit "Infinity") ⟨_, _, rfl, by decide⟩ (fun a => ?_) fun _ => rfl
      simp [dumps, floatText, hallow]

theorem reread_str (style : Style) (room : ℕ) {s : PyStr} (h : Unpaired s) :
    Reread style room (.str s) := by
  refine ⟨quote style.ensureAscii s, ⟨ch '"', _, rfl, by decide⟩, fun a _ => by simp [dumps], ?_⟩
  intro b _ rest _
  have hstring := scanString_quote style.ensureAscii h rest
  have htext : quote style.ensureAscii s ++ rest =
      ch '"' :: (List.flatMap (escape style.ensureAscii) s ++ ch '"' :: rest) := by
    simp [quote]
  rw [htext]
  refine (scanOnce.eq_def b _).trans ?_
  simp only [if_true, hstring]
  rfl

theorem dumpsItems_reread {style : Style} {room : ℕ} {items : List Json}
    (h : ∀ item ∈ items, Reread style room item) :
    ∃ texts, (∀ text ∈ texts, Starts text) ∧
      (∀ a, room ≤ a → dumpsItems style items a = .ok texts) ∧
      ∀ b, room ≤ b → List.Forall₂ (Scans (scanOnce b)) texts items := by
  induction items with
  | nil => exact ⟨[], by simp, fun a _ => by simp [dumpsItems], fun b _ => .nil⟩
  | cons item items ih =>
    obtain ⟨text, hstart, hdumps, hscan⟩ := h item (by simp)
    obtain ⟨texts, hstarts, hitems, hscans⟩ := ih fun i hi => h i (by simp [hi])
    refine ⟨text :: texts, ?_, fun a ha => ?_, fun b hb => .cons (hscan b hb) (hscans b hb)⟩
    · simpa [hstart] using hstarts
    · simp [dumpsItems, hdumps a ha, hitems a ha, bind, Except.bind]

theorem dumpsMembers_reread {style : Style} {room : ℕ} {items : List (PyStr × Json)}
    (hkeys : ∀ item ∈ items, Unpaired item.1) (h : ∀ item ∈ items, Reread style room item.2) :
    ∃ texts, (∀ text ∈ texts, Starts text) ∧
      (∀ a, room ≤ a → dumpsMembers style items a = .ok texts) ∧
      ∀ b, room ≤ b → List.Forall₂ (ScansMember (scanOnce b)) texts items := by
  induction items with
  | nil => exact ⟨[], by simp, fun a _ => by simp [dumpsMembers], fun b _ => .nil⟩
  | cons item items ih =>
    obtain ⟨key, value⟩ := item
    obtain ⟨text, hstart, hdumps, hscan⟩ := h (key, value) (by simp)
    obtain ⟨texts, hstarts, hitems, hscans⟩ :=
      ih (fun i hi => hkeys i (by simp [hi])) fun i hi => h i (by simp [hi])
    refine ⟨memberText style.ensureAscii key text :: texts, ?_, fun a ha => ?_, fun b hb =>
      .cons (fun rest hrest => ?_) (hscans b hb)⟩
    · simpa [starts_memberText] using hstarts
    · simp [dumpsMembers, hdumps a ha, hitems a ha, bind, Except.bind, memberText]
    · exact scanMember_memberText style.ensureAscii (hkeys (key, value) (by simp)) hstart
        (hscan b hb) hrest

/-- The induction follows the nesting of the value; every level takes one of the room. -/
theorem reread_of_within {style : Style} {text : PyStr → Prop} (htext : ∀ s, text s → Unpaired s)
    {room : ℕ} {v : Json} (h : Within (Writable style) text room v) : Reread style room v := by
  induction h with
  | null =>
    exact reread_literal (lit "null") ⟨_, _, rfl, by decide⟩ (fun a => by simp [dumps]) fun _ => rfl
  | bool b =>
    cases b with
    | true =>
      exact reread_literal (lit "true") ⟨_, _, rfl, by decide⟩ (fun a => by simp [dumps])
        fun _ => rfl
    | false =>
      exact reread_literal (lit "false") ⟨_, _, rfl, by decide⟩ (fun a => by simp [dumps])
        fun _ => rfl
  | int h => exact reread_int h
  | float h => exact reread_float h
  | str h => exact reread_str style _ (htext _ h)
  | @arr room items _ ih =>
    obtain ⟨texts, hstarts, hdumps, hscans⟩ := dumpsItems_reread ih
    refine ⟨ch '[' :: (joinTexts texts ++ [ch ']']), ⟨ch '[', _, rfl, by decide⟩, fun a ha => ?_,
      fun b hb rest _ => ?_⟩
    · obtain ⟨a, rfl⟩ : ∃ n, a = n + 1 := ⟨a - 1, by omega⟩
      simp [dumps, hdumps a (by omega), bind, Except.bind]
    · obtain ⟨b, rfl⟩ : ∃ n, b = n + 1 := ⟨b - 1, by omega⟩
      have harray := scanArray_joinTexts (hscans b (by omega)) hstarts rest
      rw [List.cons_append, List.append_assoc, List.singleton_append]
      exact harray
  | @obj room items hkeys hstrings _ ih =>
    obtain ⟨texts, hstarts, hdumps, hscans⟩ :=
      dumpsMembers_reread (fun item hitem => htext _ (hstrings item hitem)) ih
    refine ⟨ch '{' :: (joinTexts texts ++ [ch '}']), ⟨ch '{', _, rfl, by decide⟩, fun a ha => ?_,
      fun b hb rest _ => ?_⟩
    · obtain ⟨a, rfl⟩ : ∃ n, a = n + 1 := ⟨a - 1, by omega⟩
      simp [dumps, hdumps a (by omega), bind, Except.bind]
    · obtain ⟨b, rfl⟩ : ∃ n, b = n + 1 := ⟨b - 1, by omega⟩
      have hobject := scanObject_joinTexts (hscans b (by omega)) hstarts hkeys rest
      rw [List.cons_append, List.append_assoc, List.singleton_append]
      exact hobject

theorem loads_of_scans {room : ℕ} {text : List CodePoint} {v : Json} (hstart : Starts text)
    (h : Scans (scanOnce room) text v) : loads room text = .ok v := by
  have hscan := h [] (by intro c hc; cases hc)
  have hblank := hstart.skipBlanks
  obtain ⟨c, rest, rfl, -, -, -, hmark⟩ := hstart
  rw [List.append_nil] at hscan
  have hhead : ¬ (List.head? (c :: rest)).map Fin.val = some 0xFEFF :=
    fun h => hmark (Option.some.inj h)
  refine (if_neg hhead).trans ?_
  rw [hblank, hscan]
  rfl

/-- A value is read back from its text. -/
theorem loads_dumps {style : Style} {text : PyStr → Prop} (htext : ∀ s, text s → Unpaired s)
    {room : ℕ} {v : Json} (h : Within (Writable style) text room v) :
    ∃ text, (∀ a, room ≤ a → dumps style v a = .ok text) ∧
      ∀ b, room ≤ b → loads b text = .ok v := by
  obtain ⟨text, hstart, hdumps, hscan⟩ := reread_of_within htext h
  exact ⟨text, hdumps, fun b hb => loads_of_scans hstart (hscan b hb)⟩

/-- A value that the decoder may return. -/
abbrev Decoded : ℕ → Json → Prop := Within (fun _ => True) fun _ => True

theorem bind_eq_ok {ε α β : Type} {x : Except ε α} {f : α → Except ε β} {b : β}
    (h : (x >>= f) = .ok b) : ∃ a, x = .ok a ∧ f a = .ok b := by
  cases x with
  | error e => cases h
  | ok a => exact ⟨a, rfl, h⟩

theorem map_eq_ok {ε α β : Type} {x : Except ε α} {f : α → β} {b : β}
    (h : x.map f = .ok b) : ∃ a, x = .ok a ∧ f a = b := by
  cases x with
  | error e => cases h
  | ok a => exact ⟨a, rfl, Except.ok.inj h⟩

section
variable {scan : PyStr → Except DecodeError (Scanned Json)} {room : ℕ}

theorem scanItems_decoded (hscan : ∀ s v rest, scan s = .ok (v, rest) → Decoded room v)
    {turns : ℕ} {done items : List Json} {s rest : PyStr}
    (hdone : ∀ item ∈ done, Decoded room item)
    (h : scanItems scan turns done s = .ok (items, rest)) : ∀ item ∈ items, Decoded room item := by
  induction turns generalizing done s with
  | zero => cases h
  | succ turns ih =>
    rw [scanItems] at h
    obtain ⟨⟨value, s'⟩, hvalue, h⟩ := bind_eq_ok h
    have hmore : ∀ item ∈ done ++ [value], Decoded room item := by
      intro item hitem
      rcases List.mem_append.mp hitem with hitem | hitem
      · exact hdone item hitem
      · obtain rfl := List.mem_singleton.mp hitem
        exact hscan s item s' hvalue
    dsimp only at h
    split at h
    · cases h
    · split_ifs at h
      · obtain ⟨rfl, -⟩ := Prod.mk.inj (Except.ok.inj h)
        exact hmore
      · exact ih hmore h

theorem scanMember_decoded (hscan : ∀ s v rest, scan s = .ok (v, rest) → Decoded room v)
    {s rest key : PyStr} {value : Json} (h : scanMember scan s = .ok ((key, value), rest)) :
    Decoded room value := by
  rw [scanMember.eq_def] at h
  split at h
  · cases h
  · split_ifs at h
    obtain ⟨⟨key', s'⟩, -, h⟩ := bind_eq_ok h
    dsimp only at h
    split at h
    · cases h
    · split_ifs at h
      obtain ⟨⟨value', s''⟩, hvalue, h⟩ := bind_eq_ok h
      obtain ⟨hitem, -⟩ := Prod.mk.inj (Except.ok.inj h)
      obtain ⟨-, rfl⟩ := Prod.mk.inj hitem
      exact hscan _ _ _ hvalue

theorem insert_decoded {d : Dict} (hkeys : (d.map Prod.fst).Nodup)
    (hvalues : ∀ item ∈ d, Decoded room item.2) (key : PyStr) {value : Json}
    (hvalue : Decoded room value) :
    ((JsonDecoder.insert d key value).map Prod.fst).Nodup ∧
      ∀ item ∈ JsonDecoder.insert d key value, Decoded room item.2 := by
  by_cases hmem : key ∈ d.map Prod.fst
  · have hcontains : d.contains key = true := by
      obtain ⟨item, hitem, hkey⟩ := List.mem_map.mp hmem
      simp only [Dict.contains, Dict.lookup, Option.isSome_map, List.find?_isSome, decide_eq_true_eq]
      exact ⟨item, hitem, hkey⟩
    have hfst : ∀ item : PyStr × Json, (if item.1 = key then (key, value) else item).1 = item.1 := by
      intro item
      split_ifs with h
      · exact h.symm
      · rfl
    rw [JsonDecoder.insert, if_pos hcontains]
    constructor
    · rw [List.map_map]
      simpa only [Function.comp_def, hfst] using hkeys
    · intro item hitem
      obtain ⟨old, hold, rfl⟩ := List.mem_map.mp hitem
      split_ifs
      · exact hvalue
      · exact hvalues old hold
  · rw [insert_of_not_mem hmem]
    constructor
    · rw [List.map_append, List.map_singleton, List.nodup_append]
      refine ⟨hkeys, List.nodup_singleton _, ?_⟩
      rintro a ha b hb rfl
      obtain rfl := List.mem_singleton.mp hb
      exact hmem ha
    · intro item hitem
      rcases List.mem_append.mp hitem with hitem | hitem
      · exact hvalues item hitem
      · obtain rfl := List.mem_singleton.mp hitem
        exact hvalue

theorem scanMembers_decoded (hscan : ∀ s v rest, scan s = .ok (v, rest) → Decoded room v)
    {turns : ℕ} {d items : Dict} {s rest : PyStr} (hkeys : (d.map Prod.fst).Nodup)
    (hvalues : ∀ item ∈ d, Decoded room item.2)
    (h : scanMembers scan turns d s = .ok (items, rest)) :
    (items.map Prod.fst).Nodup ∧ ∀ item ∈ items, Decoded room item.2 := by
  induction turns generalizing d s with
  | zero => cases h
  | succ turns ih =>
    rw [scanMembers] at h
    obtain ⟨⟨⟨key, value⟩, s'⟩, hmember, h⟩ := bind_eq_ok h
    have hinsert := insert_decoded hkeys hvalues key (scanMember_decoded hscan hmember)
    dsimp only at h
    split at h
    · cases h
    · split_ifs at h
      · obtain ⟨rfl, -⟩ := Prod.mk.inj (Except.ok.inj h)
        exact hinsert
      · exact ih hinsert.1 hinsert.2 h

end

theorem natOfDigits_lt {digits : List CodePoint} (h : Digits digits) :
    natOfDigits digits < 10 ^ digits.length := by
  induction digits using List.reverseRecOn with
  | nil => decide
  | append_singleton digits c ih =>
    have hdigit : natOfDigits [c] < 10 := by
      have hc := h c (by simp)
      simp only [isDigit, Bool.and_eq_true, decide_eq_true_eq] at hc
      change 10 * 0 + (c.val - 48) < 10
      omega
    have hrest := ih fun d hd => h d (by simp [hd])
    rw [natOfDigits_append, List.length_append, List.length_singleton, pow_one, pow_succ]
    omega

theorem length_digitChars_le {n k : ℕ} (hk : 0 < k) (h : n < 10 ^ k) :
    (digitChars n).length ≤ k := by
  unfold digitChars
  split_ifs with hn
  · exact hk
  · rw [List.length_map, List.length_reverse, Nat.digits_length_le_iff (by norm_num)]
    exact h

theorem scanNumber_decoded {room : ℕ} {s rest : PyStr} {v : Json}
    (h : scanNumber s = .ok (v, rest)) : Decoded room v := by
  unfold scanNumber at h
  dsimp only at h
  split at h
  · cases h
  · rename_i digits s' hdigits
    obtain ⟨-, hall, hne⟩ := takeInteger_eq hdigits
    have hlength : ∀ n : ℤ, n.natAbs = natOfDigits digits →
        (digitChars n.natAbs).length ≤ List.length digits := by
      intro n hn
      rw [hn]
      exact length_digitChars_le (List.length_pos_iff.mpr hne) (natOfDigits_lt hall)
    split_ifs at h with hint hlong hsign
    · obtain ⟨rfl, -⟩ := Prod.mk.inj (Except.ok.inj h)
      exact .int ((hlength _ (by simp)).trans (Nat.not_lt.mp hlong))
    · obtain ⟨rfl, -⟩ := Prod.mk.inj (Except.ok.inj h)
      exact .int ((hlength _ (by simp)).trans (Nat.not_lt.mp hlong))
    · obtain ⟨rfl, -⟩ := Prod.mk.inj (Except.ok.inj h)
      exact .float trivial

theorem scanLiteral_decoded {room : ℕ} {s rest : PyStr} {v : Json}
    (h : scanLiteral s = some (v, rest)) : Decoded room v := by
  obtain ⟨l, hl, hfound⟩ := List.exists_of_findSome?_eq_some h
  split_ifs at hfound
  obtain ⟨rfl, -⟩ := Prod.mk.inj (Option.some.inj hfound)
  simp only [literals, List.mem_cons, List.not_mem_nil, or_false] at hl
  rcases hl with rfl | rfl | rfl | rfl | rfl | rfl
  · exact .null
  · exact .bool true
  · exact .bool false
  · exact .float trivial
  · exact .float trivial
  · exact .float trivial

theorem scanObject_decoded {scan : PyStr → Except DecodeError (Scanned Json)} {room : ℕ}
    (hscan : ∀ s v rest, scan s = .ok (v, rest) → Decoded room v) {s rest : PyStr} {v : Json}
    (h : scanObject scan s = .ok (v, rest)) : Decoded (room + 1) v := by
  unfold scanObject at h
  split at h
  · cases h
  · split_ifs at h
    · obtain ⟨rfl, -⟩ := Prod.mk.inj (Except.ok.inj h)
      exact .obj List.nodup_nil (by simp) (by simp)
    · obtain ⟨p, hmembers, hp⟩ := map_eq_ok h
      obtain ⟨rfl, -⟩ := Prod.mk.inj hp
      obtain ⟨hkeys, hvalues⟩ := scanMembers_decoded hscan (by simp) (by simp) hmembers
      exact .obj hkeys (fun _ _ => trivial) hvalues

theorem scanArray_decoded {scan : PyStr → Except DecodeError (Scanned Json)} {room : ℕ}
    (hscan : ∀ s v rest, scan s = .ok (v, rest) → Decoded room v) {s rest : PyStr} {v : Json}
    (h : scanArray scan s = .ok (v, rest)) : Decoded (room + 1) v := by
  unfold scanArray at h
  split at h
  · cases h
  · split_ifs at h
    · obtain ⟨rfl, -⟩ := Prod.mk.inj (Except.ok.inj h)
      exact .arr (by simp)
    · obtain ⟨p, hitems, hp⟩ := map_eq_ok h
      obtain ⟨rfl, -⟩ := Prod.mk.inj hp
      exact .arr (scanItems_decoded hscan (by simp) hitems)

theorem scanOnce_decoded {room : ℕ} {s rest : PyStr} {v : Json}
    (h : scanOnce room s = .ok (v, rest)) : Decoded room v := by
  induction room generalizing s rest v with
  | zero =>
    rw [scanOnce.eq_def] at h
    split at h
    · cases h
    · split_ifs at h
      · obtain ⟨p, -, hp⟩ := map_eq_ok h
        obtain ⟨rfl, -⟩ := Prod.mk.inj hp
        exact .str trivial
      · split at h
        · rename_i hliteral
          rw [Except.ok.inj h] at hliteral
          exact scanLiteral_decoded hliteral
        · exact scanNumber_decoded h
  | succ room ih =>
    rw [scanOnce.eq_def] at h
    split at h
    · cases h
    · split_ifs at h
      · obtain ⟨p, -, hp⟩ := map_eq_ok h
        obtain ⟨rfl, -⟩ := Prod.mk.inj hp
        exact .str trivial
      · exact scanObject_decoded (fun s v rest h => ih h) h
      · exact scanArray_decoded (fun s v rest h => ih h) h
      · split at h
        · rename_i hliteral
          rw [Except.ok.inj h] at hliteral
          exact scanLiteral_decoded hliteral
        · exact scanNumber_decoded h

/-- What the decoder returns. -/
theorem loads_decoded {room : ℕ} {s : PyStr} {v : Json} (h : loads room s = .ok v) :
    Decoded room v := by
  unfold loads at h
  split_ifs at h
  obtain ⟨⟨value, rest⟩, hscan, h⟩ := bind_eq_ok h
  dsimp only at h
  split_ifs at h
  obtain rfl := Except.ok.inj h
  exact scanOnce_decoded hscan

section
variable {number number' : Float64 → Prop} {text text' : PyStr → Prop} {room : ℕ} {v : Json}

theorem Within.mono (h : Within number text room v) (hnumber : ∀ x, number x → number' x)
    (htext : ∀ s, text s → text' s) {more : ℕ} (hroom : room ≤ more) :
    Within number' text' more v := by
  induction h generalizing more with
  | null => exact .null
  | bool b => exact .bool b
  | int h => exact .int h
  | float h => exact .float (hnumber _ h)
  | str h => exact .str (htext _ h)
  | arr _ ih =>
    obtain ⟨n, rfl⟩ : ∃ n, more = n + 1 := ⟨more - 1, by omega⟩
    exact .arr fun item hitem => ih item hitem (by omega)
  | obj hkeys hplain _ ih =>
    obtain ⟨n, rfl⟩ : ∃ n, more = n + 1 := ⟨more - 1, by omega⟩
    exact .obj hkeys (fun item hitem => htext _ (hplain item hitem))
      fun item hitem => ih item hitem (by omega)

end

mutual

/-- How deeply arrays and objects nest. -/
def depth : Json → ℕ
  | .arr items => depthItems items + 1
  | .obj items => depthMembers items + 1
  | _ => 0

def depthItems : List Json → ℕ
  | [] => 0
  | item :: rest => max (depth item) (depthItems rest)

def depthMembers : List (PyStr × Json) → ℕ
  | [] => 0
  | (_, value) :: rest => max (depth value) (depthMembers rest)

end

theorem depthItems_le_iff {items : List Json} {n : ℕ} :
    depthItems items ≤ n ↔ ∀ item ∈ items, depth item ≤ n := by
  induction items with
  | nil => simp [depthItems]
  | cons item rest ih => simp [depthItems, ih]

theorem depthMembers_le_iff {items : List (PyStr × Json)} {n : ℕ} :
    depthMembers items ≤ n ↔ ∀ item ∈ items, depth item.2 ≤ n := by
  induction items with
  | nil => simp [depthMembers]
  | cons item rest ih => simp [depthMembers, ih]

/-- Of the room only the nesting needs any. -/
theorem Within.iff_depth {number : Float64 → Prop} {text : PyStr → Prop} {room : ℕ} {v : Json}
    (h : Within number text room v) (n : ℕ) : Within number text n v ↔ depth v ≤ n := by
  induction h generalizing n with
  | null => exact iff_of_true .null (by simp [depth])
  | bool b => exact iff_of_true (.bool b) (by simp [depth])
  | int h => exact iff_of_true (.int h) (by simp [depth])
  | float h => exact iff_of_true (.float h) (by simp [depth])
  | str h => exact iff_of_true (.str h) (by simp [depth])
  | arr _ ih =>
    cases n with
    | zero => exact iff_of_false (fun h => by cases h) (by simp [depth])
    | succ n =>
      rw [depth, Nat.add_le_add_iff_right, depthItems_le_iff]
      constructor
      · intro h item hitem
        cases h with
        | arr h => exact (ih item hitem n).mp (h item hitem)
      · intro h
        exact .arr fun item hitem => (ih item hitem n).mpr (h item hitem)
  | obj hkeys htext _ ih =>
    cases n with
    | zero => exact iff_of_false (fun h => by cases h) (by simp [depth])
    | succ n =>
      rw [depth, Nat.add_le_add_iff_right, depthMembers_le_iff]
      constructor
      · intro h item hitem
        cases h with
        | obj _ _ h => exact (ih item hitem n).mp (h item hitem)
      · intro h
        exact .obj hkeys htext fun item hitem => (ih item hitem n).mpr (h item hitem)

theorem dumps_of_dumpsItems {style : Style} {items : List Json} {n : ℕ}
    {texts : List (List CodePoint)} (h : dumpsItems style items n = .ok texts) :
    ∀ item ∈ items, ∃ t, dumps style item n = .ok t := by
  induction items generalizing texts with
  | nil => simp
  | cons item rest ih =>
    rw [dumpsItems] at h
    obtain ⟨t, ht, h⟩ := bind_eq_ok h
    obtain ⟨more, hmore, -⟩ := bind_eq_ok h
    intro i hi
    rcases List.mem_cons.mp hi with rfl | hi
    · exact ⟨t, ht⟩
    · exact ih hmore i hi

theorem dumps_of_dumpsMembers {style : Style} {items : List (PyStr × Json)} {n : ℕ}
    {texts : List (List CodePoint)} (h : dumpsMembers style items n = .ok texts) :
    ∀ item ∈ items, ∃ t, dumps style item.2 n = .ok t := by
  induction items generalizing texts with
  | nil => simp
  | cons item rest ih =>
    rw [dumpsMembers] at h
    obtain ⟨t, ht, h⟩ := bind_eq_ok h
    obtain ⟨more, hmore, -⟩ := bind_eq_ok h
    intro i hi
    rcases List.mem_cons.mp hi with rfl | hi
    · exact ⟨t, ht⟩
    · exact ih hmore i hi

/-- A value that was written nests no deeper than the encoder had room for. -/
theorem depth_le_of_dumps {style : Style} {room : ℕ} {v : Json} (h : Decoded room v) {n : ℕ}
    {t : List CodePoint} (hdumps : dumps style v n = .ok t) : depth v ≤ n := by
  induction h generalizing n t with
  | arr _ ih =>
    cases n with
    | zero =>
      rw [dumps] at hdumps
      cases hdumps
    | succ n =>
      rw [dumps] at hdumps
      obtain ⟨texts, htexts, -⟩ := bind_eq_ok hdumps
      rw [depth, Nat.add_le_add_iff_right, depthItems_le_iff]
      intro item hitem
      obtain ⟨t, ht⟩ := dumps_of_dumpsItems htexts item hitem
      exact ih item hitem ht
  | obj _ _ _ ih =>
    cases n with
    | zero =>
      rw [dumps] at hdumps
      cases hdumps
    | succ n =>
      rw [dumps] at hdumps
      obtain ⟨texts, htexts, -⟩ := bind_eq_ok hdumps
      rw [depth, Nat.add_le_add_iff_right, depthMembers_le_iff]
      intro item hitem
      obtain ⟨t, ht⟩ := dumps_of_dumpsMembers htexts item hitem
      exact ih item hitem ht
  | _ => exact Nat.zero_le n

end ExecutionEngine.JsonRoundTrip
