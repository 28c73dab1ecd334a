import ExecutionEngine.JsonRoundTrip

/-!
# The default encoder writes ASCII

`json.dumps` escapes every character beyond ASCII, and everything else that it writes
is a digit, a sign, a letter or punctuation. The text of a value is therefore the same
in every encoding that extends ASCII, whatever bytes stand before it.
-/
namespace ExecutionEngine.JsonAscii
open JsonDecoder JsonEncoder JsonRoundTrip

def Ascii (s : List CodePoint) : Prop := ∀ c ∈ s, c.val < 0x80

instance (s : List CodePoint) : Decidable (Ascii s) :=
  inferInstanceAs (Decidable (∀ c ∈ s, c.val < 0x80))

theorem ascii_append {s t : List CodePoint} : Ascii (s ++ t) ↔ Ascii s ∧ Ascii t :=
  List.forall_mem_append

theorem ascii_cons {c : CodePoint} {s : List CodePoint} :
    Ascii (c :: s) ↔ c.val < 0x80 ∧ Ascii s :=
  List.forall_mem_cons

theorem ascii_unicodeEscape (n : ℕ) : Ascii (unicodeEscape n) := by
  have hhex : ∀ m, (hexChar m).val < 0x80 := by
    intro m
    have hsmall : ∀ k < 16, (hexChar k).val < 0x80 := by decide
    have hmod : hexChar m = hexChar (m % 16) := by simp [hexChar]
    rw [hmod]
    exact hsmall _ (Nat.mod_lt m (by norm_num))
  have hopen : Ascii [ch '\\', ch 'u'] := by decide
  simp only [ascii_cons] at hopen
  simp only [unicodeEscape, ascii_cons, hopen, hhex, true_and]

theorem ascii_escape (c : CodePoint) : Ascii (escape true c) := by
  have hletter : ∀ letter, letterEscape c = some letter → Ascii [ch '\\', letter] := by
    intro letter h
    unfold letterEscape at h
    split_ifs at h <;> obtain rfl := Option.some.inj h <;> decide
  unfold escape
  split
  case h_1 letter h => exact hletter letter h
  case h_2 =>
    split_ifs with hcontrol hascii hplane
    · exact ascii_unicodeEscape _
    · exact ascii_unicodeEscape _
    · exact ascii_append.mpr ⟨ascii_unicodeEscape _, ascii_unicodeEscape _⟩
    · have hlt : c.val < 0x80 := by
        simp only [Bool.true_and, decide_eq_true_eq, not_le] at hascii
        omega
      exact ascii_cons.mpr ⟨hlt, by simp [Ascii]⟩

theorem ascii_quote (s : PyStr) : Ascii (quote true s) := by
  have hquote : Ascii [ch '"'] := by decide
  refine ascii_cons.mpr ⟨hquote _ List.mem_cons_self, ascii_append.mpr ⟨fun c hc => ?_, hquote⟩⟩
  obtain ⟨d, -, hd⟩ := List.mem_flatMap.mp hc
  exact ascii_escape d c hd

theorem ascii_digitChars (n : ℕ) : Ascii (digitChars n) := by
  unfold digitChars
  split_ifs
  · decide
  · intro c hc
    obtain ⟨d, -, rfl⟩ := List.mem_map.mp hc
    unfold digitChar
    dsimp only
    omega

theorem ascii_zeros (n : ℕ) : Ascii (zeros n) := by
  intro c hc
  obtain rfl := List.eq_of_mem_replicate hc
  decide

theorem ascii_positional {digits : List CodePoint} (h : Ascii digits) (point : ℤ) :
    Ascii (positional digits point) := by
  unfold positional
  split_ifs
  · exact ascii_append.mpr ⟨ascii_append.mpr ⟨by decide, ascii_zeros _⟩, h⟩
  · exact ascii_append.mpr ⟨ascii_append.mpr ⟨h, ascii_zeros _⟩, by decide⟩
  · exact ascii_append.mpr ⟨ascii_append.mpr ⟨fun c hc => h c (List.mem_of_mem_take hc), by decide⟩,
      fun c hc => h c (List.mem_of_mem_drop hc)⟩

theorem ascii_scientific {digits : List CodePoint} (h : Ascii digits) (point : ℤ) :
    Ascii (scientific digits point) := by
  have hfraction : Ascii (if digits.length ≤ 1 then [] else ch '.' :: digits.drop 1) := by
    split_ifs
    · decide
    · exact ascii_cons.mpr ⟨by decide, fun c hc => h c (List.mem_of_mem_drop hc)⟩
  have hsign : Ascii [ch 'e', if point - 1 < 0 then ch '-' else ch '+'] := by
    split_ifs <;> decide
  have hexponent : ∀ exponent, Ascii exponent →
      Ascii (if exponent.length < 2 then ch '0' :: exponent else exponent) := by
    intro exponent hexponent
    split_ifs
    · exact ascii_cons.mpr ⟨by decide, hexponent⟩
    · exact hexponent
  refine ascii_append.mpr ⟨ascii_append.mpr ⟨ascii_append.mpr ⟨?_, hfraction⟩, hsign⟩,
    hexponent _ (ascii_digitChars _)⟩
  exact fun c hc => h c (List.mem_of_mem_take hc)

theorem ascii_finiteRepr (x : Binary64.Finite) : Ascii (finiteRepr x) := by
  have hdigits := ascii_digitChars x.shortest.1
  have hminus : (ch '-').val < 0x80 := by decide
  unfold finiteRepr
  dsimp only
  split_ifs
  · exact ascii_cons.mpr ⟨hminus, ascii_positional hdigits _⟩
  · exact ascii_cons.mpr ⟨hminus, ascii_scientific hdigits _⟩
  · exact ascii_positional hdigits _
  · exact ascii_scientific hdigits _

theorem ascii_intRepr {n : ℤ} {text : List CodePoint} (h : intRepr n = .ok text) : Ascii text := by
  unfold intRepr at h
  dsimp only at h
  split_ifs at h
  · obtain rfl := Except.ok.inj h
    exact ascii_cons.mpr ⟨by decide, ascii_digitChars _⟩
  · obtain rfl := Except.ok.inj h
    exact ascii_digitChars _

theorem ascii_floatText {x : Binary64.Float64} {text : List CodePoint}
    (h : floatText true x = .ok text) : Ascii text := by
  cases x with
  | finite x =>
    obtain rfl := Except.ok.inj h
    exact ascii_finiteRepr x
  | nan =>
    obtain rfl := Except.ok.inj h
    decide
  | infinity negative =>
    obtain rfl := Except.ok.inj h
    cases negative <;> decide

theorem ascii_joinTexts {texts : List (List CodePoint)} (h : ∀ text ∈ texts, Ascii text) :
    Ascii (joinTexts texts) := by
  fun_induction joinTexts texts with
  | case1 => decide
  | case2 text => exact h text (by simp)
  | case3 text rest hrest ih =>
    exact ascii_append.mpr ⟨ascii_append.mpr ⟨h text (by simp), by decide⟩,
      ih fun t ht => h t (by simp [ht])⟩

/-- The texts of the items are the texts of values. -/
theorem ascii_dumpsItems {style : Style} {items : List Json} {room : ℕ}
    {texts : List (List CodePoint)}
    (h : ∀ item ∈ items, ∀ text, dumps style item room = .ok text → Ascii text)
    (htexts : dumpsItems style items room = .ok texts) : ∀ text ∈ texts, Ascii text := by
  induction items generalizing texts with
  | nil =>
    rw [dumpsItems] at htexts
    obtain rfl := Except.ok.inj htexts
    simp
  | cons item items ih =>
    rw [dumpsItems] at htexts
    obtain ⟨text, htext, htexts⟩ := bind_eq_ok htexts
    obtain ⟨more, hmore, htexts⟩ := bind_eq_ok htexts
    obtain rfl := Except.ok.inj htexts
    rw [List.forall_mem_cons]
    exact ⟨h item (by simp) text htext, ih (fun i hi => h i (by simp [hi])) hmore⟩

theorem ascii_dumpsMembers {style : Style} (hstyle : style.ensureAscii = true) {items : Dict}
    {room : ℕ} {texts : List (List CodePoint)}
    (h : ∀ item ∈ items, ∀ text, dumps style item.2 room = .ok text → Ascii text)
    (htexts : dumpsMembers style items room = .ok texts) : ∀ text ∈ texts, Ascii text := by
  induction items generalizing texts with
  | nil =>
    rw [dumpsMembers] at htexts
    obtain rfl := Except.ok.inj htexts
    simp
  | cons item items ih =>
    obtain ⟨key, value⟩ := item
    rw [dumpsMembers, hstyle] at htexts
    obtain ⟨text, htext, htexts⟩ := bind_eq_ok htexts
    obtain ⟨more, hmore, htexts⟩ := bind_eq_ok htexts
    obtain rfl := Except.ok.inj htexts
    rw [List.forall_mem_cons]
    exact ⟨ascii_append.mpr ⟨ascii_append.mpr ⟨ascii_quote key, by decide⟩,
      h (key, value) (by simp) text htext⟩, ih (fun i hi => h i (by simp [hi])) hmore⟩

/-- The text of a value is ASCII. -/
theorem ascii_dumps (v : Json) {room : ℕ} {text : List CodePoint}
    (h : dumps defaultStyle v room = .ok text) : Ascii text := by
  induction v using Json.induct generalizing room text with
  | null =>
    rw [dumps] at h
    obtain rfl := Except.ok.inj h
    decide
  | bool b =>
    rw [dumps] at h
    obtain rfl := Except.ok.inj h
    cases b <;> decide
  | int n =>
    rw [dumps] at h
    exact ascii_intRepr h
  | float x =>
    rw [dumps] at h
    exact ascii_floatText h
  | str s =>
    rw [dumps] at h
    obtain rfl := Except.ok.inj h
    exact ascii_quote s
  | arr items ih =>
    cases room with
    | zero =>
      rw [dumps] at h
      cases h
    | succ room =>
      rw [dumps] at h
      obtain ⟨texts, htexts, h⟩ := bind_eq_ok h
      obtain rfl := Except.ok.inj h
      have hall := ascii_dumpsItems (fun item hitem text => ih item hitem) htexts
      exact ascii_cons.mpr ⟨by decide, ascii_append.mpr ⟨ascii_joinTexts hall, by decide⟩⟩
  | obj items ih =>
    cases room with
    | zero =>
      rw [dumps] at h
      cases h
    | succ room =>
      rw [dumps] at h
      obtain ⟨texts, htexts, h⟩ := bind_eq_ok h
      obtain rfl := Except.ok.inj h
      have hall := ascii_dumpsMembers rfl (fun item hitem text => ih item hitem) htexts
      exact ascii_cons.mpr ⟨by decide, ascii_append.mpr ⟨ascii_joinTexts hall, by decide⟩⟩

end ExecutionEngine.JsonAscii
