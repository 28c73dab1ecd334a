import ExecutionEngine.JsonEncoder
import Mathlib.Data.List.TakeWhile

/-!
# Numbers, strings and literals as the scanner reads them

The scanner is followed on the text that the encoder writes for a number, a string
or a literal, with anything behind it that cannot be taken for a part of a number.
-/
namespace ExecutionEngine.JsonText
open Binary64 JsonDecoder JsonEncoder

/-- Nothing that a number could go on with. -/
def Follows (rest : List CodePoint) : Prop :=
  ∀ c ∈ rest.head?, isDigit c = false ∧ c ≠ ch '.' ∧ c ≠ ch 'e' ∧ c ≠ ch 'E'

/-- A text of digits. -/
def Digits (digits : List CodePoint) : Prop := ∀ c ∈ digits, isDigit c = true

theorem span_digits {digits rest : List CodePoint} (hdigits : Digits digits)
    (hrest : ∀ c ∈ rest.head?, isDigit c = false) :
    List.span isDigit (digits ++ rest) = (digits, rest) := by
  have htake : digits.takeWhile isDigit = digits := List.takeWhile_eq_self_iff.mpr hdigits
  have hdrop : digits.dropWhile isDigit = [] := List.dropWhile_eq_nil_iff.mpr hdigits
  rw [List.span_eq_takeWhile_dropWhile, List.takeWhile_append, List.dropWhile_append, htake, hdrop]
  cases rest with
  | nil => simp
  | cons c rest => simp [hrest c rfl]

theorem natOfDigits_append (a b : List CodePoint) :
    natOfDigits (a ++ b) = natOfDigits a * 10 ^ b.length + natOfDigits b := by
  have hfold : ∀ (b : List CodePoint) (n : ℕ),
      b.foldl (fun n c => 10 * n + (c.val - 48)) n = n * 10 ^ b.length + natOfDigits b := by
    intro b
    induction b with
    | nil => intro n; simp [natOfDigits]
    | cons c b ih =>
      intro n
      have hstart := ih (10 * 0 + (c.val - 48))
      rw [List.foldl_cons, ih]
      unfold natOfDigits at hstart ⊢
      rw [List.foldl_cons, hstart, List.length_cons, pow_succ]
      ring
  unfold natOfDigits
  rw [List.foldl_append]
  exact hfold b _

theorem isDigit_digitChar (d : ℕ) : isDigit (digitChar d) = true := by
  have hlow : 48 ≤ 48 + d % 10 := by omega
  have hhigh : 48 + d % 10 ≤ 57 := by omega
  exact (Bool.and_eq_true _ _).mpr ⟨decide_eq_true hlow, decide_eq_true hhigh⟩

theorem natOfDigits_digitChar {d : ℕ} (h : d < 10) : natOfDigits [digitChar d] = d := by
  change 10 * 0 + (48 + d % 10 - 48) = d
  omega

theorem digits_digitChars (n : ℕ) : Digits (digitChars n) := by
  intro c hc
  unfold digitChars at hc
  split_ifs at hc with h
  · obtain rfl := List.mem_singleton.mp hc
    decide
  · obtain ⟨d, -, rfl⟩ := List.mem_map.mp hc
    exact isDigit_digitChar d

theorem natOfDigits_reverse (ds : List ℕ) (h : ∀ d ∈ ds, d < 10) :
    natOfDigits (ds.reverse.map digitChar) = Nat.ofDigits 10 ds := by
  induction ds with
  | nil => rfl
  | cons d ds ih =>
    rw [List.reverse_cons, List.map_append, natOfDigits_append, List.map_singleton,
      natOfDigits_digitChar (h d (by simp)), ih fun x hx => h x (by simp [hx]), Nat.ofDigits_cons]
    simp
    ring

@[simp] theorem natOfDigits_digitChars (n : ℕ) : natOfDigits (digitChars n) = n := by
  unfold digitChars
  split_ifs with h
  · subst h
    decide
  · rw [natOfDigits_reverse _ fun d hd => Nat.digits_lt_base (by norm_num) hd, Nat.ofDigits_digits]

theorem digitChars_ne_nil (n : ℕ) : digitChars n ≠ [] := by
  unfold digitChars
  split_ifs with h
  · simp
  · simpa [Nat.digits_ne_nil_iff_ne_zero] using h

/-- Only zero is written with a leading zero. -/
theorem head_digitChars {n : ℕ} (hn : n ≠ 0) : (digitChars n).head? ≠ some (ch '0') := by
  have hdigits : Nat.digits 10 n ≠ [] := Nat.digits_ne_nil_iff_ne_zero.mpr hn
  have hlast := Nat.getLast_digit_ne_zero 10 hn
  have hlt := Nat.digits_lt_base (show 1 < 10 by norm_num) (List.getLast_mem hdigits)
  rw [digitChars, if_neg hn, List.head?_map, List.head?_reverse,
    List.getLast?_eq_getLast_of_ne_nil hdigits]
  intro h
  have hval := congrArg Fin.val (Option.some.inj h)
  simp only [digitChar, ch, PyStr.ofChar] at hval
  have hzero : ('0' : Char).toNat = 48 := rfl
  omega

theorem natOfDigits_zeros (n : ℕ) : natOfDigits (zeros n) = 0 := by
  induction n with
  | zero => rfl
  | succ n ih =>
    rw [zeros, List.replicate_succ', natOfDigits_append]
    unfold zeros at ih
    rw [ih]
    decide

theorem digits_zeros (n : ℕ) : Digits (zeros n) := by
  intro c hc
  obtain rfl := List.eq_of_mem_replicate hc
  decide

theorem digits_append {a b : List CodePoint} (ha : Digits a) (hb : Digits b) : Digits (a ++ b) := by
  intro c hc
  rcases List.mem_append.mp hc with h | h
  · exact ha c h
  · exact hb c h

/-- Digits that are an integer: there is a digit, and no leading zero. -/
structure Numeral (text : List CodePoint) : Prop where
  digits : Digits text
  leading : text = [ch '0'] ∨ ∃ c rest, text = c :: rest ∧ c ≠ ch '0'

theorem numeral_digitChars (n : ℕ) : Numeral (digitChars n) := by
  refine ⟨digits_digitChars n, ?_⟩
  by_cases hn : n = 0
  · exact .inl (if_pos hn)
  · right
    have hhead := head_digitChars hn
    cases h : digitChars n with
    | nil => exact absurd h (digitChars_ne_nil n)
    | cons c rest =>
      rw [h] at hhead
      exact ⟨c, rest, rfl, fun hc => hhead (by rw [hc]; rfl)⟩

theorem takeInteger_eq {s whole rest : List CodePoint}
    (h : takeInteger s = some (whole, rest)) : s = whole ++ rest ∧ Digits whole ∧ whole ≠ [] := by
  cases s with
  | nil => cases h
  | cons c s =>
    change (if c = ch '0' then some ([c], s)
      else if isDigit c then some (List.span isDigit (c :: s)) else none) = some (whole, rest) at h
    split_ifs at h with hzero hdigit
    · obtain ⟨rfl, rfl⟩ := Prod.mk.inj (Option.some.inj h)
      subst hzero
      exact ⟨rfl, digits_digitChars 0, by simp⟩
    · have hspan := Option.some.inj h
      rw [List.span_eq_takeWhile_dropWhile] at hspan
      obtain ⟨rfl, rfl⟩ := Prod.mk.inj hspan
      refine ⟨List.takeWhile_append_dropWhile.symm, fun d hd => List.mem_takeWhile_imp hd, ?_⟩
      rw [List.takeWhile_cons_of_pos hdigit]
      simp

theorem takeInteger_numeral {digits rest : List CodePoint} (h : Numeral digits)
    (hrest : ∀ c ∈ rest.head?, isDigit c = false) :
    takeInteger (digits ++ rest) = some (digits, rest) := by
  have hspan := span_digits h.digits hrest
  rcases h.leading with rfl | ⟨c, tail, rfl, hc⟩
  · rfl
  · have hdigit : isDigit c = true := h.digits c (by simp)
    rw [List.cons_append] at hspan ⊢
    rw [takeInteger, if_neg hc, if_pos hdigit, hspan]
    rfl

theorem takeFraction_none {rest : List CodePoint} (h : ch '.' ∉ rest.head?) :
    takeFraction rest = ([], rest) := by
  cases rest with
  | nil => rfl
  | cons c rest =>
    have hc : c ≠ ch '.' := fun hc => h (by simp [hc])
    exact if_neg hc

theorem takeFraction_digits {digits rest : List CodePoint} (hdigits : Digits digits)
    (hne : digits ≠ []) (hrest : ∀ c ∈ rest.head?, isDigit c = false) :
    takeFraction (ch '.' :: (digits ++ rest)) = (digits, rest) := by
  have hspan := span_digits hdigits hrest
  rw [takeFraction, if_pos rfl, hspan]
  cases digits with
  | nil => exact absurd rfl hne
  | cons c digits => rfl

theorem takeExponent_none {rest : List CodePoint} (h : Follows rest) :
    takeExponent rest = (none, rest) := by
  cases rest with
  | nil => rfl
  | cons c rest =>
    obtain ⟨-, -, he, hE⟩ := h c rfl
    exact if_neg (by simp [he, hE])

theorem takeExponent_digits {digits rest : List CodePoint} (e : ℤ) (hdigits : Digits digits)
    (hne : digits ≠ []) (hvalue : natOfDigits digits = e.natAbs) (hrest : Follows rest) :
    takeExponent (ch 'e' :: (if e < 0 then ch '-' else ch '+') :: (digits ++ rest)) =
      (some e, rest) := by
  have hspan := span_digits hdigits fun c hc => (hrest c hc).1
  have hsign : takeSign [ch '-', ch '+'] ((if e < 0 then ch '-' else ch '+') :: (digits ++ rest)) =
      (some (if e < 0 then ch '-' else ch '+'), digits ++ rest) := by
    split_ifs <;> rfl
  have hsome : (if some (if e < 0 then ch '-' else ch '+') = some (ch '-') then
      -(natOfDigits digits : ℤ) else natOfDigits digits) = e := by
    rw [hvalue]
    by_cases h : e < 0
    · rw [if_pos h, if_pos rfl]
      omega
    · rw [if_neg h, if_neg (by decide)]
      omega
  rw [takeExponent, if_pos (.inl rfl), hsign]
  dsimp only
  rw [hspan]
  cases digits with
  | nil => exact absurd rfl hne
  | cons c digits => exact congrArg (fun e => (some e, rest)) hsome

/-- The text of a number with its sign. -/
def signed (negative : Bool) (text : List CodePoint) : List CodePoint :=
  if negative then ch '-' :: text else text

theorem takeSign_signed (negative : Bool) {text : List CodePoint}
    (h : ∀ c ∈ text.head?, isDigit c = true) :
    ∃ sign, takeSign [ch '-'] (signed negative text) = (sign, text) ∧ sign.isSome = negative := by
  cases negative with
  | true => exact ⟨some (ch '-'), rfl, rfl⟩
  | false =>
    refine ⟨none, ?_, rfl⟩
    cases text with
    | nil => rfl
    | cons c text =>
      have hc : c ∉ [ch '-'] := by
        rw [List.mem_singleton]
        rintro rfl
        exact absurd (h (ch '-') rfl) (by decide)
      exact if_neg hc

section
variable (negative : Bool) {text whole s₁ fraction s₂ s₃ : List CodePoint} {exponent : Option ℤ}

theorem scanNumber_int (hhead : ∀ c ∈ text.head?, isDigit c = true)
    (hwhole : takeInteger text = some (whole, s₁)) (hrest : Follows s₁)
    (hlength : whole.length ≤ intMaxStrDigits) :
    scanNumber (signed negative text) =
      .ok (.int (if negative then -(natOfDigits whole : ℤ) else natOfDigits whole), s₁) := by
  obtain ⟨sign, hsign, hsome⟩ := takeSign_signed negative hhead
  have hfraction : takeFraction s₁ = ([], s₁) :=
    takeFraction_none fun hc => (hrest _ hc).2.1 rfl
  have hlong : ¬ intMaxStrDigits < List.length whole := by omega
  simp only [scanNumber, hsign, hwhole, hfraction, takeExponent_none hrest, hsome]
  simp [hlong]

theorem scanNumber_float (hhead : ∀ c ∈ text.head?, isDigit c = true)
    (hwhole : takeInteger text = some (whole, s₁)) (hfraction : takeFraction s₁ = (fraction, s₂))
    (hexponent : takeExponent s₂ = (exponent, s₃)) (hpart : fraction ≠ [] ∨ exponent.isSome) :
    scanNumber (signed negative text) =
      .ok (.float (ofDecimal negative (natOfDigits (whole ++ fraction))
        (exponent.getD 0 - fraction.length)), s₃) := by
  obtain ⟨sign, hsign, hsome⟩ := takeSign_signed negative hhead
  have hfloat : (List.isEmpty fraction && exponent.isNone) = false := by
    rcases hpart with h | h
    · simp [h]
    · cases exponent with
      | none => cases h
      | some e => simp
  simp only [scanNumber, hsign, hwhole, hfraction, hexponent, hsome]
  rw [if_neg (by rw [hfloat]; simp)]
  rfl

end

theorem signed_append (negative : Bool) (text rest : List CodePoint) :
    signed negative text ++ rest = signed negative (text ++ rest) := by
  cases negative <;> rfl

theorem head_append_of_digits {digits : List CodePoint} (h : Digits digits) (hne : digits ≠ [])
    (rest : List CodePoint) : ∀ c ∈ (digits ++ rest).head?, isDigit c = true := by
  cases digits with
  | nil => exact absurd rfl hne
  | cons d digits =>
    intro c hc
    obtain rfl : d = c := by simpa using hc
    exact h d (by simp)

theorem Numeral.ne_nil {text : List CodePoint} (h : Numeral text) : text ≠ [] := by
  rcases h.leading with rfl | ⟨c, rest, rfl, -⟩ <;> simp

/-- A point is no digit. -/
theorem point_not_digit (rest : List CodePoint) :
    ∀ c ∈ (ch '.' :: rest).head?, isDigit c = false := by
  intro c hc
  obtain rfl : ch '.' = c := by simpa using hc
  decide

/-- A numeral, a point and further digits. -/
theorem scanNumber_point (negative : Bool) {whole fraction rest : List CodePoint}
    (hwhole : Numeral whole) (hfraction : Digits fraction) (hne : fraction ≠ [])
    (hrest : Follows rest) :
    scanNumber (signed negative (whole ++ ch '.' :: fraction) ++ rest) =
      .ok (.float (ofDecimal negative (natOfDigits (whole ++ fraction)) (-fraction.length)),
        rest) := by
  have hscan := scanNumber_float negative
    (head_append_of_digits hwhole.digits hwhole.ne_nil (ch '.' :: (fraction ++ rest)))
    (takeInteger_numeral hwhole (point_not_digit _))
    (takeFraction_digits hfraction hne fun c hc => (hrest c hc).1) (takeExponent_none hrest)
    (.inl hne)
  rw [signed_append, List.append_assoc, List.cons_append, hscan, Option.getD_none, zero_sub]

theorem scanNumber_positional (negative : Bool) {c : ℕ} {k : ℤ} (hzero : c = 0 → k = 0)
    {rest : List CodePoint} (hrest : Follows rest) :
    scanNumber (signed negative (positional (digitChars c) ((digitChars c).length + k)) ++ rest) =
      .ok (.float (ofDecimal negative c k), rest) := by
  have hnumeral := numeral_digitChars c
  have hvalue := natOfDigits_digitChars c
  generalize hd : digitChars c = digits at *
  unfold positional
  split_ifs with hsmall hlarge
  · have hwhole : Numeral [ch '0'] := numeral_digitChars 0
    have hfraction := digits_append (digits_zeros (-(digits.length + k)).toNat) hnumeral.digits
    have hscan := scanNumber_point negative hwhole hfraction (by simp [hnumeral.ne_nil]) hrest
    have hshift : -((zeros (-(digits.length + k)).toNat ++ digits).length : ℤ) = k := by
      simp only [zeros, List.length_append, List.length_replicate]
      omega
    have hmantissa : natOfDigits ([ch '0'] ++ (zeros (-(digits.length + k)).toNat ++ digits)) = c := by
      have hnought : natOfDigits [ch '0'] = 0 := by decide
      rw [natOfDigits_append, natOfDigits_append, natOfDigits_zeros, hvalue, hnought]
      ring
    rw [hshift, hmantissa] at hscan
    exact hscan
  · obtain ⟨n, hn⟩ : ∃ n : ℕ, k = n := ⟨k.toNat, by omega⟩
    have hpad : (digits.length + k).toNat - digits.length = n := by omega
    have hwhole : Numeral (digits ++ zeros n) := by
      refine ⟨digits_append hnumeral.digits (digits_zeros n), ?_⟩
      rcases hnumeral.leading with h | ⟨d, tail, h, hne⟩
      · -- a single zero stands for zero, and is not followed by others
        have hc : c = 0 := by rw [← hvalue, h]; decide
        have hn0 : n = 0 := by
          have := hzero hc
          omega
        exact .inl (by rw [hn0, h]; rfl)
      · exact .inr ⟨d, tail ++ zeros n, by rw [h]; rfl, hne⟩
    have hscan := scanNumber_point negative hwhole (digits_digitChars 0) (digitChars_ne_nil 0)
      hrest
    have hmantissa : natOfDigits (digits ++ zeros n ++ digitChars 0) = c * 10 ^ (n + 1) := by
      rw [natOfDigits_append, natOfDigits_append, natOfDigits_zeros, hvalue,
        natOfDigits_digitChars, zeros, List.length_replicate, show (digitChars 0).length = 1 from rfl]
      ring
    have hpoint : ((digitChars 0).length : ℤ) = 1 := rfl
    rw [hmantissa, hpoint, ofDecimal_mul_ten, ← hn] at hscan
    rw [hpad]
    exact hscan
  · have hwhole : Numeral (digits.take (digits.length + k).toNat) := by
      refine ⟨fun d hd => hnumeral.digits d (List.mem_of_mem_take hd), ?_⟩
      rcases hnumeral.leading with rfl | ⟨d, tail, h, hne⟩
      · simp only [List.length_singleton] at *
        omega
      · obtain ⟨m, hm⟩ : ∃ m, (digits.length + k).toNat = m + 1 :=
          ⟨(digits.length + k).toNat - 1, by omega⟩
        exact .inr ⟨d, tail.take m, by rw [hm, h]; rfl, hne⟩
    have hfraction : Digits (digits.drop (digits.length + k).toNat) :=
      fun d hd => hnumeral.digits d (List.mem_of_mem_drop hd)
    have hne : digits.drop (digits.length + k).toNat ≠ [] := by
      rw [ne_eq, List.drop_eq_nil_iff]
      exact hlarge
    have hscan := scanNumber_point negative hwhole hfraction hne hrest
    have hshift : -((digits.drop (digits.length + k).toNat).length : ℤ) = k := by
      rw [List.length_drop]
      omega
    rw [hshift, List.take_append_drop, hvalue] at hscan
    rw [List.append_assoc]
    exact hscan

theorem natOfDigits_padded (n : ℕ) : ∃ digits, (if (digitChars n).length < 2 then
    ch '0' :: digitChars n else digitChars n) = digits ∧ Digits digits ∧ digits ≠ [] ∧
      natOfDigits digits = n := by
  refine ⟨_, rfl, ?_⟩
  split_ifs
  · have hvalue := natOfDigits_append (zeros 1) (digitChars n)
    rw [natOfDigits_zeros, natOfDigits_digitChars, zero_mul, zero_add] at hvalue
    exact ⟨digits_append (digits_zeros 1) (digits_digitChars n), by simp, hvalue⟩
  · exact ⟨digits_digitChars n, digitChars_ne_nil n, natOfDigits_digitChars n⟩

theorem scanNumber_scientific (negative : Bool) (c : ℕ) (k : ℤ) {rest : List CodePoint}
    (hrest : Follows rest) :
    scanNumber (signed negative (scientific (digitChars c) ((digitChars c).length + k)) ++ rest) =
      .ok (.float (ofDecimal negative c k), rest) := by
  have hnumeral := numeral_digitChars c
  have hvalue := natOfDigits_digitChars c
  generalize hd : digitChars c = digits at *
  obtain ⟨d, fraction, rfl⟩ : ∃ d fraction, digits = d :: fraction := by
    cases digits with
    | nil => exact absurd rfl hnumeral.ne_nil
    | cons d fraction => exact ⟨d, fraction, rfl⟩
  obtain ⟨exponent, hexponent, hdigits, hne, hpower⟩ :=
    natOfDigits_padded (((d :: fraction).length : ℤ) + k - 1).natAbs
  have hwhole : Numeral [d] := by
    refine ⟨fun x hx => hnumeral.digits x (by simp at hx; simp [hx]), ?_⟩
    by_cases h : d = ch '0'
    · exact .inl (by rw [h])
    · exact .inr ⟨d, [], rfl, h⟩
  have hfraction : Digits fraction := fun x hx => hnumeral.digits x (by simp [hx])
  have hshift : ((d :: fraction).length : ℤ) + k - 1 - fraction.length = k := by
    rw [List.length_cons]
    omega
  have htail := takeExponent_digits _ hdigits hne hpower hrest
  have hdigit := head_append_of_digits hwhole.digits hwhole.ne_nil
  generalize hpoint : ((d :: fraction).length : ℤ) + k - 1 = e at *
  generalize hsign : (if e < 0 then ch '-' else ch '+') = sign at *
  have htext : signed negative (scientific (d :: fraction) ((d :: fraction).length + k)) ++ rest =
      signed negative ([d] ++ ((if fraction = [] then [] else ch '.' :: fraction) ++
        ch 'e' :: sign :: (exponent ++ rest))) := by
    have hlength : (d :: fraction).length ≤ 1 ↔ fraction = [] := by simp
    simp only [scientific, hpoint, hsign, hexponent, hlength, signed_append]
    simp
  have hmark : ∀ c ∈ (ch 'e' :: sign :: (exponent ++ rest)).head?, isDigit c = false := by
    intro c hc
    obtain rfl : ch 'e' = c := by simpa using hc
    decide
  have hpoint' : ch '.' ∉ (ch 'e' :: sign :: (exponent ++ rest)).head? := by
    intro h
    exact absurd (Option.some.inj h) (by decide)
  have hmantissa : natOfDigits ([d] ++ fraction) = c := hvalue
  rw [htext]
  by_cases hempty : fraction = []
  · have hscan := scanNumber_float negative (hdigit _) (takeInteger_numeral hwhole hmark)
      (takeFraction_none hpoint') htail (.inr rfl)
    subst hempty
    rw [hmantissa, Option.getD_some, hshift] at hscan
    exact hscan
  · have hscan := scanNumber_float negative (hdigit _)
      (takeInteger_numeral hwhole (point_not_digit _)) (takeFraction_digits hfraction hempty hmark)
      htail (.inr rfl)
    rw [hmantissa, Option.getD_some, hshift] at hscan
    rw [if_neg hempty, List.cons_append]
    exact hscan

theorem scanNumber_finiteRepr (x : Finite) {rest : List CodePoint} (hrest : Follows rest) :
    scanNumber (finiteRepr x ++ rest) = .ok (.float (.finite x), rest) := by
  have hx := Finite.ofDecimal_shortest x
  have hzero : x.shortest.1 = 0 → x.shortest.2 = 0 := by
    intro h
    rw [Finite.shortest_zero h]
  have htext : finiteRepr x = signed x.negative
      (if -4 < (digitChars x.shortest.1).length + x.shortest.2 ∧
          (digitChars x.shortest.1).length + x.shortest.2 ≤ 16 then
        positional (digitChars x.shortest.1) ((digitChars x.shortest.1).length + x.shortest.2)
      else scientific (digitChars x.shortest.1)
        ((digitChars x.shortest.1).length + x.shortest.2)) := rfl
  rw [htext, ← hx]
  split_ifs
  · exact scanNumber_positional _ hzero hrest
  · exact scanNumber_scientific _ _ _ hrest

theorem scanNumber_intRepr {n : ℤ} {text rest : List CodePoint} (h : intRepr n = .ok text)
    (hrest : Follows rest) : scanNumber (text ++ rest) = .ok (.int n, rest) := by
  have hnumeral := numeral_digitChars n.natAbs
  have hwhole := takeInteger_numeral hnumeral fun c hc => (hrest c hc).1
  have hhead := head_append_of_digits hnumeral.digits hnumeral.ne_nil rest
  unfold intRepr at h
  dsimp only at h
  by_cases hlong : intMaxStrDigits < (digitChars n.natAbs).length
  · rw [if_pos hlong] at h
    cases h
  · rw [if_neg hlong] at h
    have htext : text = signed (decide (n < 0)) (digitChars n.natAbs) := by
      rw [← Except.ok.inj h]
      simp [signed]
    have hscan := scanNumber_int (decide (n < 0)) hhead hwhole hrest (by omega)
    have hvalue : (if decide (n < 0) = true then -(natOfDigits (digitChars n.natAbs) : ℤ)
        else natOfDigits (digitChars n.natAbs)) = n := by
      rw [natOfDigits_digitChars]
      split_ifs with hneg
      · have := of_decide_eq_true hneg
        omega
      · have := of_decide_eq_false (Bool.eq_false_iff.mpr hneg)
        omega
    rw [hvalue] at hscan
    rw [htext, signed_append]
    exact hscan

/-- The character is no surrogate. -/
def Plain (c : CodePoint) : Prop := c.val < 0xD800 ∨ 0xDFFF < c.val

def IsHigh (c : CodePoint) : Prop := 0xD800 ≤ c.val ∧ c.val ≤ 0xDBFF

def IsLow (c : CodePoint) : Prop := 0xDC00 ≤ c.val ∧ c.val ≤ 0xDFFF

/-- No character stands in the string as its two surrogates. -/
def Unpaired : List CodePoint → Prop := List.IsChain fun a b => ¬ (IsHigh a ∧ IsLow b)

theorem unpaired_of_plain {s : List CodePoint} (h : ∀ c ∈ s, Plain c) : Unpaired s := by
  induction s with
  | nil => exact .nil
  | cons c s ih =>
    have hc : ¬ IsHigh c := by
      have hplain := h c List.mem_cons_self
      unfold Plain at hplain
      unfold IsHigh
      omega
    exact List.isChain_cons.mpr ⟨fun d _ hpair => hc hpair.1,
      ih fun d hd => h d (List.mem_cons_of_mem c hd)⟩

theorem hexDigit_hexChar (n : ℕ) : hexDigit (hexChar n) = some (n % 16) := by
  have hcases : ∀ m < 16, hexDigit (hexChar m) = some m := by decide
  have hmod : hexChar n = hexChar (n % 16) := by
    unfold hexChar
    simp
  rw [hmod]
  exact hcases _ (Nat.mod_lt _ (by norm_num))

theorem hexUnit_hexChar {n : ℕ} (h : n < 0x10000) :
    hexUnit (hexChar (n / 4096)) (hexChar (n / 256)) (hexChar (n / 16)) (hexChar n) =
      some ⟨n, by omega⟩ := by
  have hsum : 4096 * (n / 4096 % 16) + 256 * (n / 256 % 16) + 16 * (n / 16 % 16) + n % 16 = n := by
    omega
  simp only [hexUnit, hexDigit_hexChar, bind, Option.bind, hsum]
  rw [dif_pos (by omega)]

theorem shortEscape_letterEscape {c letter : CodePoint} (h : letterEscape c = some letter) :
    shortEscape letter = some c ∧ letter ≠ ch 'u' := by
  unfold letterEscape at h
  split_ifs at h with h₁ h₂ h₃ h₄ h₅ h₆ h₇ <;> obtain rfl := Option.some.inj h
  · exact ⟨congrArg some h₁.symm, by decide⟩
  · exact ⟨congrArg some h₂.symm, by decide⟩
  · exact ⟨congrArg some (Fin.ext h₃.symm), by decide⟩
  · exact ⟨congrArg some (Fin.ext h₄.symm), by decide⟩
  · exact ⟨congrArg some (Fin.ext h₅.symm), by decide⟩
  · exact ⟨congrArg some (Fin.ext h₆.symm), by decide⟩
  · exact ⟨congrArg some (Fin.ext h₇.symm), by decide⟩

/-- What the scanner reads from the text of one character. -/
def Reads (text : List CodePoint) (units : List (CodePoint × Bool)) : Prop :=
  ∀ rest : List CodePoint,
    scanUnits (text ++ rest) = (scanUnits rest).map fun p => (units ++ p.1, p.2)

theorem reads_unicodeEscape {n : ℕ} (h : n < 0x10000) :
    Reads (unicodeEscape n) [(⟨n, by omega⟩, true)] := by
  intro rest
  have hquote : ch '\\' ≠ ch '"' := by decide
  refine (scanUnits.eq_def _).trans ?_
  simp only [unicodeEscape, List.cons_append, List.nil_append, hquote, if_false, if_true,
    hexUnit_hexChar h]

theorem reads_append {a b : List CodePoint} {u v : List (CodePoint × Bool)} (ha : Reads a u)
    (hb : Reads b v) : Reads (a ++ b) (u ++ v) := by
  intro rest
  rw [List.append_assoc, ha, hb]
  cases scanUnits rest with
  | error e => rfl
  | ok p => simp [Except.map]

theorem reads_letter {c letter : CodePoint} (h : letterEscape c = some letter) :
    Reads [ch '\\', letter] [(c, false)] := by
  intro rest
  obtain ⟨hshort, hu⟩ := shortEscape_letterEscape h
  have hquote : ch '\\' ≠ ch '"' := by decide
  refine (scanUnits.eq_def _).trans ?_
  simp only [List.cons_append, List.nil_append, hquote, if_false, if_true, if_neg hu, hshort]

theorem reads_self {c : CodePoint} (h : letterEscape c = none) (hc : ¬ c.val < 0x20) :
    Reads [c] [(c, false)] := by
  intro rest
  have hquote : c ≠ ch '"' := by
    rintro rfl
    cases h
  have hslash : c ≠ ch '\\' := by
    rintro rfl
    cases h
  refine (scanUnits.eq_def _).trans ?_
  simp only [List.singleton_append, if_neg hquote, if_neg hslash, if_neg hc]

/-- Joining starts with the character and leaves the rest alone. -/
def Joins (units : List (CodePoint × Bool)) (c : CodePoint) : Prop :=
  ∀ rest, joinSurrogates (units ++ rest) = c :: joinSurrogates rest

theorem joinSurrogates_single {c : CodePoint} {mark : Bool} {rest : List (CodePoint × Bool)}
    (h : IsHigh c → ∀ v ∈ rest.head?, ¬ IsLow v.1) :
    joinSurrogates ((c, mark) :: rest) = c :: joinSurrogates rest := by
  cases rest with
  | nil => rfl
  | cons v rest =>
    have hpair : surrogatePair (c, mark) v = none := by
      rw [surrogatePair, if_neg]
      simp only [Bool.and_eq_true, decide_eq_true_eq, not_and]
      intro ⟨⟨⟨_, hlow⟩, hhigh⟩, hlow'⟩ hhigh'
      exact h ⟨hlow, hhigh⟩ v rfl ⟨hlow', hhigh'⟩
    rw [joinSurrogates, hpair]

theorem joins_pair {c : CodePoint} (hc : 0x10000 ≤ c.val)
    (hhigh : 0xD800 + (c.val - 0x10000) / 0x400 < 0x110000)
    (hlow : 0xDC00 + (c.val - 0x10000) % 0x400 < 0x110000) :
    Joins [(⟨0xD800 + (c.val - 0x10000) / 0x400, hhigh⟩, true),
      (⟨0xDC00 + (c.val - 0x10000) % 0x400, hlow⟩, true)] c := by
  intro rest
  have hlt := c.isLt
  have hpair : surrogatePair (⟨0xD800 + (c.val - 0x10000) / 0x400, hhigh⟩, true)
      (⟨0xDC00 + (c.val - 0x10000) % 0x400, hlow⟩, true) = some c := by
    have hbounds : (0xD800 ≤ 0xD800 + (c.val - 0x10000) / 0x400 ∧
        0xD800 + (c.val - 0x10000) / 0x400 ≤ 0xDBFF) ∧
        0xDC00 ≤ 0xDC00 + (c.val - 0x10000) % 0x400 ∧
        0xDC00 + (c.val - 0x10000) % 0x400 ≤ 0xDFFF := by omega
    have hvalue : 0x10000 + (0xD800 + (c.val - 0x10000) / 0x400 - 0xD800) * 0x400 +
        (0xDC00 + (c.val - 0x10000) % 0x400 - 0xDC00) = c.val := by omega
    have hjoined : 0x10000 + (0xD800 + (c.val - 0x10000) / 0x400 - 0xD800) * 0x400 +
        (0xDC00 + (c.val - 0x10000) % 0x400 - 0xDC00) < 0x110000 := by omega
    rw [surrogatePair, if_pos]
    · exact (dif_pos hjoined).trans (congrArg some (Fin.ext hvalue))
    · simp [hbounds]
  rw [List.cons_append, List.cons_append, joinSurrogates, hpair]
  rfl

/-- A character is read as itself, or as two surrogates that join to it. Only itself may be
taken for the second half of another. -/
theorem exists_units (ensureAscii : Bool) (c : CodePoint) :
    ∃ unit rest, Reads (escape ensureAscii c) (unit :: rest) ∧ (IsLow unit.1 → unit.1 = c) ∧
      ∀ more : List (CodePoint × Bool), (IsHigh c → ∀ v ∈ more.head?, ¬ IsLow v.1) →
        joinSurrogates (unit :: (rest ++ more)) = c :: joinSurrogates more := by
  have hlt := c.isLt
  have hsingle : ∀ mark : Bool, Reads (escape ensureAscii c) [(c, mark)] →
      ∃ unit rest, Reads (escape ensureAscii c) (unit :: rest) ∧ (IsLow unit.1 → unit.1 = c) ∧
        ∀ more : List (CodePoint × Bool), (IsHigh c → ∀ v ∈ more.head?, ¬ IsLow v.1) →
          joinSurrogates (unit :: (rest ++ more)) = c :: joinSurrogates more :=
    fun mark hreads => ⟨(c, mark), [], hreads, fun _ => rfl, fun _ => joinSurrogates_single⟩
  unfold escape at hsingle ⊢
  split at hsingle
  case h_1 letter hletter => exact hsingle false (reads_letter hletter)
  case h_2 hletter =>
    split_ifs at hsingle ⊢ with hcontrol hascii hplane
    · exact hsingle true (reads_unicodeEscape (by omega))
    · exact hsingle true (reads_unicodeEscape hplane)
    · have hhigh : ¬ IsLow ⟨0xD800 + (c.val - 0x10000) / 0x400, by omega⟩ := by
        intro hlow
        have hbound := hlow.1
        dsimp only at hbound
        omega
      exact ⟨_, _, reads_append (reads_unicodeEscape (by omega)) (reads_unicodeEscape (by omega)),
        fun hlow => absurd hlow hhigh,
        fun more _ => joins_pair (by omega) (by omega) (by omega) more⟩
    · exact hsingle false (reads_self hletter hcontrol)

/-- A quoted string is read back. -/
theorem scanString_quote (ensureAscii : Bool) {s : List CodePoint} (hs : Unpaired s)
    (rest : List CodePoint) :
    scanString (List.flatMap (escape ensureAscii) s ++ ch '"' :: rest) = .ok (s, rest) := by
  have hunits : ∃ units, scanUnits (List.flatMap (escape ensureAscii) s ++ ch '"' :: rest) =
      .ok (units, rest) ∧ joinSurrogates units = s ∧
      ∀ v ∈ units.head?, IsLow v.1 → s.head? = some v.1 := by
    induction s with
    | nil => exact ⟨[], (scanUnits.eq_def _).trans (if_pos rfl), rfl, by simp⟩
    | cons c s ih =>
      obtain ⟨hnext, hs⟩ := List.isChain_cons.mp hs
      obtain ⟨units, hscan, hjoin, hhead⟩ := ih hs
      obtain ⟨unit, more, hreads, hfirst, hjoins⟩ := exists_units ensureAscii c
      refine ⟨unit :: (more ++ units), ?_, ?_, ?_⟩
      · rw [List.flatMap_cons, List.append_assoc, hreads, hscan]
        rfl
      · rw [hjoins, hjoin]
        exact fun hhigh v hv hlow => hnext v.1 (hhead v hv hlow) ⟨hhigh, hlow⟩
      · intro v hv hlow
        obtain rfl := Option.some.inj hv
        rw [List.head?_cons, hfirst hlow]
  obtain ⟨units, hscan, hjoin, -⟩ := hunits
  refine (congrArg (Except.map _) hscan).trans ?_
  exact congrArg (fun s => Except.ok (s, rest)) hjoin

/-- No literal begins like a number. -/
theorem literal_start : ∀ l ∈ literals, ∃ a b tail, l.1 = a :: b :: tail ∧ isDigit a = false ∧
    (a = ch '-' → isDigit b = false) := by
  intro l hl
  simp only [literals, List.mem_cons, List.not_mem_nil, or_false] at hl
  rcases hl with rfl | rfl | rfl | rfl | rfl | rfl <;>
    exact ⟨_, _, _, rfl, by decide, by decide⟩

theorem scanLiteral_none {s : List CodePoint}
    (h : ∀ l ∈ literals, List.isPrefixOf l.1 s = false) : scanLiteral s = none := by
  refine List.findSome?_eq_none_iff.mpr fun l hl => ?_
  rw [if_neg]
  exact Bool.eq_false_iff.mp (h l hl)

theorem scanLiteral_signed (negative : Bool) {text : List CodePoint}
    (hne : text ≠ []) (h : ∀ c ∈ text.head?, isDigit c = true) :
    scanLiteral (signed negative text) = none := by
  obtain ⟨c, text, rfl⟩ := List.exists_cons_of_ne_nil hne
  have hc : isDigit c = true := h c rfl
  refine scanLiteral_none fun l hl => ?_
  obtain ⟨a, b, tail, hl, ha, hb⟩ := literal_start l hl
  rw [hl]
  have hac : ∀ d, isDigit d = false → (d == c) = false := by
    intro d hd
    rw [beq_eq_false_iff_ne]
    rintro rfl
    rw [hc] at hd
    cases hd
  cases negative with
  | false => simp [signed, List.isPrefixOf, hac a ha]
  | true =>
    by_cases hminus : a = ch '-'
    · simp [signed, List.isPrefixOf, hac b (hb hminus)]
    · simp [signed, List.isPrefixOf, hminus]

end ExecutionEngine.JsonText
