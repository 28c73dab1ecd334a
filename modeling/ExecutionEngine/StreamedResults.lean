import ExecutionEngine.FailedCase

/-!
# Results in an output that is cut

When the time of a batch is up, what has been read of its output ends anywhere, also within
a marker or within the bytes of a character. The results found in it are the first of those
that the whole output has, and for an output in which only the wrapper prints markers they
are those whose closing marker has been read.
-/
namespace ExecutionEngine.StreamedResults
open JsonDecoder JsonEncoder JsonText JsonRoundTrip JsonAscii
open Pipeline Process WrapperOutput BatchIndex SandboxHost ResultFraming FailedCase

section
variable {marker s : List CodePoint}

/-- The first occurrence stays where it is when the text goes on. -/
theorem cutFirst_more {before after : List CodePoint}
    (h : cutFirst marker s = some (before, after)) (more : List CodePoint) :
    cutFirst marker (s ++ more) = some (before, after ++ more) := by
  induction s generalizing before with
  | nil =>
    by_cases hstarts : List.isPrefixOf marker [] = true
    · obtain rfl := List.prefix_nil.mp (List.isPrefixOf_iff_prefix.mp hstarts)
      have hcut : cutFirst [] [] = some ([], []) := rfl
      obtain ⟨rfl, rfl⟩ := Prod.mk.inj (Option.some.inj (hcut.symm.trans h))
      cases more <;> rfl
    · have hcut : cutFirst marker [] = none := if_neg hstarts
      cases hcut.symm.trans h
  | cons c s ih =>
    have hlength := length_cutFirst h
    by_cases hstarts : marker <+: c :: s
    · obtain ⟨rfl, rfl⟩ := Prod.mk.inj (Option.some.inj ((cutFirst_here hstarts).symm.trans h))
      have hgoes : marker <+: c :: (s ++ more) := hstarts.trans (List.prefix_append (c :: s) more)
      rw [List.cons_append, cutFirst_here hgoes, ← List.cons_append,
        List.drop_append_of_le_length hstarts.length_le]
    · have hgoes : ¬ marker <+: c :: (s ++ more) := by
        intro hgoes
        refine hstarts (List.prefix_of_prefix_length_le hgoes (List.prefix_append (c :: s) more) ?_)
        omega
      rw [cutFirst_later hstarts] at h
      obtain ⟨⟨before', after'⟩, hs, hp⟩ := Option.map_eq_some_iff.mp h
      obtain ⟨rfl, rfl⟩ := Prod.mk.inj hp
      rw [List.cons_append, cutFirst_later hgoes, ih hs]
      rfl

theorem not_infix_of_cutFirst (h : cutFirst marker s = none) : ¬ marker <:+: s := by
  induction s with
  | nil =>
    intro hinside
    have hstarts : List.isPrefixOf marker [] = true := by
      rw [List.infix_nil.mp hinside]
      rfl
    have hcut : cutFirst marker [] = some ([], []) := if_pos hstarts
    cases h.symm.trans hcut
  | cons c s ih =>
    by_cases hstarts : marker <+: c :: s
    · cases h.symm.trans (cutFirst_here hstarts)
    · have hlater := Option.map_eq_none_iff.mp ((cutFirst_later hstarts).symm.trans h)
      rw [List.infix_cons_iff, not_or]
      exact ⟨hstarts, ih hlater⟩

/-- A character that is not in the marker does not complete it. -/
theorem cutFirst_close (hne : marker ≠ []) {c : CodePoint} (hc : c ∉ marker)
    (h : cutFirst marker s = none) : cutFirst marker (s ++ [c]) = none := by
  refine cutFirst_none hne ?_
  rw [infix_break_iff hc, not_or, List.infix_nil]
  exact ⟨not_infix_of_cutFirst h, hne⟩

end

section
variable {room : ℕ}

/-- How `parse_all_wrapper_outputs` goes on after its first two searches. -/
theorem parseAll_cases (s : List CodePoint) :
    (cutFirst opening s = none ∨ ∃ before rest : List CodePoint,
        cutFirst opening s = some (before, rest) ∧ cutFirst closing rest = none) ∨
      ∃ before rest block after : List CodePoint, cutFirst opening s = some (before, rest) ∧
        cutFirst closing rest = some (block, after) ∧ after.length < s.length := by
  cases hstart : cutFirst opening s with
  | none => exact .inl (.inl rfl)
  | some p =>
    obtain ⟨before, rest⟩ := p
    cases hend : cutFirst closing rest with
    | none => exact .inl (.inr ⟨before, rest, rfl, hend⟩)
    | some q =>
      obtain ⟨block, after⟩ := q
      have hlength := length_cutFirst hstart
      have hlength' := length_cutFirst hend
      have hmarker : 1 ≤ List.length opening := by decide
      exact .inr ⟨before, rest, block, after, rfl, hend, by omega⟩

theorem parseAll_none {s : List CodePoint}
    (h : cutFirst opening s = none ∨ ∃ before rest : List CodePoint,
      cutFirst opening s = some (before, rest) ∧ cutFirst closing rest = none) :
    parseAllWrapperOutputs room s = .ok [] := by
  obtain h | ⟨before, rest, hstart, hend⟩ := h
  · exact parseAll_unopened h
  · exact parseAll_unclosed hstart hend

/-- The blocks found in a text are the first of those found when it goes on. -/
theorem parseAll_more {n : ℕ} {s more : List CodePoint} {blocks : List Dict}
    (hn : s.length ≤ n) (h : parseAllWrapperOutputs room (s ++ more) = .ok blocks) :
    ∃ first, parseAllWrapperOutputs room s = .ok first ∧ first <+: blocks := by
  induction n generalizing s blocks with
  | zero =>
    obtain rfl := List.eq_nil_of_length_eq_zero (Nat.le_zero.mp hn)
    exact ⟨[], rfl, List.nil_prefix⟩
  | succ n ih =>
    obtain hnone | ⟨before, rest, block, after, hstart, hend, hlength⟩ := parseAll_cases s
    · exact ⟨[], parseAll_none hnone, List.nil_prefix⟩
    · have hwhole : parseAllWrapperOutputs room (s ++ more) = _ :=
        parseAll_of_cuts (cutFirst_more hstart more) (cutFirst_more hend more)
      rw [hwhole] at h
      obtain ⟨parsed, hparsed, h⟩ := bind_eq_ok h
      obtain ⟨found, hfound, h⟩ := bind_eq_ok h
      obtain rfl := Except.ok.inj h
      obtain ⟨first, hfirst, hprefix⟩ := ih (by omega) hfound
      refine ⟨parsed.toList ++ first, ?_, (List.prefix_append_right_inj _).mpr hprefix⟩
      rw [parseAll_of_cuts hstart hend, hparsed, hfirst]
      rfl

/-- A character that is in neither marker has no effect at the end. -/
theorem parseAll_close {c : CodePoint} (ho : c ∉ opening) (hc : c ∉ closing) {n : ℕ}
    {s : List CodePoint} (hn : s.length ≤ n) :
    parseAllWrapperOutputs room (s ++ [c]) = parseAllWrapperOutputs room s := by
  induction n generalizing s with
  | zero =>
    obtain rfl := List.eq_nil_of_length_eq_zero (Nat.le_zero.mp hn)
    refine (parseAll_none (.inl ?_)).trans rfl
    exact cutFirst_close opening_ne_nil ho rfl
  | succ n ih =>
    obtain hnone | ⟨before, rest, block, after, hstart, hend, hlength⟩ := parseAll_cases s
    · rw [parseAll_none hnone]
      obtain hnone | ⟨before, rest, hstart, hend⟩ := hnone
      · exact parseAll_unopened (cutFirst_close opening_ne_nil ho hnone)
      · exact parseAll_unclosed (cutFirst_more hstart [c])
          (cutFirst_close closing_ne_nil hc hend)
    · have hwhole : parseAllWrapperOutputs room (s ++ [c]) = _ :=
        parseAll_of_cuts (cutFirst_more hstart [c]) (cutFirst_more hend [c])
      have hrest : parseAllWrapperOutputs room (after ++ [c]) = parseAllWrapperOutputs room after :=
        ih (by omega)
      have hself : parseAllWrapperOutputs room s = _ := parseAll_of_cuts hstart hend
      rw [hwhole, hself]
      exact congrArg _ (funext fun parsed => congrArg (· >>= _) hrest)

/-- U+FFFD -/
def replacement : CodePoint := PyStr.ofChar '\uFFFD'

theorem parseAll_replaced {s cut : List CodePoint} (h : ∀ c ∈ cut, c = replacement) :
    parseAllWrapperOutputs room (s ++ cut) = parseAllWrapperOutputs room s := by
  have hopening : replacement ∉ opening := by decide
  have hclosing : replacement ∉ closing := by decide
  induction cut using List.reverseRecOn with
  | nil => rw [List.append_nil]
  | append_singleton cut c ih =>
    obtain rfl : c = replacement := h c (by simp)
    rw [← List.append_assoc, parseAll_close hopening hclosing le_rfl]
    exact ih fun d hd => h d (by simp [hd])

/-- The text of the first bytes of an output: a character that is cut is replaced. -/
theorem decodeReplace_cut (bytes more : List UInt8) :
    ∃ whole cut rest : List CodePoint, decodeReplace bytes = whole.append cut ∧
      decodeReplace (bytes ++ more) = whole.append rest ∧ ∀ c ∈ cut, c = replacement := by
  obtain ⟨whole, cut, heq, ⟨rest, hrest⟩, hcut⟩ := Utf8.decodeReplace_cut bytes more
  exact ⟨whole, cut, rest, heq, hrest.symm, hcut⟩

/-- The blocks found in the first bytes of an output are the first of those found in all of
it, wherever the bytes are cut. -/
theorem parseAll_cut {bytes more : List UInt8} {blocks : List Dict}
    (h : parseAllWrapperOutputs room (decodeReplace (bytes ++ more)) = .ok blocks) :
    ∃ first, parseAllWrapperOutputs room (decodeReplace bytes) = .ok first ∧
      first <+: blocks := by
  obtain ⟨whole, cut, rest, hbytes, hmore, hcut⟩ := decodeReplace_cut bytes more
  rw [hmore] at h
  obtain ⟨first, hfirst, hprefix⟩ := parseAll_more le_rfl h
  refine ⟨first, ?_, hprefix⟩
  rw [hbytes]
  exact (parseAll_replaced hcut).trans hfirst

end

/-- The block without the line break after it. -/
def closed (text : List CodePoint) : List CodePoint := opening ++ (text ++ closing)

/-- A result, with the bytes of what is printed before its closing marker. -/
structure Written (room : ℕ) extends Report room where
  bytes : List UInt8
  decoded : decodeReplace bytes = before ++ (opening ++ text)
  apart : endsInStart before = false

namespace Written
variable {room : ℕ}

/-- The bytes up to the closing marker. -/
def upToResult (e : Written room) : List UInt8 := e.bytes ++ Utf8.asciiBytes closing

end Written

/-- The output of a batch, with what is printed after the last result. -/
def written {room : ℕ} : List (Written room) → List UInt8 → List UInt8
  | [], last => last
  | e :: rest, last => e.upToResult ++ UInt8.ofNat 10 :: written rest last

/-- How many of the results are complete in the first bytes of the output. -/
def completed {room : ℕ} : List (Written room) → ℕ → ℕ
  | [], _ => 0
  | e :: rest, n =>
    if e.upToResult.length ≤ n then 1 + completed rest (n - (e.upToResult.length + 1)) else 0

section
variable {room : ℕ}

theorem decodeReplace_upToResult (e : Written room) :
    decodeReplace e.upToResult = e.before ++ closed e.text := by
  have hascii : Ascii closing := by decide
  refine (Utf8.decodeReplace_append_asciiBytes e.bytes hascii).trans ?_
  refine (congrArg (· ++ closing) e.decoded).trans ?_
  simp only [closed, List.append_assoc]

/-- What follows the closing marker is decoded by itself. -/
theorem decodeReplace_after (e : Written room) (rest : List UInt8) :
    decodeReplace (e.upToResult ++ UInt8.ofNat 10 :: rest) =
      e.before ++ (block e.text).append (decodeReplace rest) := by
  have hascii : Ascii (closing ++ [ch '\n']) := by decide
  have hbytes : e.upToResult ++ UInt8.ofNat 10 :: rest =
      e.bytes ++ (Utf8.asciiBytes (closing ++ [ch '\n']) ++ rest) := by
    have hend : Utf8.asciiBytes (closing ++ [ch '\n']) =
        Utf8.asciiBytes closing ++ [UInt8.ofNat 10] := List.map_append
    rw [Written.upToResult, hend, List.append_assoc, List.append_assoc, List.singleton_append]
  have hfirst : ∃ b more, Utf8.asciiBytes (closing ++ [ch '\n']) = b :: more ∧ b.toNat < 0x80 :=
    ⟨UInt8.ofNat 95, _, rfl, by decide⟩
  obtain ⟨b, more, hmarker, hb⟩ := hfirst
  have hsplit : Utf8.decodeReplace (e.bytes ++ (Utf8.asciiBytes (closing ++ [ch '\n']) ++ rest)) =
      Utf8.decodeReplace e.bytes ++
        Utf8.decodeReplace (Utf8.asciiBytes (closing ++ [ch '\n']) ++ rest) := by
    rw [hmarker]
    exact Utf8.decodeReplace_append hb (more ++ rest) e.bytes
  have hrest := Utf8.decodeReplace_asciiBytes_append hascii rest
  have hwhole : decodeReplace (e.bytes ++ (Utf8.asciiBytes (closing ++ [ch '\n']) ++ rest)) =
      e.before ++ (opening ++ e.text) ++ (closing ++ [ch '\n']).append (decodeReplace rest) := by
    refine hsplit.trans ?_
    rw [hrest]
    exact congrArg (fun s : List CodePoint =>
      s ++ (closing ++ [ch '\n']).append (decodeReplace rest)) e.decoded
  have hassoc : ∀ a b c d r : List CodePoint,
      a ++ (b ++ c) ++ d.append r = a ++ (b ++ (c ++ d)).append r := by
    intro a b c d r
    simp only [List.append_eq, List.append_assoc]
  rw [hbytes, hwhole]
  exact hassoc _ _ _ _ _

/-- The first two searches in a result, up to its closing marker. -/
theorem cutFirst_upToResult (e : Written room) :
    cutFirst opening (e.before ++ closed e.text) = some (e.before, e.text ++ closing) ∧
      cutFirst closing (e.text ++ closing) = some (e.text, []) := by
  obtain ⟨middle, htext⟩ := e.braces
  have hmiddle : ¬ closing <:+: middle := by
    intro hinside
    refine e.text_unmarked.closing ?_
    rw [htext]
    exact infix_of_braces hinside
  have hnil : ¬ closing <:+: [] := by decide
  have hpassed : PassedOver opening e.before (closed e.text) := by
    rw [closed, htext]
    exact passedOver_opening e.before_unmarked.opening e.apart
  constructor
  · rw [cutFirst_append hpassed, closed, cutFirst_self opening_ne_nil]
    exact congrArg (fun before => some (before, e.text ++ closing)) (List.append_nil _)
  · have hcut := cutFirst_closing hnil hmiddle []
    rw [htext]
    simpa using hcut

/-- Before the closing marker is complete, no result is found. -/
theorem parseAll_unfinished (e : Written room) {s rest : List CodePoint} (hrest : rest ≠ [])
    (h : e.before ++ closed e.text = s ++ rest) : parseAllWrapperOutputs room s = .ok [] := by
  obtain hnone | ⟨before, after, block, left, hstart, hend, -⟩ := parseAll_cases s
  · exact parseAll_none hnone
  · -- the searches would end before the closing marker does
    have hstart' := cutFirst_more hstart rest
    have hend' := cutFirst_more hend rest
    obtain ⟨hopening, hclosing⟩ := cutFirst_upToResult e
    rw [h, hstart'] at hopening
    have hafter : after ++ rest = e.text ++ closing := (Prod.mk.inj (Option.some.inj hopening)).2
    rw [← hafter, hend'] at hclosing
    have hleft : left ++ rest = [] := (Prod.mk.inj (Option.some.inj hclosing)).2
    exact absurd (List.append_eq_nil_iff.mp hleft).2 hrest

theorem length_upToResult (e : Written room) : 1 ≤ e.upToResult.length := by
  have hmarker : 1 ≤ (Utf8.asciiBytes closing).length := by decide
  rw [Written.upToResult, List.length_append]
  omega

theorem completed_zero (es : List (Written room)) : completed es 0 = 0 := by
  cases es with
  | nil => rfl
  | cons e rest =>
    have hlength := length_upToResult e
    rw [completed, if_neg (by omega)]

theorem completed_le (es : List (Written room)) (n : ℕ) : completed es n ≤ es.length := by
  induction es generalizing n with
  | nil => exact Nat.zero_le _
  | cons e rest ih =>
    have hrest := ih (n - (e.upToResult.length + 1))
    rw [completed, List.length_cons]
    split_ifs <;> omega

/-- An output that is cut before the closing marker of its first result ends. -/
theorem parseAll_before (e : Written room) {o more : List UInt8} (hmore : more ≠ [])
    (h : e.upToResult = o ++ more) :
    parseAllWrapperOutputs room (decodeReplace o) = .ok [] := by
  rw [Written.upToResult, List.append_eq_append_iff] at h
  obtain ⟨part, rfl, hascii⟩ | ⟨left, hbytes, rfl⟩ := h
  · -- the cut is in the closing marker
    obtain ⟨shown, hidden, hclosing, rfl, rfl⟩ := List.map_eq_append_iff.mp hascii
    have hshown : Ascii shown := by
      have hall : Ascii closing := by decide
      rw [hclosing] at hall
      exact (ascii_append.mp hall).1
    have hdecoded : decodeReplace (e.bytes ++ Utf8.asciiBytes shown) =
        List.append (e.before ++ (opening ++ e.text)) shown :=
      (Utf8.decodeReplace_append_asciiBytes e.bytes hshown).trans
        (congrArg (fun s : List CodePoint => List.append s shown) e.decoded)
    refine (congrArg _ hdecoded).trans ?_
    have hhidden : hidden ≠ [] := fun hnil => hmore (by rw [hnil]; rfl)
    refine parseAll_unfinished e hhidden ?_
    have hassoc : ∀ a b c d r : List CodePoint,
        a ++ (b ++ (c ++ d.append r)) = (a ++ (b ++ c)).append d ++ r := by
      intro a b c d r
      simp only [List.append_eq, List.append_assoc]
    rw [closed, hclosing]
    exact hassoc _ _ _ _ _
  · -- the cut is in what the program prints before it
    obtain ⟨whole, cut, rest, hcut, hall, hreplaced⟩ := decodeReplace_cut o left
    rw [← hbytes, e.decoded] at hall
    rw [hcut]
    have hrest : rest ++ closing ≠ [] := fun hnil =>
      closing_ne_nil (List.append_eq_nil_iff.mp hnil).2
    refine (parseAll_replaced hreplaced).trans (parseAll_unfinished e hrest ?_)
    have hsplit := congrArg (· ++ closing) hall
    simpa only [closed, List.append_eq, List.append_assoc] using hsplit

theorem counted_written (e : Written room) : counted [e.toReport] = [e.value] := by
  simp [counted, e.apart]

/-- An output that is cut right after the closing marker of its first result. -/
theorem parseAll_upToResult (e : Written room) :
    parseAllWrapperOutputs room (decodeReplace e.upToResult) = .ok [e.value] := by
  have hmarks : ch '\n' ∉ opening ∧ ch '\n' ∉ closing := by decide
  have hblock : e.before ++ closed e.text ++ [ch '\n'] = e.before ++ (block e.text ++ []) := by
    simp only [block, closed, List.append_assoc, List.append_nil]
  have hnil : parseAllWrapperOutputs room [] = .ok [] := rfl
  rw [decodeReplace_upToResult]
  refine (parseAll_close hmarks.1 hmarks.2 le_rfl).symm.trans ?_
  refine (congrArg _ hblock).trans ((parseAll_report e.toReport []).trans ?_)
  rw [hnil, counted_written]
  rfl

/-- An output that is cut anywhere has the results whose closing markers it has. -/
theorem parseAll_written (es : List (Written room)) {last o more : List UInt8}
    (hlast : ¬ closing <:+: (decodeReplace last : List CodePoint)) (h : written es last = o ++ more) :
    parseAllWrapperOutputs room (decodeReplace o) =
      .ok ((es.take (completed es o.length)).map fun e => e.value) := by
  induction es generalizing o with
  | nil =>
    obtain ⟨whole, cut, rest, hcut, hall, hreplaced⟩ := decodeReplace_cut o more
    rw [← h, written] at hall
    rw [hcut]
    refine (parseAll_replaced hreplaced).trans (parseAll_begun fun hinside => hlast ?_)
    rw [hall]
    exact hinside.trans ⟨[], rest, rfl⟩
  | cons e rest ih =>
    rw [written] at h
    by_cases hlength : e.upToResult.length ≤ o.length
    · obtain ⟨o, rfl⟩ : e.upToResult <+: o :=
        List.prefix_of_prefix_length_le ⟨_, h⟩ (List.prefix_append o more) hlength
      rw [List.append_assoc, List.append_cancel_left_eq] at h
      cases o with
      | nil =>
        have hcompleted : completed (e :: rest) e.upToResult.length = 1 := by
          rw [completed, if_pos le_rfl, Nat.sub_eq_zero_of_le (Nat.le_succ _), completed_zero]
        rw [List.append_nil, hcompleted, parseAll_upToResult]
        rfl
      | cons c o =>
        rw [List.cons_append] at h
        obtain ⟨rfl, hrest⟩ := List.cons.inj h
        have hcompleted : completed (e :: rest) (e.upToResult ++ UInt8.ofNat 10 :: o).length =
            completed rest o.length + 1 := by
          rw [completed, List.length_append, List.length_cons, if_pos (Nat.le_add_right _ _),
            Nat.add_comm o.length, ← Nat.add_assoc, Nat.add_sub_cancel_left, Nat.add_comm]
        rw [hcompleted, decodeReplace_after]
        refine (parseAll_report e.toReport _).trans ?_
        rw [ih hrest, counted_written]
        rfl
    · obtain ⟨left, hleft⟩ : o <+: e.upToResult :=
        List.prefix_of_prefix_length_le ⟨more, h.symm⟩ (List.prefix_append _ _) (by omega)
      have hne : left ≠ [] := by
        rintro rfl
        rw [← hleft, List.append_nil] at hlength
        exact hlength le_rfl
      rw [parseAll_before e hne hleft.symm, completed, if_neg hlength]
      rfl

end

end ExecutionEngine.StreamedResults
