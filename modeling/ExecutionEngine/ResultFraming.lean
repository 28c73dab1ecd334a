import ExecutionEngine.BatchIndex
import ExecutionEngine.JsonAscii
import ExecutionEngine.SandboxHost

/-!
# Result blocks among what the program prints

A wrapper prints each result between two markers, and the program prints what it likes
before it. The opening marker of a single result is looked for from the end, so that
nothing before it counts. The results of a batch are looked for from the front: text
that ends like the opening marker without its last one or two underscores completes
it with those of the marker that follows, and that marker becomes part of a block
which is no JSON.
-/
namespace ExecutionEngine.ResultFraming
open JsonDecoder JsonEncoder JsonText JsonRoundTrip JsonAscii
open Pipeline Process WrapperOutput BatchIndex SandboxHost

section
variable {marker u v s : List CodePoint} {c : CodePoint}

/-- A character that is not in the marker bounds it. -/
theorem prefix_break_iff (hc : c ∉ marker) : marker <+: u ++ c :: s ↔ marker <+: u := by
  induction u generalizing marker with
  | nil =>
    cases marker with
    | nil => simp
    | cons d marker =>
      have hne : d ≠ c := fun h => hc (by simp [h])
      simp [hne]
  | cons d u ih =>
    cases marker with
    | nil => simp
    | cons e marker =>
      rw [List.cons_append, List.cons_prefix_cons, List.cons_prefix_cons,
        ih fun h => hc (List.mem_cons_of_mem e h)]

theorem infix_break_iff (hc : c ∉ marker) :
    marker <:+: u ++ c :: s ↔ marker <:+: u ∨ marker <:+: s := by
  induction u with
  | nil =>
    have hbreak : marker <+: [] ++ c :: s ↔ marker <+: [] := prefix_break_iff hc
    rw [List.nil_append] at hbreak
    rw [List.nil_append, List.infix_cons_iff, hbreak, List.prefix_nil, List.infix_nil]
  | cons d u ih =>
    rw [List.cons_append, List.infix_cons_iff, List.infix_cons_iff, ih, ← List.cons_append,
      prefix_break_iff hc, or_assoc]

/-- No occurrence of the marker begins in `u`. -/
def PassedOver (marker u s : List CodePoint) : Prop :=
  ∀ t, t <:+ u → t ≠ [] → ¬ marker <+: t ++ s

/-- Text that ends with a character which is not in the marker. -/
theorem passedOver_closed (hc : c ∉ marker) (h : ¬ marker <:+: u) :
    PassedOver marker (u ++ [c]) s := by
  intro t ht hne hstarts
  obtain rfl | ⟨t, rfl, hsuffix⟩ := List.suffix_concat_iff.mp ht
  · exact hne rfl
  · rw [List.append_assoc, List.singleton_append, prefix_break_iff hc] at hstarts
    exact h (hstarts.isInfix.trans hsuffix.isInfix)

theorem cutFirst_here (h : marker <+: c :: s) :
    cutFirst marker (c :: s) = some ([], (c :: s).drop marker.length) :=
  if_pos (List.isPrefixOf_iff_prefix.mpr h)

theorem cutFirst_later (h : ¬ marker <+: c :: s) :
    cutFirst marker (c :: s) = (cutFirst marker s).map fun p => (c :: p.1, p.2) :=
  if_neg (by rwa [List.isPrefixOf_iff_prefix])

theorem cutFirst_append (h : PassedOver marker u s) :
    cutFirst marker (u ++ s) = (cutFirst marker s).map fun p => (List.append u p.1, p.2) := by
  induction u with
  | nil =>
    rw [List.nil_append]
    cases cutFirst marker s <;> rfl
  | cons c u ih =>
    have hfirst : ¬ marker <+: c :: (u ++ s) :=
      h (c :: u) (List.suffix_refl _) (List.cons_ne_nil c u)
    rw [List.cons_append, cutFirst_later hfirst,
      ih fun t ht => h t (ht.trans (List.suffix_cons c u))]
    cases cutFirst marker s <;> rfl

theorem cutFirst_self (hne : marker ≠ []) (s : List CodePoint) :
    cutFirst marker (marker ++ s) = some ([], s) := by
  obtain ⟨c, rest, rfl⟩ := List.exists_cons_of_ne_nil hne
  have hstarts : c :: rest <+: c :: (rest ++ s) := List.prefix_append (c :: rest) s
  rw [List.cons_append, cutFirst_here hstarts, ← List.cons_append, List.drop_left]

theorem cutFirst_none (hne : marker ≠ []) (h : ¬ marker <:+: s) : cutFirst marker s = none := by
  have hend : cutFirst marker [] = none :=
    if_neg (by rw [List.isPrefixOf_iff_prefix, List.prefix_nil]; exact hne)
  have hpassed : PassedOver marker s [] := by
    intro t ht _ hstarts
    rw [List.append_nil] at hstarts
    exact h (hstarts.isInfix.trans ht.isInfix)
  have hshift := cutFirst_append hpassed
  rw [List.append_nil, hend] at hshift
  exact hshift

/-- What is after an occurrence is shorter than the whole. -/
theorem length_cutFirst {before after : List CodePoint}
    (h : cutFirst marker s = some (before, after)) :
    after.length + marker.length ≤ s.length := by
  induction s generalizing before with
  | nil =>
    by_cases hstarts : List.isPrefixOf marker [] = true
    · have hcut : cutFirst marker [] = some ([], []) := if_pos hstarts
      obtain rfl : [] = after := (Prod.mk.inj (Option.some.inj (hcut.symm.trans h))).2
      rw [List.prefix_nil.mp (List.isPrefixOf_iff_prefix.mp hstarts)]
      rfl
    · have hcut : cutFirst marker [] = none := if_neg hstarts
      cases hcut.symm.trans h
  | cons c s ih =>
    by_cases hstarts : marker <+: c :: s
    · have hafter : (c :: s).drop marker.length = after :=
        (Prod.mk.inj (Option.some.inj ((cutFirst_here hstarts).symm.trans h))).2
      rw [← hafter, List.length_drop]
      have := hstarts.length_le
      omega
    · rw [cutFirst_later hstarts] at h
      obtain ⟨⟨before', after'⟩, hs, hp⟩ := Option.map_eq_some_iff.mp h
      obtain rfl : after' = after := (Prod.mk.inj hp).2
      exact (ih hs).trans (Nat.le_succ _)

/-- What is after an occurrence is the end of the whole. -/
theorem cutFirst_suffix {before after : List CodePoint}
    (h : cutFirst marker s = some (before, after)) : after <:+ s := by
  induction s generalizing before with
  | nil =>
    have hshort := length_cutFirst h
    rw [List.length_nil] at hshort
    obtain rfl : after = [] := List.eq_nil_of_length_eq_zero (by omega)
    exact List.suffix_refl _
  | cons c s ih =>
    by_cases hstarts : marker <+: c :: s
    · have hafter : (c :: s).drop marker.length = after :=
        (Prod.mk.inj (Option.some.inj ((cutFirst_here hstarts).symm.trans h))).2
      exact hafter ▸ List.drop_suffix _ _
    · rw [cutFirst_later hstarts] at h
      obtain ⟨⟨before', after'⟩, hs, hp⟩ := Option.map_eq_some_iff.mp h
      obtain rfl : after' = after := (Prod.mk.inj hp).2
      exact (ih hs).trans (List.suffix_cons c s)

theorem afterLast_later {after : List CodePoint} (h : afterLast marker s = some after) :
    afterLast marker (c :: s) = some after := by
  refine (afterLast.eq_def marker (c :: s)).trans ?_
  simp only [h]
  rfl

theorem afterLast_here (h : afterLast marker s = none) :
    afterLast marker (c :: s) =
      if marker <+: c :: s then some ((c :: s).drop marker.length) else none := by
  refine (afterLast.eq_def marker (c :: s)).trans ?_
  simp only [h, List.isPrefixOf_iff_prefix]
  rfl

theorem afterLast_none (hne : marker ≠ []) (h : ¬ marker <:+: s) : afterLast marker s = none := by
  induction s with
  | nil => exact if_neg (by rw [List.isPrefixOf_iff_prefix, List.prefix_nil]; exact hne)
  | cons c s ih =>
    rw [List.infix_cons_iff, not_or] at h
    exact (afterLast_here (ih h.2)).trans (if_neg h.1)

/-- The last occurrence is not before one that stands in the rest. -/
theorem afterLast_append {after : List CodePoint} (h : afterLast marker s = some after)
    (u : List CodePoint) : afterLast marker (u ++ s) = some after := by
  induction u with
  | nil => exact h
  | cons c u ih => exact afterLast_later ih

theorem afterLast_self (h : ¬ c :: marker <:+: marker ++ s) :
    afterLast (c :: marker) (c :: marker ++ s) = some s := by
  have hnone := afterLast_none (List.cons_ne_nil c marker) h
  rw [List.cons_append, afterLast_here hnone, ← List.cons_append,
    if_pos (List.prefix_append (c :: marker) s), List.drop_left]

/-- The last occurrence is not before the one at the front. -/
theorem exists_afterLast (hne : marker ≠ []) (s : List CodePoint) :
    ∃ after, afterLast marker (marker ++ s) = some after := by
  obtain ⟨c, rest, rfl⟩ := List.exists_cons_of_ne_nil hne
  rw [List.cons_append]
  cases h : afterLast (c :: rest) (rest ++ s) with
  | some after => exact ⟨after, afterLast_later h⟩
  | none => exact ⟨_, (afterLast_here h).trans (if_pos (List.prefix_append (c :: rest) s))⟩

end

section
variable {room : ℕ} {s before rest block after : PyStr}

theorem parseFrom_of_le {n m : ℕ} (hn : List.length s ≤ n) (hm : List.length s ≤ m) :
    parseFrom room n s = parseFrom room m s := by
  induction n generalizing m s with
  | zero =>
    obtain rfl := List.eq_nil_of_length_eq_zero (Nat.le_zero.mp hn)
    cases m <;> rfl
  | succ n ih =>
    cases m with
    | zero =>
      obtain rfl := List.eq_nil_of_length_eq_zero (Nat.le_zero.mp hm)
      rfl
    | succ m =>
      rw [parseFrom, parseFrom]
      split
      · rfl
      · rename_i hstart
        split
        · rfl
        · rename_i hend
          have hlength := length_cutFirst hstart
          have hlength' := length_cutFirst hend
          have hmarker : 1 ≤ List.length resultStart := by decide
          rw [ih (m := m) (by omega) (by omega)]

theorem parseAll_of_cuts (hstart : cutFirst resultStart s = some (before, rest))
    (hend : cutFirst resultEnd rest = some (block, after)) :
    parseAllWrapperOutputs room s = (do
      let parsed ← parseBlock room block
      let more ← parseAllWrapperOutputs room after
      .ok (parsed.toList ++ more)) := by
  have hlength := length_cutFirst hstart
  have hlength' := length_cutFirst hend
  have hmarker : 1 ≤ List.length resultStart := by decide
  obtain ⟨n, hn⟩ : ∃ n, List.length s = n + 1 := ⟨List.length s - 1, by omega⟩
  have hfuel : parseFrom room n after = parseAllWrapperOutputs room after :=
    parseFrom_of_le (by omega) le_rfl
  unfold parseAllWrapperOutputs at hfuel ⊢
  rw [hn, parseFrom, hstart]
  simp only [hend, hfuel]

theorem parseAll_unopened (hstart : cutFirst resultStart s = none) :
    parseAllWrapperOutputs room s = .ok [] := by
  unfold parseAllWrapperOutputs
  cases List.length s with
  | zero => rfl
  | succ n => rw [parseFrom, hstart]

theorem parseAll_unclosed (hstart : cutFirst resultStart s = some (before, rest))
    (hend : cutFirst resultEnd rest = none) : parseAllWrapperOutputs room s = .ok [] := by
  unfold parseAllWrapperOutputs
  cases List.length s with
  | zero => rfl
  | succ n =>
    rw [parseFrom, hstart]
    simp only [hend]

/-- Text in which no opening marker begins has no effect. -/
theorem parseAll_skip {u : List CodePoint} {s : List CodePoint}
    (h : PassedOver resultStart u s) :
    parseAllWrapperOutputs room (u ++ s) = parseAllWrapperOutputs room s := by
  have hshift := cutFirst_append h
  cases hstart : cutFirst resultStart s with
  | none =>
    rw [hstart] at hshift
    rw [parseAll_unopened hstart, parseAll_unopened hshift]
  | some p =>
    obtain ⟨before, rest⟩ := p
    rw [hstart] at hshift
    cases hend : cutFirst resultEnd rest with
    | none => rw [parseAll_unclosed hstart hend, parseAll_unclosed hshift hend]
    | some q => rw [parseAll_of_cuts hstart hend, parseAll_of_cuts hshift hend]

end

/-- Neither marker occurs in the text. -/
def Unmarked (s : List CodePoint) : Prop :=
  PyStr.hasPart resultStart s = false ∧ PyStr.hasPart resultEnd s = false

instance (s : List CodePoint) : Decidable (Unmarked s) := inferInstanceAs (Decidable (_ ∧ _))

/-- The text ends like the opening marker without its last one or two underscores. -/
def endsInStart (u : List CodePoint) : Bool :=
  List.isSuffixOf (PyStr.take 19 resultStart) u || List.isSuffixOf (PyStr.take 20 resultStart) u

/-- A value of JSON: the keys of an object differ, and no character stands in a string as its
two surrogates, which its text would join. -/
def IsJson (v : Json) : Prop := ∃ room, Within (fun _ => True) Unpaired room v

/-- `RESULT_START`, as a list of characters. -/
def opening : List CodePoint := resultStart

/-- `RESULT_END`, as a list of characters. -/
def closing : List CodePoint := resultEnd

/-- What a wrapper prints for a result. -/
def block (text : List CodePoint) : List CodePoint :=
  opening ++ (text ++ (closing ++ [ch '\n']))

theorem hasPart_iff {part s : List CodePoint} : PyStr.hasPart part s = true ↔ part <:+: s := by
  unfold PyStr.hasPart
  simp only [List.any_eq_true, List.mem_tails, List.isPrefixOf_iff_prefix,
    List.infix_iff_prefix_suffix, and_comm]

theorem Unmarked.opening {s : List CodePoint} (h : Unmarked s) : ¬ opening <:+: s := by
  rw [← hasPart_iff, Bool.not_eq_true]
  exact h.1

theorem Unmarked.closing {s : List CodePoint} (h : Unmarked s) : ¬ closing <:+: s := by
  rw [← hasPart_iff, Bool.not_eq_true]
  exact h.2

theorem opening_ne_nil : opening ≠ [] := by decide

theorem closing_ne_nil : closing ≠ [] := by decide

theorem breaks_opening : ch '{' ∉ opening ∧ ch '}' ∉ opening ∧ ch '\n' ∉ opening := by decide

theorem breaks_closing : ch '{' ∉ closing ∧ ch '}' ∉ closing := by decide

section
variable {room : ℕ} {b : Dict} {text : List CodePoint}

theorem dumps_braces (h : dumps defaultStyle (.obj b) room = .ok text) :
    ∃ middle : List CodePoint, text = ch '{' :: (middle ++ [ch '}']) := by
  cases room with
  | zero =>
    rw [dumps] at h
    cases h
  | succ room =>
    rw [dumps] at h
    obtain ⟨texts, -, h⟩ := bind_eq_ok h
    exact ⟨joinTexts texts, (Except.ok.inj h).symm⟩

theorem loads_of_dumps (hb : IsJson (.obj b)) (h : dumps defaultStyle (.obj b) room = .ok text) :
    loads room text = .ok (.obj b) := by
  obtain ⟨more, hmore⟩ := hb
  have hdepth : depth (.obj b) ≤ room :=
    depth_le_of_dumps (hmore.mono (fun _ _ => trivial) (fun _ _ => trivial) le_rfl) h
  have hwithin : Within (Writable defaultStyle) Unpaired room (.obj b) :=
    ((hmore.iff_depth room).mpr hdepth).mono (fun _ _ => .inl rfl) (fun _ h => h) le_rfl
  obtain ⟨text', hdumps, hloads⟩ := loads_dumps (fun _ h => h) hwithin
  obtain rfl := Except.ok.inj (h.symm.trans (hdumps room le_rfl))
  exact hloads room le_rfl

theorem parseBlock_object {s : PyStr} (h : loads room s = .ok (.obj b)) :
    parseBlock room s = .ok (some b) := by
  rw [parseBlock, h]

theorem parseBlock_dumps (hb : IsJson (.obj b))
    (h : dumps defaultStyle (.obj b) room = .ok text) :
    parseBlock room text = .ok (some b) :=
  parseBlock_object (loads_of_dumps hb h)

end

section
variable {middle : List CodePoint}

/-- The braces around a text keep the closing marker apart from what is before it. -/
theorem cutFirst_closing {lead : List CodePoint} (hlead : ¬ closing <:+: lead)
    (hmiddle : ¬ closing <:+: middle) (s : List CodePoint) :
    cutFirst closing ((lead ++ ch '{' :: middle) ++ [ch '}'] ++ (closing ++ s)) =
      some ((lead ++ ch '{' :: middle) ++ [ch '}'], s) := by
  have hfree : ¬ closing <:+: lead ++ ch '{' :: middle := by
    rw [infix_break_iff breaks_closing.1, not_or]
    exact ⟨hlead, hmiddle⟩
  have hpassed := passedOver_closed breaks_closing.2 hfree (s := closing ++ s)
  have hcut := cutFirst_append hpassed
  rw [cutFirst_self closing_ne_nil s] at hcut
  refine hcut.trans ?_
  exact congrArg (fun before => some (before, s)) (List.append_nil _)

/-- No text that is in braces hides an opening marker at its ends. -/
theorem opening_last (hmiddle : ¬ opening <:+: middle) :
    afterLast opening (opening ++ (ch '{' :: (middle ++ ch '}' :: (closing ++ [ch '\n'])))) =
      some (ch '{' :: (middle ++ ch '}' :: (closing ++ [ch '\n']))) := by
  have hfirst : opening = ch '_' :: opening.tail := by decide
  have hends : ¬ opening <:+: opening.tail ∧ ¬ opening <:+: closing ++ [ch '\n'] := by decide
  rw [hfirst]
  refine afterLast_self ?_
  rw [← hfirst, infix_break_iff breaks_opening.1, infix_break_iff breaks_opening.2.1, not_or,
    not_or]
  exact ⟨hends.1, hmiddle, hends.2⟩

end

section
variable {room : ℕ} {b : Dict} {text : List CodePoint}

theorem parseWrapperOutput_of_afterLast {s t after : PyStr}
    (hs : afterLast resultStart s = some after) (ht : afterLast resultStart t = some after) :
    parseWrapperOutput room s = parseWrapperOutput room t := by
  rw [parseWrapperOutput, parseWrapperOutput, hs, ht]

theorem parseWrapperOutput_of_cuts {s before after rest : PyStr}
    (hstart : afterLast resultStart s = some after)
    (hend : cutFirst resultEnd after = some (before, rest)) :
    parseWrapperOutput room s = parseBlock room before := by
  rw [parseWrapperOutput, hstart]
  simp only [hend]

/-- What is printed before the block has no effect, whatever markers it contains. -/
theorem parseWrapperOutput_append (u text : List CodePoint) :
    parseWrapperOutput room (u ++ block text) = parseWrapperOutput room (block text) := by
  obtain ⟨after, hafter⟩ := exists_afterLast opening_ne_nil (text ++ (closing ++ [ch '\n']))
  exact parseWrapperOutput_of_afterLast (afterLast_append hafter u) hafter

theorem infix_of_braces {marker middle : List CodePoint} (h : marker <:+: middle) :
    marker <:+: ch '{' :: (middle ++ [ch '}']) :=
  h.trans ⟨[ch '{'], [ch '}'], rfl⟩

theorem parseWrapperOutput_block (hb : IsJson (.obj b))
    (h : dumps defaultStyle (.obj b) room = .ok text) (htext : Unmarked text) :
    parseWrapperOutput room (block text) = .ok (some b) := by
  obtain ⟨middle, rfl⟩ := dumps_braces h
  have hstart : afterLast opening (block (ch '{' :: (middle ++ [ch '}']))) =
      some (ch '{' :: (middle ++ ch '}' :: (closing ++ [ch '\n']))) := by
    rw [block, List.cons_append, List.append_assoc, List.singleton_append]
    exact opening_last fun hinside => htext.opening (infix_of_braces hinside)
  have hnil : ¬ closing <:+: [] := by decide
  have hend := cutFirst_closing hnil
    (fun hinside => htext.closing (infix_of_braces hinside)) [ch '\n']
  rw [List.nil_append, List.append_assoc, List.cons_append, List.singleton_append] at hend
  exact (parseWrapperOutput_of_cuts hstart hend).trans (parseBlock_dumps hb h)

end

/-- `run_in_sandbox`, for a process that ends in time. -/
def runInSandbox (proc : Completed) : RawRun :=
  if maxStdoutBytes < proc.stdout.length then .outputLimitExceeded
  else .exited (decodeReplace proc.stdout) (decodeReplace proc.stderr) proc.returncode

/-- `run_wrapper`, from what the process has left. -/
def wrapperOutcome (str : Json → PyStr) (room : ℕ) : RawRun → Except PyExc RunValue
  | .exited stdout stderr returncode => do
    let parsed ← parseWrapperOutput room stdout
    runWrapper str (.exited ⟨parsed, [], stderr, returncode⟩)
  | .timedOut _ => runWrapper str (.timedOut [])
  | .outputLimitExceeded => runWrapper str .outputLimitExceeded

/-- The bytes of a block. -/
def blockBytes (text : List CodePoint) : List UInt8 := Utf8.asciiBytes (block text)

theorem ascii_block {text : List CodePoint} (h : Ascii text) : Ascii (block text) :=
  ascii_append.mpr ⟨by decide, ascii_append.mpr ⟨h, by decide⟩⟩

/-- The block after any other bytes is read as it was written. -/
theorem decodeReplace_block (u : List UInt8) {text : List CodePoint} (h : Ascii text) :
    decodeReplace (u ++ blockBytes text) = List.append (decodeReplace u) (block text) :=
  Utf8.decodeReplace_append_asciiBytes u (ascii_block h)

theorem wrapperOutcome_block (str : Json → PyStr) (room : ℕ) {text : List CodePoint}
    (h : Ascii text) (u : List UInt8) (proc : Completed)
    (hstdout : proc.stdout = u ++ blockBytes text) (hlimit : proc.stdout.length ≤ maxStdoutBytes) :
    wrapperOutcome str room (runInSandbox proc) = (do
      let parsed ← parseWrapperOutput room (block text)
      runWrapper str (.exited ⟨parsed, [], decodeReplace proc.stderr, proc.returncode⟩)) := by
  have hparsed : parseWrapperOutput room (decodeReplace proc.stdout) =
      parseWrapperOutput room (block text) := by
    rw [hstdout, decodeReplace_block u h]
    exact parseWrapperOutput_append _ text
  rw [runInSandbox, if_neg (by omega), wrapperOutcome, hparsed]

/-- The last block of a text does not depend on what was printed before it, and neither does
the outcome of the run. -/
theorem single_result_immune {room : ℕ} {b : Dict} {text : List CodePoint}
    (hdumps : dumps defaultStyle (.obj b) room = .ok text) :
    (∀ u u' : List CodePoint, parseWrapperOutput room (u ++ block text) =
      parseWrapperOutput room (u' ++ block text)) ∧
    (IsJson (.obj b) → Unmarked text →
      ∀ u : List CodePoint, parseWrapperOutput room (u ++ block text) = .ok (some b)) ∧
    ∀ (str : Json → PyStr) (returncode : ℤ) (stderr u u' : List UInt8),
      (u ++ blockBytes text).length ≤ maxStdoutBytes →
      (u' ++ blockBytes text).length ≤ maxStdoutBytes →
      wrapperOutcome str room (runInSandbox ⟨returncode, u ++ blockBytes text, stderr⟩) =
        wrapperOutcome str room (runInSandbox ⟨returncode, u' ++ blockBytes text, stderr⟩) := by
  refine ⟨fun u u' => ?_, fun hb htext u => ?_, fun str returncode stderr u u' hu hu' => ?_⟩
  · rw [parseWrapperOutput_append, parseWrapperOutput_append]
  · rw [parseWrapperOutput_append, parseWrapperOutput_block hb hdumps htext]
  · have hascii : Ascii text := ascii_dumps _ hdumps
    rw [wrapperOutcome_block str room hascii u _ rfl hu,
      wrapperOutcome_block str room hascii u' _ rfl hu']

section
variable {u t r : List CodePoint}

/-- The opening marker overlaps itself by one or two underscores only. -/
theorem overlap (hu : ¬ opening <:+: u) (ht : t <:+ u) (hne : t ≠ [])
    (h : opening <+: t ++ (opening ++ ch '{' :: r)) :
    t = opening.take 19 ∨ t = opening.take 20 := by
  have hself : opening <+: t ++ opening := by
    rw [← List.append_assoc, prefix_break_iff breaks_opening.1] at h
    exact h
  have hshort : t.length < opening.length := by
    by_contra hlong
    have hinside : opening <+: t :=
      List.prefix_of_prefix_length_le hself (List.prefix_append t opening) (by omega)
    exact hu (hinside.isInfix.trans ht.isInfix)
  have htake : t <+: opening :=
    List.prefix_of_prefix_length_le (List.prefix_append t opening) hself hshort.le
  obtain ⟨border, hborder⟩ := htake
  have hagain : border <+: opening :=
    (List.prefix_append_right_inj t).mp (by rw [hborder]; exact hself)
  have hcases : ∀ k < opening.length, 0 < k → opening.drop k <+: opening → k = 19 ∨ k = 20 := by
    decide
  have hdrop : opening.drop t.length = border := by rw [← hborder, List.drop_left]
  have htaken : opening.take t.length = t := by rw [← hborder, List.take_left]
  rcases hcases t.length hshort (List.length_pos_iff.mpr hne) (by rw [hdrop]; exact hagain) with
    hk | hk
  · exact .inl (by rw [← hk, htaken])
  · exact .inr (by rw [← hk, htaken])

theorem endsInStart_iff {u : List CodePoint} :
    endsInStart u = true ↔ opening.take 19 <:+ u ∨ opening.take 20 <:+ u := by
  unfold endsInStart
  rw [Bool.or_eq_true]
  exact or_congr List.isSuffixOf_iff_suffix List.isSuffixOf_iff_suffix

theorem passedOver_opening (hu : ¬ opening <:+: u) (h : endsInStart u = false) :
    PassedOver opening u (opening ++ ch '{' :: r) := by
  intro t ht hne hstarts
  refine Bool.eq_false_iff.mp h (endsInStart_iff.mpr ?_)
  rcases overlap hu ht hne hstarts with rfl | rfl
  · exact .inl ht
  · exact .inr ht

/-- Text that ends in part of the opening marker completes it from the marker that follows. -/
theorem completed (hu : ¬ opening <:+: u) (h : endsInStart u = true) :
    ∃ a lead, u ++ (opening ++ ch '{' :: r) = a ++ (opening ++ (lead ++ ch '{' :: r)) ∧
      PassedOver opening a (opening ++ (lead ++ ch '{' :: r)) ∧
      (lead = opening.drop 1 ∨ lead = opening.drop 2) := by
  have hpart : ∀ part lead : List CodePoint, part ++ opening = opening ++ lead →
      (∀ t, t ≠ [] → t ++ part ≠ opening.take 19 ∧ t ++ part ≠ opening.take 20) → part <:+ u →
      ∃ a, u ++ (opening ++ ch '{' :: r) = a ++ (opening ++ (lead ++ ch '{' :: r)) ∧
        PassedOver opening a (opening ++ (lead ++ ch '{' :: r)) := by
    rintro part lead hsplit hlonger ⟨a, rfl⟩
    have hshift : ∀ t, t ++ (opening ++ (lead ++ ch '{' :: r)) =
        (t ++ part) ++ (opening ++ ch '{' :: r) := by
      intro t
      rw [← List.append_assoc opening, ← hsplit]
      simp only [List.append_assoc]
    refine ⟨a, (hshift a).symm, fun t ht hne hstarts => ?_⟩
    rw [hshift] at hstarts
    have hsuffix : t ++ part <:+ a ++ part := List.suffix_append_self_iff.mpr ht
    rcases overlap hu hsuffix (by simp [hne]) hstarts with heq | heq
    · exact (hlonger t hne).1 heq
    · exact (hlonger t hne).2 heq
  have hapart : ¬ opening.take 19 <:+ opening.take 20 := by decide
  have hlengths : (opening.take 19).length = 19 ∧ (opening.take 20).length = 20 := by decide
  rcases endsInStart_iff.mp h with h | h
  · obtain ⟨a, hsplit, hpassed⟩ := hpart (opening.take 19) (opening.drop 2) (by decide)
      (fun t hne => ⟨fun heq => hne (List.append_left_eq_self.mp heq),
        fun heq => hapart ⟨t, heq⟩⟩) h
    exact ⟨a, _, hsplit, hpassed, .inr rfl⟩
  · obtain ⟨a, hsplit, hpassed⟩ := hpart (opening.take 20) (opening.drop 1) (by decide)
      (fun t hne => ⟨fun heq => by have := congrArg List.length heq; simp [hlengths] at this,
        fun heq => hne (List.append_left_eq_self.mp heq)⟩) h
    exact ⟨a, _, hsplit, hpassed, .inl rfl⟩

end

/-- No value of JSON begins with the character. -/
def BeginsNothing (c : CodePoint) : Prop :=
  (c.val ≠ 0xFEFF ∧ isBlank c = false) ∧ (c ≠ ch '"' ∧ c ≠ ch '{' ∧ c ≠ ch '[') ∧
    (c ≠ ch '-' ∧ c ≠ ch '0' ∧ isDigit c = false) ∧ ∀ l ∈ literals, List.head? l.1 ≠ some c

theorem loads_malformed {c : CodePoint} (h : BeginsNothing c) (room : ℕ) (rest : List CodePoint) :
    loads room (c :: rest) = .error .malformed := by
  obtain ⟨⟨hmark, hblank⟩, ⟨hquote, hbrace, hbracket⟩, ⟨hminus, hzero, hdigit⟩, hliteral⟩ := h
  have hskip : skipBlanks (c :: rest) = c :: rest := by
    unfold skipBlanks
    rw [List.dropWhile_cons_of_neg (by simp [hblank])]
  have hnone : scanLiteral (c :: rest) = none := by
    refine scanLiteral_none fun l hl => ?_
    obtain ⟨a, b, tail, hl', -⟩ := literal_start l hl
    have hne : (a == c) = false := by
      rw [beq_eq_false_iff_ne]
      rintro rfl
      exact hliteral l hl (by rw [hl']; rfl)
    rw [hl', List.isPrefixOf_cons_cons, hne, Bool.false_and]
  have hnumber : scanNumber (c :: rest) = .error .malformed := by
    simp [scanNumber, takeSign, takeInteger, hminus, hzero, hdigit]
  have hscan : scanOnce room (c :: rest) = .error .malformed := by
    refine (scanOnce.eq_def room _).trans ?_
    simp only [if_neg hquote, if_neg hbrace, if_neg hbracket, hnone, hnumber]
  refine (if_neg fun h => hmark (Option.some.inj h)).trans ?_
  rw [hskip, hscan]
  rfl

theorem parseBlock_malformed {room : ℕ} {s : PyStr} (h : loads room s = .error .malformed) :
    parseBlock room s = .ok none := by
  rw [parseBlock, h]

/-- The rest of an opening marker makes a block unreadable. -/
theorem parseBlock_lead {lead : List CodePoint}
    (hlead : lead = opening.drop 1 ∨ lead = opening.drop 2) (room : ℕ) (text : List CodePoint) :
    parseBlock room (lead ++ text) = .ok none := by
  have hbegins : ∃ c tail, lead = c :: tail ∧ BeginsNothing c := by
    unfold BeginsNothing
    rcases hlead with rfl | rfl
    · exact ⟨ch '_', _, rfl, by decide⟩
    · exact ⟨ch 'J', _, rfl, by decide⟩
  obtain ⟨c, tail, rfl, hc⟩ := hbegins
  exact parseBlock_malformed (loads_malformed hc room (tail ++ text))

/-- One block, after text that is passed over and with text of the marker before its braces. -/
theorem parseAll_block {room : ℕ} {a lead middle : List CodePoint} (s : List CodePoint)
    (ha : PassedOver opening a
      (opening ++ (lead ++ ch '{' :: (middle ++ ch '}' :: (closing ++ ch '\n' :: s)))))
    (hlead : ¬ closing <:+: lead) (hmiddle : ¬ closing <:+: middle) :
    parseAllWrapperOutputs room
        (a ++ (opening ++ (lead ++ ch '{' :: (middle ++ ch '}' :: (closing ++ ch '\n' :: s))))) =
      (do
        let parsed ← parseBlock room (lead ++ ch '{' :: (middle ++ [ch '}']))
        let more ← parseAllWrapperOutputs room s
        .ok (parsed.toList ++ more)) := by
  have hend := cutFirst_closing hlead hmiddle (ch '\n' :: s)
  simp only [List.append_assoc, List.cons_append, List.nil_append] at hend
  have hnil : ¬ opening <:+: [] := by decide
  have hnewline : parseAllWrapperOutputs room (ch '\n' :: s) = parseAllWrapperOutputs room s :=
    parseAll_skip (u := [] ++ [ch '\n']) (passedOver_closed breaks_opening.2.2 hnil)
  refine (parseAll_skip ha).trans ?_
  rw [← hnewline]
  exact parseAll_of_cuts (cutFirst_self opening_ne_nil _) hend

/-- What the program prints before a result, and the result, with its text. -/
structure Emission (room : ℕ) where
  before : List CodePoint
  value : Dict
  text : List CodePoint
  text_eq : dumps defaultStyle (.obj value) room = .ok text
  isJson : IsJson (.obj value)
  no_error : value.contains "error" = false
  before_unmarked : Unmarked before
  text_unmarked : Unmarked text

/-- The output of a batch: the results, what is printed before each, and what is printed
after the last. -/
def framed {room : ℕ} : List (Emission room) → List CodePoint → List CodePoint
  | [], last => last
  | e :: rest, last => e.before ++ (block e.text ++ framed rest last)

/-- The results that `parse_all_wrapper_outputs` finds. -/
def found {room : ℕ} (emissions : List (Emission room)) : List Dict :=
  (emissions.filter fun e => !endsInStart e.before).map Emission.value

/-- What the program prints before a result, and the result: a text in braces that is read as
an object without an error. -/
structure Report (room : ℕ) where
  before : List CodePoint
  text : List CodePoint
  value : Dict
  reads : loads room text = .ok (.obj value)
  braces : ∃ middle : List CodePoint, text = ch '{' :: (middle ++ [ch '}'])
  no_error : value.contains "error" = false
  before_unmarked : Unmarked before
  text_unmarked : Unmarked text

section
variable {room : ℕ}

/-- The output of a batch: the results, and what is printed after the last. -/
def output : List (Report room) → List CodePoint → List CodePoint
  | [], last => last
  | r :: rest, last => r.before ++ (block r.text ++ output rest last)

/-- The results that the judge finds. -/
def counted (reports : List (Report room)) : List Dict :=
  (reports.filter fun r => !endsInStart r.before).map Report.value

/-- A result is found unless what is printed before it ends in part of the marker. -/
theorem parseAll_result {before text middle : List CodePoint} {value : Dict}
    (htext : text = ch '{' :: (middle ++ [ch '}']))
    (hread : parseBlock room text = .ok (some value)) (hbefore : Unmarked before)
    (hunmarked : Unmarked text) (s : List CodePoint) :
    parseAllWrapperOutputs room (before ++ (block text ++ s)) = (do
      let more ← parseAllWrapperOutputs room s
      .ok ((if endsInStart before then [] else [value]) ++ more)) := by
  have hmiddle : ¬ closing <:+: middle := by
    intro hinside
    refine hunmarked.closing ?_
    rw [htext]
    exact infix_of_braces hinside
  have hblock : block text ++ s =
      opening ++ (ch '{' :: (middle ++ ch '}' :: (closing ++ ch '\n' :: s))) := by
    rw [block, htext]
    simp only [List.append_assoc, List.cons_append, List.nil_append]
  rw [hblock]
  cases hends : endsInStart before with
  | false =>
    have hnil : ¬ closing <:+: [] := by decide
    rw [htext] at hread
    refine (parseAll_block s (passedOver_opening hbefore.opening hends) hnil hmiddle).trans ?_
    rw [List.nil_append, hread]
    rfl
  | true =>
    obtain ⟨a, lead, hsplit, hpassed, hlead⟩ := completed hbefore.opening hends
    have hopen : ¬ closing <:+: lead := by
      rcases hlead with rfl | rfl <;> decide
    rw [hsplit, parseAll_block s hpassed hopen hmiddle, parseBlock_lead hlead]
    rfl

/-- Text after the last result in which nothing is closed has no effect. -/
theorem parseAll_begun {last : List CodePoint} (h : ¬ closing <:+: last) :
    parseAllWrapperOutputs room last = .ok [] := by
  cases hstart : cutFirst opening last with
  | none => exact parseAll_unopened hstart
  | some p =>
    obtain ⟨before, rest⟩ := p
    have hrest : ¬ closing <:+: rest := fun hinside =>
      h (hinside.trans (cutFirst_suffix hstart).isInfix)
    exact parseAll_unclosed hstart (cutFirst_none closing_ne_nil hrest)

theorem parseAll_report (r : Report room) (s : List CodePoint) :
    parseAllWrapperOutputs room (r.before ++ (block r.text ++ s)) = (do
      let more ← parseAllWrapperOutputs room s
      .ok (counted [r] ++ more)) := by
  obtain ⟨middle, htext⟩ := r.braces
  have hcounted : counted [r] = if endsInStart r.before then [] else [r.value] := by
    cases hends : endsInStart r.before <;> simp [counted, hends]
  rw [parseAll_result htext (parseBlock_object r.reads) r.before_unmarked r.text_unmarked,
    hcounted]

/-- Each of the results is found, or hidden by what is printed before it. -/
theorem parseAll_output (reports : List (Report room)) {last : List CodePoint}
    (hlast : ¬ closing <:+: last) :
    parseAllWrapperOutputs room (output reports last) = .ok (counted reports) := by
  induction reports with
  | nil => exact parseAll_begun hlast
  | cons r rest ih =>
    have hcounted : counted [r] ++ counted rest = counted (r :: rest) := by
      unfold counted
      rw [← List.map_append, ← List.filter_append]
      rfl
    rw [output, parseAll_report, ih, ← hcounted]
    rfl

theorem firstError_counted (reports : List (Report room)) :
    firstError 0 (counted reports) = none := by
  refine firstError_none (fun d hd => ?_) 0
  obtain ⟨r, -, rfl⟩ := List.mem_map.mp hd
  exact r.no_error

theorem length_counted_le (reports : List (Report room)) :
    (counted reports).length ≤ reports.length := by
  rw [counted, List.length_map]
  exact List.length_filter_le _ _

/-- All results are found exactly if none is hidden. -/
theorem length_counted_iff (reports : List (Report room)) :
    (counted reports).length = reports.length ↔
      ∀ r ∈ reports, endsInStart r.before = false := by
  rw [counted, List.length_map, List.length_filter_eq_length_iff]
  simp

/-- A result written by `json.dumps`. -/
def ofEmission (e : Emission room) : Report room where
  before := e.before
  text := e.text
  value := e.value
  reads := loads_of_dumps e.isJson e.text_eq
  braces := dumps_braces e.text_eq
  no_error := e.no_error
  before_unmarked := e.before_unmarked
  text_unmarked := e.text_unmarked

theorem output_ofEmission (emissions : List (Emission room)) (last : List CodePoint) :
    output (emissions.map ofEmission) last = framed emissions last := by
  induction emissions with
  | nil => rfl
  | cons e rest ih => rw [List.map_cons, output, ih, framed]; rfl

theorem found_eq_counted (emissions : List (Emission room)) :
    found emissions = counted (emissions.map ofEmission) := by
  rw [counted, List.filter_map, List.map_map]
  rfl

theorem parseAll_framed (emissions : List (Emission room)) {last : List CodePoint}
    (hlast : Unmarked last) :
    parseAllWrapperOutputs room (framed emissions last) = .ok (found emissions) := by
  rw [← output_ofEmission, found_eq_counted]
  exact parseAll_output _ hlast.closing

/-- All results are found exactly if nothing that is printed before one ends in part of the
marker. -/
theorem length_found_iff (emissions : List (Emission room)) :
    (found emissions).length = emissions.length ↔
      ∀ e ∈ emissions, endsInStart e.before = false := by
  have hcounted := length_counted_iff (emissions.map ofEmission)
  rw [List.length_map, List.forall_mem_map] at hcounted
  rw [found_eq_counted]
  exact hcounted

theorem found_eq (emissions : List (Emission room))
    (h : ∀ e ∈ emissions, endsInStart e.before = false) :
    found emissions = emissions.map Emission.value := by
  unfold found
  rw [List.filter_eq_self.mpr (by simpa using h)]

end

/-- The results of a batch are found among what else it prints exactly if nothing that is
printed before a result ends in the opening marker without its last one or two underscores. -/
theorem batch_framing_iff (str : Json → PyStr) {room : ℕ} (emissions : List (Emission room))
    {last : List CodePoint} (hlast : Unmarked last) (stderr : PyStr) :
    (parseAllWrapperOutputs room (framed emissions last) = .ok (emissions.map Emission.value) ∧
      batchOutcome str room emissions.length (.exited (framed emissions last) stderr 0) =
        .ok (emissions.map fun e => resultValue e.value)) ↔
    ∀ e ∈ emissions, endsInStart e.before = false := by
  have hparse := parseAll_framed emissions hlast
  constructor
  · rintro ⟨hall, -⟩
    have hfound := Except.ok.inj (hparse.symm.trans hall)
    rw [← length_found_iff, hfound, List.length_map]
  · intro h
    have hlength := (length_found_iff emissions).mpr h
    have herror : firstError 0 (found emissions) = none := by
      rw [found_eq_counted]
      exact firstError_counted _
    rw [batchOutcome_exited hparse, runBatchWrapper_returned str stderr herror hlength, hparse,
      found_eq emissions h, List.map_map]
    exact ⟨rfl, rfl⟩

/-- The text of a result. -/
def trueText : List CodePoint := lit "\x7b\"result\": true\x7d"

theorem dumps_trueText :
    dumps defaultStyle (.obj [("result", .bool true)]) 1000 = .ok trueText := by
  have htext : trueText = ch '{' :: (joinTexts [quote true "result" ++ lit ": " ++ lit "true"] ++
      [ch '}']) := by
    decide
  rw [htext]
  simp [dumps, dumpsMembers, defaultStyle, bind, Except.bind]

theorem isJson_true : IsJson (.obj [("result", .bool true)]) := by
  have hkey : ∀ c ∈ lit "result", Plain c := by
    unfold Plain
    decide
  refine ⟨1, .obj (List.nodup_singleton _) (fun item hitem => ?_) fun item hitem => ?_⟩
  · obtain rfl := List.mem_singleton.mp hitem
    exact unpaired_of_plain hkey
  · obtain rfl := List.mem_singleton.mp hitem
    exact .bool true

/-- A block before the last one is ignored. -/
theorem forged_block_ignored :
    parseWrapperOutput 1000 (block (lit "[]") ++ block trueText) =
      .ok (some [("result", .bool true)]) := by
  have hunmarked : Unmarked trueText := by decide +kernel
  exact (single_result_immune dumps_trueText).2.1 isJson_true hunmarked (block (lit "[]"))

/-- A program that prints the text and then its result. -/
def printing (before : List CodePoint) (h : Unmarked before) : Emission 1000 where
  before := before
  value := [("result", .bool true)]
  text := trueText
  text_eq := dumps_trueText
  isJson := isJson_true
  no_error := by decide
  before_unmarked := h
  text_unmarked := by decide +kernel

/-- Other text before the result. -/
theorem debug_print_ignored :
    parseAllWrapperOutputs 1000 (framed [printing (lit "x = 1") (by decide +kernel)] []) =
      .ok [[("result", .bool true)]] := by
  have hlast : Unmarked [] := by decide
  refine ((batch_framing_iff shown [printing (lit "x = 1") (by decide +kernel)] hlast "").mpr ?_).1
  intro e he
  obtain rfl := List.mem_singleton.mp he
  decide +kernel

/-- Text that ends in the opening marker without its last underscore hides the result. -/
theorem unfinished_marker_hides_result :
    ¬ parseAllWrapperOutputs 1000
        (framed [printing (lit "__JUDGE_RESULT_7f3a_") (by decide +kernel)] []) =
      .ok [[("result", .bool true)]] := by
  have hlast : Unmarked [] := by decide
  have hends : endsInStart (lit "__JUDGE_RESULT_7f3a_") = true := by decide +kernel
  rw [parseAll_framed _ hlast]
  simp [found, printing, hends]

end ExecutionEngine.ResultFraming
