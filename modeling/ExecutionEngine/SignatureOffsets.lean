import ExecutionEngine.SignatureDirectives

/-!
# Offsets in the blanked text

Blanking writes one character for each that it reads: the character itself or a blank. What
`parse_signature` finds in the blanked text stands at the same offsets in the text as
written, so the cut between the parentheses is the same cut in both.
-/
namespace ExecutionEngine.CSignature
open Pipeline TextScan

/-- The second text is the first with some characters blanked. -/
def Blanked (s t : Text) : Prop := List.Forall₂ (fun c d => d = c ∨ d = ch ' ') s t

theorem next_keeps (mode : Mode) (c : CodePoint) (rest : Text) :
    (mode.next c rest).1 = c ∨ (mode.next c rest).1 = ch ' ' := by
  have hblank : blank c = c ∨ blank c = ch ' ' := by
    unfold blank
    split_ifs
    · exact .inl rfl
    · exact .inr rfl
  cases mode with
  | blockOpen => exact .inr rfl
  | blockClose => exact .inr rfl
  | escaped quote => exact .inr rfl
  | code =>
    dsimp only [Mode.next]
    split_ifs <;> simp
  | line =>
    dsimp only [Mode.next]
    split_ifs <;> simp
  | block =>
    dsimp only [Mode.next]
    split_ifs
    · exact .inr rfl
    · exact hblank
  | literal quote =>
    dsimp only [Mode.next]
    split_ifs
    · exact .inl rfl
    · exact .inr rfl
    · exact hblank

theorem stripFrom_blanked (mode : Mode) (s : Text) : Blanked s (stripFrom mode s) := by
  induction s generalizing mode with
  | nil => exact .nil
  | cons c rest ih => exact .cons (next_keeps mode c rest) (ih _)

theorem stripComments_blanked (code : Text) : Blanked code (stripComments code) :=
  stripFrom_blanked .code code

theorem length_stripComments (code : Text) : (stripComments code).length = code.length :=
  length_transduce Mode.next .code code

section
variable {s t : Text} (h : Blanked s t)
include h

theorem Blanked.getElem? (i : ℕ) : t[i]? = s[i]? ∨ i < s.length ∧ t[i]? = some (ch ' ') := by
  induction h generalizing i with
  | nil => exact .inl rfl
  | cons hcd _ ih =>
    cases i with
    | zero =>
      rcases hcd with rfl | rfl
      · exact .inl rfl
      · exact .inr ⟨Nat.zero_lt_succ _, rfl⟩
    | succ i =>
      obtain heq | ⟨hlt, hblank⟩ := ih i
      · exact .inl heq
      · exact .inr ⟨Nat.succ_lt_succ hlt, hblank⟩

/-- What is not blank in the blanked text was there. -/
theorem Blanked.getElem?_eq_some {i : ℕ} {c : CodePoint} (hc : c ≠ ch ' ')
    (hi : t[i]? = some c) : s[i]? = some c := by
  obtain heq | ⟨-, hblank⟩ := h.getElem? i
  · rw [← heq, hi]
  · rw [hi] at hblank
    exact absurd (Option.some.inj hblank) hc

theorem Blanked.between (i j : ℕ) : Blanked (between s i j) (between t i j) :=
  List.forall₂_take _ (List.forall₂_drop _ h)

end

theorem matchingParen_close {depth k : ℕ} {s : Text} (h : matchingParen depth s = some k) :
    s[k]? = some (ch ')') := by
  induction s generalizing depth k with
  | nil => cases h
  | cons c rest ih =>
    have hlater : ∀ {d : ℕ}, (matchingParen d rest).map (· + 1) = some k →
        (c :: rest)[k]? = some (ch ')') := by
      intro d hd
      obtain ⟨n, hn, rfl⟩ := Option.map_eq_some_iff.mp hd
      exact ih hn
    unfold matchingParen at h
    split_ifs at h with hopen hclose hlast
    · exact hlater h
    · obtain rfl := Option.some.inj h
      rw [List.getElem?_cons_zero, hclose]
    · exact hlater h
    · exact hlater h

/-- A call ends with its parenthesis. -/
theorem callLength_open {name s : Text} {n : ℕ} (h : callLength name s = some n) :
    name.length < n ∧ s[n - 1]? = some (ch '(') := by
  rw [callLength, Option.bind_eq_some_iff] at h
  obtain ⟨rest, hafter, h⟩ := h
  split_ifs at h with hparen
  obtain rfl := Option.some.inj h
  obtain rfl := after_eq_some.mp hafter
  have hrest : rest = rest.takeWhile isSpace ++ rest.dropWhile isSpace :=
    List.takeWhile_append_dropWhile.symm
  refine ⟨by omega, ?_⟩
  rw [Nat.add_sub_cancel, List.getElem?_append_right (by omega), Nat.add_sub_cancel_left]
  generalize rest.takeWhile isSpace = blanks at hrest
  rw [hrest, List.getElem?_append_right le_rfl, Nat.sub_self, ← List.head?_eq_getElem?, hparen]

theorem finditer_call {w : WordClass} {name s : Text} {skip i : ℕ} {before : Option CodePoint}
    {m : Match} (h : m ∈ finditer w name skip i before s) :
    ∃ k n, m = ⟨i + k, i + k + n⟩ ∧ callLength name (s.drop k) = some n := by
  induction s generalizing skip i before with
  | nil => cases skip <;> cases h
  | cons c rest ih =>
    have hlater : ∀ {skip : ℕ}, m ∈ finditer w name skip (i + 1) (some c) rest →
        ∃ k n, m = ⟨i + k, i + k + n⟩ ∧ callLength name ((c :: rest).drop k) = some n := by
      intro skip hm
      obtain ⟨k, n, rfl, hn⟩ := ih hm
      exact ⟨k + 1, n, by rw [Nat.add_assoc, Nat.add_comm 1 k], hn⟩
    cases skip with
    | succ skip => exact hlater h
    | zero =>
      rw [finditer] at h
      split_ifs at h
      · cases hcall : callLength name (c :: rest) with
        | none =>
          rw [hcall] at h
          exact hlater h
        | some n =>
          rw [hcall] at h
          rcases List.mem_cons.mp h with rfl | hm
          · exact ⟨0, n, rfl, hcall⟩
          · exact hlater hm
      · exact hlater h

/-- The places of a definition: the name begins before its parenthesis, which is closed at
the last of them. -/
theorem findDefinition_places {w : WordClass} {clean name : Text} {d : Found}
    (h : findDefinition w clean name = some d) :
    d.start + name.length ≤ d.openIndex ∧ clean[d.openIndex]? = some (ch '(') ∧
      d.openIndex < d.closeIndex ∧ clean[d.closeIndex]? = some (ch ')') := by
  obtain ⟨m, hm, hd⟩ := List.exists_of_findSome?_eq_some h
  obtain ⟨⟨close, returnType⟩, hdef, rfl⟩ := Option.map_eq_some_iff.mp hd
  obtain ⟨k, n, rfl, hcall⟩ := finditer_call hm
  obtain ⟨hlength, hopen⟩ := callLength_open hcall
  rw [List.getElem?_drop] at hopen
  obtain ⟨distance, hparen, hdef⟩ := Option.bind_eq_some_iff.mp hdef
  have hclose := matchingParen_close hparen
  rw [List.getElem?_drop] at hclose
  obtain rfl : close = 0 + k + n - 1 + distance := by
    dsimp only at hdef
    split_ifs at hdef
    exact (congrArg Prod.fst (Option.some.inj hdef)).symm
  dsimp only
  have hplace : 0 + k + n - 1 = k + (n - 1) := by omega
  rw [hplace] at hclose ⊢
  refine ⟨by omega, hopen, ?_, hclose⟩
  -- the two parentheses are not one character
  have hne : distance ≠ 0 := by
    rintro rfl
    rw [Nat.add_zero, hopen] at hclose
    exact absurd (Option.some.inj hclose) (by decide)
  omega

/-- Blanking keeps offsets: the text keeps its length, each character stays or becomes a
blank, and blanking again changes nothing. The parentheses of a definition found in the
blanked text stand at the same offsets in the text as written, and what is cut out between
any two offsets there is blanked to what is cut out here. -/
theorem stripComments_keeps_offsets (w : WordClass) (code name : Text) :
    (stripComments code).length = code.length ∧
      (∀ i (hi : i < code.length), (stripComments code)[i]? = some code[i] ∨
        (stripComments code)[i]? = some (ch ' ')) ∧
      stripComments (stripComments code) = stripComments code ∧
      (∀ i j, Blanked (between code i j) (between (stripComments code) i j)) ∧
      ∀ d, findDefinition w (stripComments code) name = some d →
        d.start + name.length ≤ d.openIndex ∧ d.openIndex < d.closeIndex ∧
          code[d.openIndex]? = some (ch '(') ∧ code[d.closeIndex]? = some (ch ')') := by
  have hblanked := stripComments_blanked code
  refine ⟨length_stripComments code, ?_, stripComments_idempotent code,
    hblanked.between, ?_⟩
  · intro i hi
    obtain heq | ⟨-, hblank⟩ := hblanked.getElem? i
    · rw [heq, List.getElem?_eq_getElem hi]
      exact .inl rfl
    · exact .inr hblank
  · intro d hd
    obtain ⟨hstart, hopen, hlt, hclose⟩ := findDefinition_places hd
    exact ⟨hstart, hlt, hblanked.getElem?_eq_some (by decide) hopen,
      hblanked.getElem?_eq_some (by decide) hclose⟩

theorem stripComments_keeps_offsets_default :
    findDefinition asciiWords (stripComments commentedDefault) (text "add") =
        some ⟨11, 14, 43, text "int"⟩ ∧
      commentedDefault[14]? = some (ch '(') ∧ commentedDefault[43]? = some (ch ')') ∧
      (stripComments commentedDefault)[31]? = some (ch ' ') := by
  have hfound : findDefinition asciiWords (stripComments commentedDefault) (text "add") =
      some ⟨11, 14, 43, text "int"⟩ := by decide +kernel
  obtain ⟨-, hchars, -, -, hplaces⟩ :=
    stripComments_keeps_offsets asciiWords commentedDefault (text "add")
  obtain ⟨-, -, hopen, hclose⟩ := hplaces _ hfound
  refine ⟨hfound, hopen, hclose, ?_⟩
  -- the parenthesis of the literal is blanked
  have hne : (stripComments commentedDefault)[31]? ≠
      some (commentedDefault.get ⟨31, by decide⟩) := by decide +kernel
  exact (hchars 31 (by decide)).resolve_left hne

end ExecutionEngine.CSignature
