import Mathlib.Data.List.TakeWhile
import Mathlib.Tactic

/-!
# Scanning a text

A text is a list over any alphabet. It is cut into words at the characters of a
separating class, trimmed at both ends, and looked through from the left. What a scan
finds in a part of a text is related here to what it finds in the whole.
-/
namespace ExecutionEngine.TextScan

variable {α : Type*}

/-- The words between the separators; two separators have no word between them. -/
def words (sep : α → Bool) (s : List α) : List (List α) :=
  (s.splitOnP sep).filter fun w => !w.isEmpty

theorem words_append_cons {sep : α → Bool} {x : List α} (hx : ∀ c ∈ x, sep c = false)
    (hne : x ≠ []) {d : α} (hd : sep d = true) (s : List α) :
    words sep (x ++ d :: s) = x :: words sep s := by
  rw [words, List.splitOnP_append_cons_of_forall_mem hx d hd, List.filter_cons_of_pos (by simpa),
    words]

theorem words_singleton {sep : α → Bool} {x : List α} (hx : ∀ c ∈ x, sep c = false)
    (hne : x ≠ []) : words sep x = [x] := by
  rw [words, List.splitOnP_eq_singleton hx, List.filter_cons_of_pos (by simpa), List.filter_nil]

theorem mem_splitOnP {sep : α → Bool} {s x : List α} (h : x ∈ s.splitOnP sep) :
    ∀ c ∈ x, sep c = false := by
  induction s generalizing x with
  | nil =>
    obtain rfl : x = [] := by simpa using h
    exact List.forall_mem_nil _
  | cons d s ih =>
    rw [List.splitOnP_cons_eq_if_modifyHead] at h
    split_ifs at h with hd
    · rcases List.mem_cons.mp h with rfl | hx
      · exact List.forall_mem_nil _
      · exact ih hx
    · obtain ⟨y, ys, hys⟩ := List.exists_cons_of_ne_nil (List.splitOnP_ne_nil sep s)
      rw [hys, List.modifyHead_cons] at h
      rcases List.mem_cons.mp h with rfl | hx
      · refine List.forall_mem_cons.mpr ⟨by simpa using hd, ih ?_⟩
        rw [hys]
        exact List.mem_cons_self
      · refine ih ?_
        rw [hys]
        exact List.mem_cons_of_mem y hx

/-- A word has something in it, and no separator. -/
theorem mem_words {sep : α → Bool} {s x : List α} (h : x ∈ words sep s) :
    x ≠ [] ∧ ∀ c ∈ x, sep c = false := by
  obtain ⟨hmem, hne⟩ := List.mem_filter.mp h
  exact ⟨by simpa using hne, mem_splitOnP hmem⟩

/-- A text that begins with a word has one. -/
theorem words_ne_nil {sep : α → Bool} {c : α} (hc : sep c = false) (s : List α) :
    words sep (c :: s) ≠ [] := by
  have hword : ∀ d ∈ (c :: s).takeWhile (fun d => !sep d), sep d = false := by
    intro d hd
    simpa using List.mem_takeWhile_imp hd
  have hne : (c :: s).takeWhile (fun d => !sep d) ≠ [] := by
    rw [List.takeWhile_cons_of_pos (by simp [hc])]
    exact List.cons_ne_nil _ _
  rw [← List.takeWhile_append_dropWhile (p := fun d => !sep d) (l := c :: s)]
  cases hrest : (c :: s).dropWhile fun d => !sep d with
  | nil =>
    rw [List.append_nil, words_singleton hword hne]
    exact List.cons_ne_nil _ _
  | cons d rest =>
    have hd : sep d = true := by
      have hhead := List.head?_dropWhile_not (fun d => !sep d) (c :: s)
      rw [hrest] at hhead
      simpa using hhead
    rw [words_append_cons hword hne hd]
    exact List.cons_ne_nil _ _

/-- The text without the separators at its ends. -/
def trim (sep : α → Bool) (s : List α) : List α :=
  ((s.dropWhile sep).reverse.dropWhile sep).reverse

section Trim
variable {sep : α → Bool}

theorem trim_append_left {a : List α} (ha : ∀ c ∈ a, sep c = true) (s : List α) :
    trim sep (a ++ s) = trim sep s := by
  rw [trim, trim, List.dropWhile_append_of_pos ha]

theorem trim_append_right {b : List α} (hb : ∀ c ∈ b, sep c = true) (s : List α) :
    trim sep (s ++ b) = trim sep s := by
  have hback : ∀ c ∈ b.reverse, sep c = true := fun c hc => hb c (List.mem_reverse.mp hc)
  rw [trim, trim, List.dropWhile_append]
  split_ifs with h
  · rw [List.isEmpty_iff.mp h, List.dropWhile_eq_nil_iff.mpr hb]
  · rw [List.reverse_append, List.dropWhile_append_of_pos hback]

theorem trim_eq_self {s : List α} (hhead : ∀ c ∈ s.head?, sep c = false)
    (hlast : ∀ c ∈ s.getLast?, sep c = false) : trim sep s = s := by
  have hkeep : ∀ {t : List α}, (∀ c ∈ t.head?, sep c = false) → t.dropWhile sep = t := by
    intro t ht
    cases t with
    | nil => rfl
    | cons c t => exact List.dropWhile_cons_of_neg (by simp [ht c rfl])
  rw [trim, hkeep hhead, hkeep (by simpa using hlast), List.reverse_reverse]

/-- The text is what is left of it, between separators. -/
theorem exists_trim (sep : α → Bool) (s : List α) :
    ∃ a b, s = a ++ trim sep s ++ b ∧ (∀ c ∈ a, sep c = true) ∧ ∀ c ∈ b, sep c = true := by
  let front := s.dropWhile sep
  refine ⟨s.takeWhile sep, (front.reverse.takeWhile sep).reverse, ?_, ?_, ?_⟩
  · have hfront : trim sep s ++ (front.reverse.takeWhile sep).reverse = front := by
      rw [trim, ← List.reverse_append, List.takeWhile_append_dropWhile, List.reverse_reverse]
    rw [List.append_assoc, hfront, List.takeWhile_append_dropWhile]
  · exact fun c hc => List.mem_takeWhile_imp hc
  · exact fun c hc => List.mem_takeWhile_imp (List.mem_reverse.mp hc)

theorem head?_trim {s : List α} : ∀ c ∈ (trim sep s).head?, sep c = false := by
  intro c hc
  have hfront : trim sep s <+: s.dropWhile sep := by
    rw [← List.reverse_suffix, trim, List.reverse_reverse]
    exact List.dropWhile_suffix sep
  obtain ⟨t, ht⟩ := hfront
  obtain ⟨x, hx⟩ := List.head?_eq_some_iff.mp hc
  have hhead := List.head?_dropWhile_not sep s
  rw [← ht, hx] at hhead
  exact Bool.eq_false_iff.mpr (by simpa using hhead)

theorem getLast?_trim {s : List α} : ∀ c ∈ (trim sep s).getLast?, sep c = false := by
  intro c hc
  rw [trim, List.getLast?_reverse] at hc
  have hhead := List.head?_dropWhile_not sep (s.dropWhile sep).reverse
  rw [Option.mem_def.mp hc] at hhead
  exact Bool.eq_false_iff.mpr (by simpa using hhead)

theorem trim_trim (s : List α) : trim sep (trim sep s) = trim sep s :=
  trim_eq_self head?_trim getLast?_trim

theorem trim_eq_nil_iff {s : List α} : trim sep s = [] ↔ ∀ c ∈ s, sep c = true := by
  constructor
  · intro h
    obtain ⟨a, b, hs, ha, hb⟩ := exists_trim sep s
    rw [h, List.append_nil] at hs
    intro c hc
    rw [hs] at hc
    exact (List.mem_append.mp hc).elim (ha c) (hb c)
  · intro h
    rw [← List.append_nil s, trim_append_left h]
    rfl

/-- Trimming takes nothing but separators. -/
theorem length_le_trim {a : List α} (ha : ∀ c ∈ a, sep c = false) (s : List α) :
    a.length ≤ (trim sep (a ++ s)).length := by
  have hnone : ∀ {x : List α}, (∀ c ∈ x, sep c = true) → x.countP (fun c => !sep c) = 0 := by
    intro x hx
    rw [List.countP_eq_zero]
    intro c hc
    simp [hx c hc]
  have hall : a.countP (fun c => !sep c) = a.length := by
    rw [List.countP_eq_length]
    intro c hc
    simp [ha c hc]
  obtain ⟨x, y, hs, hx, hy⟩ := exists_trim sep (a ++ s)
  have hcount := congrArg (List.countP fun c => !sep c) hs
  rw [List.countP_append, List.countP_append, List.countP_append, hnone hx, hnone hy, hall]
    at hcount
  have : (trim sep (a ++ s)).countP (fun c => !sep c) ≤ _ := List.countP_le_length
  omega

/-- A beginning that no separator ends is found in the trimmed text as well. -/
theorem trim_takeWhile_trim {p : α → Bool} (hp : ∀ c, sep c = true → p c = true) (s : List α) :
    trim sep ((trim sep s).takeWhile p) = trim sep (s.takeWhile p) := by
  obtain ⟨a, b, hs, ha, hb⟩ := exists_trim sep s
  generalize trim sep s = t at hs
  subst hs
  rw [List.append_assoc, List.takeWhile_append_of_pos fun c hc => hp c (ha c hc),
    trim_append_left ha, List.takeWhile_append]
  split_ifs with h
  · rw [List.takeWhile_eq_self_iff.mpr fun c hc => hp c (hb c hc), trim_append_right hb,
      (List.takeWhile_prefix p).eq_of_length h]
  · rfl

end Trim

section While
variable {p : α → Bool} {v : List α} {c : α} (hc : c ∈ v) (hp : p c = false)
include hc hp

theorem takeWhile_append_of_mem (r : List α) : (v ++ r).takeWhile p = v.takeWhile p := by
  have hlength : (v.takeWhile p).length ≠ v.length := by
    intro h
    have hself := (List.takeWhile_prefix p).eq_of_length h
    have := List.takeWhile_eq_self_iff.mp hself c hc
    rw [hp] at this
    cases this
  rw [List.takeWhile_append, if_neg hlength]

theorem dropWhile_ne_nil_of_mem : v.dropWhile p ≠ [] := by
  intro h
  have := List.dropWhile_eq_nil_iff.mp h c hc
  rw [hp] at this
  cases this

theorem dropWhile_append_of_mem (r : List α) : (v ++ r).dropWhile p = v.dropWhile p ++ r := by
  rw [List.dropWhile_append, if_neg]
  rw [List.isEmpty_iff]
  exact dropWhile_ne_nil_of_mem hc hp

end While

/-- Dropping a beginning stops at the first character that is not dropped. -/
theorem exists_dropWhile {p : α → Bool} (t : List α) {x : α} (hx : p x = false) (z : List α) :
    ∃ t', t' <:+ t ∧ (t ++ x :: z).dropWhile p = t' ++ x :: z := by
  induction t with
  | nil => exact ⟨[], List.suffix_rfl, List.dropWhile_cons_of_neg (by simp [hx])⟩
  | cons c t ih =>
    obtain ⟨t', ht', hdrop⟩ := ih
    cases hc : p c with
    | true =>
      refine ⟨t', ht'.trans (List.suffix_cons c t), ?_⟩
      rw [List.cons_append, List.dropWhile_cons_of_pos hc, hdrop]
    | false => exact ⟨c :: t, List.suffix_rfl, List.dropWhile_cons_of_neg (by simp [hc])⟩

/-- A cut behind a character that `a` has not. -/
theorem suffix_of_mem {a b t u : List α} {x : α} (h : a ++ b = t ++ u) (hx : x ∈ t)
    (ha : x ∉ a) : u <:+ b := by
  obtain ⟨v, rfl, hb⟩ | ⟨v, rfl, -⟩ := List.append_eq_append_iff.mp h
  · exact ⟨v, hb.symm⟩
  · exact absurd (List.mem_append_left v hx) ha

/-- What follows a given beginning. -/
def after [DecidableEq α] (head s : List α) : Option (List α) :=
  if head.isPrefixOf s then some (s.drop head.length) else none

theorem after_eq_some [DecidableEq α] {head s rest : List α} :
    after head s = some rest ↔ s = head ++ rest := by
  rw [after]
  constructor
  · intro h
    split_ifs at h with hhead
    obtain ⟨t, rfl⟩ := List.isPrefixOf_iff_prefix.mp hhead
    rw [List.drop_left] at h
    rw [Option.some.inj h]
  · rintro rfl
    rw [if_pos (List.isPrefixOf_iff_prefix.mpr ⟨rest, rfl⟩), List.drop_left]

theorem after_append [DecidableEq α] {head s : List α} (h : head.length ≤ s.length) (r : List α) :
    after head (s ++ r) = (after head s).map (· ++ r) := by
  cases hs : after head s with
  | some rest =>
    rw [after_eq_some.mp hs, List.append_assoc, Option.map_some, after_eq_some]
  | none =>
    rw [Option.map_none, Option.eq_none_iff_forall_ne_some]
    intro rest hrest
    have hhead : head <+: s ++ r := ⟨rest, (after_eq_some.mp hrest).symm⟩
    obtain ⟨t, ht⟩ := List.prefix_of_prefix_length_le hhead (List.prefix_append s r) h
    rw [after_eq_some.mpr ht.symm] at hs
    cases hs

/-- Rewriting a text character by character, with a state and a view of what follows. -/
def transduce {σ : Type*} (next : σ → α → List α → α × σ) : σ → List α → List α
  | _, [] => []
  | state, c :: rest => (next state c rest).1 :: transduce next (next state c rest).2 rest

theorem length_transduce {σ : Type*} (next : σ → α → List α → α × σ) (state : σ) (s : List α) :
    (transduce next state s).length = s.length := by
  induction s generalizing state with
  | nil => rfl
  | cons c rest ih => rw [transduce, List.length_cons, List.length_cons, ih]

/-- The words, put together with one separator between two of them. -/
def unwords (sep : α) (ws : List (List α)) : List α := [sep].intercalate ws

theorem exists_unwords_cons (sep : α) (x : List α) (ws : List (List α)) :
    ∃ s, unwords sep (x :: ws) = x ++ s := by
  cases ws with
  | nil => exact ⟨[], by simp [unwords, List.intercalate]⟩
  | cons y ws =>
    refine ⟨sep :: unwords sep (y :: ws), ?_⟩
    rw [unwords, List.intercalate_cons_cons, List.append_assoc]
    rfl

theorem unwords_ne_nil {sep : α} {ws : List (List α)} (hne : ws ≠ []) (hws : ∀ x ∈ ws, x ≠ []) :
    unwords sep ws ≠ [] := by
  obtain ⟨x, ws, rfl⟩ := List.exists_cons_of_ne_nil hne
  obtain ⟨s, hs⟩ := exists_unwords_cons sep x ws
  rw [hs]
  exact List.append_ne_nil_of_left_ne_nil (hws x (by simp)) s

/-- Words that are put together end with the last character of the last of them. -/
theorem getLast?_unwords {sep : α} {ws : List (List α)} (hne : ∀ x ∈ ws, x ≠ []) :
    ∀ c ∈ (unwords sep ws).getLast?, ∃ x ∈ ws, c ∈ x := by
  induction ws with
  | nil => exact fun c hc => by cases hc
  | cons x ws ih =>
    intro c hc
    cases ws with
    | nil =>
      rw [unwords, List.intercalate_singleton] at hc
      exact ⟨x, by simp, List.mem_of_getLast? hc⟩
    | cons y ws =>
      have hrest : unwords sep (y :: ws) ≠ [] :=
        unwords_ne_nil (by simp) fun z hz => hne z (List.mem_cons_of_mem x hz)
      rw [unwords, List.intercalate_cons_cons] at hc
      change c ∈ (x ++ [sep] ++ unwords sep (y :: ws)).getLast? at hc
      rw [List.getLast?_append_of_ne_nil _ hrest] at hc
      obtain ⟨z, hz, hcz⟩ := ih (fun z hz => hne z (by simp [hz])) c hc
      exact ⟨z, List.mem_cons_of_mem x hz, hcz⟩

/-- Words that are put together begin and end with a character of a word. -/
theorem trim_unwords {sep : α → Bool} {d : α} {ws : List (List α)}
    (hws : ∀ x ∈ ws, x ≠ [] ∧ ∀ c ∈ x, sep c = false) :
    trim sep (unwords d ws) = unwords d ws := by
  refine trim_eq_self ?_ fun c hc => ?_
  · cases ws with
    | nil => simp [unwords]
    | cons x ws =>
      obtain ⟨hne, hx⟩ := hws x (by simp)
      obtain ⟨e, x', rfl⟩ := List.exists_cons_of_ne_nil hne
      obtain ⟨s, hs⟩ := exists_unwords_cons d (e :: x') ws
      rw [hs]
      intro c hc
      obtain rfl : e = c := by simpa using hc
      exact hx e (by simp)
  · obtain ⟨x, hx, hcx⟩ := getLast?_unwords (fun x hx => (hws x hx).1) c hc
    exact (hws x hx).2 c hcx

/-- Separators at the beginning are not in a word. -/
theorem words_append_left {sep : α → Bool} {a : List α} (ha : ∀ c ∈ a, sep c = true) (s : List α) :
    words sep (a ++ s) = words sep s := by
  induction a with
  | nil => rfl
  | cons d a ih =>
    have hfirst : words sep ([] ++ d :: (a ++ s)) = words sep (a ++ s) := by
      rw [words, List.splitOnP_append_cons_of_forall_mem (List.forall_mem_nil _) d (ha d (by simp))]
      rfl
    rw [List.cons_append, ← List.nil_append (d :: (a ++ s)), hfirst,
      ih fun c hc => ha c (by simp [hc])]

section Fields
variable {sep : α → Bool}

/-- The parts without the separators at their ends, and without the blank ones. -/
def fields (sep : α → Bool) (parts : List (List α)) : List (List α) :=
  (parts.map (trim sep)).filter fun x => !x.isEmpty

theorem fields_cons (x : List α) (parts : List (List α)) :
    fields sep (x :: parts) = fields sep [x] ++ fields sep parts := by
  rw [fields, fields, fields, ← List.filter_append, ← List.map_append]
  rfl

theorem fields_congr {x y : List α} (h : trim sep x = trim sep y) :
    fields sep [x] = fields sep [y] := by
  rw [fields, List.map_singleton, h]
  rfl

theorem mem_fields {parts : List (List α)} {x : List α} :
    x ∈ fields sep parts ↔ x ≠ [] ∧ ∃ part ∈ parts, trim sep part = x := by
  rw [fields, List.mem_filter, List.mem_map, and_comm]
  simp

variable [DecidableEq α] {cut : α}

/-- The parts of a text between the places where it is cut, the first of them begun. -/
def cuts (cut : α) (current : List α) : List α → List (List α)
  | [] => [current]
  | c :: rest => if c = cut then current :: cuts cut [] rest else cuts cut (current ++ [c]) rest

theorem cuts_of_not_mem {s : List α} (hs : cut ∉ s) (current : List α) :
    cuts cut current s = [current ++ s] := by
  induction s generalizing current with
  | nil => rw [cuts, List.append_nil]
  | cons c rest ih =>
    rw [cuts, if_neg fun h => hs (by simp [h]), ih fun h => hs (by simp [h]), List.append_assoc]
    rfl

theorem exists_cuts_cons (cut : α) (current s : List α) :
    ∃ x parts, cuts cut current s = (current ++ x) :: parts := by
  induction s generalizing current with
  | nil => exact ⟨[], [], by rw [cuts, List.append_nil]⟩
  | cons c rest ih =>
    rw [cuts]
    split_ifs
    · exact ⟨[], _, by rw [List.append_nil]⟩
    · obtain ⟨x, parts, h⟩ := ih (current ++ [c])
      exact ⟨c :: x, parts, by rw [h, List.append_assoc]; rfl⟩

theorem mem_of_mem_cuts {current s part : List α} (h : part ∈ cuts cut current s) :
    ∀ c ∈ part, c ∈ current ++ s := by
  induction s generalizing current with
  | nil =>
    obtain rfl := List.mem_singleton.mp h
    simp
  | cons d rest ih =>
    intro c hc
    rw [cuts] at h
    split_ifs at h
    · rcases List.mem_cons.mp h with rfl | h
      · simp [hc]
      · have := ih h c hc
        simp_all
    · have := ih h c hc
      simp_all

theorem fields_append_left {a : List α} (ha : ∀ c ∈ a, sep c = true) (current s : List α) :
    fields sep (cuts cut (a ++ current) s) = fields sep (cuts cut current s) := by
  have hfirst : ∀ x, fields sep [a ++ x] = fields sep [x] :=
    fun x => fields_congr (trim_append_left ha x)
  induction s generalizing current with
  | nil => exact hfirst current
  | cons c rest ih =>
    rw [cuts, cuts]
    split_ifs
    · rw [fields_cons, hfirst, ← fields_cons]
    · rw [List.append_assoc, ih]

theorem fields_blank {b : List α} (hb : ∀ c ∈ b, sep c = true) (current : List α) :
    fields sep (cuts cut current b) = fields sep [current] := by
  induction b generalizing current with
  | nil => rfl
  | cons c b ih =>
    have hrest : ∀ d ∈ b, sep d = true := fun d hd => hb d (by simp [hd])
    rw [cuts]
    split_ifs
    · rw [fields_cons, ih hrest]
      exact List.append_nil _
    · rw [ih hrest]
      exact fields_congr (trim_append_right (by simpa using hb c (by simp)) current)

theorem fields_append_right {b : List α} (hb : ∀ c ∈ b, sep c = true) (current s : List α) :
    fields sep (cuts cut current (s ++ b)) = fields sep (cuts cut current s) := by
  induction s generalizing current with
  | nil => exact fields_blank hb current
  | cons c rest ih =>
    rw [List.cons_append, cuts, cuts]
    split_ifs
    · rw [fields_cons, ih, ← fields_cons]
    · rw [ih]

theorem fields_skip {a current : List α} (ha : ∀ c ∈ a, sep c = true)
    (hcurrent : ∀ c ∈ current, sep c = true) (s : List α) :
    fields sep (cuts cut current (a ++ s)) = fields sep (cuts cut [] s) := by
  induction a generalizing current with
  | nil =>
    rw [List.nil_append, ← List.append_nil current]
    exact fields_append_left hcurrent [] s
  | cons c a ih =>
    have hrest : ∀ d ∈ a, sep d = true := fun d hd => ha d (by simp [hd])
    have hblank : fields sep [current] = [] := by
      rw [fields, List.map_singleton, trim_eq_nil_iff.mpr hcurrent]
      rfl
    rw [List.cons_append, cuts]
    split_ifs
    · rw [fields_cons, hblank, ih hrest (List.forall_mem_nil _), List.nil_append]
    · refine ih hrest fun d hd => ?_
      rcases List.mem_append.mp hd with hd | hd
      · exact hcurrent d hd
      · exact List.mem_singleton.mp hd ▸ ha c (by simp)

/-- It makes no difference whether the whole is trimmed before it is cut. -/
theorem fields_trim (s : List α) :
    fields sep (cuts cut [] (trim sep s)) = fields sep (cuts cut [] s) := by
  obtain ⟨a, b, hs, ha, hb⟩ := exists_trim sep s
  generalize trim sep s = t at hs
  subst hs
  rw [fields_append_right hb, fields_skip ha (List.forall_mem_nil _)]

end Fields

end ExecutionEngine.TextScan
