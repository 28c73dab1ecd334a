import ExecutionEngine.Nesting
import ExecutionEngine.RegexSignature

/-!
# Cutting a list at its own commas

The executors for C and C++, Go and Rust cut a parameter list at the commas outside
brackets: one counts all brackets together, the others each kind by itself. On nested parts
both have the depth of the brackets that are open, so joining and cutting are inverse. The
grouped parameters of Go are then read back group by group.
-/
namespace ExecutionEngine.TopLevelSplit
open Pipeline TextScan CSignature RegexSignature Nesting

def cBrackets : Brackets CodePoint where
  pairs := [(ch '<', ch '>'), (ch '(', ch ')'), (ch '[', ch ']'), (ch '\x7b', ch '\x7d')]
  nodup := by decide

def goBrackets : Brackets CodePoint where
  pairs := [(ch '(', ch ')'), (ch '[', ch ']'), (ch '\x7b', ch '\x7d')]
  nodup := by decide

def rustBrackets : Brackets CodePoint where
  pairs := [(ch '<', ch '>'), (ch '(', ch ')'), (ch '[', ch ']')]
  nodup := by decide

/-- A part of a list: neither empty nor with blanks at its ends, well nested, with commas
only inside brackets. -/
structure Segment (b : Brackets CodePoint) (s : Text) : Prop where
  nonempty : s ≠ []
  trimmed : trim isSpace s = s
  nested : b.Nested (ch ',') [] s = true

/-- `", ".join` -/
def joined (segments : List Text) : Text := (text ", ").intercalate segments

theorem joined_singleton (s : Text) : joined [s] = s := List.intercalate_singleton

theorem joined_cons_cons (s t : Text) (segments : List Text) :
    joined (s :: t :: segments) = s ++ (text ", " ++ joined (t :: segments)) := by
  rw [joined, List.intercalate_cons_cons, List.append_assoc, joined]

/-- What a splitter does, with the open brackets for its depth: it keeps a character, or it
cuts at a comma outside brackets and trims what it has. -/
structure Splitter (b : Brackets CodePoint) (scan : Text → List CodePoint → Text → List Text) :
    Prop where
  keep : ∀ {current stack stack' : Text} {c : CodePoint} (rest : Text),
    (∀ x ∈ stack, b.IsClosing x) → (c = ch ',' → stack ≠ []) → b.push stack c = some stack' →
    scan current stack (c :: rest) = scan (current ++ [c]) stack' rest
  cut : ∀ {current : Text} (rest : Text), trim isSpace current ≠ [] →
    scan current [] (ch ',' :: rest) = trim isSpace current :: scan [] [] rest
  stop : ∀ current, scan current [] [] = piece current
  blank : b.push [] (ch ' ') = some []

section
variable {b : Brackets CodePoint} {scan : Text → List CodePoint → Text → List Text}
  (hscan : Splitter b scan)
include hscan

theorem Splitter.nested {s : Text} (hs : b.Nested (ch ',') [] s = true) {current : Text}
    (rest : Text) : scan current [] (s ++ rest) = scan (current ++ s) [] rest :=
  Brackets.Nested.scan hscan.keep (List.forall_mem_nil _) hs current rest

/-- The parts of a list, after blanks that belong to none of them. -/
theorem Splitter.join {segments : List Text} (hs : ∀ s ∈ segments, Segment b s) {blanks : Text}
    (hblanks : ∀ c ∈ blanks, isSpace c = true) : scan blanks [] (joined segments) = segments := by
  induction segments generalizing blanks with
  | nil =>
    have hnil := trim_eq_nil_iff.mpr hblanks
    rw [joined, List.intercalate_nil, hscan.stop, piece, if_pos hnil]
  | cons s segments ih =>
    have hsegment := hs s (by simp)
    have hrest : ∀ t ∈ segments, Segment b t := fun t ht => hs t (by simp [ht])
    have htrim : trim isSpace (blanks ++ s) = s := by
      rw [trim_append_left hblanks, hsegment.trimmed]
    have hne : trim isSpace (blanks ++ s) ≠ [] := by
      rw [htrim]
      exact hsegment.nonempty
    cases segments with
    | nil =>
      rw [joined_singleton, ← List.append_nil s, hscan.nested hsegment.nested,
        hscan.stop, piece, if_neg hne, htrim, List.append_nil]
    | cons t segments =>
      have hcut : scan [] [] (ch ' ' :: joined (t :: segments)) = t :: segments := by
        rw [hscan.keep _ (List.forall_mem_nil _) (by decide) hscan.blank, List.nil_append]
        exact ih hrest (by decide)
      rw [joined_cons_cons, hscan.nested hsegment.nested]
      change scan (blanks ++ s) [] (ch ',' :: ch ' ' :: joined (t :: segments)) = _
      rw [hscan.cut _ hne, hcut, htrim]

end

theorem depthAfter_push {stack stack' : Text} {c : CodePoint}
    (h : cBrackets.push stack c = some stack') : depthAfter stack.length c = stack'.length := by
  have hopening : cBrackets.pairs.map Prod.fst = text "<([\x7b" := by decide
  have hopens : ∀ {c : CodePoint}, opens c = true ↔ ∃ p ∈ cBrackets.pairs, p.1 = c := by
    intro c
    rw [opens, decide_eq_true_iff, ← hopening, List.mem_map]
  have hcloses : ∀ {c : CodePoint}, closes c = true ↔ cBrackets.IsClosing c := decide_eq_true_iff
  unfold depthAfter
  obtain ⟨p, hp, rfl, rfl⟩ | ⟨hclose, rfl⟩ | ⟨hopen, hclose, rfl⟩ := Brackets.push_cases h
  · rw [if_pos (hopens.mpr ⟨p, hp, rfl⟩), List.length_cons]
  · rw [if_neg, if_pos (hcloses.mpr hclose), List.length_cons, Nat.add_sub_cancel]
    intro hopen
    obtain ⟨p, hp, hpc⟩ := hopens.mp hopen
    exact Brackets.fst_ne_of_isClosing hp hclose hpc
  · rw [if_neg, if_neg (hcloses.not.mpr hclose)]
    intro hc
    obtain ⟨p, hp, hpc⟩ := hopens.mp hc
    exact hopen p hp hpc

/-- A character that the stack keeps waiting at is not cut at. -/
theorem push_comma {b : Brackets CodePoint} (hcomma : b.push [] (ch ',') = some [])
    {stack stack' : Text} {c : CodePoint} (hc : c = ch ',' → stack ≠ [])
    (h : b.push stack c = some stack') : c = ch ',' → stack' ≠ [] := by
  rintro rfl rfl
  obtain ⟨p, -, -, hcons⟩ | ⟨hclose, -⟩ | ⟨-, -, heq⟩ := Brackets.push_cases h
  · cases hcons
  · obtain ⟨p, -, -, hcons⟩ | ⟨-, hcons⟩ | ⟨-, hnot, -⟩ := Brackets.push_cases hcomma
    · cases hcons
    · cases hcons
    · exact hnot hclose
  · exact hc rfl heq.symm

theorem c_splitter :
    Splitter cBrackets fun current stack s => splitFrom current stack.length s where
  keep := by
    intro current stack stack' c rest _ hc hpush
    have hdepth := depthAfter_push hpush
    rw [splitFrom, hdepth, if_neg]
    rintro ⟨rfl, hzero⟩
    exact push_comma (by decide) hc hpush rfl (List.length_eq_zero_iff.mp hzero)
  cut := by
    intro current rest _
    rw [List.length_nil, splitFrom, if_pos (by decide)]
  stop := fun current => rfl
  blank := by decide

/-- The depths of each kind of bracket. -/
def depths (b : Brackets CodePoint) (stack : Text) : List ℕ :=
  b.pairs.map fun p => stack.count p.2

theorem depthsAfter_push {b : Brackets CodePoint} {stack stack' : Text} {c : CodePoint}
    (h : b.push stack c = some stack') :
    depthsAfter b.pairs (depths b stack) c = depths b stack' := by
  rw [depthsAfter, depths, depths, List.zipWith_map_right, List.zipWith_self]
  exact List.map_congr_left fun p hp => Brackets.count_push h hp

theorem pieces_splitter {b : Brackets CodePoint} (hcomma : b.push [] (ch ',') = some [])
    (hblank : b.push [] (ch ' ') = some []) :
    Splitter b fun current stack s => piecesFrom b.pairs current (depths b stack) s where
  keep := by
    intro current stack stack' c rest hstack hc hpush
    rw [piecesFrom, depthsAfter_push hpush, if_neg]
    rintro ⟨rfl, hzero⟩
    refine push_comma hcomma hc hpush rfl ((Brackets.count_eq_zero_iff
      (Brackets.push_isClosing hpush hstack)).mp fun p hp => ?_)
    simpa using List.all_eq_true.mp hzero _ (List.mem_map_of_mem hp)
  cut := by
    intro current rest hne
    have hzero : (depths b []).all (· = 0) = true := by simp [depths]
    rw [piecesFrom, depthsAfter_push hcomma, if_pos ⟨rfl, hzero⟩, piece, if_neg hne]
    rfl
  stop := fun current => rfl
  blank := hblank

theorem go_splitter :
    Splitter goBrackets fun current stack s =>
      piecesFrom goBrackets.pairs current (depths goBrackets stack) s :=
  pieces_splitter (by decide) (by decide)

theorem rust_splitter :
    Splitter rustBrackets fun current stack s =>
      piecesFrom rustBrackets.pairs current (depths rustBrackets stack) s :=
  pieces_splitter (by decide) (by decide)

/-- Cutting undoes joining, for each of the three splitters and the brackets it counts. -/
theorem split_joined (segments : List Text) :
    ((∀ s ∈ segments, Segment cBrackets s) →
        CSignature.splitTopLevel (joined segments) = segments) ∧
      ((∀ s ∈ segments, Segment goBrackets s) → Go.splitTopLevel (joined segments) = segments) ∧
      ((∀ s ∈ segments, Segment rustBrackets s) →
        Rust.splitTopLevel (joined segments) = segments) :=
  ⟨fun hs => c_splitter.join hs (List.forall_mem_nil _),
    fun hs => go_splitter.join hs (List.forall_mem_nil _),
    fun hs => rust_splitter.join hs (List.forall_mem_nil _)⟩

theorem split_joined_pairs :
    CSignature.splitTopLevel (text "vector<pair<int, int>>& a, int b[2][3]") =
        [text "vector<pair<int, int>>& a", text "int b[2][3]"] ∧
      Go.splitTopLevel (text "f func(int, int) bool, m map[string]int") =
        [text "f func(int, int) bool", text "m map[string]int"] ∧
      Rust.splitTopLevel (text "a: Vec<(i32, i32)>, b: [i32; 2]") =
        [text "a: Vec<(i32, i32)>", text "b: [i32; 2]"] := by
  have hc : ∀ s ∈ [text "vector<pair<int, int>>& a", text "int b[2][3]"], Segment cBrackets s :=
    List.forall_mem_cons.mpr ⟨⟨by decide, by decide +kernel, by decide +kernel⟩,
      List.forall_mem_singleton.mpr ⟨by decide, by decide +kernel, by decide +kernel⟩⟩
  have hgo : ∀ s ∈ [text "f func(int, int) bool", text "m map[string]int"],
      Segment goBrackets s :=
    List.forall_mem_cons.mpr ⟨⟨by decide, by decide +kernel, by decide +kernel⟩,
      List.forall_mem_singleton.mpr ⟨by decide, by decide +kernel, by decide +kernel⟩⟩
  have hrust : ∀ s ∈ [text "a: Vec<(i32, i32)>", text "b: [i32; 2]"], Segment rustBrackets s :=
    List.forall_mem_cons.mpr ⟨⟨by decide, by decide +kernel, by decide +kernel⟩,
      List.forall_mem_singleton.mpr ⟨by decide, by decide +kernel, by decide +kernel⟩⟩
  exact ⟨(split_joined _).1 hc, (split_joined _).2.1 hgo, (split_joined _).2.2 hrust⟩

/-- An identifier of Go has no blank, comma or bracket in it; nothing else of its grammar is
needed here. -/
def Identifier (name : Text) : Prop :=
  name ≠ [] ∧ ∀ c ∈ name, isSpace c = false ∧ c ∉ text ",()[]\x7b\x7d"

instance (name : Text) : Decidable (Identifier name) := inferInstanceAs (Decidable (_ ∧ _))

/-- Names that share a type. The type has one blank between its words, its brackets are
nested, and a comma stands only inside them. -/
structure Group where
  names : List Text
  type : Text
  names_ne_nil : names ≠ []
  identifiers : ∀ name ∈ names, Identifier name
  type_ne_nil : type ≠ []
  normalized : Go.normalizeType type = type
  nested : goBrackets.Nested (ch ',') [] type = true

/-- `a, b T` -/
def Group.written (g : Group) : Text := joined g.names ++ ch ' ' :: g.type

/-- The parameters that a group declares. -/
def Group.params (g : Group) : List (Text × Text) := g.names.map fun name => (name, g.type)

theorem joined_append {xs ys : List Text} (hx : xs ≠ []) (hy : ys ≠ []) :
    joined (xs ++ ys) = joined xs ++ (text ", " ++ joined ys) := by
  induction xs with
  | nil => exact absurd rfl hx
  | cons x xs ih =>
    cases xs with
    | nil =>
      obtain ⟨y, ys, rfl⟩ := List.exists_cons_of_ne_nil hy
      rw [List.singleton_append, joined_cons_cons, joined_singleton]
    | cons x' xs =>
      rw [joined_cons_cons, List.append_assoc, List.append_assoc, ← ih (by simp)]
      exact joined_cons_cons x x' (xs ++ ys)

theorem joined_flatten {parts : List (List Text)} (hne : ∀ part ∈ parts, part ≠ []) :
    joined parts.flatten = joined (parts.map joined) := by
  induction parts with
  | nil => rfl
  | cons part parts ih =>
    cases parts with
    | nil => rw [List.flatten_singleton, List.map_singleton, joined_singleton]
    | cons next parts =>
      have hnext : (next :: parts).flatten ≠ [] := by simp [hne next (by simp)]
      rw [List.flatten_cons, joined_append (hne part (by simp)) hnext,
        ih fun p hp => hne p (by simp [hp])]
      exact (joined_cons_cons (joined part) (joined next) (parts.map joined)).symm

/-- The parts of a group: the names that wait, and the last one with the type. -/
def segmentsOf (type : Text) : List Text → List Text
  | [] => []
  | [name] => [name ++ ch ' ' :: type]
  | name :: names => name :: segmentsOf type names

theorem joined_segmentsOf (type : Text) {names : List Text} (hne : names ≠ []) :
    joined (segmentsOf type names) = joined names ++ ch ' ' :: type := by
  induction names with
  | nil => exact absurd rfl hne
  | cons name names ih =>
    cases names with
    | nil => rw [segmentsOf, joined_singleton, joined_singleton]
    | cons next names =>
      have htail : segmentsOf type (next :: names) ≠ [] := by cases names <;> simp [segmentsOf]
      change joined ([name] ++ segmentsOf type (next :: names)) = _
      rw [joined_append (by simp) htail, ih (by simp), joined_singleton, joined_cons_cons,
        List.append_assoc, List.append_assoc]

section
variable {name : Text} (hname : Identifier name)
include hname

theorem Identifier.plain : ∀ c ∈ name, c ≠ ch ',' ∧ goBrackets.push [] c = some [] := by
  intro c hc
  have hnot := (hname.2 c hc).2
  have hbrackets : ∀ p ∈ goBrackets.pairs, p.1 ∈ text ",()[]\x7b\x7d" ∧
      p.2 ∈ text ",()[]\x7b\x7d" := by decide
  refine ⟨fun h => hnot (by rw [h]; decide), Brackets.push_of_plain ?_ ?_ []⟩
  · rintro p hp rfl
    exact hnot (hbrackets p hp).1
  · intro hclose
    obtain ⟨p, hp, rfl⟩ := List.mem_map.mp hclose
    exact hnot (hbrackets p hp).2

theorem Identifier.segment : Segment goBrackets name where
  nonempty := hname.1
  trimmed := trim_eq_self (fun c hc => (hname.2 c (List.mem_of_head? hc)).1)
    fun c hc => (hname.2 c (List.mem_of_getLast? hc)).1
  nested := by
    rw [← List.append_nil name, Brackets.nested_of_plain hname.plain]
    rfl

/-- A name and the type of its group. -/
theorem Identifier.segment_typed (g : Group) : Segment goBrackets (name ++ ch ' ' :: g.type) where
  nonempty := List.append_ne_nil_of_left_ne_nil hname.1 _
  trimmed := by
    refine trim_eq_self (fun c hc => ?_) fun c hc => ?_
    · rw [List.head?_append_of_ne_nil _ hname.1] at hc
      exact (hname.2 c (List.mem_of_head? hc)).1
    · rw [List.getLast?_append_of_ne_nil _ (by simp), List.getLast?_cons_of_ne_nil g.type_ne_nil,
        ← g.normalized] at hc
      obtain ⟨x, hx, hcx⟩ := getLast?_unwords (fun x hx => (mem_words hx).1) c hc
      exact (mem_words hx).2 c hcx
  nested := by
    have hblank : ∀ c ∈ [ch ' '], c ≠ ch ',' ∧ goBrackets.push [] c = some [] := by decide
    rw [Brackets.nested_of_plain hname.plain, ← List.singleton_append,
      Brackets.nested_of_plain hblank, g.nested]

end

theorem Group.segments (g : Group) : ∀ s ∈ segmentsOf g.type g.names, Segment goBrackets s := by
  have hnames := g.identifiers
  generalize g.names = names at hnames
  induction names with
  | nil => exact List.forall_mem_nil _
  | cons name names ih =>
    have hname := hnames name (by simp)
    cases names with
    | nil => exact List.forall_mem_singleton.mpr (hname.segment_typed g)
    | cons next names =>
      exact List.forall_mem_cons.mpr ⟨hname.segment, ih fun n hn => hnames n (by simp [hn])⟩

/-- The names of a group wait for its type and then take it, all of them. -/
theorem Group.paramsFrom_segments (g : Group) (pending : List Text) (params : List (Text × Text))
    (rest : List Text) :
    Go.paramsFrom pending params (segmentsOf g.type g.names ++ rest) =
      Go.paramsFrom [] (params ++ (pending ++ g.names).map fun name => (name, g.type)) rest := by
  have hnames := g.identifiers
  have hne := g.names_ne_nil
  generalize g.names = names at hnames hne
  induction names generalizing pending with
  | nil => exact absurd rfl hne
  | cons name names ih =>
    obtain ⟨hname, hplain⟩ := hnames name (by simp)
    have hblanks : ∀ c ∈ name, isSpace c = false := fun c hc => (hplain c hc).1
    cases names with
    | nil =>
      have hwords : words isSpace (name ++ ch ' ' :: g.type) = name :: words isSpace g.type :=
        words_append_cons hblanks hname (by decide) g.type
      have htype : words isSpace g.type ≠ [] := by
        intro hnil
        apply g.type_ne_nil
        rw [← g.normalized, Go.normalizeType, hnil]
        rfl
      obtain ⟨word, others, hcons⟩ := List.exists_cons_of_ne_nil htype
      have hunwords : unwords (ch ' ') (word :: others) = g.type := by
        rw [← hcons]
        exact g.normalized
      change Go.paramsFrom pending params ((name ++ ch ' ' :: g.type) :: rest) = _
      rw [Go.paramsFrom, hwords, hcons]
      dsimp only
      rw [hunwords]
    | cons next names =>
      change Go.paramsFrom pending params (name :: (segmentsOf g.type (next :: names) ++ rest)) = _
      rw [Go.paramsFrom, words_singleton hblanks hname]
      dsimp only
      rw [ih _ (fun n hn => hnames n (by simp [hn])) (by simp), List.append_assoc]
      rfl

theorem paramsFrom_groups (groups : List Group) (params : List (Text × Text)) :
    Go.paramsFrom [] params (groups.flatMap fun g => segmentsOf g.type g.names) =
      ([], params ++ groups.flatMap Group.params) := by
  induction groups generalizing params with
  | nil => rw [List.flatMap_nil, List.flatMap_nil, List.append_nil, Go.paramsFrom]
  | cons g groups ih =>
    rw [List.flatMap_cons, g.paramsFrom_segments, ih, List.flatMap_cons, List.append_assoc]
    rfl

/-- Groups of parameters, written one after another, are read as the names in their order,
each with the type of its own group. -/
theorem parseParams_groups (groups : List Group) :
    Go.parseParams (joined (groups.map Group.written)) = .ok (groups.flatMap Group.params) := by
  have hne : ∀ g : Group, segmentsOf g.type g.names ≠ [] := by
    intro g
    obtain ⟨name, names, hnames⟩ := List.exists_cons_of_ne_nil g.names_ne_nil
    rw [hnames]
    cases names <;> simp [segmentsOf]
  have hwritten : joined (groups.map Group.written) =
      joined (groups.flatMap fun g => segmentsOf g.type g.names) := by
    have hmap : groups.map Group.written =
        (groups.map fun g => segmentsOf g.type g.names).map joined := by
      rw [List.map_map]
      exact List.map_congr_left fun g _ => (joined_segmentsOf g.type g.names_ne_nil).symm
    rw [hmap, List.flatMap_def, joined_flatten]
    intro part hpart
    obtain ⟨g, -, rfl⟩ := List.mem_map.mp hpart
    exact hne g
  have hsplit : Go.splitTopLevel (joined (groups.map Group.written)) =
      groups.flatMap fun g => segmentsOf g.type g.names := by
    rw [hwritten]
    refine go_splitter.join (fun s hs => ?_) (List.forall_mem_nil _)
    obtain ⟨g, -, hg⟩ := List.mem_flatMap.mp hs
    exact g.segments s hg
  cases groups with
  | nil => rfl
  | cons g groups =>
    have hnonempty : joined ((g :: groups).map Group.written) ≠ [] := by
      intro hnil
      rw [hnil] at hsplit
      have : segmentsOf g.type g.names = [] := (List.append_eq_nil_iff.mp hsplit.symm).1
      exact hne g this
    rw [Go.parseParams, if_neg hnonempty, hsplit, paramsFrom_groups]
    rfl

/-- `f, g func(int, int) bool` -/
def functions : Group where
  names := [text "f", text "g"]
  type := text "func(int, int) bool"
  names_ne_nil := by decide
  identifiers := by decide
  type_ne_nil := by decide
  normalized := by decide +kernel
  nested := by decide +kernel

/-- `n int` -/
def count : Group where
  names := [text "n"]
  type := text "int"
  names_ne_nil := by decide
  identifiers := by decide
  type_ne_nil := by decide
  normalized := by decide +kernel
  nested := by decide +kernel

/-- Two names of one function type, and one name of another type. -/
theorem parseParams_functions :
    Go.parseParams (text "f, g func(int, int) bool, n int") = .ok
      [(text "f", text "func(int, int) bool"), (text "g", text "func(int, int) bool"),
        (text "n", text "int")] := by
  have hwritten : joined ([functions, count].map Group.written) =
      text "f, g func(int, int) bool, n int" := by decide +kernel
  rw [← hwritten]
  exact parseParams_groups [functions, count]

end ExecutionEngine.TopLevelSplit
