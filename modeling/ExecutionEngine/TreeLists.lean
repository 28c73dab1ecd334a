import ExecutionEngine.TreeCodec

/-!
# The lists that trees have

A test case may give any list for a tree, and a list as the expected result. Not every list
is the level order of a tree: a label may have no parent, and the list may end with null.
Here the two directions of a wrapper are followed one after the other. What a wrapper
writes for a returned tree is well formed, whatever the memory of the submission looks
like, also when nodes are shared. A list that is read as a tree and written again comes back
if and only if it is well formed, in every wrapper.
-/
namespace ExecutionEngine.TreeLists
open LevelOrder TreeCodec Binary64

universe u

section
variable {α : Type u}

/-- When the loop returns, there is a tree behind every pointer of the queue. -/
theorem sees_of_visitQueue {m : Memory α} {fuel : ℕ} {queue : List (Option ℕ)}
    {result out : List (Option α)} (h : visitQueue m fuel queue result = some out) :
    ∀ p ∈ queue, ∃ t, Sees m p t := by
  induction fuel generalizing queue result with
  | zero =>
    cases queue with
    | nil => simp
    | cons p queue => simp [visitQueue] at h
  | succ fuel ih =>
    cases queue with
    | nil => simp
    | cons p queue =>
      cases p with
      | none =>
        have hrest := ih (by simpa [visitQueue] using h)
        refine List.forall_mem_cons.mpr ⟨⟨.nil, .nil, rfl, rfl⟩, hrest⟩
      | some a =>
        cases hc : m[a]? with
        | none => simp [visitQueue, hc] at h
        | some c =>
          have hrest := ih (by simpa [visitQueue, hc] using h)
          obtain ⟨l, placed, hreads, hl⟩ := hrest c.left (by simp)
          obtain ⟨r, placed', hreads', hr⟩ := hrest c.right (by simp)
          have hroot : Sees m (some a) (.node c.val l r) := by
            refine ⟨.node (a, c.val) placed placed', ⟨rfl, c, hc, rfl, hreads, hreads'⟩, ?_⟩
            rw [BinaryTree.map, hl, hr]
          exact List.forall_mem_cons.mpr ⟨⟨_, hroot⟩, fun p hp => hrest p (by simp [hp])⟩

/-- What the loop returns is the level order of the tree behind the root. -/
theorem exists_tree_of_visitQueue {m : Memory α} {fuel : ℕ} {root : Option ℕ}
    {out : List (Option α)} (h : visitQueue m fuel [root] [] = some out) :
    ∃ t, trim out = encode t := by
  obtain ⟨t, ht⟩ := sees_of_visitQueue h root (by simp)
  refine ⟨t, ?_⟩
  rw [visitQueue_eq (.cons ht .nil)] at h
  split_ifs at h
  rw [← Option.some.inj h]
  rfl

theorem exists_tree_of_treeToList {m : Memory α} {fuel : ℕ} {root : Option ℕ}
    {l : List (Option α)} (h : treeToList fuel m root = some l) : ∃ t, l = encode t := by
  cases root with
  | none =>
    obtain rfl : l = [] := (Option.some.inj h).symm
    exact ⟨.nil, by simp [encode, visited, root?]⟩
  | some a =>
    obtain ⟨out, hout, rfl⟩ := Option.map_eq_some_iff.mp h
    exact exists_tree_of_visitQueue hout

end

section
variable {α β γ ι : Type}

/-- What a wrapper writes is the list of a tree, and a list passes through it unchanged if and
only if it is the list of a tree. The wrapper reads and writes labels in its own types. -/
structure PassesThrough (list : ℕ → Memory α → Option ℕ → Option β) (build : γ → Built α)
    (read : List (Option ι) → γ) (label : ι → α) (write : List (Option α) → β) : Prop where
  written : ∀ fuel m root l, list fuel m root = some l → ∃ vals, WellFormed vals ∧ l = write vals
  unchanged_iff : ∀ vals, (∃ steps, ∀ fuel, steps ≤ fuel →
    list fuel (build (read vals)).memory (build (read vals)).root =
      some (write (vals.map (Option.map label)))) ↔ WellFormed vals

theorem passesThrough_of_lists {list : ℕ → Memory α → Option ℕ → Option β} {build : γ → Built α}
    {read : List (Option ι) → γ} {label : ι → α} {write : List (Option α) → β}
    (hlist : Lists list (write ∘ encode))
    (htree : ∀ fuel m root l, list fuel m root = some l → ∃ t, l = write (encode t))
    (hbuild : ∀ vals, (build (read vals)).Represents (decode (vals.map (Option.map label))))
    (hwrite : Function.Injective write) : PassesThrough list build read label write where
  written fuel m root l hl := by
    obtain ⟨t, rfl⟩ := htree fuel m root l hl
    exact ⟨encode t, encode_wellFormed t, rfl⟩
  unchanged_iff vals := by
    obtain ⟨⟨steps, hsteps⟩, hunique⟩ := hlist (hbuild vals)
    rw [← wellFormed_map_iff label, ← encode_decode_iff]
    constructor
    · rintro ⟨more, hmore⟩
      exact hwrite (hunique more _ (hmore more le_rfl)).symm
    · intro h
      exact ⟨steps, fun fuel hle => (hsteps fuel hle).trans (congrArg (some ∘ write) h)⟩

end

theorem injective_map_some {α β : Type} {f : α → β} (h : Function.Injective f) :
    Function.Injective fun vals : List (Option α) => vals.map (Option.map f) :=
  List.map_injective_iff.mpr (Option.map_injective h)

theorem toValue_injective : Function.Injective toValue := by
  intro a b h
  cases a with
  | none =>
    cases b with
    | none => rfl
    | some n => cases h
  | some m =>
    cases b with
    | none => cases h
    | some n => rw [Int32.toInt_inj.mp (Json.int.inj h)]

/-- In every wrapper: what is written for a returned tree is well formed, whatever is in
memory, and a list of 32-bit integers that is read as a tree and written again comes back
unchanged if and only if it is well formed. -/
theorem lists_pass_through (unrepresentable : Float64 → Int64) :
    PassesThrough treeToList buildTreePython (List.map (Option.map Int32.toInt)) Int32.toInt id ∧
      PassesThrough treeToList buildTreeJavaScript (List.map (Option.map Int32.toInt))
        Int32.toInt id ∧
      PassesThrough treeToList buildTreeTypeScript (List.map (Option.map Int32.toInt))
        Int32.toInt id ∧
      PassesThrough treeToList buildTreeJava id (id : Int32 → Int32) id ∧
      PassesThrough treeToList buildTreeKotlin id (id : Int32 → Int32) id ∧
      PassesThrough treeToList buildTreeCSharp id (id : Int32 → Int32) id ∧
      PassesThrough treeToArray (buildTreeGo unrepresentable) (List.map (Option.map unmarshal))
        Int32.toInt64 (List.map (Option.map GoValue.int)) ∧
      PassesThrough serializeTree buildTreeCpp id (id : Int32 → Int32) id ∧
      PassesThrough treeToJson buildTreeRust (List.map toValue) id (List.map toValue) := by
  have hsame : ∀ {build : List (Option Int32) → Built Int32},
      (∀ vals, (build vals).Represents (decode vals)) →
        ∀ vals, (build (id vals)).Represents (decode (vals.map (Option.map id))) := by
    intro build hbuild vals
    simpa using hbuild vals
  have htree : ∀ {α : Type} (fuel : ℕ) (m : Memory α) (root : Option ℕ) (l : List (Option α)),
      treeToList fuel m root = some l → ∃ t, l = id (encode t) :=
    fun fuel m root l h => exists_tree_of_treeToList h
  have hplain : ∀ {ι α : Type} {build : List (Option α) → Built α}
      {read : List (Option ι) → List (Option α)} {label : ι → α},
      (∀ vals, (build (read vals)).Represents (decode (vals.map (Option.map label)))) →
        PassesThrough treeToList build read label id :=
    fun hbuild => passesThrough_of_lists lists_treeToList htree hbuild Function.injective_id
  refine ⟨?_, ?_, ?_, ?_, ?_, ?_, ?_, ?_, ?_⟩
  · exact hplain fun vals => buildTreePython_represents _
  · exact hplain fun vals => buildTreeJavaScript_represents _
  · exact hplain fun vals => buildTreeJavaScript_represents _
  · exact hplain (hsame buildTreeJava_represents)
  · exact hplain (hsame buildTreeJava_represents)
  · exact hplain (hsame buildTreeJava_represents)
  · refine passesThrough_of_lists (lists_map lists_treeToList _) ?_
      (buildTreeGo_represents unrepresentable) (injective_map_some fun a b h => GoValue.int.inj h)
    intro fuel m root l h
    obtain ⟨l', hl', rfl⟩ := Option.map_eq_some_iff.mp h
    obtain ⟨t, rfl⟩ := exists_tree_of_treeToList hl'
    exact ⟨t, rfl⟩
  · exact hplain (hsame buildTreeCpp_represents)
  · refine passesThrough_of_lists lists_treeToJson ?_ ?_
      (List.map_injective_iff.mpr toValue_injective)
    · intro fuel m root l h
      obtain ⟨out, hout, rfl⟩ := Option.map_eq_some_iff.mp h
      obtain ⟨t, ht⟩ := exists_tree_of_visitQueue hout
      exact ⟨t, by rw [ht]⟩
    · intro vals
      simpa using buildTreeRust_represents vals

end ExecutionEngine.TreeLists
