import ExecutionEngine.Json
import ExecutionEngine.LevelOrder

/-!
# Trees in the wrappers

Every wrapper turns the list of a test case into a binary tree and a returned tree
back into a list. The builders are three different loops: Python, JavaScript,
TypeScript and Go walk over the nodes and hand out the list as children; Java,
Kotlin and C# keep a queue of nodes and null; C++ and Rust keep a queue of nodes
and make the children on the way. Nodes are made in the order of the list in all of
them, so that a node has the same address everywhere.
-/
namespace ExecutionEngine.TreeCodec
open LevelOrder Memory Binary64

universe u

/-- The memory after a builder has returned, and the root it returned. -/
structure Built (α : Type u) where
  memory : Memory α
  root : Option ℕ

/-- The heap from the returned root is the tree. -/
def Built.Represents {α : Type u} (b : Built α) (t : BinaryTree α) : Prop :=
  b.memory.Represents b.root t

section Builders
variable {α : Type u}

/-- `nodes = [TreeNode(val) if val is not None else None for val in values]` -/
def newNodes (values : List (Option α)) : Memory α × List (Option ℕ) :=
  values.foldl (fun (m, nodes) value =>
    match value with
    | none => (m, nodes ++ [none])
    | some v => (m ++ [leaf v], nodes ++ [some m.length])) ([], [])

/-- What the builders that first make all nodes have in common: null for an empty list,
else the first node after its loop, which is given the first node and the others. -/
def buildNodes (link : Option ℕ → List (Option ℕ) → Memory α → Memory α)
    (values : List (Option α)) : Built α :=
  let (m, nodes) := newNodes values
  match nodes with
  | [] => ⟨m, none⟩
  | root :: rest => ⟨link root rest m, root⟩

/-- `if kids: node.left = kids.popleft()`, for the field that `set` writes. -/
def popInto (set : Memory α → Option ℕ → Memory α) (kids : List (Option ℕ)) (m : Memory α) :
    Memory α × List (Option ℕ) :=
  match kids with
  | [] => (m, [])
  | kid :: kids => (set m kid, kids)

/-- `for node in nodes` of Python's `build_tree`. -/
def handOut : List (Option ℕ) → List (Option ℕ) → Memory α → Memory α
  | [], _, m => m
  | none :: nodes, kids, m => handOut nodes kids m
  | some node :: nodes, kids, m =>
    let (m, kids) := popInto (fun m => m.setLeft node) kids m
    let (m, kids) := popInto (fun m => m.setRight node) kids m
    handOut nodes kids m

/-- Python's `build_tree`. -/
def buildTreePython (values : List (Option α)) : Built α :=
  buildNodes (fun root kids => handOut (root :: kids) kids) values

/-- `if (pos < nodes.length) nodes[i].left = nodes[pos++];`, for the field that `set`
writes. -/
def takeNext (nodes : List (Option ℕ)) (set : Memory α → Option ℕ → Memory α) (pos : ℕ)
    (m : Memory α) : Memory α × ℕ :=
  if h : pos < nodes.length then (set m nodes[pos], pos + 1) else (m, pos)

/-- The loop over `i` of `buildTree` in JavaScript, TypeScript and Go; the first list
is the rest of the nodes from `i` on. -/
def walk (nodes : List (Option ℕ)) : List (Option ℕ) → ℕ → Memory α → Memory α
  | [], _, m => m
  | node :: rest, pos, m =>
    if pos < nodes.length then
      match node with
      | none => walk nodes rest pos m
      | some node =>
        let (m, pos) := takeNext nodes (fun m => m.setLeft node) pos m
        let (m, pos) := takeNext nodes (fun m => m.setRight node) pos m
        walk nodes rest pos m
    else m

/-- JavaScript's `buildTree`. -/
def buildTreeJavaScript (values : List (Option α)) : Built α :=
  buildNodes (fun root rest => walk (root :: rest) (root :: rest) 1) values

/-- TypeScript's `buildTree`. -/
def buildTreeTypeScript (values : List (Option α)) : Built α := buildTreeJavaScript values

/-- The loop of `buildTree` in Java, Kotlin and C#. The queue gets the fields of the
current node as they are after the assignments. -/
def linkQueue (nodes : List (Option ℕ)) (queue : List (Option ℕ)) (i : ℕ) (m : Memory α) :
    Memory α :=
  match queue with
  | [] => m
  | none :: queue => if i < nodes.length then linkQueue nodes queue i m else m
  | some current :: queue =>
    if h : i < nodes.length then
      let m := m.setLeft current nodes[i]
      if h' : i + 1 < nodes.length then
        let m := m.setRight current nodes[i + 1]
        linkQueue nodes (queue ++ [nodes[i], nodes[i + 1]]) (i + 2) m
      else
        linkQueue nodes (queue ++ [nodes[i], (m[current]?).bind Cell.right]) (i + 1) m
    else m
termination_by (nodes.length - i, queue.length)

/-- Java's `buildTree`. -/
def buildTreeJava (values : List (Option α)) : Built α :=
  buildNodes (fun root rest => linkQueue (root :: rest) [root] 1) values

/-- Kotlin's `buildTree`. -/
def buildTreeKotlin (values : List (Option α)) : Built α := buildTreeJava values

/-- `BuildTree` of C#. -/
def buildTreeCSharp (values : List (Option α)) : Built α := buildTreeJava values

/-- `if (i < arr.size() && arr[i].has_value())`: a new child for the current node, set by
`set`, goes to the end of the queue. -/
def growChild (arr : List (Option α)) (set : Memory α → Option ℕ → Memory α) (i : ℕ)
    (queue : List ℕ) (m : Memory α) : Memory α × List ℕ :=
  match (arr[i]?).join with
  | some v => (set (m ++ [leaf v]) (some m.length), queue ++ [m.length])
  | none => (m, queue)

/-- The loop of `buildTree` in C++ and of `build_tree` in Rust. Rust takes the node from
the queue before it compares `i` with the length, which makes no difference. -/
def growQueue (arr : List (Option α)) (queue : List ℕ) (i : ℕ) (m : Memory α) : Memory α :=
  match queue with
  | [] => m
  | current :: queue =>
    if i < arr.length then
      let (m, queue) := growChild arr (fun m => m.setLeft current) i queue m
      let (m, queue) := growChild arr (fun m => m.setRight current) (i + 1) queue m
      growQueue arr queue (i + 2) m
    else m
termination_by arr.length - i

/-- `buildTree` of C++, and of Rust after the conversion of the list. -/
def buildTreeCpp (arr : List (Option α)) : Built α :=
  match arr with
  | some v :: _ => ⟨growQueue arr [0] 1 [leaf v], some 0⟩
  | _ => ⟨[], none⟩

end Builders

/-- The dynamic type and value behind a Go `interface{}` that is not nil. JSON numbers
are decoded as `float64`; a `float32` is given by its value as a `float64`. -/
inductive GoValue
  | float64 (x : Float64)
  | float32 (x : Float64)
  | int (n : Int64)
  | int32 (n : Int32)
  | int64 (n : Int64)
  | other

/-- `int(v)` truncates towards zero. What it gives for values that do not fit is left
to the Go implementation. -/
def goInt (unrepresentable : Float64 → Int64) (x : Float64) : Int64 :=
  match x with
  | .finite y =>
    let n := y.units.tdiv one
    if -2 ^ 63 ≤ n ∧ n < 2 ^ 63 then Int64.ofInt n else unrepresentable x
  | _ => unrepresentable x

/-- `toInt` -/
def toInt (unrepresentable : Float64 → Int64) : GoValue → Option Int64
  | .float64 x => some (goInt unrepresentable x)
  | .float32 x => some (goInt unrepresentable x)
  | .int n => some n
  | .int32 n => some n.toInt64
  | .int64 n => some n
  | .other => none

/-- A 32-bit integer as `json.Unmarshal` puts it into an `interface{}`. -/
def unmarshal (n : Int32) : GoValue := .float64 ((Float64.ofInt n.toInt).getD .nan)

/-- `buildTree` of Go. -/
def buildTreeGo (unrepresentable : Float64 → Int64) (values : List (Option GoValue)) :
    Built Int64 :=
  match values with
  | some _ :: _ =>
    -- `return nil` inside the loop that makes the nodes
    match values.mapM fun raw => raw.mapM (toInt unrepresentable) with
    | some ints => buildTreeJavaScript ints
    | none => ⟨[], none⟩
  | _ => ⟨[], none⟩

/-- `Value::as_i64` -/
def asI64 : Json → Option Int64
  | .int n => if -2 ^ 63 ≤ n ∧ n < 2 ^ 63 then some (Int64.ofInt n) else none
  | _ => none

/-- An optional 32-bit integer in a JSON array. -/
def toValue : Option Int32 → Json
  | some n => .int n.toInt
  | none => .null

/-- `build_tree` of Rust, for a JSON array. -/
def buildTreeRust (items : List Json) : Built Int32 :=
  buildTreeCpp (items.map fun v => (asI64 v).map Int64.toInt32)

section Lists
variable {α : Type u}

/-- The loop over the queue of `tree_to_list`, with at most the given number of rounds;
`none` when they do not suffice. No wrapper holds a dangling pointer. -/
def visitQueue (m : Memory α) : ℕ → List (Option ℕ) → List (Option α) → Option (List (Option α))
  | _, [], result => some result
  | 0, _ :: _, _ => none
  | fuel + 1, none :: queue, result => visitQueue m fuel queue (result ++ [none])
  | fuel + 1, some node :: queue, result =>
    match m[node]? with
    | some c => visitQueue m fuel (queue ++ [c.left, c.right]) (result ++ [some c.val])
    | none => none

/-- `while result and result[-1] is None: result.pop()` -/
def trim (result : List (Option α)) : List (Option α) := result.rdropWhile Option.isNone

/-- Python's `tree_to_list`, and `treeToList` of JavaScript, TypeScript, Java, Kotlin and
C#. -/
def treeToList (fuel : ℕ) (m : Memory α) (root : Option ℕ) : Option (List (Option α)) :=
  match root with
  | none => some []
  | some node => (visitQueue m fuel [some node] []).map trim

/-- `serializeTree` of C++. -/
def serializeTree (fuel : ℕ) (m : Memory α) (root : Option ℕ) : Option (List (Option α)) :=
  treeToList fuel m root

end Lists

/-- `treeToArray` of Go puts its integers into an `interface{}` each. -/
def treeToArray (fuel : ℕ) (m : Memory Int64) (root : Option ℕ) :
    Option (List (Option GoValue)) :=
  (treeToList fuel m root).map fun result => result.map (Option.map GoValue.int)

/-- `tree_to_json` of Rust does not look at the root before the loop. -/
def treeToJson (fuel : ℕ) (m : Memory Int32) (root : Option ℕ) : Option (List Json) :=
  (visitQueue m fuel [root] []).map fun out => (trim out).map toValue

section
variable {α : Type u} {vals : List (Option α)}

/-- The addresses of the places of the list. -/
def slots (vals : List (Option α)) : List (Option ℕ) :=
  (List.range vals.length).map (slot vals)

@[simp] theorem length_slots : (slots vals).length = vals.length := by
  simp [slots]

theorem slots_getElem {i : ℕ} (h : i < (slots vals).length) : (slots vals)[i] = slot vals i := by
  simp [slots]

theorem slots_drop {i : ℕ} (h : i < vals.length) :
    (slots vals).drop i = slot vals i :: (slots vals).drop (i + 1) := by
  have hlen : i < (slots vals).length := by simpa using h
  rw [List.drop_eq_getElem_cons hlen, slots_getElem]

theorem slot_append_left {rest : List (Option α)} {i : ℕ} (h : i < vals.length) :
    slot (vals ++ rest) i = slot vals i := by
  rw [slot, slot, List.getElem?_append_left h, rank, rank, List.take_append_of_le_length h.le]

theorem slots_concat (vals : List (Option α)) (value : Option α) :
    slots (vals ++ [value]) = slots vals ++ [value.map fun _ => (nodes vals).length] := by
  have hlast : slot (vals ++ [value]) vals.length = value.map fun _ => (nodes vals).length := by
    simp [slot, rank, nodes]
  rw [slots, List.length_append, List.length_singleton, List.range_succ, List.map_append, slots]
  congr 1
  · apply List.map_congr_left
    intro i hi
    exact slot_append_left (List.mem_range.mp hi)
  · rw [List.map_singleton, hlast]

theorem newNodes_eq (vals : List (Option α)) :
    newNodes vals = (linkedUpTo vals 0 (nodes vals).length, slots vals) := by
  rw [linkedUpTo_zero]
  induction vals using List.reverseRecOn with
  | nil => rfl
  | append_singleton vals value ih =>
    rw [newNodes, List.foldl_append, ← newNodes, ih, slots_concat]
    cases value with
    | none => simp [nodes]
    | some v => simp [nodes]

theorem slots_cons (h : 0 < vals.length) :
    slot vals 0 :: (slots vals).drop 1 = slots vals := by
  rw [← slots_drop h, List.drop_zero]

theorem buildNodes_represents {link : Option ℕ → List (Option ℕ) → Memory α → Memory α}
    {vals : List (Option α)}
    (hlink : 0 < vals.length → Finished vals (link (slot vals 0) ((slots vals).drop 1)
      (linkedUpTo vals 0 (nodes vals).length))) :
    (buildNodes link vals).Represents (decode vals) := by
  by_cases hpos : 0 < vals.length
  · have hfinished := hlink hpos
    rw [buildNodes, newNodes_eq, ← slots_cons hpos]
    exact hfinished.represents
  · obtain rfl : vals = [] := List.length_eq_zero_iff.mp (by omega)
    exact ⟨.nil, rfl, List.nodup_nil, rfl⟩

theorem popInto_left (linked made i : ℕ) :
    popInto (fun m => m.setLeft linked) ((slots vals).drop i) (linkedUpTo vals linked made) =
      ((linkedUpTo vals linked made).setLeft linked (slot vals i), (slots vals).drop (i + 1)) := by
  by_cases h : i < vals.length
  · rw [slots_drop h]
    rfl
  · have hle := Nat.not_lt.mp h
    rw [List.drop_eq_nil_of_le (by simpa using hle), List.drop_eq_nil_of_le (by simp; omega),
      slot_of_length_le hle, setLeft_none]
    rfl

theorem popInto_right (linked made i : ℕ) (p : Option ℕ) :
    popInto (fun m => m.setRight linked) ((slots vals).drop i)
        ((linkedUpTo vals linked made).setLeft linked p) =
      (((linkedUpTo vals linked made).setLeft linked p).setRight linked (slot vals i),
        (slots vals).drop (i + 1)) := by
  by_cases h : i < vals.length
  · rw [slots_drop h]
    rfl
  · have hle := Nat.not_lt.mp h
    rw [List.drop_eq_nil_of_le (by simpa using hle), List.drop_eq_nil_of_le (by simp; omega),
      slot_of_length_le hle, setRight_none]
    rfl

/-- The nodes before `i` have their children, and the children still to hand out begin
where the closed form has those of the next node. -/
theorem handOut_eq {i : ℕ} (hi : i ≤ vals.length) :
    handOut ((slots vals).drop i) ((slots vals).drop (2 * rank vals i + 1))
        (linkedUpTo vals (rank vals i) (nodes vals).length) =
      linkedUpTo vals (nodes vals).length (nodes vals).length := by
  induction hn : vals.length - i generalizing i with
  | zero =>
    have hrank : rank vals i = (nodes vals).length := rank_of_length_le (by omega)
    rw [List.drop_eq_nil_of_le (by simp; omega), handOut, hrank]
  | succ n ih =>
    have hlt : i < vals.length := by omega
    rw [slots_drop hlt]
    obtain ⟨v, hv⟩ | hnull := node_or_null vals i
    · have hnext := ih hlt (by omega)
      rw [rank_succ_of_node hv, ← link_next] at hnext
      rw [slot_of_node hv, handOut, popInto_left]
      dsimp only
      rw [popInto_right]
      exact hnext
    · have hnext := ih hlt (by omega)
      rw [rank_succ_of_null hnull] at hnext
      have hslot : slot vals i = none := by simp [slot, hnull]
      rw [hslot, handOut]
      exact hnext

theorem buildTreePython_represents (vals : List (Option α)) :
    (buildTreePython vals).Represents (decode vals) := by
  apply buildNodes_represents
  intro hpos
  have hall := handOut_eq hpos.le
  rw [List.drop_zero] at hall
  rw [slots_cons hpos, rank_zero] at *
  rw [hall]
  exact ⟨_, _, _, rfl, complete_of_all⟩

theorem takeNext_left {linked made pos : ℕ} (h : pos < vals.length) :
    takeNext (slots vals) (fun m => m.setLeft linked) pos (linkedUpTo vals linked made) =
      ((linkedUpTo vals linked made).setLeft linked (slot vals pos), pos + 1) := by
  rw [takeNext, dif_pos (by simpa using h), slots_getElem]

theorem takeNext_right {linked made pos : ℕ} (p : Option ℕ) (h : pos ≤ vals.length) :
    takeNext (slots vals) (fun m => m.setRight linked) pos
        ((linkedUpTo vals linked made).setLeft linked p) =
      (((linkedUpTo vals linked made).setLeft linked p).setRight linked (slot vals pos),
        min vals.length (pos + 1)) := by
  by_cases hlt : pos < vals.length
  · rw [takeNext, dif_pos (by simpa using hlt), slots_getElem, min_eq_right hlt]
  · rw [takeNext, dif_neg (by simpa using hlt), slot_of_length_le (Nat.not_lt.mp hlt),
      setRight_none, min_eq_left (by omega), le_antisymm h (Nat.not_lt.mp hlt)]

/-- The same walk with an index; it may stop before the last node. -/
theorem walk_finished {i : ℕ} (hi : i ≤ vals.length) :
    Finished vals (walk (slots vals) ((slots vals).drop i)
      (min vals.length (2 * rank vals i + 1))
      (linkedUpTo vals (rank vals i) (nodes vals).length)) := by
  induction hn : vals.length - i generalizing i with
  | zero =>
    have hrank : rank vals i = (nodes vals).length := rank_of_length_le (by omega)
    rw [List.drop_eq_nil_of_le (by simp; omega), walk, hrank]
    exact ⟨_, _, _, rfl, complete_of_all⟩
  | succ n ih =>
    have hlt : i < vals.length := by omega
    rw [slots_drop hlt, walk.eq_def]
    dsimp only
    by_cases hstop : 2 * rank vals i + 1 < vals.length
    · rw [min_eq_right hstop.le, if_pos (by simpa using hstop)]
      obtain ⟨v, hv⟩ | hnull := node_or_null vals i
      · have hnext := ih hlt (by omega)
        rw [rank_succ_of_node hv, ← link_next] at hnext
        rw [slot_of_node hv]
        dsimp only
        rw [takeNext_left hstop]
        dsimp only
        rw [takeNext_right _ (by omega)]
        exact hnext
      · have hnext := ih hlt (by omega)
        rw [rank_succ_of_null hnull, min_eq_right hstop.le] at hnext
        have hslot : slot vals i = none := by simp [slot, hnull]
        rw [hslot]
        exact hnext
    · rw [min_eq_left (by omega), if_neg (by simp)]
      exact ⟨_, _, _, rfl, complete_of_length_le (by omega)⟩

theorem buildTreeJavaScript_represents (vals : List (Option α)) :
    (buildTreeJavaScript vals).Represents (decode vals) := by
  apply buildNodes_represents
  intro hpos
  have hwalk := walk_finished hpos.le
  rw [List.drop_zero, rank_zero, min_eq_right (by omega)] at hwalk
  rw [slots_cons hpos]
  exact hwalk

theorem linkQueue_stop {nodes queue : List (Option ℕ)} {i : ℕ} (m : Memory α)
    (h : nodes.length ≤ i) : linkQueue nodes queue i m = m := by
  have hnot : ¬ i < nodes.length := Nat.not_lt.mpr h
  rw [linkQueue.eq_def]
  cases queue with
  | nil => rfl
  | cons node queue =>
    cases node with
    | none => simp [hnot]
    | some current => simp [hnot]

theorem range_slot_cons {k i : ℕ} {p : Option ℕ} {queue : List (Option ℕ)}
    (h : p :: queue = (List.range' k (i - k)).map (slot vals)) :
    k < i ∧ p = slot vals k ∧ queue = (List.range' (k + 1) (i - (k + 1))).map (slot vals) := by
  have hlt : k < i := by
    by_contra hge
    rw [Nat.sub_eq_zero_of_le (Nat.not_lt.mp hge)] at h
    simp at h
  rw [show i - k = (i - (k + 1)) + 1 by omega, List.range'_succ, List.map_cons] at h
  obtain ⟨hp, hqueue⟩ := List.cons.inj h
  exact ⟨hlt, hp, hqueue⟩

theorem range_slot_concat {k i : ℕ} (h : k ≤ i) :
    (List.range' k (i - k)).map (slot vals) ++ [slot vals i, slot vals (i + 1)] =
      (List.range' k (i + 2 - k)).map (slot vals) := by
  rw [show i + 2 - k = (i - k) + 1 + 1 by omega, List.range'_concat, List.range'_concat]
  simp [show k + (i - k) = i by omega, show k + (i - k + 1) = i + 1 by omega]

/-- The nodes at the places before `k` have left the queue with their children assigned;
the queue is the list between the places `k` and `i`. -/
theorem linkQueue_finished {queue : List (Option ℕ)} {k i : ℕ} {m : Memory α}
    (hm : m = linkedUpTo vals (rank vals k) (nodes vals).length) (hi : i = 2 * rank vals k + 1)
    (hk : k ≤ i) (hqueue : queue = (List.range' k (i - k)).map (slot vals)) :
    Finished vals (linkQueue (slots vals) queue i m) := by
  have hstop : vals.length ≤ i → Finished vals m := by
    intro hlen
    exact ⟨_, _, _, hm, complete_of_length_le (by omega)⟩
  induction queue, i, m using linkQueue.induct (slots vals) generalizing k with
  | case1 i m =>
    have hempty : i - k = 0 := by simpa using hqueue.symm
    obtain rfl : k = i := by omega
    rw [linkQueue]
    exact ⟨_, _, _, hm, complete_of_closed hi (rank_le k)⟩
  | case2 i m queue hlt ih =>
    obtain ⟨hki, hslot, hrest⟩ := range_slot_cons hqueue
    have hrank := rank_succ_of_null (slot_eq_none hslot.symm)
    rw [linkQueue, if_pos hlt]
    exact ih (by rw [hrank, hm]) (by rw [hrank, hi]) hki hrest hstop
  | case3 i m queue hlt =>
    rw [linkQueue_stop m (Nat.not_lt.mp hlt)]
    exact hstop (by simpa using hlt)
  | case4 i m current queue hlt m' hlt' m'' =>
    rename_i ih
    obtain ⟨hki, hslot, hrest⟩ := range_slot_cons hqueue
    obtain ⟨v, hv, rfl⟩ := slot_eq_some hslot.symm
    have hrank := rank_succ_of_node hv
    have hnext : i + 2 = 2 * rank vals (k + 1) + 1 := by omega
    have hlink : m'' = linkedUpTo vals (rank vals (k + 1)) (nodes vals).length := by
      simp only [m'', m', hm, slots_getElem, hi, hrank]
      exact link_next _ _
    rw [linkQueue, dif_pos hlt, dif_pos hlt']
    refine ih hlink hnext (by omega) ?_ fun hlen => ?_
    · rw [hrest, slots_getElem, slots_getElem, range_slot_concat (by omega)]
    · exact ⟨_, _, _, hlink, complete_of_length_le (by omega)⟩
  | case5 i m current queue hlt m' hlt' =>
    obtain ⟨hki, hslot, hrest⟩ := range_slot_cons hqueue
    obtain ⟨v, hv, rfl⟩ := slot_eq_some hslot.symm
    have hlen : vals.length = i + 1 := by
      rw [length_slots] at hlt hlt'
      omega
    -- the list ends with a left child, and so does the loop
    have hlink : m' = linkedUpTo vals (rank vals k + 1) (nodes vals).length := by
      have hright : slot vals (2 * rank vals k + 2) = none := slot_of_length_le (by omega)
      rw [← link_next, hright, setRight_none]
      simp only [m', hm, slots_getElem, hi]
    rw [linkQueue, dif_pos hlt, dif_neg hlt', linkQueue_stop _ (by simp [hlen])]
    exact ⟨_, _, _, hlink, complete_of_length_le (by omega)⟩
  | case6 i m current queue hlt =>
    rw [linkQueue_stop m (Nat.not_lt.mp hlt)]
    exact hstop (by simpa using hlt)

theorem buildTreeJava_represents (vals : List (Option α)) :
    (buildTreeJava vals).Represents (decode vals) := by
  apply buildNodes_represents
  intro hpos
  rw [slots_cons hpos]
  exact linkQueue_finished (k := 0) rfl rfl (Nat.zero_le _) rfl

theorem range_concat {r n : ℕ} (h : r < n) :
    List.range' (r + 1) (n - (r + 1)) ++ [n] = List.range' (r + 1) (n + 1 - (r + 1)) := by
  rw [show n + 1 - (r + 1) = n - (r + 1) + 1 by omega, List.range'_concat]
  congr 2
  omega

theorem length_made (r i : ℕ) : (linkedUpTo vals r (rank vals i)).length = rank vals i := by
  rw [length_linkedUpTo, min_eq_left (rank_le i)]

theorem growChild_left {r i : ℕ} (hr : r < rank vals i) :
    growChild vals (fun m => m.setLeft r) i (List.range' (r + 1) (rank vals i - (r + 1)))
        (linkedUpTo vals r (rank vals i)) =
      ((linkedUpTo vals r (rank vals (i + 1))).setLeft r (slot vals i),
        List.range' (r + 1) (rank vals (i + 1) - (r + 1))) := by
  obtain ⟨v, hv⟩ | hnull := node_or_null vals i
  · have hmake := make_next (nodes_rank hv) hr.le
    simp only [growChild, hv, Option.join_some]
    rw [length_made, hmake, rank_succ_of_node hv, slot_of_node hv, range_concat hr]
  · have hslot : slot vals i = none := by simp [slot, hnull]
    simp only [growChild, hnull]
    rw [rank_succ_of_null hnull, hslot, setLeft_none]

theorem growChild_right {r i : ℕ} (p : Option ℕ) (hr : r < rank vals i) :
    growChild vals (fun m => m.setRight r) i (List.range' (r + 1) (rank vals i - (r + 1)))
        ((linkedUpTo vals r (rank vals i)).setLeft r p) =
      (((linkedUpTo vals r (rank vals (i + 1))).setLeft r p).setRight r (slot vals i),
        List.range' (r + 1) (rank vals (i + 1) - (r + 1))) := by
  obtain ⟨v, hv⟩ | hnull := node_or_null vals i
  · have hmake := make_next (nodes_rank hv) hr.le
    have hlt : r < (linkedUpTo vals r (rank vals i)).length := by rwa [length_made]
    simp only [growChild, hv, Option.join_some]
    rw [length_setLeft, length_made, setLeft_append hlt, hmake, rank_succ_of_node hv,
      slot_of_node hv, range_concat hr]
  · have hslot : slot vals i = none := by simp [slot, hnull]
    simp only [growChild, hnull]
    rw [rank_succ_of_null hnull, hslot, setRight_none]

/-- The first `r` nodes have left the queue with their children; the queue is the other
nodes that exist. -/
theorem growQueue_finished {queue : List ℕ} {r i : ℕ} {m : Memory α}
    (hm : m = linkedUpTo vals r (rank vals i)) (hi : i = 2 * r + 1) (hr : r ≤ rank vals i)
    (hqueue : queue = List.range' r (rank vals i - r)) :
    Finished vals (growQueue vals queue i m) := by
  induction hn : vals.length - i using Nat.strong_induction_on generalizing queue r i m with
  | _ n ih =>
    subst hn
    by_cases hrank : r = rank vals i
    · have hempty : queue = [] := by simp [hqueue, hrank]
      rw [hempty, growQueue, hm, hrank]
      exact ⟨_, _, _, rfl, complete_of_closed (by omega) le_rfl⟩
    · have hlt : r < rank vals i := by omega
      have hcons : queue = r :: List.range' (r + 1) (rank vals i - (r + 1)) := by
        rw [hqueue, show rank vals i - r = rank vals i - (r + 1) + 1 by omega, List.range'_succ]
      rw [hcons, growQueue]
      by_cases hlen : i < vals.length
      · have hlt' : r < rank vals (i + 1) := lt_of_lt_of_le hlt (rank_mono (Nat.le_succ i))
        have hlt'' : r < rank vals (i + 1 + 1) := lt_of_lt_of_le hlt' (rank_mono (Nat.le_succ _))
        rw [if_pos hlen, hm, growChild_left hlt]
        dsimp only
        rw [growChild_right _ hlt']
        dsimp only
        refine ih _ (by omega) ?_ (by omega) hlt'' rfl rfl
        rw [← link_next, hi]
      · rw [if_neg hlen, hm, rank_of_length_le (Nat.not_lt.mp hlen)]
        exact ⟨_, _, _, rfl, complete_of_length_le (by omega)⟩

theorem represents_null (h : (vals[0]?).join = none) :
    Built.Represents ⟨[], none⟩ (decode vals) := by
  rw [decode_of_null h]
  exact ⟨.nil, rfl, List.nodup_nil, rfl⟩

theorem buildTreeCpp_represents (vals : List (Option α)) :
    (buildTreeCpp vals).Represents (decode vals) := by
  match vals with
  | [] => exact represents_null rfl
  | none :: rest => exact represents_null rfl
  | some v :: rest =>
    have hmade : [leaf v] = linkedUpTo (some v :: rest) 0 (rank (some v :: rest) 1) := by
      simp [rank, linkedUpTo, nodes]
    have hfinished := growQueue_finished hmade rfl (Nat.zero_le _) rfl
    exact hfinished.represents

end

/-- A JSON number as Go decodes it is converted back without loss. -/
theorem toInt_unmarshal (unrepresentable : Float64 → Int64) (n : Int32) :
    toInt unrepresentable (unmarshal n) = some n.toInt64 := by
  have hlow := n.le_toInt
  have hhigh := n.toInt_lt
  obtain ⟨x, hx, hunits⟩ := ofInt_exact (n := n.toInt) (by omega)
  have htrunc : x.units.tdiv one = n.toInt := by
    rw [hunits]
    have hpos : (one : ℤ) ≠ 0 := by
      have hnat : one ≠ 0 := pow_ne_zero 1074 two_ne_zero
      exact_mod_cast hnat
    generalize (one : ℤ) = o at hpos
    exact Int.mul_tdiv_cancel n.toInt hpos
  rw [unmarshal, hx, Option.getD_some, toInt]
  simp only [goInt, htrunc]
  rw [if_pos ⟨by omega, by omega⟩, Int64.ofInt_int32ToInt]

theorem mapM_unmarshal (unrepresentable : Float64 → Int64) (vals : List (Option Int32)) :
    ((vals.map (Option.map unmarshal)).mapM fun raw => raw.mapM (toInt unrepresentable)) =
      some (vals.map (Option.map Int32.toInt64)) := by
  induction vals with
  | nil => rfl
  | cons value vals ih =>
    cases value with
    | none => simp [ih]
    | some n => simp [ih, toInt_unmarshal]

theorem buildTreeGo_represents (unrepresentable : Float64 → Int64) (vals : List (Option Int32)) :
    (buildTreeGo unrepresentable (vals.map (Option.map unmarshal))).Represents
      (decode (vals.map (Option.map Int32.toInt64))) := by
  match vals with
  | [] => exact represents_null rfl
  | none :: rest => exact represents_null rfl
  | some n :: rest =>
    have hconv := mapM_unmarshal unrepresentable (some n :: rest)
    simp only [List.map_cons, Option.map_some] at hconv ⊢
    rw [buildTreeGo, hconv]
    exact buildTreeJavaScript_represents _

theorem asI64_ofInt (n : Int32) : (asI64 (.int n.toInt)).map Int64.toInt32 = some n := by
  have hlow := n.le_toInt
  have hhigh := n.toInt_lt
  rw [asI64, if_pos ⟨by omega, by omega⟩, Int64.ofInt_int32ToInt, Option.map_some]
  simp

theorem buildTreeRust_represents (vals : List (Option Int32)) :
    (buildTreeRust (vals.map toValue)).Represents (decode vals) := by
  have hconv : (vals.map toValue).map (fun v => (asI64 v).map Int64.toInt32) = vals := by
    rw [List.map_map]
    conv_rhs => rw [← List.map_id vals]
    apply List.map_congr_left
    intro value _
    cases value with
    | none => rfl
    | some n => exact asI64_ofInt n
  rw [buildTreeRust, hconv]
  exact buildTreeCpp_represents vals

/-- All builders return the same finite tree, without sharing and without cycles. -/
theorem builders_agree (unrepresentable : Float64 → Int64) (vals : List (Option Int32)) :
    ∃ t : BinaryTree Int32,
      (buildTreePython (vals.map (Option.map Int32.toInt))).Represents (t.map Int32.toInt) ∧
      (buildTreeJavaScript (vals.map (Option.map Int32.toInt))).Represents (t.map Int32.toInt) ∧
      (buildTreeTypeScript (vals.map (Option.map Int32.toInt))).Represents (t.map Int32.toInt) ∧
      (buildTreeGo unrepresentable (vals.map (Option.map unmarshal))).Represents
        (t.map Int32.toInt64) ∧
      (buildTreeJava vals).Represents t ∧
      (buildTreeKotlin vals).Represents t ∧
      (buildTreeCSharp vals).Represents t ∧
      (buildTreeCpp vals).Represents t ∧
      (buildTreeRust (vals.map toValue)).Represents t := by
  have hint := decode_map Int32.toInt vals
  have hint64 := decode_map Int32.toInt64 vals
  refine ⟨decode vals, ?_, ?_, ?_, ?_, ?_, ?_, ?_, ?_, ?_⟩
  · rw [← hint]
    exact buildTreePython_represents _
  · rw [← hint]
    exact buildTreeJavaScript_represents _
  · rw [← hint]
    exact buildTreeJavaScript_represents _
  · rw [← hint64]
    exact buildTreeGo_represents unrepresentable vals
  · exact buildTreeJava_represents vals
  · exact buildTreeJava_represents vals
  · exact buildTreeJava_represents vals
  · exact buildTreeCpp_represents vals
  · exact buildTreeRust_represents vals

section
variable {α : Type u}

/-- Following the pointers from `p` gives the tree `t`. -/
def Sees (m : Memory α) (p : Option ℕ) (t : BinaryTree α) : Prop :=
  ∃ placed, m.Reads p placed ∧ placed.map Prod.snd = t

theorem sees_nil {m : Memory α} {p : Option ℕ} (h : Sees m p .nil) : p = none := by
  obtain ⟨placed, hreads, hmap⟩ := h
  cases placed with
  | nil => exact hreads
  | node x l r => simp [BinaryTree.map] at hmap

theorem sees_node {m : Memory α} {p : Option ℕ} {v : α} {l r : BinaryTree α}
    (h : Sees m p (.node v l r)) :
    ∃ a c, p = some a ∧ m[a]? = some c ∧ c.val = v ∧ Sees m c.left l ∧ Sees m c.right r := by
  obtain ⟨placed, hreads, hmap⟩ := h
  cases placed with
  | nil => simp [BinaryTree.map] at hmap
  | node x l' r' =>
    obtain ⟨a, w⟩ := x
    obtain ⟨hp, c, hc, hval, hleft, hright⟩ := hreads
    simp only [BinaryTree.map, BinaryTree.node.injEq] at hmap
    obtain ⟨hw, hl, hr⟩ := hmap
    exact ⟨a, c, hp, hc, hval.trans hw, ⟨l', hleft, hl⟩, ⟨r', hright, hr⟩⟩

/-- The loop visits the trees behind the pointers of the queue; it needs one round for
each of them. -/
theorem visitQueue_eq {m : Memory α} {trees : List (BinaryTree α)} {queue : List (Option ℕ)}
    (h : List.Forall₂ (Sees m) queue trees) (fuel : ℕ) (result : List (Option α)) :
    visitQueue m fuel queue result =
      if visits trees ≤ fuel then some (result ++ (visited trees).map root?) else none := by
  induction trees using visited.induct generalizing queue fuel result with
  | case1 =>
    cases h
    simp [visitQueue, visits, visited]
  | case2 trees ih =>
    cases h with
    | cons hp hrest =>
      obtain rfl := sees_nil hp
      cases fuel with
      | zero => simp [visitQueue, visits]
      | succ fuel =>
        have hvisits : visits (.nil :: trees) = visits trees + 1 := by
          simp [visits]
          omega
        rw [visitQueue, ih hrest, hvisits, visited]
        simp [root?]
  | case3 v l r trees ih =>
    cases h with
    | cons hp hrest =>
      obtain ⟨a, c, rfl, hc, hval, hl, hr⟩ := sees_node hp
      cases fuel with
      | zero => simp [visitQueue, visits]
      | succ fuel =>
        have hvisits : visits (.node v l r :: trees) = visits (trees ++ [l, r]) + 1 := by
          simp [visits]
          omega
        have hqueue := List.rel_append hrest (.cons hl (.cons hr .nil))
        rw [visitQueue, hc]
        dsimp only
        rw [ih hqueue, hvisits, visited, hval]
        simp [root?]

theorem visitQueue_root {m : Memory α} {root : Option ℕ} {t : BinaryTree α}
    (h : m.Represents root t) (fuel : ℕ) :
    (visitQueue m fuel [root] []).map trim =
      if visits [t] ≤ fuel then some (encode t) else none := by
  obtain ⟨placed, hreads, -, hmap⟩ := h
  have hsees : List.Forall₂ (Sees m) [root] [t] := .cons ⟨placed, hreads, hmap⟩ .nil
  rw [visitQueue_eq hsees, List.nil_append]
  split_ifs with hle
  · rfl
  · rfl

/-- What a loop over a tree with enough rounds returns. -/
def Lists {β : Type u} (list : ℕ → Memory α → Option ℕ → Option β) (f : BinaryTree α → β) : Prop :=
  ∀ {t : BinaryTree α} {m : Memory α} {root : Option ℕ}, m.Represents root t →
    (∃ steps, ∀ fuel, steps ≤ fuel → list fuel m root = some (f t)) ∧
    ∀ fuel l, list fuel m root = some l → l = f t

theorem lists_of_ite {β : Type u} {list : ℕ → Memory α → Option ℕ → Option β}
    {f : BinaryTree α → β}
    (h : ∀ {t : BinaryTree α} {m : Memory α} {root : Option ℕ}, m.Represents root t →
      ∃ steps, ∀ fuel, list fuel m root = if steps ≤ fuel then some (f t) else none) :
    Lists list f := by
  intro t m root hrep
  obtain ⟨steps, hsteps⟩ := h hrep
  refine ⟨⟨steps, fun fuel hle => by rw [hsteps, if_pos hle]⟩, fun fuel l hl => ?_⟩
  rw [hsteps] at hl
  split_ifs at hl
  exact (Option.some.inj hl).symm

theorem lists_treeToList : Lists (treeToList (α := α)) encode := by
  apply lists_of_ite
  intro t m root hrep
  cases root with
  | none =>
    obtain ⟨placed, hreads, -, rfl⟩ := hrep
    cases placed with
    | nil => exact ⟨0, fun fuel => by simp [treeToList, encode, BinaryTree.map, visited, root?]⟩
    | node x l r => exact absurd hreads.1 (by simp)
  | some node => exact ⟨visits [t], visitQueue_root hrep⟩

/-- Listing a tree returns, and building the list again gives the tree; different trees
have different lists. -/
structure RoundTrips {β : Type u} (list : ℕ → Memory α → Option ℕ → Option β)
    (build : β → Built α) : Prop where
  inverse : ∀ t m root, m.Represents root t → ∃ steps l,
    (∀ fuel, steps ≤ fuel → list fuel m root = some l) ∧ (build l).Represents t
  injective : ∀ t m root fuel t' m' root' fuel' l, m.Represents root t →
    m'.Represents root' t' → list fuel m root = some l → list fuel' m' root' = some l → t = t'

theorem roundTrips_of_lists {β : Type u} {list : ℕ → Memory α → Option ℕ → Option β}
    {f : BinaryTree α → β} {build : β → Built α} (hlist : Lists list f)
    (hbuild : ∀ t, (build (f t)).Represents t) : RoundTrips list build where
  inverse t m root hrep := by
    obtain ⟨steps, hsteps⟩ := (hlist hrep).1
    exact ⟨steps, f t, hsteps, hbuild t⟩
  injective t m root fuel t' m' root' fuel' l hrep hrep' hl hl' := by
    have hf := (hlist hrep).2 fuel l hl
    have hf' := (hlist hrep').2 fuel' l hl'
    have ht := hbuild t
    have ht' := hbuild t'
    rw [← hf] at ht
    rw [← hf'] at ht'
    exact ht.unique ht'

end

theorem buildTreeGo_int (unrepresentable : Float64 → Int64) (vals : List (Option Int64)) :
    (buildTreeGo unrepresentable (vals.map (Option.map GoValue.int))).Represents
      (decode vals) := by
  have hconv : ((vals.map (Option.map GoValue.int)).mapM fun raw =>
      raw.mapM (toInt unrepresentable)) = some vals := by
    induction vals with
    | nil => rfl
    | cons value vals ih =>
      cases value with
      | none => simp [ih]
      | some n => simp [ih, toInt]
  match vals with
  | [] => exact represents_null rfl
  | none :: rest => exact represents_null rfl
  | some n :: rest =>
    simp only [List.map_cons, Option.map_some] at hconv ⊢
    rw [buildTreeGo, hconv]
    exact buildTreeJavaScript_represents _

theorem lists_map {α β γ : Type u} {list : ℕ → Memory α → Option ℕ → Option β}
    {f : BinaryTree α → β} (h : Lists list f) (g : β → γ) :
    Lists (fun fuel m root => (list fuel m root).map g) (g ∘ f) := by
  intro t m root hrep
  obtain ⟨⟨steps, hsteps⟩, hunique⟩ := h hrep
  refine ⟨⟨steps, fun fuel hle => ?_⟩, fun fuel l hl => ?_⟩
  · change (list fuel m root).map g = _
    rw [hsteps fuel hle]
    rfl
  · obtain ⟨l', hl', rfl⟩ := Option.map_eq_some_iff.mp hl
    rw [hunique fuel l' hl']
    rfl

theorem lists_treeToJson : Lists treeToJson fun t => (encode t).map toValue := by
  apply lists_of_ite
  intro t m root hrep
  refine ⟨visits [t], fun fuel => ?_⟩
  have hroot := visitQueue_root hrep fuel
  rw [treeToJson, ← Function.comp_def (fun out => List.map toValue out) trim, ← Option.map_map,
    hroot]
  split_ifs with hle
  · rfl
  · rfl

/-- Listing and building are inverse to each other in every wrapper. -/
theorem codecs_round_trip (unrepresentable : Float64 → Int64) :
    RoundTrips (treeToList (α := ℤ)) buildTreePython ∧
      RoundTrips (treeToList (α := ℤ)) buildTreeJavaScript ∧
      RoundTrips (treeToList (α := ℤ)) buildTreeTypeScript ∧
      RoundTrips (treeToList (α := Int32)) buildTreeJava ∧
      RoundTrips (treeToList (α := Int32)) buildTreeKotlin ∧
      RoundTrips (treeToList (α := Int32)) buildTreeCSharp ∧
      RoundTrips treeToArray (buildTreeGo unrepresentable) ∧
      RoundTrips (serializeTree (α := Int32)) buildTreeCpp ∧
      RoundTrips treeToJson buildTreeRust := by
  have hbuild : ∀ {α : Type} {build : List (Option α) → Built α},
      (∀ vals, (build vals).Represents (decode vals)) → ∀ t, (build (encode t)).Represents t := by
    intro α build hrep t
    have hdecode := hrep (encode t)
    rwa [decode_encode] at hdecode
  refine ⟨?_, ?_, ?_, ?_, ?_, ?_, ?_, ?_, ?_⟩
  · exact roundTrips_of_lists lists_treeToList (hbuild buildTreePython_represents)
  · exact roundTrips_of_lists lists_treeToList (hbuild buildTreeJavaScript_represents)
  · exact roundTrips_of_lists lists_treeToList (hbuild buildTreeJavaScript_represents)
  · exact roundTrips_of_lists lists_treeToList (hbuild buildTreeJava_represents)
  · exact roundTrips_of_lists lists_treeToList (hbuild buildTreeJava_represents)
  · exact roundTrips_of_lists lists_treeToList (hbuild buildTreeJava_represents)
  · exact roundTrips_of_lists (lists_map lists_treeToList _)
      (hbuild (buildTreeGo_int unrepresentable))
  · exact roundTrips_of_lists lists_treeToList (hbuild buildTreeCpp_represents)
  · exact roundTrips_of_lists lists_treeToJson (hbuild buildTreeRust_represents)

theorem codecs_round_trip_left_child :
    ∃ steps l, (∀ fuel, steps ≤ fuel →
        treeToList fuel [⟨1, some 1, none⟩, ⟨2, none, none⟩] (some 0) = some l) ∧
      (buildTreePython l).Represents (.node (1 : ℤ) (.node 2 .nil .nil) .nil) := by
  have hstored : Memory.Represents [⟨1, some 1, none⟩, ⟨2, none, none⟩] (some 0)
      (.node (1 : ℤ) (.node 2 .nil .nil) .nil) :=
    ⟨.node (0, 1) (.node (1, 2) .nil .nil) .nil, by simp [Reads], by decide, rfl⟩
  exact (codecs_round_trip fun _ => 0).1.inverse _ _ _ hstored

end ExecutionEngine.TreeCodec
