import ExecutionEngine.Traversal

/-!
# Graphs in the wrappers

A test case gives a graph by the lists of its neighbours, the vertices counted from 1. The
wrappers make a node for each vertex and return the first; a returned graph is traversed
from its node and listed by the numbers its nodes carry. Memory is the list of the nodes and
the address of a node is its place in it; a reference may be null. The numbers are those of
the vertices, so that no width of an integer type is exceeded.
-/
namespace ExecutionEngine.GraphCodec
open Traversal

/-- `Node` -/
structure Node where
  val : ℤ
  neighbors : List (Option ℕ)
  deriving DecidableEq, Repr

abbrev Heap := List Node

/-- `nodes[i].neighbors.append(p)` -/
def Heap.addNeighbor (m : Heap) (i : ℕ) (p : Option ℕ) : Heap :=
  m.modify i fun node => { node with neighbors := node.neighbors ++ [p] }

/-- The memory after a builder has returned, and the node it returned. -/
structure Built where
  memory : Heap
  node : Option ℕ
  deriving DecidableEq, Repr

inductive GraphLanguage
  | python | java | kotlin | csharp | javascript | typescript
  deriving DecidableEq, Repr

/-- What a builder does for a number that no vertex has. -/
inductive Missing
  | raises
  | null
  | skipped
  deriving DecidableEq, Repr

/-- One neighbour of the vertex with the index `i`; `none` where the access raises. -/
def link (missing : Missing) (size : ℕ) (i : ℕ) (m : Heap) (neighbor : ℤ) : Option Heap :=
  if 1 ≤ neighbor ∧ neighbor ≤ size then some (m.addNeighbor i (some (neighbor - 1).toNat))
  else
    match missing with
    | .raises => none
    | .null => some (m.addNeighbor i none)
    | .skipped => some m

/-- `for neighbor in neighbors`, for a row and its index. -/
def linkRow (missing : Missing) (size : ℕ) (m : Heap) (row : List ℤ × ℕ) : Option Heap :=
  row.1.foldlM (link missing size row.2) m

/-- `Node(i + 1)` -/
def newNode (i : ℕ) : Node := ⟨i + 1, []⟩

/-- The two loops of the builders: the nodes, then the neighbours of each. -/
def buildGraph (missing : Missing) (adjList : List (List ℤ)) : Option Built :=
  if adjList.isEmpty then some ⟨[], none⟩
  else
    let nodes : Heap := (List.range adjList.length).map newNode
    (adjList.zipIdx.foldlM (linkRow missing adjList.length) nodes).map fun m => ⟨m, some 0⟩

/-- `nodes[neighbor]` of a dictionary raises in Python and C#, and so does `!!` on null in
Kotlin; Java's `nodes.get` and an index outside the array in JavaScript yield null. -/
def GraphLanguage.missing : GraphLanguage → Missing
  | .python | .kotlin | .csharp => .raises
  | .java | .javascript | .typescript => .null

def GraphLanguage.buildGraph (L : GraphLanguage) (adjList : List (List ℤ)) : Option Built :=
  GraphCodec.buildGraph L.missing adjList

/-- Go's `buildGraph`: `if n >= 1 && n <= len(nodes)`. -/
def buildGraphGo (adjList : List (List ℤ)) : Option Built := buildGraph .skipped adjList

/-- A neighbour that is put into the queue. -/
def queued (skipsNil : Bool) (visited : List ℕ) : Option ℕ → Bool
  | none => !skipsNil
  | some neighbor => neighbor ∉ visited

/-- `while queue`, with at most the given number of rounds. The set `visited` holds the
nodes of the list. Go passes over nil; elsewhere the access to its neighbours raises. -/
def traverse (skipsNil : Bool) (m : Heap) : ℕ → List (Option ℕ) → List ℕ → Option (List ℕ)
  | _, [], nodes => some nodes
  | 0, _ :: _, _ => none
  | fuel + 1, none :: queue, nodes =>
    if skipsNil then traverse skipsNil m fuel queue nodes else none
  | fuel + 1, some curr :: queue, nodes =>
    if curr ∈ nodes then traverse skipsNil m fuel queue nodes
    else
      match m[curr]? with
      | some node =>
        traverse skipsNil m fuel
          (queue ++ node.neighbors.filter (queued skipsNil (nodes ++ [curr]))) (nodes ++ [curr])
      | none => none

/-- The nodes at the given addresses. -/
def nodesAt (m : Heap) (addresses : List ℕ) : List Node := addresses.filterMap (m[·]?)

/-- `nodes.sort(key=lambda x: x.val)`, which is stable in each of these languages. -/
def sortByVal (nodes : List Node) : List Node := nodes.insertionSort fun a b => a.val ≤ b.val

/-- The place that an index stands for. Python counts negative ones from the end; elsewhere
they raise or have no list to add to. -/
def GraphLanguage.index (L : GraphLanguage) (size : ℕ) (i : ℤ) : Option ℕ :=
  if 0 ≤ i ∧ i < size then some i.toNat
  else if L = .python ∧ -size ≤ i ∧ i < 0 then some (size + i).toNat
  else none

/-- `result[curr.val - 1].append(neighbor.val)` -/
def addEntry (L : GraphLanguage) (m : Heap) (curr : Node) (result : List (List ℤ))
    (neighbor : Option ℕ) : Option (List (List ℤ)) := do
  let node ← neighbor.bind (m[·]?)
  let i ← L.index result.length (curr.val - 1)
  some (result.modify i (· ++ [node.val]))

/-- `[[] for _ in range(max_val)]`; a list of negative size raises in Kotlin. -/
def GraphLanguage.newRows (L : GraphLanguage) (maxVal : ℤ) : Option (List (List ℤ)) :=
  if L = .kotlin ∧ maxVal < 0 then none else some (List.replicate maxVal.toNat [])

/-- `graph_to_adjlist`; `none` where it raises or the rounds do not suffice. -/
def GraphLanguage.graphToAdjList (L : GraphLanguage) (fuel : ℕ) (m : Heap) (node : Option ℕ) :
    Option (List (List ℤ)) :=
  match node with
  | none => some []
  | some start => do
    let nodes := sortByVal (nodesAt m (← traverse false m fuel [some start] []))
    let maxVal ← (nodes.map Node.val).max?
    let result ← L.newRows maxVal
    nodes.foldlM (fun result curr => curr.neighbors.foldlM (addEntry L m curr) result) result

/-- `sort.Slice`, which promises a sorted permutation and nothing about equal elements. -/
structure SortSlice where
  sort : List Node → List Node
  perm : ∀ nodes, (sort nodes).Perm nodes
  sorted : ∀ nodes, (sort nodes).Pairwise fun a b => a.val ≤ b.val

/-- `result[curr.Val-1] = row` -/
def setRow (m : Heap) (result : List (Option (List ℤ))) (curr : Node) :
    Option (List (Option (List ℤ))) := do
  let row ← (curr.neighbors.filterMap id).mapM fun neighbor => (m[neighbor]?).map Node.val
  if 1 ≤ curr.val ∧ curr.val ≤ result.length then
    some (result.set (curr.val - 1).toNat (some row))
  else none

/-- Go's `graphToAdjList`; a row that is not set stays nil. -/
def graphToAdjListGo (slice : SortSlice) (fuel : ℕ) (m : Heap) (node : Option ℕ) :
    Option (List (Option (List ℤ))) :=
  match node with
  | none => some []
  | some start => do
    let nodes := nodesAt m (← traverse true m fuel [some start] [])
    let maxVal := nodes.foldl (fun maxVal curr => max maxVal curr.val) 0
    (slice.sort nodes).foldlM (setRow m) (List.replicate maxVal.toNat none)

/-- `graph_to_adjlist(build_graph(adjList))` -/
def GraphLanguage.roundTrip (L : GraphLanguage) (fuel : ℕ) (adjList : List (List ℤ)) :
    Option (List (List ℤ)) :=
  (L.buildGraph adjList).bind fun b => L.graphToAdjList fuel b.memory b.node

def roundTripGo (slice : SortSlice) (fuel : ℕ) (adjList : List (List ℤ)) :
    Option (List (Option (List ℤ))) :=
  (buildGraphGo adjList).bind fun b => graphToAdjListGo slice fuel b.memory b.node

/-- A number of a neighbour is that of a vertex. -/
def InRange (adj : List (List ℤ)) : Prop :=
  ∀ row ∈ adj, ∀ v ∈ row, 1 ≤ v ∧ v ≤ adj.length

instance (adj : List (List ℤ)) : Decidable (InRange adj) :=
  inferInstanceAs (Decidable (∀ row ∈ adj, ∀ v ∈ row, _))

/-- The address of the node for a vertex. -/
def address (v : ℤ) : ℕ := (v - 1).toNat

theorem address_cast (a : ℕ) : address (a + 1) = a := by simp [address]

theorem cast_address {v : ℤ} (hv : 1 ≤ v) : (address v : ℤ) + 1 = v := by
  rw [address, Int.toNat_of_nonneg (by omega)]
  omega

/-- The row of the vertex at an address. -/
def rowAt (adj : List (List ℤ)) (a : ℕ) : List ℤ := adj.getD a []

theorem InRange.rowAt {adj : List (List ℤ)} (h : InRange adj) (a : ℕ) :
    ∀ v ∈ rowAt adj a, 1 ≤ v ∧ v ≤ adj.length := by
  intro v hv
  rw [GraphCodec.rowAt, List.getD_eq_getElem?_getD] at hv
  cases hrow : adj[a]? with
  | none => simp [hrow] at hv
  | some row =>
    rw [hrow, Option.getD_some] at hv
    exact h row (List.mem_of_getElem? hrow) v hv

/-- The node at an address. -/
def nodeOf (adj : List (List ℤ)) (a : ℕ) : Node :=
  ⟨a + 1, (rowAt adj a).map fun v => some (address v)⟩

def graphOf (adj : List (List ℤ)) : Heap := (List.range adj.length).map (nodeOf adj)

theorem graphOf_getElem? {adj : List (List ℤ)} {a : ℕ} (ha : a < adj.length) :
    (graphOf adj)[a]? = some (nodeOf adj a) := by
  simp [graphOf, ha]

/-- A node with more neighbours. -/
def Node.addRow (node : Node) (row : List ℤ) : Node :=
  { node with neighbors := node.neighbors ++ row.map fun v => some (address v) }

@[simp] theorem Node.addRow_nil (node : Node) : node.addRow [] = node := by
  simp [Node.addRow]

theorem foldlM_link (missing : Missing) (size i : ℕ) {row : List ℤ}
    (hrow : ∀ v ∈ row, 1 ≤ v ∧ v ≤ size) (m : Heap) :
    row.foldlM (link missing size i) m = some (m.modify i (·.addRow row)) := by
  induction row generalizing m with
  | nil =>
    have hid : (fun node : Node => node.addRow []) = id := funext Node.addRow_nil
    rw [hid, List.modify_id]
    rfl
  | cons v row ih =>
    have hv : link missing size i m v = some (m.addNeighbor i (some (address v))) :=
      if_pos (hrow v (by simp))
    have hrest := ih (fun w hw => hrow w (by simp [hw])) (m.addNeighbor i (some (address v)))
    rw [List.foldlM_cons, hv]
    refine hrest.trans (congrArg some ?_)
    rw [Heap.addNeighbor, List.modify_modify_eq]
    congr 1
    funext node
    simp [Node.addRow]

theorem foldlM_linkRow (missing : Missing) (size : ℕ) {rows : List (List ℤ)}
    (hrows : ∀ row ∈ rows, ∀ v ∈ row, 1 ≤ v ∧ v ≤ size) (k : ℕ) (m : Heap) :
    ∃ m', (rows.zipIdx k).foldlM (linkRow missing size) m = some m' ∧
      ∀ j, m'[j]? = (m[j]?).map fun node =>
        if k ≤ j then node.addRow (rowAt rows (j - k)) else node := by
  induction rows generalizing k m with
  | nil => exact ⟨m, rfl, fun j => by simp [rowAt]⟩
  | cons row rows ih =>
    obtain ⟨m', hm', hget⟩ :=
      ih (fun r hr => hrows r (by simp [hr])) (k + 1) (m.modify k (·.addRow row))
    refine ⟨m', ?_, fun j => ?_⟩
    · rw [List.zipIdx_cons, List.foldlM_cons, linkRow,
        foldlM_link missing size k (hrows row (by simp))]
      exact hm'
    · rw [hget, List.getElem?_modify, Option.map_eq_map, Option.map_map]
      congr 1
      funext node
      rcases Nat.lt_trichotomy j k with hlt | rfl | hgt
      · have h₁ : ¬ k + 1 ≤ j := by omega
        have h₂ : ¬ k ≤ j := by omega
        have h₃ : k ≠ j := by omega
        simp [h₁, h₂, h₃]
      · simp [rowAt]
      · obtain ⟨d, rfl⟩ := Nat.exists_eq_add_of_lt hgt
        have h₁ : k + d + 1 - k = d + 1 := by omega
        have h₂ : k + d + 1 - (k + 1) = d := by omega
        have h₃ : k ≠ k + d + 1 := by omega
        have h₄ : k + 1 ≤ k + d + 1 := by omega
        have h₅ : k ≤ k + d + 1 := by omega
        simp only [Function.comp, if_neg h₃, if_pos h₄, if_pos h₅, h₁, h₂, rowAt,
          List.getD_cons_succ]

theorem buildGraph_eq (missing : Missing) {adj : List (List ℤ)} (hne : adj ≠ [])
    (hrange : InRange adj) : buildGraph missing adj = some ⟨graphOf adj, some 0⟩ := by
  have hempty : adj.isEmpty = false := by simpa using hne
  obtain ⟨m, hm, hget⟩ := foldlM_linkRow missing adj.length hrange 0
    ((List.range adj.length).map newNode)
  have hgraph : m = graphOf adj := by
    apply List.ext_getElem?
    intro j
    rw [hget]
    by_cases hj : j < adj.length
    · rw [graphOf_getElem? hj]
      simp [hj, nodeOf, newNode, Node.addRow]
    · simp [graphOf, hj]
  rw [buildGraph, hempty, if_neg (by decide)]
  dsimp only
  rw [hm, hgraph, Option.map_some]

/-- The neighbours of a vertex, by their addresses. -/
def successors (adj : List (List ℤ)) (a : ℕ) : List ℕ := (rowAt adj a).map address

section
variable {adj : List (List ℤ)} (hrange : InRange adj)
include hrange

theorem successors_lt (a : ℕ) : ∀ b ∈ successors adj a, b < adj.length := by
  intro b hb
  obtain ⟨v, hv, rfl⟩ := List.mem_map.mp hb
  have hv := hrange.rowAt a v hv
  have := cast_address hv.1
  omega

/-- No reference is null, so that the languages traverse the graph alike. -/
theorem traverse_graphOf (skipsNil : Bool) (fuel : ℕ) {queue : List ℕ}
    (hqueue : ∀ a ∈ queue, a < adj.length) (visited : List ℕ) :
    traverse skipsNil (graphOf adj) fuel (queue.map some) visited =
      explore (successors adj) fuel queue visited := by
  induction fuel generalizing queue visited with
  | zero => cases queue <;> rfl
  | succ fuel ih =>
    cases queue with
    | nil => rfl
    | cons curr queue =>
      have hrest : ∀ a ∈ queue, a < adj.length := fun a ha => hqueue a (by simp [ha])
      have hnode := graphOf_getElem? (hqueue curr (by simp))
      have hfilter : (nodeOf adj curr).neighbors.filter (queued skipsNil (visited ++ [curr])) =
          ((successors adj curr).filter (· ∉ visited ++ [curr])).map some := by
        rw [nodeOf, successors, List.filter_map, List.filter_map, List.map_map]
        rfl
      rw [List.map_cons, traverse, explore, ih hrest, hnode]
      split_ifs with hcurr
      · rfl
      · dsimp only
        rw [hfilter, ← List.map_append, ih]
        intro a ha
        rcases List.mem_append.mp ha with ha | ha
        · exact hrest a ha
        · exact successors_lt hrange curr a (List.mem_of_mem_filter ha)

end

theorem sum_rowAt (adj : List (List ℤ)) :
    ∑ a ∈ Finset.range adj.length, (rowAt adj a).length = adj.flatten.length := by
  induction adj with
  | nil => rfl
  | cons row adj ih =>
    have htail : ∀ a, rowAt (row :: adj) (a + 1) = rowAt adj a := fun a => rfl
    rw [List.length_cons, Finset.sum_range_succ', List.flatten_cons, List.length_append, ← ih,
      Nat.add_comm row.length]
    rfl

/-- A vertex is followed by those of its row. -/
def Edge (adj : List (List ℤ)) (u v : ℕ) : Prop :=
  1 ≤ u ∧ ∃ row, adj[u - 1]? = some row ∧ (v : ℤ) ∈ row

/-- A path leads from the vertex 1 to this one. -/
def Reachable (adj : List (List ℤ)) (v : ℕ) : Prop := Relation.ReflTransGen (Edge adj) 1 v

theorem successors_iff_edge {adj : List (List ℤ)} (hrange : InRange adj) {a b : ℕ} :
    b ∈ successors adj a ↔ Edge adj (a + 1) (b + 1) := by
  have hget : ∀ row, adj[a]? = some row → rowAt adj a = row := by
    intro row hrow
    rw [rowAt, List.getD_eq_getElem?_getD, hrow, Option.getD_some]
  constructor
  · intro hb
    obtain ⟨v, hv, rfl⟩ := List.mem_map.mp hb
    refine ⟨by omega, rowAt adj a, ?_, ?_⟩
    · rw [Nat.add_sub_cancel]
      cases hrow : adj[a]? with
      | none => simp [rowAt, hrow] at hv
      | some row => rw [hget row hrow]
    · push_cast
      rwa [cast_address (hrange.rowAt a v hv).1]
  · rintro ⟨-, row, hrow, hv⟩
    rw [Nat.add_sub_cancel] at hrow
    refine List.mem_map.mpr ⟨_, (hget row hrow).symm ▸ hv, ?_⟩
    push_cast
    exact address_cast b

theorem Reachable.pos {adj : List (List ℤ)} (hrange : InRange adj) {v : ℕ}
    (h : Reachable adj v) : 1 ≤ v := by
  induction h with
  | refl => exact le_rfl
  | tail _ hedge _ =>
    obtain ⟨-, row, hrow, hv⟩ := hedge
    have := (hrange row (List.mem_of_getElem? hrow) _ hv).1
    omega

theorem Reachable.le_length {adj : List (List ℤ)} (hne : adj ≠ []) (hrange : InRange adj) {v : ℕ}
    (h : Reachable adj v) : v ≤ adj.length := by
  have hlength := List.length_pos_iff.mpr hne
  induction h with
  | refl => exact hlength
  | tail _ hedge _ =>
    obtain ⟨-, row, hrow, hv⟩ := hedge
    have := (hrange row (List.mem_of_getElem? hrow) _ hv).2
    omega

/-- A path of addresses is a path of vertices. -/
theorem reachable_iff {adj : List (List ℤ)} (hrange : InRange adj) (a : ℕ) :
    Relation.ReflTransGen (fun a b => b ∈ successors adj a) 0 a ↔ Reachable adj (a + 1) := by
  constructor
  · exact fun h => h.lift (· + 1) fun a b hb => (successors_iff_edge hrange).mp hb
  · intro h
    generalize hv : a + 1 = v at h
    induction h generalizing a with
    | refl =>
      obtain rfl : a = 0 := by omega
      exact .refl
    | @tail u w hu hedge ih =>
      subst hv
      have hpos : 1 ≤ u := hedge.1
      obtain ⟨c, rfl⟩ := Nat.exists_eq_add_of_le' hpos
      exact (ih c rfl).tail ((successors_iff_edge hrange).mpr hedge)

/-- The traversal of the graph that is built: the addresses of the vertices that are reached,
each of them once. -/
theorem exists_traverse {adj : List (List ℤ)} (hne : adj ≠ []) (hrange : InRange adj) :
    ∃ visited : List ℕ, visited.Nodup ∧ (∀ a, a ∈ visited ↔ Reachable adj (a + 1)) ∧
      ∀ fuel, adj.flatten.length < fuel → ∀ skipsNil,
        traverse skipsNil (graphOf adj) fuel [some 0] [] = some visited := by
  have hlength := List.length_pos_iff.mpr hne
  have hstart : 0 ∈ Finset.range adj.length := Finset.mem_range.mpr hlength
  have hclosed : ∀ a ∈ Finset.range adj.length, ∀ b ∈ successors adj a,
      b ∈ Finset.range adj.length :=
    fun a _ b hb => Finset.mem_range.mpr (successors_lt hrange a b hb)
  obtain ⟨visited, hnodup, hmem, hexplore⟩ := exists_explore hstart hclosed
  refine ⟨visited, hnodup, fun a => (hmem a).trans (reachable_iff hrange a), ?_⟩
  intro fuel hfuel skipsNil
  have hsum : ∑ a ∈ Finset.range adj.length, (successors adj a).length = adj.flatten.length := by
    simp only [successors, List.length_map, sum_rowAt]
  rw [← hexplore fuel (hsum.symm ▸ hfuel)]
  exact traverse_graphOf hrange skipsNil fuel (List.forall_mem_singleton.mpr hlength) []

theorem nodesAt_graphOf {adj : List (List ℤ)} {addresses : List ℕ}
    (h : ∀ a ∈ addresses, a < adj.length) :
    nodesAt (graphOf adj) addresses = addresses.map (nodeOf adj) := by
  induction addresses with
  | nil => rfl
  | cons a addresses ih =>
    have hrest := ih fun b hb => h b (by simp [hb])
    rw [nodesAt, List.filterMap_cons_some (graphOf_getElem? (h a (by simp))), List.map_cons]
    exact congrArg _ hrest

/-- Nodes in another order are the nodes at the addresses in another order. -/
theorem exists_perm_addresses {adj : List (List ℤ)} {nodes : List Node} {addresses : List ℕ}
    (h : nodes.Perm (addresses.map (nodeOf adj))) :
    ∃ addresses' : List ℕ, addresses'.Perm addresses ∧ nodes = addresses'.map (nodeOf adj) := by
  have hback : ∀ a, address (nodeOf adj a).val = a := fun a => address_cast a
  refine ⟨nodes.map fun node => address node.val, ?_, ?_⟩
  · have := h.map fun node : Node => address node.val
    simpa [List.map_map, Function.comp_def, hback] using this
  · rw [List.map_map, eq_comm]
    refine (List.map_congr_left fun node hnode => ?_).trans (List.map_id nodes)
    obtain ⟨a, -, rfl⟩ := List.mem_map.mp (h.subset hnode)
    rw [Function.comp, hback, id]

theorem neighbor_val {adj : List (List ℤ)} {v : ℤ} (hv : 1 ≤ v ∧ v ≤ adj.length) :
    ∃ node, (graphOf adj)[address v]? = some node ∧ node.val = v := by
  have hcast := cast_address hv.1
  have hlt : address v < adj.length := by omega
  exact ⟨_, graphOf_getElem? hlt, hcast⟩

theorem index_eq (L : GraphLanguage) {size a : ℕ} (ha : a < size) :
    L.index size ((a : ℤ) + 1 - 1) = some a := by
  rw [GraphLanguage.index, if_pos (by omega)]
  congr 1
  omega

/-- The entries of one row. -/
theorem foldlM_addEntry {adj : List (List ℤ)} (L : GraphLanguage) (a : ℕ) {row : List ℤ}
    (hrow : ∀ v ∈ row, 1 ≤ v ∧ v ≤ adj.length) {result : List (List ℤ)} (ha : a < result.length) :
    (row.map fun v => some (address v)).foldlM (addEntry L (graphOf adj) (nodeOf adj a)) result =
      some (result.modify a (· ++ row)) := by
  induction row generalizing result with
  | nil =>
    have hid : (fun r : List ℤ => r ++ []) = id := funext List.append_nil
    rw [hid, List.modify_id]
    rfl
  | cons v row ih =>
    obtain ⟨node, hnode, hval⟩ := neighbor_val (hrow v (by simp))
    have hentry : addEntry L (graphOf adj) (nodeOf adj a) result (some (address v)) =
        some (result.modify a (· ++ [v])) := by
      rw [addEntry, Option.bind_some, hnode]
      change (L.index result.length ((a : ℤ) + 1 - 1)).bind _ = _
      rw [index_eq L ha, Option.bind_some, hval]
    rw [List.map_cons, List.foldlM_cons, hentry]
    refine (ih (fun w hw => hrow w (by simp [hw])) (by simpa using ha)).trans (congrArg some ?_)
    rw [List.modify_modify_eq]
    congr 1
    funext r
    simp

theorem foldlM_rows {adj : List (List ℤ)} (hrange : InRange adj) (L : GraphLanguage)
    {addresses : List ℕ} (hnodup : addresses.Nodup) {result : List (List ℤ)}
    (hlt : ∀ a ∈ addresses, a < result.length) :
    ∃ result', (addresses.map (nodeOf adj)).foldlM (fun result curr =>
        curr.neighbors.foldlM (addEntry L (graphOf adj) curr) result) result = some result' ∧
      ∀ j, result'[j]? = (result[j]?).map fun r =>
        if j ∈ addresses then r ++ rowAt adj j else r := by
  induction addresses generalizing result with
  | nil => exact ⟨result, rfl, fun j => by simp⟩
  | cons a addresses ih =>
    obtain ⟨hnot, hnodup⟩ := List.nodup_cons.mp hnodup
    have hrow := foldlM_addEntry L a (hrange.rowAt a) (hlt a (by simp))
    have hrest : ∀ b ∈ addresses, b < (result.modify a (· ++ rowAt adj a)).length :=
      fun b hb => by simpa using hlt b (by simp [hb])
    obtain ⟨result', hfold, hget⟩ := ih hnodup hrest
    refine ⟨result', ?_, fun j => ?_⟩
    · rw [List.map_cons, List.foldlM_cons]
      change Option.bind (List.foldlM _ _ _) _ = _
      rw [nodeOf] at hrow ⊢
      rw [hrow]
      exact hfold
    · rw [hget, List.getElem?_modify, Option.map_eq_map, Option.map_map]
      congr 1
      funext r
      by_cases hj : a = j
      · subst hj
        simp [hnot]
      · simp [hj, Ne.symm hj]

/-- The row of one node in Go. -/
theorem setRow_nodeOf {adj : List (List ℤ)} (hrange : InRange adj) {a : ℕ}
    {result : List (Option (List ℤ))} (ha : a < result.length) :
    setRow (graphOf adj) result (nodeOf adj a) = some (result.set a (some (rowAt adj a))) := by
  have hneighbors : (nodeOf adj a).neighbors.filterMap id = (rowAt adj a).map address := by
    rw [nodeOf, List.filterMap_map]
    exact congrFun List.filterMap_eq_map (rowAt adj a)
  have hvals : ((rowAt adj a).map address).mapM
      (fun neighbor => ((graphOf adj)[neighbor]?).map Node.val) = some (rowAt adj a) := by
    have hrow := hrange.rowAt a
    generalize rowAt adj a = row at hrow
    induction row with
    | nil => rfl
    | cons v row ih =>
      obtain ⟨node, hnode, hval⟩ := neighbor_val (hrow v (by simp))
      rw [List.map_cons, List.mapM_cons, hnode, ih fun w hw => hrow w (by simp [hw]),
        Option.map_some, hval]
      rfl
  have hindex : 1 ≤ (nodeOf adj a).val ∧ (nodeOf adj a).val ≤ result.length := by
    rw [nodeOf]
    dsimp only
    omega
  rw [setRow, hneighbors, hvals]
  change (if 1 ≤ (nodeOf adj a).val ∧ (nodeOf adj a).val ≤ result.length then _ else _) = _
  rw [if_pos hindex]
  exact congrArg (fun i => some (result.set i (some (rowAt adj a)))) (address_cast a)

theorem foldlM_setRow {adj : List (List ℤ)} (hrange : InRange adj) {addresses : List ℕ}
    {result : List (Option (List ℤ))} (hlt : ∀ a ∈ addresses, a < result.length) :
    ∃ result', (addresses.map (nodeOf adj)).foldlM (setRow (graphOf adj)) result = some result' ∧
      ∀ j, result'[j]? = (result[j]?).map fun r =>
        if j ∈ addresses then some (rowAt adj j) else r := by
  induction addresses generalizing result with
  | nil => exact ⟨result, rfl, fun j => by simp⟩
  | cons a addresses ih =>
    have hrest : ∀ b ∈ addresses, b < (result.set a (some (rowAt adj a))).length :=
      fun b hb => by simpa using hlt b (by simp [hb])
    obtain ⟨result', hfold, hget⟩ := ih hrest
    refine ⟨result', ?_, fun j => ?_⟩
    · rw [List.map_cons, List.foldlM_cons, setRow_nodeOf hrange (hlt a (by simp))]
      exact hfold
    · rw [hget, List.getElem?_set]
      by_cases hj : a = j
      · subst hj
        simp [hlt a (by simp)]
      · simp [hj, Ne.symm hj]

theorem foldl_max {nodes : List Node} {init largest : ℤ} (hinit : init ≤ largest)
    (hle : ∀ node ∈ nodes, node.val ≤ largest)
    (hmem : init = largest ∨ ∃ node ∈ nodes, node.val = largest) :
    nodes.foldl (fun maxVal curr => max maxVal curr.val) init = largest := by
  induction nodes generalizing init with
  | nil => simpa using hmem
  | cons node nodes ih =>
    have hnode := hle node (by simp)
    rw [List.foldl_cons]
    refine ih (max_le hinit hnode) (fun n hn => hle n (by simp [hn])) ?_
    rcases hmem with rfl | ⟨n, hn, hval⟩
    · exact .inl (max_eq_left hnode)
    · rcases List.mem_cons.mp hn with rfl | hn
      · left
        rw [hval, max_eq_right hinit]
      · exact .inr ⟨n, hn, hval⟩

theorem max?_vals {adj : List (List ℤ)} {addresses : List ℕ} {largest : ℕ}
    (hmem : largest ∈ addresses) (hle : ∀ a ∈ addresses, a ≤ largest) :
    ((addresses.map (nodeOf adj)).map Node.val).max? = some ((largest : ℤ) + 1) := by
  rw [List.max?_eq_some_iff, List.map_map]
  constructor
  · exact List.mem_map.mpr ⟨largest, hmem, rfl⟩
  · intro v hv
    obtain ⟨a, ha, rfl⟩ := List.mem_map.mp hv
    have := hle a ha
    change (a : ℤ) + 1 ≤ _
    omega

/-- What is listed: the rows of the vertices that were visited, and nothing for the others. -/
def listed (adj : List (List ℤ)) (visited : List ℕ) (size : ℕ) : List (List ℤ) :=
  (List.range size).map fun a => if a ∈ visited then rowAt adj a else []

def listedGo (adj : List (List ℤ)) (visited : List ℕ) (size : ℕ) : List (Option (List ℤ)) :=
  (List.range size).map fun a => if a ∈ visited then some (rowAt adj a) else none

theorem listed_getElem? {adj : List (List ℤ)} {visited : List ℕ} {size a : ℕ} (ha : a < size) :
    (listed adj visited size)[a]? = some (if a ∈ visited then rowAt adj a else []) := by
  simp [listed, ha]

theorem listedGo_getElem? {adj : List (List ℤ)} {visited : List ℕ} {size a : ℕ} (ha : a < size) :
    (listedGo adj visited size)[a]? = some (if a ∈ visited then some (rowAt adj a) else none) := by
  simp [listedGo, ha]

section
variable {adj : List (List ℤ)} (hrange : InRange adj) {visited : List ℕ} {largest fuel : ℕ}
  (hlt : ∀ a ∈ visited, a < adj.length) (hmem : largest ∈ visited)
  (hle : ∀ a ∈ visited, a ≤ largest)
include hrange hlt hmem hle

theorem graphToAdjList_eq (L : GraphLanguage) (hnodup : visited.Nodup)
    (htraverse : traverse false (graphOf adj) fuel [some 0] [] = some visited) :
    L.graphToAdjList fuel (graphOf adj) (some 0) = some (listed adj visited (largest + 1)) := by
  have hperm : (sortByVal (visited.map (nodeOf adj))).Perm (visited.map (nodeOf adj)) :=
    List.perm_insertionSort _ _
  obtain ⟨addresses, haddresses, hnodes⟩ := exists_perm_addresses hperm
  have hrows : L.newRows ((largest : ℤ) + 1) = some (List.replicate (largest + 1) []) := by
    rw [GraphLanguage.newRows, if_neg (by omega)]
    congr
  have hbound : ∀ a ∈ addresses, a < (List.replicate (largest + 1) ([] : List ℤ)).length := by
    intro a ha
    have := hle a (haddresses.subset ha)
    rw [List.length_replicate]
    omega
  obtain ⟨result, hfold, hget⟩ := foldlM_rows hrange L (haddresses.nodup_iff.mpr hnodup) hbound
  have hresult : result = listed adj visited (largest + 1) := by
    apply List.ext_getElem?
    intro j
    by_cases hj : j < largest + 1
    · simp [hget, listed_getElem?, hj, haddresses.mem_iff]
    · simp [hget, listed, hj]
  rw [GraphLanguage.graphToAdjList]
  dsimp only
  rw [htraverse, Option.bind_eq_bind, Option.bind_some, nodesAt_graphOf hlt, hnodes,
    max?_vals (haddresses.mem_iff.mpr hmem) fun a ha => hle a (haddresses.subset ha),
    Option.bind_eq_bind, Option.bind_some, hrows, Option.bind_eq_bind, Option.bind_some, hfold,
    hresult]

theorem graphToAdjListGo_eq (slice : SortSlice)
    (htraverse : traverse true (graphOf adj) fuel [some 0] [] = some visited) :
    graphToAdjListGo slice fuel (graphOf adj) (some 0) =
      some (listedGo adj visited (largest + 1)) := by
  obtain ⟨addresses, haddresses, hnodes⟩ :=
    exists_perm_addresses (slice.perm (visited.map (nodeOf adj)))
  have hmax : (visited.map (nodeOf adj)).foldl (fun maxVal curr => max maxVal curr.val) 0 =
      (largest : ℤ) + 1 := by
    refine foldl_max (by omega) ?_ (.inr ⟨_, List.mem_map_of_mem hmem, rfl⟩)
    intro node hnode
    obtain ⟨a, ha, rfl⟩ := List.mem_map.mp hnode
    have := hle a ha
    change (a : ℤ) + 1 ≤ _
    omega
  have hbound : ∀ a ∈ addresses,
      a < (List.replicate (largest + 1) (none : Option (List ℤ))).length := by
    intro a ha
    have := hle a (haddresses.subset ha)
    rw [List.length_replicate]
    omega
  obtain ⟨result, hfold, hget⟩ := foldlM_setRow hrange hbound
  have hresult : result = listedGo adj visited (largest + 1) := by
    apply List.ext_getElem?
    intro j
    by_cases hj : j < largest + 1
    · simp [hget, listedGo_getElem?, hj, haddresses.mem_iff]
    · simp [hget, listedGo, hj]
  rw [graphToAdjListGo]
  dsimp only
  rw [htraverse, Option.bind_eq_bind, Option.bind_some, nodesAt_graphOf hlt, hmax, hnodes]
  exact hfold.trans (congrArg some hresult)

end

/-- A graph comes back as it was given, as far as it is reached from the vertex 1: the list
ends with the largest vertex that is reached, each such vertex has its row, and the others
have an empty one. The number of entries bounds the rounds. Go has null for the rows of
vertices that are not reached. -/
theorem graph_round_trip (adj : List (List ℤ)) (hne : adj ≠ []) (hrange : InRange adj)
    (slice : SortSlice) :
    ∃ rows goRows,
      (∀ fuel, adj.flatten.length < fuel → (∀ L : GraphLanguage, L.roundTrip fuel adj = some rows) ∧
        roundTripGo slice fuel adj = some goRows) ∧
      IsGreatest {v | Reachable adj v} rows.length ∧ goRows.length = rows.length ∧
      (∀ v, Reachable adj v → ∃ row, adj[v - 1]? = some row ∧ rows[v - 1]? = some row ∧
        goRows[v - 1]? = some (some row)) ∧
      (∀ v, 1 ≤ v → v ≤ rows.length → ¬ Reachable adj v →
        rows[v - 1]? = some [] ∧ goRows[v - 1]? = some none) ∧
      ((∀ v, 1 ≤ v → v ≤ adj.length → Reachable adj v) → rows = adj) := by
  obtain ⟨visited, hnodup, hvisited, htraverse⟩ := exists_traverse hne hrange
  have hlt : ∀ a ∈ visited, a < adj.length :=
    fun a ha => ((hvisited a).mp ha).le_length hne hrange
  have hstart : 0 ∈ visited := (hvisited 0).mpr .refl
  obtain ⟨largest, hmem, hle⟩ : ∃ largest ∈ visited, ∀ a ∈ visited, a ≤ largest := by
    obtain ⟨largest, hmax⟩ := visited.toFinset.exists_max_image id ⟨0, by simpa using hstart⟩
    exact ⟨largest, by simpa using hmax.1, fun a ha => hmax.2 a (by simpa using ha)⟩
  have hreach : ∀ v, 1 ≤ v → (v - 1 ∈ visited ↔ Reachable adj v) := by
    intro v hv
    rw [hvisited, Nat.sub_add_cancel hv]
  have hsize : (listed adj visited (largest + 1)).length = largest + 1 := by simp [listed]
  have hgreatest : ∀ v, Reachable adj v → v ≤ largest + 1 := by
    intro v hv
    have := hle (v - 1) ((hreach v (hv.pos hrange)).mpr hv)
    omega
  refine ⟨listed adj visited (largest + 1), listedGo adj visited (largest + 1), ?_, ?_, ?_, ?_,
    ?_, ?_⟩
  · intro fuel hfuel
    constructor
    · intro L
      rw [GraphLanguage.roundTrip, GraphLanguage.buildGraph, buildGraph_eq _ hne hrange]
      exact graphToAdjList_eq hrange hlt hmem hle L hnodup (htraverse fuel hfuel false)
    · rw [roundTripGo, buildGraphGo, buildGraph_eq _ hne hrange]
      exact graphToAdjListGo_eq hrange hlt hmem hle slice (htraverse fuel hfuel true)
  · rw [hsize]
    exact ⟨(hvisited largest).mp hmem, fun v hv => hgreatest v hv⟩
  · simp [listed, listedGo]
  · intro v hv
    have hpos := hv.pos hrange
    have hbound := hgreatest v hv
    have hlength := hv.le_length hne hrange
    refine ⟨rowAt adj (v - 1), ?_, ?_, ?_⟩
    · rw [rowAt, List.getD_eq_getElem?_getD, List.getElem?_eq_getElem (by omega), Option.getD_some]
    · rw [listed_getElem? (by omega), if_pos ((hreach v hpos).mpr hv)]
    · rw [listedGo_getElem? (by omega), if_pos ((hreach v hpos).mpr hv)]
  · intro v hpos hbound hv
    rw [hsize] at hbound
    rw [listed_getElem? (by omega), listedGo_getElem? (by omega),
      if_neg ((hreach v hpos).not.mpr hv), if_neg ((hreach v hpos).not.mpr hv)]
    exact ⟨rfl, rfl⟩
  · intro hall
    have hlength := List.length_pos_iff.mpr hne
    have hlast := hgreatest adj.length (hall _ hlength le_rfl)
    have hmost := ((hvisited largest).mp hmem).le_length hne hrange
    apply List.ext_getElem?
    intro a
    by_cases ha : a < adj.length
    · have hmem : a ∈ visited := (hvisited a).mpr (hall _ (by omega) (by omega))
      rw [listed_getElem? (by omega), if_pos hmem, rowAt, List.getD_eq_getElem?_getD,
        List.getElem?_eq_getElem ha, Option.getD_some]
    · rw [List.getElem?_eq_none (by omega), List.getElem?_eq_none (by omega)]

/-- A loop, a repeated edge and two vertices that are not reached. -/
def partlyReached : List (List ℤ) := [[3, 1, 3], [1], [], [1]]

/-- A stable sort is one that Go may use. -/
def stableSlice : SortSlice where
  sort := sortByVal
  perm nodes := List.perm_insertionSort _ nodes
  sorted nodes := by
    have : Std.Total fun a b : Node => a.val ≤ b.val := ⟨fun a b => le_total a.val b.val⟩
    have : IsTrans Node fun a b => a.val ≤ b.val := ⟨fun _ _ _ => le_trans⟩
    exact List.pairwise_insertionSort _ nodes

theorem graph_round_trip_partlyReached :
    InRange partlyReached ∧
      (∀ L : GraphLanguage, L.roundTrip 6 partlyReached = some [[3, 1, 3], [], []]) ∧
      roundTripGo stableSlice 6 partlyReached = some [some [3, 1, 3], none, some []] ∧
      IsGreatest {v | Reachable partlyReached v} 3 := by
  have hgo : roundTripGo stableSlice 6 partlyReached = some [some [3, 1, 3], none, some []] := by
    decide +kernel
  have hpython : GraphLanguage.python.roundTrip 6 partlyReached = some [[3, 1, 3], [], []] := by
    decide +kernel
  have hrange : InRange partlyReached := by decide
  obtain ⟨rows, goRows, hrows, hgreatest, -⟩ :=
    graph_round_trip partlyReached (by decide) hrange stableSlice
  have hall := (hrows 6 (by decide)).1
  obtain rfl := Option.some.inj ((hall .python).symm.trans hpython)
  exact ⟨hrange, hall, hgo, hgreatest⟩

end ExecutionEngine.GraphCodec
