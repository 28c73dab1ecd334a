import Mathlib.Data.List.DropRight
import Mathlib.Data.Tree.Basic
import Mathlib.Tactic

/-!
# Binary trees in memory and their level order

A memory is the list of the nodes made so far, and the address of a node is its
place in the list. A list of optional labels lists a tree level by level: the
children of the node that comes `r`-th among the nodes stand at the places
`2 * r + 1` and `2 * r + 2`. This closed form is what the loops that build a tree
are compared with. It makes sense for every list, also for lists with labels for
which there is no parent.
-/
namespace ExecutionEngine.LevelOrder

universe u

section
variable {α β : Type u}

/-- The labels, root first. -/
def labels : BinaryTree α → List α
  | .nil => []
  | .node v l r => v :: (labels l ++ labels r)

@[simp] theorem labels_map (f : α → β) (t : BinaryTree α) :
    labels (t.map f) = (labels t).map f := by
  induction t with
  | nil => rfl
  | node v l r ihl ihr => simp [BinaryTree.map, labels, ihl, ihr]

end

/-- A node in memory, with the addresses of its children. -/
structure Cell (α : Type u) where
  val : α
  left : Option ℕ
  right : Option ℕ
  deriving DecidableEq, Repr

abbrev Memory (α : Type u) := List (Cell α)

namespace Memory

variable {α : Type u}

/-- A node without children. -/
def leaf (v : α) : Cell α := ⟨v, none, none⟩

def setLeft (m : Memory α) (a : ℕ) (p : Option ℕ) : Memory α :=
  m.modify a fun c => { c with left := p }

def setRight (m : Memory α) (a : ℕ) (p : Option ℕ) : Memory α :=
  m.modify a fun c => { c with right := p }

@[simp] theorem length_setLeft (m : Memory α) (a : ℕ) (p : Option ℕ) :
    (m.setLeft a p).length = m.length := by
  simp [setLeft]

/-- A new node does not change the others. -/
theorem setLeft_append {m : Memory α} {a : ℕ} (h : a < m.length) (p : Option ℕ) (c : Cell α) :
    m.setLeft a p ++ [c] = (m ++ [c]).setLeft a p := by
  apply List.ext_getElem?
  intro b
  by_cases hb : b < m.length
  · rw [List.getElem?_append_left (by simpa using hb), setLeft, setLeft, List.getElem?_modify,
      List.getElem?_modify, List.getElem?_append_left hb]
  · have hle := Nat.not_lt.mp hb
    have hne : a ≠ b := by omega
    rw [List.getElem?_append_right (by simpa using hle), length_setLeft, setLeft,
      List.getElem?_modify, List.getElem?_append_right hle]
    simp [hne]

/-- Following the pointers from `p` gives the tree; every node of the tree is
labelled with its address and its value. -/
def Reads (m : Memory α) : Option ℕ → BinaryTree (ℕ × α) → Prop
  | p, .nil => p = none
  | p, .node (a, v) l r =>
    p = some a ∧ ∃ c, m[a]? = some c ∧ c.val = v ∧ Reads m c.left l ∧ Reads m c.right r

/-- The memory seen from `p` is the finite tree `t`, and no two places of the tree
share a node. -/
def Represents (m : Memory α) (p : Option ℕ) (t : BinaryTree α) : Prop :=
  ∃ placed : BinaryTree (ℕ × α), m.Reads p placed ∧ ((labels placed).map Prod.fst).Nodup ∧
    placed.map Prod.snd = t

/-- What is seen from a pointer is determined. -/
theorem Reads.unique {m : Memory α} {p : Option ℕ} {s t : BinaryTree (ℕ × α)}
    (hs : m.Reads p s) (ht : m.Reads p t) : s = t := by
  induction s generalizing p t with
  | nil =>
    cases t with
    | nil => rfl
    | node x l r =>
      obtain ⟨rfl, -⟩ := ht
      simp [Reads] at hs
  | node x l r ihl ihr =>
    obtain ⟨a, v⟩ := x
    obtain ⟨rfl, c, hc, rfl, hl, hr⟩ := hs
    cases t with
    | nil => simp [Reads] at ht
    | node y l' r' =>
      obtain ⟨b, w⟩ := y
      obtain ⟨hab, d, hd, rfl, hl', hr'⟩ := ht
      obtain rfl : a = b := Option.some.inj hab
      obtain rfl : c = d := Option.some.inj (hc.symm.trans hd)
      rw [ihl hl hl', ihr hr hr']

theorem Represents.unique {m : Memory α} {p : Option ℕ} {s t : BinaryTree α}
    (hs : m.Represents p s) (ht : m.Represents p t) : s = t := by
  obtain ⟨x, hx, -, rfl⟩ := hs
  obtain ⟨y, hy, -, rfl⟩ := ht
  rw [hx.unique hy]

end Memory

section
variable {α : Type u} (vals : List (Option α))

/-- The number of nodes before a place of the list. -/
def rank (i : ℕ) : ℕ := ((vals.take i).filterMap id).length

/-- The address of the node at a place, if there is one. Nodes are made in the order
of the list. -/
def slot (i : ℕ) : Option ℕ := (vals[i]?).join.map fun _ => rank vals i

/-- The nodes of the list. -/
def nodes : List α := vals.filterMap id

end

section
variable {α : Type u} {vals : List (Option α)}

theorem rank_zero : rank vals 0 = 0 := rfl

theorem rank_mono {i j : ℕ} (h : i ≤ j) : rank vals i ≤ rank vals j := by
  have hsub : (vals.take i).Sublist (vals.take j) := List.take_sublist_take_left h
  exact (hsub.filterMap id).length_le

theorem rank_of_length_le {i : ℕ} (h : vals.length ≤ i) : rank vals i = (nodes vals).length := by
  rw [rank, List.take_of_length_le h, nodes]

theorem rank_succ_of_node {i : ℕ} {v : α} (h : vals[i]? = some (some v)) :
    rank vals (i + 1) = rank vals i + 1 := by
  simp [rank, List.take_add_one, h]

theorem rank_succ_of_null {i : ℕ} (h : (vals[i]?).join = none) :
    rank vals (i + 1) = rank vals i := by
  cases hv : vals[i]? with
  | none => simp [rank, List.take_add_one, hv]
  | some o =>
    obtain rfl : o = none := by simpa [hv] using h
    simp [rank, List.take_add_one, hv]

theorem rank_lt_of_node {i j : ℕ} {v : α} (h : vals[i]? = some (some v)) (hij : i < j) :
    rank vals i < rank vals j := by
  have hle : rank vals (i + 1) ≤ rank vals j := rank_mono hij
  have hsucc := rank_succ_of_node h
  omega

/-- Different nodes have different addresses. -/
theorem place_unique {i j : ℕ} {v w : α} (hi : vals[i]? = some (some v))
    (hj : vals[j]? = some (some w)) (h : rank vals i = rank vals j) : i = j := by
  rcases Nat.lt_trichotomy i j with hlt | heq | hgt
  · have := rank_lt_of_node hi hlt
    omega
  · exact heq
  · have := rank_lt_of_node hj hgt
    omega

theorem nodes_rank {i : ℕ} {v : α} (h : vals[i]? = some (some v)) :
    (nodes vals)[rank vals i]? = some v := by
  have hi : i < vals.length := (List.getElem?_eq_some_iff.mp h).1
  have hsplit : vals = vals.take i ++ some v :: vals.drop (i + 1) := by
    have hget : vals[i] = some v := (List.getElem?_eq_some_iff.mp h).2
    rw [← hget, List.getElem_cons_drop, List.take_append_drop]
  have hnodes : nodes vals =
      (vals.take i).filterMap id ++ v :: (vals.drop (i + 1)).filterMap id := by
    conv_lhs => rw [nodes, hsplit]
    simp
  rw [hnodes, rank, List.getElem?_append_right le_rfl]
  simp

theorem slot_of_node {i : ℕ} {v : α} (h : vals[i]? = some (some v)) :
    slot vals i = some (rank vals i) := by
  simp [slot, h]

theorem slot_eq_some {i a : ℕ} (h : slot vals i = some a) :
    ∃ v, vals[i]? = some (some v) ∧ a = rank vals i := by
  cases hv : vals[i]? with
  | none => simp [slot, hv] at h
  | some o =>
    cases o with
    | none => simp [slot, hv] at h
    | some v => exact ⟨v, rfl, by simpa [slot, hv, eq_comm] using h⟩

theorem slot_eq_none {i : ℕ} (h : slot vals i = none) : (vals[i]?).join = none := by
  simpa [slot] using h

theorem slot_of_length_le {i : ℕ} (h : vals.length ≤ i) : slot vals i = none := by
  simp [slot, List.getElem?_eq_none h]

end

section
variable {α : Type u} (vals : List (Option α))

/-- The tree below a place, every node labelled with its place; with the given number
of levels. -/
def placesFrom : ℕ → ℕ → BinaryTree (ℕ × α)
  | 0, _ => .nil
  | levels + 1, i =>
    match vals[i]? with
    | some (some v) => .node (i, v) (placesFrom levels (2 * rank vals i + 1))
        (placesFrom levels (2 * rank vals i + 2))
    | _ => .nil

/-- The tree that the list lists level by level. There are no more levels than
labels. -/
def decode : BinaryTree α := (placesFrom vals vals.length 0).map Prod.snd

end

section
variable {α : Type u} {vals : List (Option α)}

theorem placesFrom_of_node {levels i : ℕ} {v : α} (h : vals[i]? = some (some v)) :
    placesFrom vals (levels + 1) i = .node (i, v)
      (placesFrom vals levels (2 * rank vals i + 1))
      (placesFrom vals levels (2 * rank vals i + 2)) := by
  simp [placesFrom, h]

theorem placesFrom_of_null {levels i : ℕ} (h : (vals[i]?).join = none) :
    placesFrom vals levels i = .nil := by
  cases levels with
  | zero => rfl
  | succ levels =>
    cases hv : vals[i]? with
    | none => simp [placesFrom, hv]
    | some o =>
      obtain rfl : o = none := by simpa [hv] using h
      simp [placesFrom, hv]

/-- Without a first node the tree is empty, whatever follows. -/
theorem decode_of_null (h : (vals[0]?).join = none) : decode vals = .nil := by
  rw [decode, placesFrom_of_null h]
  rfl

theorem node_or_null (vals : List (Option α)) (i : ℕ) :
    (∃ v, vals[i]? = some (some v)) ∨ (vals[i]?).join = none := by
  cases hv : vals[i]? with
  | none => exact .inr rfl
  | some o =>
    cases o with
    | none => exact .inr rfl
    | some v => exact .inl ⟨v, rfl⟩

/-- A place that can be reached from the root has at least half as many nodes before
it, so that its children come after it. -/
def Reachable (vals : List (Option α)) (i : ℕ) : Prop := i ≤ 2 * rank vals i

theorem reachable_root (vals : List (Option α)) : Reachable vals 0 := Nat.zero_le _

theorem reachable_child {i j : ℕ} {v : α} (h : vals[i]? = some (some v))
    (hi : Reachable vals i) (hj : j = 2 * rank vals i + 1 ∨ j = 2 * rank vals i + 2) :
    i < j ∧ Reachable vals j := by
  have hlt : i < j := by
    simp only [Reachable] at hi
    omega
  have hrank := rank_lt_of_node h hlt
  refine ⟨hlt, ?_⟩
  simp only [Reachable]
  omega

/-- Places of the tree are places of nodes, not before its root. -/
theorem mem_placesFrom {levels i : ℕ} (hi : Reachable vals i) {x : ℕ × α}
    (hx : x ∈ labels (placesFrom vals levels i)) :
    vals[x.1]? = some (some x.2) ∧ i ≤ x.1 := by
  induction levels generalizing i with
  | zero => simp [placesFrom, labels] at hx
  | succ levels ih =>
    obtain ⟨v, hv⟩ | hnull := node_or_null vals i
    · rw [placesFrom_of_node hv] at hx
      simp only [labels, List.mem_cons, List.mem_append] at hx
      obtain ⟨hleft, hreach⟩ := reachable_child hv hi (.inl rfl)
      obtain ⟨hright, hreach'⟩ := reachable_child hv hi (.inr rfl)
      obtain rfl | hx | hx := hx
      · exact ⟨hv, le_rfl⟩
      · obtain ⟨hval, hle⟩ := ih hreach hx
        exact ⟨hval, by omega⟩
      · obtain ⟨hval, hle⟩ := ih hreach' hx
        exact ⟨hval, by omega⟩
    · rw [placesFrom_of_null hnull] at hx
      simp [labels] at hx

/-- Every place of the tree but the root is a child of a place of the tree. -/
theorem parent_mem_placesFrom {levels i : ℕ} (hi : Reachable vals i) {x : ℕ × α}
    (hx : x ∈ labels (placesFrom vals levels i)) (hne : x.1 ≠ i) :
    ∃ y ∈ labels (placesFrom vals levels i),
      y.1 < x.1 ∧ (x.1 = 2 * rank vals y.1 + 1 ∨ x.1 = 2 * rank vals y.1 + 2) := by
  induction levels generalizing i with
  | zero => simp [placesFrom, labels] at hx
  | succ levels ih =>
    obtain ⟨v, hv⟩ | hnull := node_or_null vals i
    · rw [placesFrom_of_node hv] at hx ⊢
      simp only [labels, List.mem_cons, List.mem_append] at hx ⊢
      have hroot : ∀ j, (j = 2 * rank vals i + 1 ∨ j = 2 * rank vals i + 2) →
          x ∈ labels (placesFrom vals levels j) → x.1 ≠ j →
          ∃ y ∈ labels (placesFrom vals levels j),
            y.1 < x.1 ∧ (x.1 = 2 * rank vals y.1 + 1 ∨ x.1 = 2 * rank vals y.1 + 2) :=
        fun j hj hxj hxne => ih (reachable_child hv hi hj).2 hxj hxne
      obtain rfl | hx | hx := hx
      · exact absurd rfl hne
      · by_cases hchild : x.1 = 2 * rank vals i + 1
        · have hlt := (reachable_child hv hi (.inl hchild)).1
          exact ⟨(i, v), .inl rfl, hlt, .inl hchild⟩
        · obtain ⟨y, hy, hyx⟩ := hroot _ (.inl rfl) hx hchild
          exact ⟨y, .inr (.inl hy), hyx⟩
      · by_cases hchild : x.1 = 2 * rank vals i + 2
        · have hlt := (reachable_child hv hi (.inr hchild)).1
          exact ⟨(i, v), .inl rfl, hlt, .inr hchild⟩
        · obtain ⟨y, hy, hyx⟩ := hroot _ (.inr rfl) hx hchild
          exact ⟨y, .inr (.inr hy), hyx⟩
    · rw [placesFrom_of_null hnull] at hx
      simp [labels] at hx

/-- The subtrees of two children of one node have no place in common: going up from
a common place would lead from one child to the other. -/
theorem disjoint_children {levels i : ℕ} {v : α} (hv : vals[i]? = some (some v))
    (hi : Reachable vals i) {x y : ℕ × α}
    (hx : x ∈ labels (placesFrom vals levels (2 * rank vals i + 1)))
    (hy : y ∈ labels (placesFrom vals levels (2 * rank vals i + 2))) : x.1 ≠ y.1 := by
  obtain ⟨hleft, hreach⟩ := reachable_child hv hi (.inl rfl)
  obtain ⟨hright, hreach'⟩ := reachable_child hv hi (.inr rfl)
  induction hn : x.1 using Nat.strong_induction_on generalizing x y with
  | _ n ih =>
    subst hn
    intro hxy
    have hyle := (mem_placesFrom hreach' hy).2
    have hxne : x.1 ≠ 2 * rank vals i + 1 := by omega
    obtain ⟨p, hp, hpx, hpc⟩ := parent_mem_placesFrom hreach hx hxne
    obtain ⟨hpv, hple⟩ := mem_placesFrom hreach hp
    by_cases hyroot : y.1 = 2 * rank vals i + 2
    · -- the parent of the right child is the node itself, which is above the left child
      have hpi : rank vals p.1 = rank vals i := by omega
      have := place_unique hpv hv hpi
      omega
    · obtain ⟨q, hq, hqy, hqc⟩ := parent_mem_placesFrom hreach' hy hyroot
      obtain ⟨hqv, -⟩ := mem_placesFrom hreach' hq
      have hpq : p.1 = q.1 := place_unique hpv hqv (by omega)
      exact ih p.1 hpx hp hq rfl hpq

theorem nodup_places {levels i : ℕ} (hi : Reachable vals i) :
    ((labels (placesFrom vals levels i)).map Prod.fst).Nodup := by
  induction levels generalizing i with
  | zero => simp [placesFrom, labels]
  | succ levels ih =>
    obtain ⟨v, hv⟩ | hnull := node_or_null vals i
    · rw [placesFrom_of_node hv]
      obtain ⟨hleft, hreach⟩ := reachable_child hv hi (.inl rfl)
      obtain ⟨hright, hreach'⟩ := reachable_child hv hi (.inr rfl)
      simp only [labels, List.map_cons, List.map_append, List.nodup_cons, List.mem_append,
        List.nodup_append]
      refine ⟨?_, ih hreach, ih hreach', ?_⟩
      · rintro (hmem | hmem)
        · obtain ⟨x, hx, hxi⟩ := List.mem_map.mp hmem
          have := (mem_placesFrom hreach hx).2
          omega
        · obtain ⟨x, hx, hxi⟩ := List.mem_map.mp hmem
          have := (mem_placesFrom hreach' hx).2
          omega
      · intro a ha b hb
        obtain ⟨x, hx, rfl⟩ := List.mem_map.mp ha
        obtain ⟨y, hy, rfl⟩ := List.mem_map.mp hb
        exact disjoint_children hv hi hx hy
    · rw [placesFrom_of_null hnull]
      simp [labels]

end

section
variable {α : Type u} (vals : List (Option α))

/-- The memory in which the first `made` nodes of the list exist and the first
`linked` of them have been given their children. -/
def linkedUpTo (linked made : ℕ) : Memory α :=
  ((nodes vals).take made).mapIdx fun a v =>
    if a < linked then ⟨v, slot vals (2 * a + 1), slot vals (2 * a + 2)⟩ else Memory.leaf v

end

section
variable {α : Type u} {vals : List (Option α)}

theorem length_linkedUpTo (linked made : ℕ) :
    (linkedUpTo vals linked made).length = min made (nodes vals).length := by
  simp [linkedUpTo]

theorem getElem?_linkedUpTo {linked made a : ℕ} (h : a < made) :
    (linkedUpTo vals linked made)[a]? = ((nodes vals)[a]?).map fun v =>
      if a < linked then ⟨v, slot vals (2 * a + 1), slot vals (2 * a + 2)⟩
      else Memory.leaf v := by
  simp [linkedUpTo, List.getElem?_mapIdx, h]

theorem getElem?_linkedUpTo_of_le {linked made a : ℕ} (h : made ≤ a) :
    (linkedUpTo vals linked made)[a]? = none := by
  rw [List.getElem?_eq_none_iff, length_linkedUpTo]
  omega

/-- The next node is given its children. -/
theorem link_next (linked made : ℕ) :
    ((linkedUpTo vals linked made).setLeft linked (slot vals (2 * linked + 1))).setRight linked
      (slot vals (2 * linked + 2)) = linkedUpTo vals (linked + 1) made := by
  apply List.ext_getElem?
  intro a
  by_cases hm : a < made
  · rw [Memory.setRight, Memory.setLeft, List.getElem?_modify, List.getElem?_modify,
      getElem?_linkedUpTo hm, getElem?_linkedUpTo hm]
    cases (nodes vals)[a]? with
    | none => rfl
    | some v =>
      rcases Nat.lt_trichotomy a linked with hlt | rfl | hgt
      · simp [hlt, Nat.ne_of_gt hlt, Nat.lt_succ_of_lt hlt]
      · simp [Memory.leaf]
      · simp [Nat.ne_of_lt hgt, Nat.not_lt.mpr hgt.le, Nat.not_lt.mpr hgt]
  · have hle := Nat.not_lt.mp hm
    rw [Memory.setRight, Memory.setLeft, List.getElem?_modify, List.getElem?_modify,
      getElem?_linkedUpTo_of_le hle, getElem?_linkedUpTo_of_le hle]
    rfl

theorem setLeft_none (linked made : ℕ) :
    (linkedUpTo vals linked made).setLeft linked none = linkedUpTo vals linked made := by
  apply List.ext_getElem?
  intro a
  by_cases hm : a < made
  · rw [Memory.setLeft, List.getElem?_modify, getElem?_linkedUpTo hm]
    cases (nodes vals)[a]? with
    | none => rfl
    | some v =>
      by_cases ha : linked = a
      · subst ha
        simp [Memory.leaf]
      · simp [ha]
  · rw [Memory.setLeft, List.getElem?_modify, getElem?_linkedUpTo_of_le (Nat.not_lt.mp hm)]
    rfl

theorem setRight_none (linked made : ℕ) (p : Option ℕ) :
    ((linkedUpTo vals linked made).setLeft linked p).setRight linked none =
      (linkedUpTo vals linked made).setLeft linked p := by
  apply List.ext_getElem?
  intro a
  by_cases hm : a < made
  · rw [Memory.setRight, Memory.setLeft, List.getElem?_modify, List.getElem?_modify,
      getElem?_linkedUpTo hm]
    cases (nodes vals)[a]? with
    | none => rfl
    | some v =>
      by_cases ha : linked = a
      · subst ha
        simp [Memory.leaf]
      · simp [ha]
  · rw [Memory.setRight, Memory.setLeft, List.getElem?_modify, List.getElem?_modify,
      getElem?_linkedUpTo_of_le (Nat.not_lt.mp hm)]
    rfl

/-- The next node of the list is made. -/
theorem make_next {linked made : ℕ} {v : α} (h : (nodes vals)[made]? = some v)
    (hle : linked ≤ made) :
    linkedUpTo vals linked made ++ [Memory.leaf v] = linkedUpTo vals linked (made + 1) := by
  have hlt : made < (nodes vals).length := (List.getElem?_eq_some_iff.mp h).1
  have hlen : (linkedUpTo vals linked made).length = made := by
    rw [length_linkedUpTo]
    omega
  apply List.ext_getElem?
  intro a
  rcases Nat.lt_trichotomy a made with hlt' | rfl | hgt
  · rw [List.getElem?_append_left (by omega), getElem?_linkedUpTo hlt',
      getElem?_linkedUpTo (Nat.lt_succ_of_lt hlt')]
  · rw [List.getElem?_append_right (by omega), getElem?_linkedUpTo (Nat.lt_succ_self a), h, hlen]
    simp [Nat.not_lt.mpr hle]
  · rw [getElem?_linkedUpTo_of_le hgt, List.getElem?_eq_none_iff, List.length_append, hlen]
    simpa using hgt

/-- A memory in which everything below the first `seen` addresses is in place: these
nodes exist, each of them is linked or has no place for children, and the children of
the linked ones are among them. -/
structure Complete (vals : List (Option α)) (linked made seen : ℕ) : Prop where
  made : seen ≤ made
  root : ∀ a, slot vals 0 = some a → a < seen
  rest : ∀ a, linked ≤ a → a < seen → vals.length ≤ 2 * a + 1
  children : ∀ a < linked, a < seen → ∀ j, (j = 2 * a + 1 ∨ j = 2 * a + 2) →
    ∀ b, slot vals j = some b → b < seen

theorem reads_places {linked made seen : ℕ} (h : Complete vals linked made seen) {levels i : ℕ}
    (hi : Reachable vals i) (hseen : ∀ a, slot vals i = some a → a < seen)
    (hlevels : vals.length ≤ i + levels) :
    (linkedUpTo vals linked made).Reads (slot vals i)
      ((placesFrom vals levels i).map fun x => (rank vals x.1, x.2)) := by
  induction levels generalizing i with
  | zero => exact slot_of_length_le (by omega)
  | succ levels ih =>
    obtain ⟨v, hv⟩ | hnull := node_or_null vals i
    · have ha : rank vals i < seen := hseen _ (slot_of_node hv)
      have hchild : ∀ j, (j = 2 * rank vals i + 1 ∨ j = 2 * rank vals i + 2) →
          (linkedUpTo vals linked made).Reads (slot vals j)
            ((placesFrom vals levels j).map fun x => (rank vals x.1, x.2)) := by
        intro j hj
        obtain ⟨hij, hreach⟩ := reachable_child hv hi hj
        refine ih hreach (fun b hb => ?_) (by omega)
        by_cases hl : rank vals i < linked
        · exact h.children _ hl ha j hj b hb
        · have hout := h.rest _ (Nat.not_lt.mp hl) ha
          rw [slot_of_length_le (by omega)] at hb
          cases hb
      rw [placesFrom_of_node hv]
      refine ⟨slot_of_node hv,
        ⟨v, slot vals (2 * rank vals i + 1), slot vals (2 * rank vals i + 2)⟩, ?_, rfl,
        hchild _ (.inl rfl), hchild _ (.inr rfl)⟩
      rw [getElem?_linkedUpTo (lt_of_lt_of_le ha h.made), nodes_rank hv]
      by_cases hl : rank vals i < linked
      · simp [hl]
      · have hout := h.rest _ (Nat.not_lt.mp hl) ha
        have hleft : slot vals (2 * rank vals i + 1) = none := slot_of_length_le hout
        have hright : slot vals (2 * rank vals i + 2) = none := slot_of_length_le (by omega)
        simp [hl, Memory.leaf, hleft, hright]
    · rw [placesFrom_of_null hnull]
      simp [Memory.Reads, BinaryTree.map, slot, hnull]

theorem nodup_addresses (vals : List (Option α)) (levels : ℕ) :
    ((labels (placesFrom vals levels 0)).map fun x => rank vals x.1).Nodup := by
  have hnodup : ((labels (placesFrom vals levels 0)).map Prod.fst).Nodup :=
    nodup_places (reachable_root vals)
  rw [List.Nodup, List.pairwise_map] at hnodup ⊢
  refine hnodup.imp_of_mem ?_
  intro x y hx hy hxy heq
  obtain ⟨hxv, -⟩ := mem_placesFrom (reachable_root vals) hx
  obtain ⟨hyv, -⟩ := mem_placesFrom (reachable_root vals) hy
  exact hxy (place_unique hxv hyv heq)

/-- A complete memory represents the tree of the list. -/
theorem represents_decode {linked made seen : ℕ} (h : Complete vals linked made seen) :
    (linkedUpTo vals linked made).Represents (slot vals 0) (decode vals) := by
  have hlevels : vals.length ≤ 0 + vals.length := by omega
  have hreads := reads_places h (reachable_root vals) h.root hlevels
  refine ⟨_, hreads, ?_, ?_⟩
  · rw [labels_map, List.map_map]
    exact nodup_addresses vals vals.length
  · rw [← BinaryTree.comp_map]
    rfl

theorem node_rank_lt {i a : ℕ} (h : slot vals i = some a) : a < (nodes vals).length := by
  obtain ⟨v, hv, rfl⟩ := slot_eq_some h
  exact (List.getElem?_eq_some_iff.mp (nodes_rank hv)).1

theorem rank_le (i : ℕ) : rank vals i ≤ (nodes vals).length := by
  have hsub : (vals.take i).Sublist vals := List.take_sublist i vals
  exact (hsub.filterMap id).length_le

/-- All nodes exist and no place for children is left. -/
theorem complete_of_length_le {linked : ℕ} (h : vals.length ≤ 2 * linked + 1) :
    Complete vals linked (nodes vals).length (nodes vals).length where
  made := le_rfl
  root _ ha := node_rank_lt ha
  rest a ha _ := by omega
  children _ _ _ _ _ _ hb := node_rank_lt hb

/-- All nodes exist and are linked. -/
theorem complete_of_all :
    Complete vals (nodes vals).length (nodes vals).length (nodes vals).length where
  made := le_rfl
  root _ ha := node_rank_lt ha
  rest a ha hlt := by omega
  children _ _ _ _ _ _ hb := node_rank_lt hb

/-- Every node before the place `i` has its children before this place. -/
theorem complete_of_closed {i made : ℕ} (hi : i = 2 * rank vals i + 1)
    (hmade : rank vals i ≤ made) : Complete vals (rank vals i) made (rank vals i) where
  made := hmade
  root a ha := by
    obtain ⟨v, hv, rfl⟩ := slot_eq_some ha
    exact rank_lt_of_node hv (by omega)
  rest a ha hlt := by omega
  children a ha _ j hj b hb := by
    obtain ⟨v, hv, rfl⟩ := slot_eq_some hb
    exact rank_lt_of_node hv (by omega)

/-- What a loop that builds the tree has to end with. -/
def Finished (vals : List (Option α)) (m : Memory α) : Prop :=
  ∃ linked made seen, m = linkedUpTo vals linked made ∧ Complete vals linked made seen

theorem Finished.represents {m : Memory α} (h : Finished vals m) :
    m.Represents (slot vals 0) (decode vals) := by
  obtain ⟨linked, made, seen, rfl, hcomplete⟩ := h
  exact represents_decode hcomplete

theorem linkedUpTo_zero (vals : List (Option α)) :
    linkedUpTo vals 0 (nodes vals).length = (nodes vals).map Memory.leaf := by
  apply List.ext_getElem?
  intro a
  by_cases ha : a < (nodes vals).length
  · rw [getElem?_linkedUpTo ha, List.getElem?_map]
    simp
  · have hle := Nat.not_lt.mp ha
    rw [getElem?_linkedUpTo_of_le hle, List.getElem?_eq_none (by simpa using hle)]

end

section
variable {α β : Type u} (f : α → β) (vals : List (Option α))

theorem getElem?_map_join (i : ℕ) :
    ((vals.map (Option.map f))[i]?).join = ((vals[i]?).join).map f := by
  rw [List.getElem?_map]
  cases vals[i]? <;> rfl

theorem rank_map (i : ℕ) : rank (vals.map (Option.map f)) i = rank vals i := by
  induction i with
  | zero => rfl
  | succ i ih =>
    obtain ⟨v, hv⟩ | hnull := node_or_null vals i
    · have hv' : (vals.map (Option.map f))[i]? = some (some (f v)) := by simp [hv]
      rw [rank_succ_of_node hv, rank_succ_of_node hv', ih]
    · have hnull' : ((vals.map (Option.map f))[i]?).join = none := by
        rw [getElem?_map_join, hnull]
        rfl
      rw [rank_succ_of_null hnull, rank_succ_of_null hnull', ih]

theorem placesFrom_map (levels i : ℕ) : placesFrom (vals.map (Option.map f)) levels i =
    (placesFrom vals levels i).map (Prod.map id f) := by
  induction levels generalizing i with
  | zero => rfl
  | succ levels ih =>
    obtain ⟨v, hv⟩ | hnull := node_or_null vals i
    · have hv' : (vals.map (Option.map f))[i]? = some (some (f v)) := by simp [hv]
      rw [placesFrom_of_node hv, placesFrom_of_node hv', rank_map, ih, ih]
      rfl
    · have hnull' : ((vals.map (Option.map f))[i]?).join = none := by
        rw [getElem?_map_join, hnull]
        rfl
      rw [placesFrom_of_null hnull, placesFrom_of_null hnull']
      rfl

/-- The shape of the tree does not depend on the labels. -/
theorem decode_map : decode (vals.map (Option.map f)) = (decode vals).map f := by
  rw [decode, decode, placesFrom_map, ← BinaryTree.comp_map, ← BinaryTree.comp_map,
    List.length_map]
  rfl

end

section
variable {α : Type u}

def root? : BinaryTree α → Option α
  | .nil => none
  | .node v _ _ => some v

def kids : BinaryTree α → List (BinaryTree α)
  | .nil => []
  | .node _ l r => [l, r]

/-- The number of trees, empty ones included, that are visited from a queue. -/
def visits (queue : List (BinaryTree α)) : ℕ := (queue.map fun t => 2 * t.numNodes + 1).sum

/-- The trees visited from a queue, in the order of the visits. -/
def visited : List (BinaryTree α) → List (BinaryTree α)
  | [] => []
  | .nil :: queue => .nil :: visited queue
  | .node v l r :: queue => .node v l r :: visited (queue ++ [l, r])
termination_by queue => visits queue
decreasing_by
  · simp [visits]
  · simp [visits]
    omega

/-- Everything visited is in the queue at the start or a child of something visited,
in this order. -/
theorem visited_eq (queue : List (BinaryTree α)) :
    visited queue = queue ++ (visited queue).flatMap kids := by
  induction queue using visited.induct with
  | case1 => simp [visited]
  | case2 queue ih =>
    rw [visited, List.flatMap_cons]
    conv_lhs => rw [ih]
    rfl
  | case3 v l r queue ih =>
    rw [visited, List.flatMap_cons]
    conv_lhs => rw [ih]
    simp [kids]

/-- The level order of a tree, without the empty trees at its end. -/
def encode (t : BinaryTree α) : List (Option α) :=
  ((visited [t]).map root?).rdropWhile Option.isNone

theorem rdropWhile_isNone (vals : List (Option α)) :
    ∃ k, vals = vals.rdropWhile Option.isNone ++ List.replicate k none := by
  induction vals using List.reverseRecOn with
  | nil => exact ⟨0, rfl⟩
  | append_singleton vals o ih =>
    cases o with
    | some v => exact ⟨0, by simp⟩
    | none =>
      obtain ⟨k, hk⟩ := ih
      refine ⟨k + 1, ?_⟩
      rw [List.rdropWhile_concat_pos _ _ _ rfl]
      conv_lhs => rw [hk]
      rw [List.append_assoc, ← List.replicate_succ']

theorem join_append_replicate (vals : List (Option α)) (k i : ℕ) :
    ((vals ++ List.replicate k none)[i]?).join = (vals[i]?).join := by
  by_cases hi : i < vals.length
  · rw [List.getElem?_append_left hi]
  · have hle := Nat.not_lt.mp hi
    rw [List.getElem?_append_right hle, List.getElem?_eq_none hle, List.getElem?_replicate]
    split_ifs <;> rfl

theorem rank_append_replicate (vals : List (Option α)) (k i : ℕ) :
    rank (vals ++ List.replicate k none) i = rank vals i := by
  simp [rank, List.take_append, List.take_replicate]

/-- The children of the visited tree at a place are visited at the places of the
closed form. -/
theorem visited_child {t : BinaryTree α} {i : ℕ} {v : α} {l r : BinaryTree α}
    (h : (visited [t])[i]? = some (.node v l r)) :
    (visited [t])[2 * rank ((visited [t]).map root?) i + 1]? = some l ∧
      (visited [t])[2 * rank ((visited [t]).map root?) i + 2]? = some r := by
  have hrank : ∀ q : List (BinaryTree α),
      (q.flatMap kids).length = 2 * ((q.map root?).filterMap id).length := by
    intro q
    induction q with
    | nil => rfl
    | cons u q ih =>
      rw [List.flatMap_cons, List.length_append, ih, List.map_cons]
      cases u with
      | nil =>
        rw [root?, List.filterMap_cons_none rfl]
        simp [kids]
      | node v l r =>
        rw [root?, List.filterMap_cons_some (f := id) (b := v) rfl]
        simp only [kids, List.length_cons, List.length_nil]
        omega
  have hfix := visited_eq [t]
  generalize visited [t] = S at h hfix ⊢
  obtain ⟨hi, hget⟩ := List.getElem?_eq_some_iff.mp h
  have hsplit : S = S.take i ++ .node v l r :: S.drop (i + 1) := by
    rw [← hget, List.getElem_cons_drop, List.take_append_drop]
  have hflat : S.flatMap kids =
      (S.take i).flatMap kids ++ l :: r :: (S.drop (i + 1)).flatMap kids := by
    conv_lhs => rw [hsplit]
    simp [kids]
  have hlen : ((S.take i).flatMap kids).length = 2 * rank (S.map root?) i := by
    rw [hrank, rank, List.map_take]
  have hread : ∀ j, S[j + 1]? = (S.flatMap kids)[j]? := by
    intro j
    conv_lhs => rw [hfix]
    simp
  constructor
  · rw [hread, hflat, List.getElem?_append_right (by omega), hlen]
    simp
  · rw [show 2 * rank (S.map root?) i + 2 = (2 * rank (S.map root?) i + 1) + 1 from rfl,
      hread, hflat, List.getElem?_append_right (by omega), hlen]
    simp

theorem placesFrom_encode (t : BinaryTree α) {levels i : ℕ} {u : BinaryTree α}
    (hu : (visited [t])[i]? = some u) (hi : Reachable (encode t) i)
    (hlevels : (encode t).length ≤ i + levels) :
    (placesFrom (encode t) levels i).map Prod.snd = u := by
  obtain ⟨k, hk⟩ := rdropWhile_isNone ((visited [t]).map root?)
  have hjoin : ∀ j : ℕ, ((encode t)[j]?).join = (((visited [t]).map root?)[j]?).join := by
    intro j
    rw [hk, join_append_replicate]
    rfl
  have hrank : ∀ j, rank ((visited [t]).map root?) j = rank (encode t) j := by
    intro j
    rw [hk, rank_append_replicate]
    rfl
  induction levels generalizing i u with
  | zero =>
    have hnone : ((encode t)[i]?).join = none := by
      rw [List.getElem?_eq_none (by omega)]
      rfl
    rw [hjoin, List.getElem?_map, hu] at hnone
    cases u with
    | nil => rfl
    | node v l r => simp [root?] at hnone
  | succ levels ih =>
    have hroot : ((encode t)[i]?).join = root? u := by
      rw [hjoin, List.getElem?_map, hu]
      rfl
    cases u with
    | nil => rw [placesFrom_of_null hroot]; rfl
    | node v l r =>
      have hv : (encode t)[i]? = some (some v) := by
        cases ho : (encode t)[i]? with
        | none => simp [ho, root?] at hroot
        | some o => simpa [ho, root?] using hroot
      obtain ⟨hl, hr⟩ := visited_child hu
      rw [hrank] at hl hr
      obtain ⟨hlt, hreach⟩ := reachable_child hv hi (.inl rfl)
      obtain ⟨hlt', hreach'⟩ := reachable_child hv hi (.inr rfl)
      rw [placesFrom_of_node hv, BinaryTree.map, ih hl hreach (by omega), ih hr hreach' (by omega)]

/-- Listing a tree and reading the list back gives the tree. -/
theorem decode_encode (t : BinaryTree α) : decode (encode t) = t := by
  have hroot : (visited [t])[0]? = some t := by
    rw [visited_eq]
    rfl
  exact placesFrom_encode t hroot (reachable_root _) (by omega)

/-- Every label is in the tree, and the list does not end with null. -/
structure WellFormed (vals : List (Option α)) : Prop where
  reachable : ∀ i v, vals[i]? = some (some v) → Reachable vals i
  last : vals.getLast? ≠ some none

theorem visited_cons (t : BinaryTree α) (queue : List (BinaryTree α)) :
    visited (t :: queue) = t :: visited (queue ++ kids t) := by
  cases t with
  | nil => rw [visited, kids, List.append_nil]
  | node v l r => rw [visited, kids]

theorem rank_cons_succ (o : Option α) (vals : List (Option α)) (i : ℕ) :
    rank (o :: vals) (i + 1) = (if o.isSome then 1 else 0) + rank vals i := by
  cases o with
  | none => simp [rank]
  | some v =>
    simp only [rank, List.take_succ_cons, List.filterMap_cons_some (f := id) (b := v) rfl,
      List.length_cons, Option.isSome_some, if_true]
    omega

/-- As long as there is something to visit, the queue is not empty: after `i` visits it has
lost `i` trees and got two for every node. -/
theorem lt_visited (queue : List (BinaryTree α)) {i : ℕ} (h : i < (visited queue).length) :
    i < queue.length + 2 * rank ((visited queue).map root?) i := by
  induction queue using visited.induct generalizing i with
  | case1 => simp [visited] at h
  | case2 queue ih =>
    cases i with
    | zero => simp
    | succ i =>
      have hi := ih (by simpa [visited] using h)
      rw [visited, List.map_cons, rank_cons_succ]
      simp only [root?, Option.isSome_none, List.length_cons]
      omega
  | case3 v l r queue ih =>
    cases i with
    | zero => simp
    | succ i =>
      have hi := ih (by simpa [visited] using h)
      rw [visited, List.map_cons, rank_cons_succ]
      simp only [root?, Option.isSome_some, if_true, List.length_cons, List.length_append,
        List.length_nil] at hi ⊢
      omega

theorem getLast?_rdropWhile (vals : List (Option α)) :
    (vals.rdropWhile Option.isNone).getLast? ≠ some none := by
  intro hlast
  have hne : vals.rdropWhile Option.isNone ≠ [] := by
    intro hnil
    simp [hnil] at hlast
  have hsome := List.rdropWhile_last_not Option.isNone vals hne
  rw [List.getLast?_eq_getLast_of_ne_nil hne, Option.some.injEq] at hlast
  simp [hlast] at hsome

theorem encode_wellFormed (t : BinaryTree α) : WellFormed (encode t) where
  reachable i v hv := by
    obtain ⟨k, hk⟩ := rdropWhile_isNone ((visited [t]).map root?)
    have hlt : i < ((visited [t]).map root?).length := by
      have hi := (List.getElem?_eq_some_iff.mp hv).1
      rw [hk, List.length_append]
      exact Nat.lt_add_right _ hi
    rw [List.length_map] at hlt
    have hqueue := lt_visited [t] hlt
    rw [hk, rank_append_replicate, List.length_singleton] at hqueue
    exact Nat.le_of_lt_add_one (by rwa [Nat.add_comm] at hqueue)
  last := getLast?_rdropWhile _

theorem placesFrom_levels {vals : List (Option α)} {levels levels' i : ℕ}
    (hi : Reachable vals i) (h : vals.length ≤ i + levels) (h' : vals.length ≤ i + levels') :
    placesFrom vals levels i = placesFrom vals levels' i := by
  induction levels generalizing i levels' with
  | zero =>
    have hnull : (vals[i]?).join = none := by
      rw [List.getElem?_eq_none (by omega)]
      rfl
    rw [placesFrom_of_null hnull, placesFrom_of_null hnull]
  | succ levels ih =>
    obtain ⟨v, hv⟩ | hnull := node_or_null vals i
    · have hlt := (List.getElem?_eq_some_iff.mp hv).1
      obtain ⟨k, rfl⟩ : ∃ k, levels' = k + 1 := ⟨levels' - 1, by omega⟩
      obtain ⟨hleft, hreach⟩ := reachable_child hv hi (.inl rfl)
      obtain ⟨hright, hreach'⟩ := reachable_child hv hi (.inr rfl)
      have hsame : placesFrom vals levels (2 * rank vals i + 1) =
          placesFrom vals k (2 * rank vals i + 1) := ih hreach (by omega) (by omega)
      have hsame' : placesFrom vals levels (2 * rank vals i + 2) =
          placesFrom vals k (2 * rank vals i + 2) := ih hreach' (by omega) (by omega)
      rw [placesFrom_of_node hv, placesFrom_of_node hv, hsame, hsame']
    · rw [placesFrom_of_null hnull, placesFrom_of_null hnull]

section
variable (vals : List (Option α))

/-- The tree below a place. -/
def treeAt (i : ℕ) : BinaryTree α := (placesFrom vals (vals.length - i) i).map Prod.snd

/-- The trees that wait when the places before `i` have been visited. -/
def pending (i : ℕ) : List (BinaryTree α) :=
  (List.range' i (2 * rank vals i + 1 - i)).map (treeAt vals)

end

variable {vals : List (Option α)}

theorem treeAt_of_null {i : ℕ} (h : (vals[i]?).join = none) : treeAt vals i = .nil := by
  rw [treeAt, placesFrom_of_null h]
  rfl

theorem treeAt_of_node {i : ℕ} {v : α} (hv : vals[i]? = some (some v)) (hi : Reachable vals i) :
    treeAt vals i = .node v (treeAt vals (2 * rank vals i + 1))
      (treeAt vals (2 * rank vals i + 2)) := by
  have hlt := (List.getElem?_eq_some_iff.mp hv).1
  obtain ⟨k, hk⟩ : ∃ k, vals.length - i = k + 1 := ⟨vals.length - i - 1, by omega⟩
  obtain ⟨hleft, hreach⟩ := reachable_child hv hi (.inl rfl)
  obtain ⟨hright, hreach'⟩ := reachable_child hv hi (.inr rfl)
  have hsame : placesFrom vals k (2 * rank vals i + 1) =
      placesFrom vals (vals.length - (2 * rank vals i + 1)) (2 * rank vals i + 1) :=
    placesFrom_levels hreach (by omega) (by omega)
  have hsame' : placesFrom vals k (2 * rank vals i + 2) =
      placesFrom vals (vals.length - (2 * rank vals i + 2)) (2 * rank vals i + 2) :=
    placesFrom_levels hreach' (by omega) (by omega)
  rw [treeAt, hk, placesFrom_of_node hv, BinaryTree.map, hsame, hsame']
  rfl

theorem root?_treeAt {i : ℕ} (hi : Reachable vals i) : root? (treeAt vals i) = (vals[i]?).join := by
  obtain ⟨v, hv⟩ | hnull := node_or_null vals i
  · rw [treeAt_of_node hv hi, hv]
    rfl
  · rw [treeAt_of_null hnull, hnull]
    rfl

/-- One visit. -/
theorem visited_pending {i : ℕ} (hi : Reachable vals i) :
    visited (pending vals i) = treeAt vals i :: visited (pending vals (i + 1)) := by
  have hle : i ≤ 2 * rank vals i := hi
  have hplace : i + 1 + 1 * (2 * rank vals i - i) = 2 * rank vals i + 1 := by omega
  have hplace' : i + 1 + 1 * (2 * rank vals i - i + 1) = 2 * rank vals i + 2 := by omega
  have hsplit : pending vals i =
      treeAt vals i :: (List.range' (i + 1) (2 * rank vals i - i)).map (treeAt vals) := by
    rw [pending, show 2 * rank vals i + 1 - i = 2 * rank vals i - i + 1 by omega,
      List.range'_succ, List.map_cons]
  have hnext : pending vals (i + 1) =
      (List.range' (i + 1) (2 * rank vals i - i)).map (treeAt vals) ++ kids (treeAt vals i) := by
    obtain ⟨v, hv⟩ | hnull := node_or_null vals i
    · rw [treeAt_of_node hv hi, kids, pending, rank_succ_of_node hv,
        show 2 * (rank vals i + 1) + 1 - (i + 1) = 2 * rank vals i - i + 1 + 1 by omega,
        List.range'_concat, List.range'_concat, List.map_append, List.map_append, hplace, hplace']
      simp
    · rw [treeAt_of_null hnull, kids, List.append_nil, pending, rank_succ_of_null hnull,
        show 2 * rank vals i + 1 - (i + 1) = 2 * rank vals i - i by omega]
  rw [hsplit, visited_cons, hnext]

theorem visited_replicate_nil (n : ℕ) :
    visited (List.replicate n (.nil : BinaryTree α)) = List.replicate n .nil := by
  induction n with
  | zero => simp [visited]
  | succ n ih => rw [List.replicate_succ, visited, ih]

/-- Behind the end of the list there are no nodes. -/
theorem visited_pending_of_length_le {i : ℕ} (hi : vals.length ≤ i) :
    ∃ k, (visited (pending vals i)).map root? = List.replicate k none := by
  have hnil : pending vals i = List.replicate (2 * rank vals i + 1 - i) .nil := by
    refine List.eq_replicate_iff.mpr ⟨by simp [pending], fun t ht => ?_⟩
    obtain ⟨j, hj, rfl⟩ := List.mem_map.mp ht
    have hle : i ≤ j := (List.mem_range'_1.mp hj).1
    apply treeAt_of_null
    rw [List.getElem?_eq_none (by omega)]
    rfl
  rw [hnil, visited_replicate_nil, List.map_replicate]
  exact ⟨_, rfl⟩

theorem exists_next_node {i last : ℕ} {w : α} (hw : vals[last]? = some (some w))
    (hi : i ≤ last) :
    ∃ j v, i ≤ j ∧ rank vals j = rank vals i ∧ vals[j]? = some (some v) := by
  induction hn : last - i generalizing i with
  | zero =>
    obtain rfl : i = last := by omega
    exact ⟨i, w, le_rfl, rfl, hw⟩
  | succ n ih =>
    obtain ⟨v, hv⟩ | hnull := node_or_null vals i
    · exact ⟨i, v, le_rfl, rfl, hv⟩
    · obtain ⟨j, v, hij, hrank, hv⟩ := ih (by omega : i + 1 ≤ last) (by omega)
      exact ⟨j, v, by omega, hrank.trans (rank_succ_of_null hnull), hv⟩

theorem rdropWhile_append_replicate (vals : List (Option α)) (k : ℕ) :
    (vals ++ List.replicate k none).rdropWhile Option.isNone =
      vals.rdropWhile Option.isNone := by
  induction k with
  | zero => simp
  | succ k ih =>
    rw [List.replicate_succ', ← List.append_assoc, List.rdropWhile_concat_pos _ _ _ rfl, ih]

namespace WellFormed

/-- The queue does not run dry before the end of the list: the next label would have no
parent. -/
theorem reachable_of_lt (h : WellFormed vals) {i : ℕ} (hi : i < vals.length)
    (hle : i ≤ 2 * rank vals i + 1) : Reachable vals i := by
  obtain ⟨w, hw⟩ : ∃ w, vals[vals.length - 1]? = some (some w) := by
    obtain ⟨w, hw⟩ | hnull := node_or_null vals (vals.length - 1)
    · exact ⟨w, hw⟩
    · rw [← List.getLast?_eq_getElem?] at hnull
      cases hlast : vals.getLast? with
      | none => simp [List.getLast?_eq_none_iff.mp hlast] at hi
      | some o =>
        obtain rfl : o = none := by simpa [hlast] using hnull
        exact absurd hlast h.last
  obtain ⟨j, v, hij, hrank, hv⟩ := exists_next_node hw (by omega : i ≤ vals.length - 1)
  have hj : j ≤ 2 * rank vals j := h.reachable j v hv
  simp only [Reachable]
  omega

theorem visited_eq (h : WellFormed vals) {i : ℕ} (hle : i ≤ 2 * rank vals i + 1) :
    ∃ k, (visited (pending vals i)).map root? = vals.drop i ++ List.replicate k none := by
  induction hn : vals.length - i generalizing i with
  | zero =>
    obtain ⟨k, hk⟩ := visited_pending_of_length_le (by omega : vals.length ≤ i)
    exact ⟨k, by rw [hk, List.drop_eq_nil_of_le (by omega), List.nil_append]⟩
  | succ n ih =>
    have hi : i < vals.length := by omega
    have hreach := h.reachable_of_lt hi hle
    have hnext : i + 1 ≤ 2 * rank vals (i + 1) + 1 := by
      have hmono : rank vals i ≤ rank vals (i + 1) := rank_mono (Nat.le_add_right i 1)
      simp only [Reachable] at hreach
      omega
    obtain ⟨k, hk⟩ := ih hnext (by omega)
    refine ⟨k, ?_⟩
    rw [visited_pending hreach, List.map_cons, hk, root?_treeAt hreach,
      List.drop_eq_getElem_cons hi, List.getElem?_eq_getElem hi]
    rfl

theorem encode_decode (h : WellFormed vals) : encode (decode vals) = vals := by
  have hpending : pending vals 0 = [decode vals] := rfl
  obtain ⟨k, hk⟩ := h.visited_eq (i := 0) (Nat.zero_le _)
  rw [hpending, List.drop_zero] at hk
  rw [encode, hk, rdropWhile_append_replicate, List.rdropWhile_eq_self_iff.mpr]
  intro hne hnull
  refine h.last ?_
  rw [List.getLast?_eq_getLast_of_ne_nil hne, Option.isNone_iff_eq_none.mp hnull]

end WellFormed

/-- A list comes back from the tree it lists if and only if it is well formed. -/
theorem encode_decode_iff : encode (decode vals) = vals ↔ WellFormed vals := by
  constructor
  · intro h
    rw [← h]
    exact encode_wellFormed _
  · exact WellFormed.encode_decode

theorem wellFormed_map_iff {β : Type u} (f : α → β) (vals : List (Option α)) :
    WellFormed (vals.map (Option.map f)) ↔ WellFormed vals := by
  have hlast : (vals.map (Option.map f)).getLast? = some none ↔ vals.getLast? = some none := by
    rw [List.getLast?_map]
    cases vals.getLast? with
    | none => simp
    | some o => cases o <;> simp
  constructor
  · intro h
    refine ⟨fun i v hv => ?_, fun hnull => h.last (hlast.mpr hnull)⟩
    have hreach := h.reachable i (f v) (by simp [hv])
    rwa [Reachable, rank_map] at hreach
  · intro h
    refine ⟨fun i v hv => ?_, fun hnull => h.last (hlast.mp hnull)⟩
    rw [List.getElem?_map] at hv
    obtain ⟨o, ho, hmap⟩ := Option.map_eq_some_iff.mp hv
    obtain ⟨w, rfl, rfl⟩ := Option.map_eq_some_iff.mp hmap
    have hreach := h.reachable i w ho
    rwa [Reachable, rank_map]

end

end ExecutionEngine.LevelOrder
