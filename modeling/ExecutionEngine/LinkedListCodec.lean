import Mathlib.Tactic

/-!
# Linked lists in the wrappers

A test case gives a linked list by its values and by `pos`, the index of the node that
the last node links back to. Every wrapper builds the nodes in its own way and has its
own test of `pos`. The lists that submissions return are listed with a set of the nodes
already seen, since they may be cyclic. Memory is the list of the nodes made so far and
the address of a node is its place in it.
-/
namespace ExecutionEngine.LinkedListCodec

/-- `ListNode` -/
structure ListNode where
  val : Int32
  next : Option ℕ
  deriving DecidableEq, Repr

abbrev Heap := List ListNode

namespace Heap

/-- `node.next = p` -/
def setNext (m : Heap) (node : ℕ) (p : Option ℕ) : Heap :=
  m.modify node fun c => { c with next := p }

end Heap

/-- The memory after a builder has returned, and the head it returned. -/
structure Built where
  memory : Heap
  head : Option ℕ
  deriving DecidableEq, Repr

/-- The loop over the values behind a dummy node, which is the first node of the memory:
the memory, the address `curr` of the last node, and the addresses of the nodes. -/
def appendNodes (values : List Int32) : Heap × ℕ × List ℕ :=
  values.foldl (fun (m, curr, nodes) v =>
    (Heap.setNext (m ++ [⟨v, none⟩]) curr (some m.length), m.length, nodes ++ [m.length]))
    ([⟨0, none⟩], 0, [])

/-- `dummy.next` -/
def dummyNext (m : Heap) : Option ℕ := (m[0]?).bind ListNode.next

/-- `nodes.get(pos)`; `none` where it raises. -/
def getNode (nodes : List ℕ) (pos : ℤ) : Option ℕ :=
  if 0 ≤ pos then nodes[pos.toNat]? else none

/-- A builder with a dummy node that lets the last node, which is `curr` and `nodes[-1]`,
link to the node `pos` when `closes` says so, given `pos` and the number of nodes; `none`
where the access to that node raises. -/
def buildWithDummy (closes : ℤ → ℕ → Bool) (values : List Int32) (pos : Int32) : Option Built :=
  if values.isEmpty then some ⟨[], none⟩
  else
    let (m, curr, nodes) := appendNodes values
    if closes pos.toInt nodes.length then
      (getNode nodes pos.toInt).map fun target =>
        let m := m.setNext curr (some target)
        ⟨m, dummyNext m⟩
    else some ⟨m, dummyNext m⟩

/-- `if pos != -1 and nodes: if 0 <= pos < len(nodes):` -/
def closesPython (pos : ℤ) (n : ℕ) : Bool := pos != -1 && n != 0 && (0 ≤ pos && pos < n)

/-- `pos !== -1 && nodes.length > 0 && pos >= 0 && pos < nodes.length` -/
def closesJavaScript (pos : ℤ) (n : ℕ) : Bool := pos != -1 && 0 < n && 0 ≤ pos && pos < n

/-- `pos >= 0 && pos < len(nodes)` -/
def closesGo (pos : ℤ) (n : ℕ) : Bool := 0 ≤ pos && pos < n

/-- `pos != -1 && pos < nodes.size()`, without a test for other negative numbers. -/
def closesJava (pos : ℤ) (n : ℕ) : Bool := pos != -1 && pos < n

/-- Python's `build_linked_list` and the branch for lists of `auto_convert_inputs`. -/
def buildPython (values : List Int32) (pos : Int32) : Option Built :=
  buildWithDummy closesPython values pos

/-- `buildLinkedList` and the branch for lists of `autoConvertInput` in JavaScript. -/
def buildJavaScript (values : List Int32) (pos : Int32) : Option Built :=
  buildWithDummy closesJavaScript values pos

/-- The same in TypeScript. -/
def buildTypeScript (values : List Int32) (pos : Int32) : Option Built :=
  buildWithDummy closesJavaScript values pos

/-- Go's `buildLinkedList`. -/
def buildGo (values : List Int32) (pos : Int32) : Option Built :=
  buildWithDummy closesGo values pos

/-- Java's `buildLinkedList`. -/
def buildJava (values : List Int32) (pos : Int32) : Option Built :=
  buildWithDummy closesJava values pos

/-- Kotlin's `buildLinkedList`. -/
def buildKotlin (values : List Int32) (pos : Int32) : Option Built :=
  buildWithDummy closesJava values pos

/-- `BuildLinkedList` of C#. -/
def buildCSharp (values : List Int32) (pos : Int32) : Option Built :=
  buildWithDummy closesJava values pos

/-- `for (size_t i = 0; i + 1 < nodes.size(); ++i)` -/
def linkNodes (nodes : List ℕ) (i : ℕ) (m : Heap) : Heap :=
  if h : i + 1 < nodes.length then
    linkNodes nodes (i + 1) (m.setNext nodes[i] (some nodes[i + 1]))
  else m
termination_by nodes.length - i

/-- `buildLinkedList` of C++. The number of nodes is cast to a 32-bit `int` before it is
compared with `pos`. -/
def buildCpp (values : List Int32) (pos : Int32) : Option Built :=
  if values.isEmpty then some ⟨[], none⟩
  else
    let nodes := List.range values.length
    let m := linkNodes nodes 0 (values.map fun v => ⟨v, none⟩)
    if 0 ≤ pos.toInt && pos.toInt < (Int32.ofNat nodes.length).toInt then
      (getNode nodes pos.toInt).map fun target =>
        ⟨m.setNext (nodes.getLastD 0) (some target), nodes[0]?⟩
    else some ⟨m, nodes[0]?⟩

inductive ListLanguage
  | python | javascript | typescript | go | cpp | java | kotlin | csharp
  deriving DecidableEq, Repr

/-- The list of a test case, built by the wrapper of the language; `none` where it
raises. -/
def build : ListLanguage → List Int32 → Int32 → Option Built
  | .python => buildPython
  | .javascript => buildJavaScript
  | .typescript => buildTypeScript
  | .go => buildGo
  | .cpp => buildCpp
  | .java => buildJava
  | .kotlin => buildKotlin
  | .csharp => buildCSharp

/-- `while head and head not in visited`, with at most the given number of rounds. -/
def collect (m : Heap) : ℕ → Option ℕ → List ℕ → List Int32 → Option (List Int32)
  | _, none, _, result => some result
  | 0, some _, _, _ => none
  | fuel + 1, some head, visited, result =>
    if head ∈ visited then some result
    else
      match m[head]? with
      | some node => collect m fuel node.next (visited ++ [head]) (result ++ [node.val])
      | none => none

/-- `linked_list_to_list`, which reads the same in every wrapper; `none` when the rounds do
not suffice. -/
def linkedListToList (fuel : ℕ) (m : Heap) (head : Option ℕ) : Option (List Int32) :=
  collect m fuel head [] []

/-- The nodes at the given addresses hold the values and are linked in this order; the last
one links to the node with the index `back`, or to nothing. -/
structure ChainAt (m : Heap) (addrs : List ℕ) (vs : List Int32) (back : Option ℕ) : Prop where
  nodup : addrs.Nodup
  length : addrs.length = vs.length
  cells : ∀ i a v, addrs[i]? = some a → vs[i]? = some v →
    m[a]? = some (ListNode.mk v ((addrs[i + 1]?).or (back.bind (addrs[·]?))))

/-- A list that begins at `head`. -/
def Chain (m : Heap) (head : Option ℕ) (vs : List Int32) (back : Option ℕ) : Prop :=
  ∃ addrs, head = addrs[0]? ∧ ChainAt m addrs vs back

/-- The node that the last node has to link to. -/
def cycleStart (vs : List Int32) (pos : Int32) : Option ℕ :=
  if 0 ≤ pos.toInt ∧ pos.toInt < vs.length then some pos.toInt.toNat else none

section
variable {m : Heap} {addrs : List ℕ} {vs : List Int32} {back : Option ℕ}

/-- The nodes seen so far are the first `k`, and their values have been listed. -/
theorem collect_from (h : ChainAt m addrs vs back) {k fuel : ℕ} (hk : k ≤ vs.length)
    (hfuel : vs.length - k < fuel) :
    collect m fuel ((addrs[k]?).or (back.bind (addrs[·]?))) (addrs.take k) (vs.take k) =
      some vs := by
  obtain ⟨fuel, rfl⟩ : ∃ f, fuel = f + 1 := ⟨fuel - 1, by omega⟩
  induction hn : vs.length - k generalizing k fuel with
  | zero =>
    have hlen : k = vs.length := by omega
    have hend : addrs[k]? = none := List.getElem?_eq_none (by rw [h.length, hlen])
    rw [hend, Option.none_or, List.take_of_length_le (by rw [h.length, hlen]),
      List.take_of_length_le (by rw [hlen])]
    cases htarget : back.bind (addrs[·]?) with
    | none => rfl
    | some a =>
      obtain ⟨j, -, hj⟩ := Option.bind_eq_some_iff.mp htarget
      rw [collect, if_pos (List.mem_of_getElem? hj)]
  | succ n ih =>
    have hlt : k < addrs.length := by rw [h.length]; omega
    have hlt' : k < vs.length := by omega
    obtain ⟨f, rfl⟩ : ∃ f, fuel = f + 1 := ⟨fuel - 1, by omega⟩
    have haddr : addrs[k]? = some addrs[k] := List.getElem?_eq_getElem hlt
    have hcell := h.cells k _ _ haddr (List.getElem?_eq_getElem hlt')
    have hnew : addrs[k] ∉ addrs.take k := by
      have hnodup := h.nodup
      rw [← List.take_append_drop k addrs, List.nodup_append] at hnodup
      intro hmem
      have hdrop : addrs[k] ∈ addrs.drop k := by
        rw [List.drop_eq_getElem_cons hlt]
        exact List.mem_cons_self
      exact hnodup.2.2 _ hmem _ hdrop rfl
    have hnext := ih hlt' f (by omega) (by omega)
    rw [List.take_add_one, List.take_add_one, haddr, List.getElem?_eq_getElem hlt'] at hnext
    rw [haddr, Option.some_or, collect, if_neg hnew, hcell]
    exact hnext

/-- Listing a chain returns its values, whether it is cyclic or not. -/
theorem linkedListToList_eq {head : Option ℕ} (h : Chain m head vs back) {fuel : ℕ}
    (hfuel : vs.length < fuel) : linkedListToList fuel m head = some vs := by
  obtain ⟨addrs, rfl, hchain⟩ := h
  have hall := collect_from hchain (Nat.zero_le _) (by simpa using hfuel)
  have hhead : (addrs[0]?).or (back.bind (addrs[·]?)) = addrs[0]? := by
    cases addrs with
    | nil => simp
    | cons a addrs => rfl
  rw [hhead] at hall
  exact hall

/-- The values and the addresses of a chain are determined by its head. -/
theorem addrs_unique {addrs' : List ℕ} {back' : Option ℕ} (h : ChainAt m addrs vs back)
    (h' : ChainAt m addrs' vs back') (hhead : addrs[0]? = addrs'[0]?) : addrs = addrs' := by
  apply List.ext_getElem?
  intro i
  induction i with
  | zero => exact hhead
  | succ i ih =>
    by_cases hlt : i + 1 < vs.length
    · have hi : i < addrs.length := by
        rw [h.length]
        omega
      have ha : addrs[i]? = some addrs[i] := List.getElem?_eq_getElem hi
      have hcell := h.cells i _ _ ha (List.getElem?_eq_getElem (by omega))
      have hcell' := h'.cells i _ _ (ih.symm.trans ha) (List.getElem?_eq_getElem (by omega))
      have hnext := congrArg ListNode.next (Option.some.inj (hcell.symm.trans hcell'))
      rw [List.getElem?_eq_getElem (by rw [h.length]; exact hlt),
        List.getElem?_eq_getElem (by rw [h'.length]; exact hlt)] at hnext ⊢
      exact hnext
    · rw [List.getElem?_eq_none (by rw [h.length]; omega),
        List.getElem?_eq_none (by rw [h'.length]; omega)]

/-- The last node is made to link to another node of the chain. -/
theorem close_chain (h : ChainAt m addrs vs none) {last j target : ℕ}
    (hlast : addrs[vs.length - 1]? = some last) (hj : addrs[j]? = some target) :
    ChainAt (m.setNext last (some target)) addrs vs (some j) where
  nodup := h.nodup
  length := h.length
  cells i a v ha hv := by
    have hcell := h.cells i a v ha hv
    have hi : i < vs.length := (List.getElem?_eq_some_iff.mp hv).1
    rw [Heap.setNext, List.getElem?_modify, hcell]
    by_cases hend : i + 1 < vs.length
    · have hne : last ≠ a := by
        rintro rfl
        have heq := (h.nodup.getElem_inj_iff).mp
          ((List.getElem?_eq_some_iff.mp ha).2.trans (List.getElem?_eq_some_iff.mp hlast).2.symm)
        omega
      rw [List.getElem?_eq_getElem (by rw [h.length]; exact hend)]
      simp [hne]
    · obtain rfl : a = last := by
        rw [show i = vs.length - 1 by omega] at ha
        exact Option.some.inj (ha.symm.trans hlast)
      rw [List.getElem?_eq_none (by rw [h.length]; omega)]
      simp [hj]

end

/-- The memory in which the nodes before `k` link to their successors. -/
def chainedTo (k : ℕ) (ws : List Int32) : Heap :=
  ws.mapIdx fun i v => ⟨v, if i < k ∧ i + 1 < ws.length then some (i + 1) else none⟩

/-- The memory of a list from the first address on. -/
def chained (ws : List Int32) : Heap := chainedTo ws.length ws

theorem getElem?_chainedTo (k : ℕ) (ws : List Int32) (i : ℕ) :
    (chainedTo k ws)[i]? = (ws[i]?).map fun v =>
      ListNode.mk v (if i < k ∧ i + 1 < ws.length then some (i + 1) else none) := by
  simp [chainedTo]

theorem getElem?_chained (ws : List Int32) (i : ℕ) :
    (chained ws)[i]? = (ws[i]?).map fun v =>
      ListNode.mk v (if i + 1 < ws.length then some (i + 1) else none) := by
  rw [chained, getElem?_chainedTo]
  congr 1
  funext v
  have hiff : (i < ws.length ∧ i + 1 < ws.length) ↔ i + 1 < ws.length := by omega
  simp only [hiff]

@[simp] theorem length_chained (ws : List Int32) : (chained ws).length = ws.length := by
  simp [chained, chainedTo]

theorem chained_concat {ws : List Int32} (h : 0 < ws.length) (v : Int32) :
    Heap.setNext (chained ws ++ [⟨v, none⟩]) (ws.length - 1) (some ws.length) =
      chained (ws ++ [v]) := by
  apply List.ext_getElem?
  intro i
  rw [Heap.setNext, List.getElem?_modify, getElem?_chained]
  rcases Nat.lt_trichotomy i ws.length with hlt | rfl | hgt
  · rw [List.getElem?_append_left (by simpa using hlt), List.getElem?_append_left hlt,
      getElem?_chained, List.getElem?_eq_getElem hlt]
    by_cases hlast : ws.length - 1 = i
    · have hend : ¬ i + 1 < ws.length := by omega
      simp [hlast, hlt]
      omega
    · have hend : i + 1 < ws.length := by omega
      simp [hlast, hlt, hend]
  · have hne : ws.length - 1 ≠ ws.length := by omega
    simp [hne]
  · rw [List.getElem?_eq_none (by simp; omega), List.getElem?_eq_none (by simp; omega)]
    rfl

theorem appendNodes_eq (vs : List Int32) :
    appendNodes vs = (chained (0 :: vs), vs.length, List.range' 1 vs.length) := by
  induction vs using List.reverseRecOn with
  | nil => rfl
  | append_singleton vs v ih =>
    have hpos : 0 < (0 :: vs).length := by simp
    have hconcat := chained_concat hpos v
    rw [appendNodes, List.foldl_append, ← appendNodes, ih]
    simp only [List.length_cons, Nat.add_sub_cancel, List.cons_append] at hconcat
    simp [hconcat, List.range'_concat, Nat.add_comm]

theorem chainAt_range' (before vs : List Int32) :
    ChainAt (chained (before ++ vs)) (List.range' before.length vs.length) vs none where
  nodup := List.nodup_range'
  length := List.length_range'
  cells i a v ha hv := by
    have hi : i < vs.length := (List.getElem?_eq_some_iff.mp hv).1
    obtain rfl : a = before.length + i := by
      rw [List.getElem?_range' hi] at ha
      simpa using ha.symm
    rw [getElem?_chained, List.getElem?_append_right (by omega), Nat.add_sub_cancel_left, hv]
    by_cases hend : i + 1 < vs.length
    · rw [List.getElem?_range' hend]
      simp [hend, Nat.add_assoc]
    · rw [List.getElem?_eq_none (by simpa using hend)]
      simp [hend, Nat.add_assoc]

theorem chainedTo_of_le {vs : List Int32} {i : ℕ} (h : vs.length ≤ i + 1) :
    chainedTo i vs = chained vs := by
  apply List.ext_getElem?
  intro j
  rw [getElem?_chained, getElem?_chainedTo]
  congr 1
  funext v
  have hiff : (j < i ∧ j + 1 < vs.length) ↔ j + 1 < vs.length := by omega
  simp only [hiff]

theorem chainedTo_succ {vs : List Int32} {i : ℕ} (h : i + 1 < vs.length) :
    (chainedTo i vs).setNext i (some (i + 1)) = chainedTo (i + 1) vs := by
  apply List.ext_getElem?
  intro j
  rw [Heap.setNext, List.getElem?_modify, getElem?_chainedTo, getElem?_chainedTo]
  rcases Nat.lt_trichotomy j i with hj | rfl | hj
  · simp [hj, Nat.ne_of_gt hj, Nat.lt_succ_of_lt hj]
  · simp [h, Function.comp_def]
  · have hne : i ≠ j := by omega
    simp [hne, Nat.not_lt.mpr hj.le, Nat.not_lt.mpr (Nat.succ_le_of_lt hj)]

theorem linkNodes_eq (vs : List Int32) (i : ℕ) :
    linkNodes (List.range vs.length) i (chainedTo i vs) = chained vs := by
  induction hn : vs.length - i using Nat.strong_induction_on generalizing i with
  | _ n ih =>
    rw [linkNodes]
    by_cases hlt : i + 1 < vs.length
    · rw [dif_pos (by simpa using hlt)]
      simp only [List.getElem_range]
      rw [chainedTo_succ hlt]
      exact ih _ (by omega) (i + 1) rfl
    · rw [dif_neg (by simpa using hlt), chainedTo_of_le (Nat.not_lt.mp hlt)]

/-- The builder returns the chain of the values with the right end, and listing it again
returns the values. -/
def Agrees (vs : List Int32) (pos : Int32) (result : Option Built) : Prop :=
  ∃ b, result = some b ∧ Chain b.memory b.head vs (cycleStart vs pos) ∧
    ∃ steps, ∀ fuel, steps ≤ fuel → linkedListToList fuel b.memory b.head = some vs

section
variable {vs : List Int32} {pos : Int32}

theorem agrees_of_chain {b : Built} (h : Chain b.memory b.head vs (cycleStart vs pos)) :
    Agrees vs pos (some b) :=
  ⟨b, rfl, h, vs.length + 1, fun _ hfuel => linkedListToList_eq h hfuel⟩

theorem agrees_nil (pos : Int32) : Agrees [] pos (some ⟨[], none⟩) := by
  apply agrees_of_chain
  exact ⟨[], rfl, List.nodup_nil, rfl, by simp⟩

theorem getNode_inside {nodes : List ℕ} {pos : ℤ} (h : 0 ≤ pos) (hlt : pos < nodes.length) :
    ∃ target, getNode nodes pos = some target ∧ nodes[pos.toNat]? = some target := by
  have hidx : pos.toNat < nodes.length := by omega
  exact ⟨nodes[pos.toNat], by rw [getNode, if_pos h, List.getElem?_eq_getElem hidx],
    List.getElem?_eq_getElem hidx⟩

/-- A builder that tests the range of `pos` is right. -/
theorem buildWithDummy_agrees (closes : ℤ → ℕ → Bool)
    (hcloses : 0 < vs.length →
      (closes pos.toInt vs.length = true ↔ 0 ≤ pos.toInt ∧ pos.toInt < vs.length)) :
    Agrees vs pos (buildWithDummy closes vs pos) := by
  by_cases hvs : vs = []
  · subst hvs
    exact agrees_nil pos
  · have hpos : 0 < vs.length := List.length_pos_of_ne_nil hvs
    have hchain := chainAt_range' [0] vs
    have hempty : vs.isEmpty = false := by simpa using hvs
    have hhead : dummyNext (chained (0 :: vs)) = (List.range' 1 vs.length)[0]? := by
      rw [dummyNext, getElem?_chained, List.getElem?_range' hpos]
      simp [hpos]
    rw [buildWithDummy, hempty, appendNodes_eq]
    simp only [Bool.false_eq_true, if_false, List.length_range']
    by_cases hin : 0 ≤ pos.toInt ∧ pos.toInt < vs.length
    · have hlt : pos.toInt < (List.range' 1 vs.length).length := by simpa using hin.2
      obtain ⟨target, hget, htarget⟩ := getNode_inside hin.1 hlt
      rw [if_pos ((hcloses hpos).mpr hin), hget, Option.map_some]
      apply agrees_of_chain
      have hlast : (List.range' 1 vs.length)[vs.length - 1]? = some vs.length := by
        rw [List.getElem?_range' (by omega)]
        congr 1
        omega
      have hclosed := close_chain hchain hlast htarget
      refine ⟨List.range' 1 vs.length, ?_, ?_⟩
      · rw [← hhead, dummyNext, dummyNext, Heap.setNext, List.getElem?_modify]
        simp [Nat.ne_of_gt hpos]
      · rw [cycleStart, if_pos hin]
        exact hclosed
    · rw [if_neg (fun h => hin ((hcloses hpos).mp h))]
      apply agrees_of_chain
      refine ⟨_, hhead, ?_⟩
      rw [cycleStart, if_neg hin]
      exact hchain

/-- A builder that looks up a negative index raises. -/
theorem buildWithDummy_raises {closes : ℤ → ℕ → Bool} (hvs : vs ≠ [])
    (hcloses : closes pos.toInt vs.length = true) (hneg : pos.toInt < 0) :
    buildWithDummy closes vs pos = none := by
  have hempty : vs.isEmpty = false := by simpa using hvs
  rw [buildWithDummy, hempty, appendNodes_eq]
  simp [hcloses, getNode, Int.not_le.mpr hneg]

theorem castInt_le (n : ℕ) : (Int32.ofNat n).toInt ≤ n := by
  rw [Int32.toInt_ofNat', Int.bmod_def]
  have hmod : (n : ℤ) % Int32.size ≤ n := by
    exact_mod_cast Nat.mod_le n Int32.size
  have hsize : (0 : ℤ) ≤ Int32.size := by decide
  split_ifs <;> omega

theorem chainedTo_zero (vs : List Int32) : chainedTo 0 vs = vs.map fun v => ⟨v, none⟩ := by
  apply List.ext_getElem?
  intro i
  rw [getElem?_chainedTo]
  simp

theorem linkNodes_values (vs : List Int32) :
    linkNodes (List.range vs.length) 0 (vs.map fun v => ⟨v, none⟩) = chained vs := by
  rw [← chainedTo_zero, linkNodes_eq]

theorem chainAt_range (vs : List Int32) :
    ChainAt (chained vs) (List.range vs.length) vs none := by
  have hchain := chainAt_range' [] vs
  rwa [List.nil_append, List.length_nil, ← List.range_eq_range'] at hchain

theorem buildCpp_closed (hvs : 0 < vs.length) (h0 : 0 ≤ pos.toInt)
    (hcast : pos.toInt < (Int32.ofNat vs.length).toInt) :
    Agrees vs pos (buildCpp vs pos) := by
  have hempty : vs.isEmpty = false := by simpa using List.ne_nil_of_length_pos hvs
  have hlt : pos.toInt < vs.length := lt_of_lt_of_le hcast (castInt_le _)
  have hinside : pos.toInt < (List.range vs.length).length := by simpa using hlt
  obtain ⟨target, hget, htarget⟩ := getNode_inside h0 hinside
  have hlast : (List.range vs.length)[vs.length - 1]? =
      some ((List.range vs.length).getLastD 0) := by
    obtain ⟨n, hn⟩ : ∃ n, vs.length = n + 1 := ⟨vs.length - 1, by omega⟩
    simp [hn, List.range_succ]
  rw [buildCpp, hempty]
  simp only [Bool.false_eq_true, if_false, List.length_range, h0, hcast, decide_true,
    Bool.and_self, if_true, hget, Option.map_some]
  apply agrees_of_chain
  refine ⟨List.range vs.length, rfl, ?_⟩
  rw [cycleStart, if_pos ⟨h0, hlt⟩]
  rw [linkNodes_values]
  exact close_chain (chainAt_range vs) hlast htarget

theorem buildCpp_open (hvs : 0 < vs.length)
    (h : ¬ (0 ≤ pos.toInt ∧ pos.toInt < (Int32.ofNat vs.length).toInt)) :
    buildCpp vs pos = some ⟨chained vs, (List.range vs.length)[0]?⟩ := by
  have hempty : vs.isEmpty = false := by simpa using List.ne_nil_of_length_pos hvs
  have hguard : (decide (0 ≤ pos.toInt) &&
      decide (pos.toInt < (Int32.ofNat vs.length).toInt)) = false := by
    rw [← Bool.decide_and, decide_eq_false h]
  rw [buildCpp, hempty]
  simp only [Bool.false_eq_true, if_false, List.length_range, hguard, linkNodes_values]

/-- An open chain has no back link. -/
theorem not_closed {m : Heap} {addrs : List ℕ} {j : ℕ} (h : ChainAt m addrs vs none)
    (hj : j < vs.length) : ¬ Chain m addrs[0]? vs (some j) := by
  rintro ⟨addrs', hhead, h'⟩
  obtain rfl := addrs_unique h h' hhead
  have hlt : vs.length - 1 < addrs.length := by
    rw [h.length]
    omega
  have hlast : addrs[vs.length - 1]? = some addrs[vs.length - 1] := List.getElem?_eq_getElem hlt
  have hval : vs[vs.length - 1]? = some (vs[vs.length - 1]) := List.getElem?_eq_getElem (by omega)
  have hcell := h.cells _ _ _ hlast hval
  have hcell' := h'.cells _ _ _ hlast hval
  have hnext := congrArg ListNode.next (Option.some.inj (hcell.symm.trans hcell'))
  rw [List.getElem?_eq_none (by rw [h.length]; omega)] at hnext
  have htarget : j < addrs.length := by rwa [h.length]
  simp [htarget] at hnext

theorem buildCpp_agrees_iff :
    Agrees vs pos (buildCpp vs pos) ↔
      (0 ≤ pos.toInt → pos.toInt < vs.length → pos.toInt < (Int32.ofNat vs.length).toInt) := by
  by_cases hvs : vs = []
  · subst hvs
    refine iff_of_true (agrees_nil pos) ?_
    intro h0 hlt
    simp only [List.length_nil] at hlt
    omega
  · have hpos : 0 < vs.length := List.length_pos_of_ne_nil hvs
    have hchain := chainAt_range vs
    by_cases hguard : 0 ≤ pos.toInt ∧ pos.toInt < (Int32.ofNat vs.length).toInt
    · exact iff_of_true (buildCpp_closed hpos hguard.1 hguard.2) fun _ _ => hguard.2
    · rw [buildCpp_open hpos hguard]
      by_cases hin : 0 ≤ pos.toInt ∧ pos.toInt < vs.length
      · refine iff_of_false ?_ fun h => hguard ⟨hin.1, h hin.1 hin.2⟩
        rintro ⟨b, hb, hclosed, -⟩
        obtain rfl := Option.some.inj hb
        rw [cycleStart, if_pos hin] at hclosed
        exact not_closed hchain (by omega) hclosed
      · refine iff_of_true (agrees_of_chain ⟨_, rfl, ?_⟩) fun h0 hlt => absurd ⟨h0, hlt⟩ hin
        rw [cycleStart, if_neg hin]
        exact hchain

end

/-- All builders return, and return the same chain with the link that `pos` asks for,
exactly when `pos` is not below -1 and the length of the list does not overflow in C++. -/
theorem list_codecs_agree_iff (vs : List Int32) (pos : Int32) :
    (∀ language, Agrees vs pos (build language vs pos)) ↔
      vs = [] ∨ (-1 ≤ pos.toInt ∧
        (0 ≤ pos.toInt → pos.toInt < vs.length → pos.toInt < (Int32.ofNat vs.length).toInt)) := by
  constructor
  · intro h
    by_cases hvs : vs = []
    · exact .inl hvs
    · refine .inr ⟨?_, buildCpp_agrees_iff.mp (h .cpp)⟩
      by_contra hlow
      have hcloses : closesJava pos.toInt vs.length = true := by
        simp only [closesJava, Bool.and_eq_true, bne_iff_ne, decide_eq_true_eq]
        omega
      have hraise := buildWithDummy_raises hvs hcloses (by omega)
      obtain ⟨b, hb, -⟩ := h .java
      rw [build, buildJava, hraise] at hb
      cases hb
  · intro h language
    -- a test for -1 and a test of the range agree on what is not below -1
    have hjava : Agrees vs pos (buildWithDummy closesJava vs pos) := by
      apply buildWithDummy_agrees
      intro hpos
      rcases h with rfl | ⟨hlow, -⟩
      · simp at hpos
      · simp only [closesJava, Bool.and_eq_true, bne_iff_ne, decide_eq_true_eq]
        omega
    have hscript : Agrees vs pos (buildWithDummy closesJavaScript vs pos) := by
      apply buildWithDummy_agrees
      intro hpos
      simp only [closesJavaScript, Bool.and_eq_true, bne_iff_ne, decide_eq_true_eq]
      omega
    cases language with
    | python =>
      apply buildWithDummy_agrees closesPython
      intro hpos
      simp only [closesPython, Bool.and_eq_true, bne_iff_ne, decide_eq_true_eq]
      omega
    | javascript => exact hscript
    | typescript => exact hscript
    | go =>
      apply buildWithDummy_agrees closesGo
      intro hpos
      simp [closesGo]
    | cpp =>
      apply buildCpp_agrees_iff.mpr
      rcases h with rfl | ⟨-, hcast⟩
      · intro h0 hlt
        simp only [List.length_nil] at hlt
        omega
      · exact hcast
    | java => exact hjava
    | kotlin => exact hjava
    | csharp => exact hjava

/-- Java looks up the node with the index -2. -/
theorem java_raises_below_minus_one :
    ¬ ∀ language, Agrees [1] (-2) (build language [1] (-2)) := by
  intro h
  obtain ⟨b, hb, -⟩ := h .java
  have hraise : build .java [1] (-2) = none := by decide
  rw [hraise] at hb
  cases hb

end ExecutionEngine.LinkedListCodec
