import Mathlib.Algebra.BigOperators.Group.Finset.Basic
import Mathlib.Algebra.Order.BigOperators.Group.Finset
import Mathlib.Logic.Relation
import Mathlib.Tactic

/-!
# Traversing a graph with a queue

The successors of a vertex are put at the end of the queue when it is visited, those that
have not been visited by then. A vertex may stand in the queue several times; all but the
first are passed over. Each round takes one vertex from the queue, and the rounds are
bounded by what the queue holds and what the vertices not yet visited may still put there.
-/
namespace ExecutionEngine.Traversal

variable {α : Type*} (succ : α → List α)

/-- Every vertex visited or queued is reached from the start, no vertex is visited twice,
and what follows a visited vertex is visited or queued. -/
structure Frontier (start : α) (queue visited : List α) : Prop where
  sound : ∀ a ∈ visited ++ queue, Relation.ReflTransGen (fun a b => b ∈ succ a) start a
  nodup : visited.Nodup
  closed : ∀ a ∈ visited, ∀ b ∈ succ a, b ∈ visited ++ queue
  start_mem : start ∈ visited ++ queue

section
variable {succ} {start : α}

theorem Frontier.init : Frontier succ start [start] [] where
  sound := by
    intro a ha
    obtain rfl : a = start := by simpa using ha
    exact .refl
  nodup := .nil
  closed := by simp
  start_mem := by simp

theorem Frontier.skip {curr : α} {queue visited : List α}
    (h : Frontier succ start (curr :: queue) visited) (hcurr : curr ∈ visited) :
    Frontier succ start queue visited where
  sound := fun a ha => h.sound a (by
    rcases List.mem_append.mp ha with ha | ha
    · simp [ha]
    · simp [ha])
  nodup := h.nodup
  closed := by
    intro a ha b hb
    have := h.closed a ha b hb
    grind
  start_mem := by
    have := h.start_mem
    grind

/-- With nothing queued, the visited vertices are those that are reached. -/
theorem Frontier.mem_iff {visited : List α} (h : Frontier succ start [] visited) (a : α) :
    a ∈ visited ↔ Relation.ReflTransGen (fun a b => b ∈ succ a) start a := by
  constructor
  · intro ha
    exact h.sound a (by simpa using ha)
  · intro hreach
    induction hreach with
    | refl => simpa using h.start_mem
    | tail _ hb ih => simpa using h.closed _ ih _ hb

end

section
variable [DecidableEq α]

/-- The vertices in the order of their visits, in at most the given number of rounds. -/
def explore : ℕ → List α → List α → Option (List α)
  | _, [], visited => some visited
  | 0, _ :: _, _ => none
  | fuel + 1, curr :: queue, visited =>
    if curr ∈ visited then explore fuel queue visited
    else
      explore fuel (queue ++ (succ curr).filter (· ∉ visited ++ [curr])) (visited ++ [curr])

variable {succ} {start : α}

theorem Frontier.visit {curr : α} {queue visited : List α}
    (h : Frontier succ start (curr :: queue) visited) (hcurr : curr ∉ visited) :
    Frontier succ start (queue ++ (succ curr).filter (· ∉ visited ++ [curr]))
      (visited ++ [curr]) where
  sound := by
    have hreach := h.sound curr (by simp)
    intro a ha
    by_cases hnew : a ∈ succ curr
    · exact hreach.tail hnew
    · apply h.sound
      grind
  nodup := by
    rw [List.nodup_append]
    refine ⟨h.nodup, List.nodup_singleton curr, ?_⟩
    rintro a ha b hb rfl
    exact hcurr (List.mem_singleton.mp hb ▸ ha)
  closed := by
    intro a ha b hb
    rcases List.mem_append.mp ha with ha | ha
    · have := h.closed a ha b hb
      grind
    · obtain rfl : a = curr := List.mem_singleton.mp ha
      grind
  start_mem := by
    have := h.start_mem
    grind

/-- The vertices that are queued, and those that may yet be. -/
def work (succ : α → List α) (all : Finset α) (queue visited : List α) : ℕ :=
  queue.length + ∑ a ∈ all \ visited.toFinset, (succ a).length

theorem work_visit {all : Finset α} {curr : α} {queue visited : List α} (hall : curr ∈ all)
    (hcurr : curr ∉ visited) :
    work succ all (queue ++ (succ curr).filter (· ∉ visited ++ [curr])) (visited ++ [curr]) <
      work succ all (curr :: queue) visited := by
  have hrest : all \ (visited ++ [curr]).toFinset = (all \ visited.toFinset).erase curr := by
    ext a
    simp
    tauto
  have hmem : curr ∈ all \ visited.toFinset := by simp [hall, hcurr]
  have hsum := Finset.add_sum_erase (all \ visited.toFinset) (fun a => (succ a).length) hmem
  have hfilter : ((succ curr).filter (· ∉ visited ++ [curr])).length ≤ (succ curr).length :=
    List.length_filter_le _ _
  simp only [work, hrest, List.length_append, List.length_cons]
  omega

theorem explore_of_work {all : Finset α} (hall : ∀ a ∈ all, ∀ b ∈ succ a, b ∈ all) {fuel : ℕ}
    {queue visited : List α} (hqueue : ∀ a ∈ queue, a ∈ all)
    (hfuel : work succ all queue visited ≤ fuel) (h : Frontier succ start queue visited) :
    ∃ result, explore succ fuel queue visited = some result ∧ Frontier succ start [] result := by
  induction fuel generalizing queue visited with
  | zero =>
    obtain rfl : queue = [] := by
      rw [← List.length_eq_zero_iff]
      unfold work at hfuel
      omega
    exact ⟨visited, rfl, h⟩
  | succ fuel ih =>
    cases queue with
    | nil => exact ⟨visited, rfl, h⟩
    | cons curr queue =>
      have hrest : ∀ a ∈ queue, a ∈ all := fun a ha => hqueue a (by simp [ha])
      rw [explore]
      split_ifs with hcurr
      · refine ih hrest ?_ (h.skip hcurr)
        simp only [work, List.length_cons] at hfuel ⊢
        omega
      · have hmem := hqueue curr (by simp)
        refine ih ?_ ?_ (h.visit hcurr)
        · intro a ha
          rcases List.mem_append.mp ha with ha | ha
          · exact hrest a ha
          · exact hall curr hmem a (List.mem_of_mem_filter ha)
        · exact Nat.le_of_lt_succ ((work_visit hmem hcurr).trans_le hfuel)

theorem explore_mono {fuel fuel' : ℕ} (hfuel : fuel ≤ fuel') {queue visited result : List α}
    (h : explore succ fuel queue visited = some result) :
    explore succ fuel' queue visited = some result := by
  induction fuel generalizing fuel' queue visited with
  | zero =>
    cases queue with
    | nil => cases fuel' <;> exact h
    | cons curr queue => cases h
  | succ fuel ih =>
    obtain ⟨fuel', rfl⟩ : ∃ n, fuel' = n + 1 := ⟨fuel' - 1, by omega⟩
    cases queue with
    | nil => exact h
    | cons curr queue =>
      rw [explore] at h ⊢
      split_ifs at h ⊢
      · exact ih (by omega) h
      · exact ih (by omega) h

/-- The traversal ends, and it visits each vertex that is reached once. -/
theorem exists_explore {all : Finset α} (hstart : start ∈ all)
    (hall : ∀ a ∈ all, ∀ b ∈ succ a, b ∈ all) :
    ∃ result : List α, result.Nodup ∧
      (∀ a, a ∈ result ↔ Relation.ReflTransGen (fun a b => b ∈ succ a) start a) ∧
      ∀ fuel, ∑ a ∈ all, (succ a).length < fuel →
        explore succ fuel [start] [] = some result := by
  have hwork : work succ all [start] [] ≤ ∑ a ∈ all, (succ a).length + 1 := by
    simp only [work, List.length_singleton, List.toFinset_nil, Finset.sdiff_empty]
    omega
  obtain ⟨result, hresult, h⟩ := explore_of_work hall (by simpa using hstart) hwork .init
  exact ⟨result, h.nodup, h.mem_iff, fun fuel hfuel => explore_mono hfuel hresult⟩

end

end ExecutionEngine.Traversal
