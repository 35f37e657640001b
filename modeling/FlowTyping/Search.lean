/-
Searching a finite directed graph with a stack.

A graph is a list of successor lists; a vertex is a position in it, and a position beyond the list
has no successors.  `Search.preorder` lists the vertices that can be reached from a vertex, each
once, a vertex before its successors and the successors in the order of the list.  `Search.reaches`
stops as soon as the vertex it looks for comes up.  In both the stack may hold a vertex several
times, and a vertex that has been seen is dropped when it comes up again.

Every turn of the loop makes the sum of two numbers smaller: the successors of the vertices not seen
yet, and the length of the stack (`unseenEdges_cons`).
-/

namespace FlowTyping.Search

def successors (graph : List (List Nat)) (v : Nat) : List Nat := graph[v]?.getD []

/-- Number of successors of the vertices that are not in `seen`; the first list belongs to the
vertex `v`. -/
def unseenEdges (seen : List Nat) (v : Nat) : List (List Nat) → Nat
  | [] => 0
  | es :: graph => (if v ∈ seen then 0 else es.length) + unseenEdges seen (v + 1) graph

theorem unseenEdges_cons_of_lt {seen : List Nat} {b v : Nat} (h : b < v)
    (graph : List (List Nat)) : unseenEdges (b :: seen) v graph = unseenEdges seen v graph := by
  induction graph generalizing v with
  | nil => rfl
  | cons es graph ih =>
    have hne : v ≠ b := Nat.ne_of_gt h
    simp only [unseenEdges, List.mem_cons, hne, false_or, ih (Nat.lt_succ_of_lt h)]

theorem unseenEdges_cons_from {seen : List Nat} {v k : Nat} (h : v + k ∉ seen)
    (graph : List (List Nat)) :
    unseenEdges ((v + k) :: seen) v graph + (graph[k]?.getD []).length =
      unseenEdges seen v graph := by
  induction graph generalizing v k with
  | nil => rfl
  | cons es graph ih =>
    cases k with
    | zero =>
      rw [Nat.add_zero] at h ⊢
      simp only [unseenEdges, List.mem_cons, true_or, if_true, if_neg h,
        unseenEdges_cons_of_lt (Nat.lt_add_one v), List.getElem?_cons_zero, Option.getD_some]
      omega
    | succ k =>
      have hrest := ih (v := v + 1) (k := k) (by rwa [Nat.add_assoc, Nat.add_comm 1])
      have hne : v ≠ v + (k + 1) := by omega
      rw [Nat.add_assoc, Nat.add_comm 1] at hrest
      simp only [unseenEdges, List.mem_cons, hne, false_or, List.getElem?_cons_succ]
      omega

/-- Seeing a vertex for the first time takes its successors away from the unseen ones. -/
theorem unseenEdges_cons {seen : List Nat} {b : Nat} (h : b ∉ seen) (graph : List (List Nat)) :
    unseenEdges (b :: seen) 0 graph + (successors graph b).length = unseenEdges seen 0 graph := by
  have := unseenEdges_cons_from (v := 0) (k := b) (by rwa [Nat.zero_add]) graph
  rwa [Nat.zero_add] at this

/-- Continue a depth-first search; `seen` holds the vertices seen so far, the last one first. -/
def preorderFrom (graph : List (List Nat)) (seen : List Nat) : List Nat → List Nat
  | [] => seen.reverse
  | b :: stack =>
    if _ : b ∈ seen then preorderFrom graph seen stack
    else
      let next := (successors graph b).filter fun v => decide (v ∉ b :: seen)
      preorderFrom graph (b :: seen) (next ++ stack)
termination_by stack => unseenEdges seen 0 graph + stack.length
decreasing_by
  · exact Nat.add_lt_add_left (Nat.lt_succ_self _) _
  · have hedges := unseenEdges_cons ‹b ∉ seen› graph
    have hfilter := List.length_filter_le (fun v => decide (v ∉ b :: seen)) (successors graph b)
    simp only [List.length_append, List.length_cons]
    omega

/-- The vertices that can be reached from `start`, in depth-first preorder. -/
def preorder (graph : List (List Nat)) (start : Nat) : List Nat := preorderFrom graph [] [start]

/-- Continue a search for `goal`; the successor that was put last comes up first. -/
def reachesFrom (graph : List (List Nat)) (goal : Nat) (seen : List Nat) : List Nat → Bool
  | [] => false
  | b :: stack =>
    if b = goal then true
    else if _ : b ∈ seen then reachesFrom graph goal seen stack
    else reachesFrom graph goal (b :: seen) ((successors graph b).reverse ++ stack)
termination_by stack => unseenEdges seen 0 graph + stack.length
decreasing_by
  · exact Nat.add_lt_add_left (Nat.lt_succ_self _) _
  · have hedges := unseenEdges_cons ‹b ∉ seen› graph
    simp only [List.length_append, List.length_cons, List.length_reverse]
    omega

def reaches (graph : List (List Nat)) (start goal : Nat) : Bool :=
  reachesFrom graph goal [] [start]

end FlowTyping.Search
