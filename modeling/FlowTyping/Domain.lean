/-
The kinds that the parameters of a function may have, narrowed by how the body uses them.

Every parameter starts with all ten kinds.  A use of one parameter keeps the kinds that the use
accepts (`restrict`); an operator applied to two parameters ties them together (`pair`): a kind
survives only if some kind of the partner works with it.  `solve` makes the tied domains agree by
revising one side of one pair at a time.  The arcs still to be revised wait in a queue, each at most
once; when a domain shrinks, the arcs that read it are queued again, the arc just revised excepted.

A revision never enlarges a domain, and a domain that changes loses a kind; so the total size of the
domains, then the length of the queue, ends the loop.  A domain that is still full or has become
empty says nothing about its parameter.
-/
import FlowTyping.Measure
import FlowTyping.Operation

namespace FlowTyping

/-- An operator applied to two parameters, given by their positions. -/
structure Pair where
  left : Nat
  right : Nat
  op : BinaryOp
deriving DecidableEq, Repr

/-- One side of one pair, to be revised against the other side. -/
structure Arc where
  pair : Nat
  onLeft : Bool
deriving DecidableEq, Repr

/-- The domains of a function's parameters and the pairs that tie them. -/
structure Domains where
  kinds : List KindSet
  pairs : List Pair
deriving Repr

/-- Kinds of `domain` that work with some kind of `partner`. -/
def KindSet.revise (op : BinaryOp) (domain partner : KindSet) (onLeft : Bool) : KindSet :=
  .ofPred fun k =>
    domain.contains k &&
      partner.toList.any fun p => if onLeft then op.supports k p else op.supports p k

/-- Kinds of one operand that work with some kind of the other; all kinds if nothing is known of
the other. -/
def BinaryOp.operandKinds (op : BinaryOp) (other : Option KindSet) (onLeft : Bool) : KindSet :=
  match other with
  | some other => if other.isEmpty then .full else .revise op .full other onLeft
  | none => .full

namespace Pair

/-- The position whose domain an arc of this pair revises. -/
def target (p : Pair) (onLeft : Bool) : Nat := if onLeft then p.left else p.right

/-- The position whose domain an arc of this pair reads. -/
def source (p : Pair) (onLeft : Bool) : Nat := if onLeft then p.right else p.left

end Pair

namespace Domains

/-- `count` parameters of which nothing is known. -/
def ofCount (count : Nat) : Domains := ⟨List.replicate count .full, []⟩

def size (d : Domains) : Nat := d.kinds.length

/-- Keep only allowed kinds of one parameter; a position that does not exist is left alone. -/
def restrict (d : Domains) (position : Nat) (allowed : KindSet) : Domains :=
  { d with kinds := d.kinds.modify position (·.inter allowed) }

/-- Tie two parameters by an operator; positions that do not exist are left alone. -/
def pair (d : Domains) (left right : Nat) (op : BinaryOp) : Domains :=
  if left < d.size ∧ right < d.size then { d with pairs := d.pairs ++ [⟨left, right, op⟩] } else d

/-- Both arcs of every pair, in order, with the pair they belong to. -/
def arcs (pairs : List Pair) : List (Arc × Pair) :=
  pairs.zipIdx.flatMap fun (p, i) => [(⟨i, true⟩, p), (⟨i, false⟩, p)]

/-- Arcs to queue after `arc` has shrunk the domain at `target`. -/
def affected (pairs : List Pair) (queue : List Arc) (arc : Arc) (target : Nat) : List Arc :=
  (arcs pairs).filterMap fun (a, p) =>
    if p.source a.onLeft = target ∧ a ≠ arc ∧ a ∉ queue then some a else none

/-! ### Revisions shrink -/

theorem contains_revise {op : BinaryOp} {domain partner : KindSet} {onLeft : Bool} {k : Kind}
    (h : (KindSet.revise op domain partner onLeft).contains k = true) :
    domain.contains k = true := by
  rw [KindSet.revise, KindSet.contains_ofPred, Bool.and_eq_true] at h
  exact h.1

/-- Revise the queued arcs until none is left. -/
def settle (pairs : List Pair) (kinds : List KindSet) : List Arc → List KindSet
  | [] => kinds
  | arc :: queue =>
    match pairs[arc.pair]? with
    | none => settle pairs kinds queue
    | some p =>
      match _ : kinds[p.target arc.onLeft]? with
      | none => settle pairs kinds queue
      | some domain =>
        let partner := kinds[p.source arc.onLeft]?.getD .empty
        let revised := KindSet.revise p.op domain partner arc.onLeft
        if _ : revised = domain then settle pairs kinds queue
        else
          settle pairs (kinds.set (p.target arc.onLeft) revised)
            (queue ++ affected pairs queue arc (p.target arc.onLeft))
termination_by queue => (total KindSet.size kinds, queue.length)
decreasing_by
  · exact Prod.Lex.right _ (Nat.lt_succ_self _)
  · exact Prod.Lex.right _ (Nat.lt_succ_self _)
  · exact Prod.Lex.right _ (Nat.lt_succ_self _)
  · exact Prod.Lex.left _ _
      (total_set_lt ‹_› (KindSet.size_lt_of_ssubset (fun _ => contains_revise) ‹¬_›))

/-- The domains once every pair agrees. -/
def solution (d : Domains) : List KindSet := settle d.pairs d.kinds ((arcs d.pairs).map (·.1))

/-- What is known of each parameter: nothing where the domain is full or empty. -/
def solve (d : Domains) : List (Option KindSet) :=
  d.solution.map fun ks => if ks.isEmpty || ks.isFull then none else some ks

end Domains

end FlowTyping
