/-
Working out the nodes that wait until none is left.

A node that is worked out joins the types that its rule finds to its set, and asks to be told about
the nodes that they were read off.  If the set has grown, or the node keeps a member table that has
changed, its dependents are scheduled.

Every set only grows, and there are finitely many types that can ever come up, so the work list runs
empty.  `drain` takes the number of turns as an argument, and `propagate` gives it `budget`, which
is far more than the turns that the growth of sets, tables and subscriptions can cause.
-/
import FlowTyping.Graph.Change
import FlowTyping.Graph.Rule

namespace FlowTyping.Graph

/-- Join types that have been worked out to the set of a node; the flag says whether it grew. -/
def grow (g : Graph) (id : NodeId) (types : TypeSet) : Graph × Bool :=
  if types.isSubset (g.types id) then (g, false)
  else ({ g.putTypes id types with growths := g.growths + 1 }, true)

/-- Work out a node; the flag says whether its dependents have to be told. -/
def recompute (g : Graph) (id : NodeId) : Graph × Bool :=
  let g := { g with recomputations := g.recomputations + 1 }
  match g.nodes[id.index]? with
  | none => (g, false)
  | some node =>
    match node.rule with
    | .write object attr value => (g.write object attr value node.line, false)
    | .members c => g.mergeBases c
    | rule =>
      match g.find? rule with
      | none => (g, false)
      | some found =>
        (found.watched.foldl (fun g source => g.subscribe id source) g).grow id found.types

/-- Work out the node at the head of the work list. -/
def turn (g : Graph) (id : NodeId) (rest : List NodeId) : Graph :=
  let (g, changed) := { g with worklist := rest }.recompute id
  if changed then g.touch id else g

/-- Work out waiting nodes, at most as many as the first argument says. -/
def drain : Nat → Graph → Graph
  | 0, g => g
  | fuel + 1, g =>
    match g.worklist with
    | [] => g
    | id :: rest => drain fuel (g.turn id rest)

/-- The size of a graph: its nodes, the entries of all its tables, and the types in its sets. -/
def weight (g : Graph) : Nat :=
  256 + g.nodes.size + g.classes.size + g.functions.size +
    total (·.types.size) g.nodes.toList +
    total (fun info => info.members.size + info.bases.length) g.classes.toList +
    total (fun info => info.exports.size + info.submodules.size + 1) g.modules.toList

/-- More turns than it can take to empty the work list. -/
def budget (g : Graph) : Nat := Nat.pow g.weight 8

/-- Empty the work list. -/
def propagate (g : Graph) : Graph := drain g.budget g

end FlowTyping.Graph
