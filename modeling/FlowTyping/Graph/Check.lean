/-
The issue of a node, judged by the sets as they stand.

An operation is reported when its sets are known and no combination of types supports it.  Beyond
that, a class is reported for a base that cannot be one, and a subscript for an index that no
sequence takes.
-/
import FlowTyping.Graph.Rule
import FlowTyping.Issue

namespace FlowTyping.Graph

/-- How far the operation of a node is supported, if its sets are known. -/
def support? (g : Graph) (rule : Rule) : Option Support := (g.find? rule).map (·.support)

/-- Whether the sets are known and nothing supports the operation. -/
def fails (g : Graph) (rule : Rule) : Bool := g.support? rule = some .unsupported

/-- A sequence with an index that is neither an integer nor a slice. -/
def nonIntegerIndex (g : Graph) (value index : NodeId) : Bool :=
  let values := g.types value
  let indices := g.types index
  !values.isEmpty && !indices.isEmpty &&
    (values.toList.all fun
      | .base k => k.needsIntegerIndex
      | _ => false) &&
    !(indices.toList.any fun
      | .base .int | .base .bool | .slice | .any | .instanceOf _ => true
      | _ => false)

/-- Whether a class can be derived from some type of the node. -/
def canBeBase (g : Graph) (base : NodeId) : Bool :=
  (g.types base).isEmpty ||
    (g.types base).toList.any fun
      | .classObject _ | .any | .builtinType _ | .builtinClass _ => true
      | _ => false

def issue? (g : Graph) (rule : Rule) : Option Issue :=
  match rule with
  | .binary op left right =>
    if !g.fails rule then none
    else if op.isMembership then some (.notSearchable (g.render right))
    else some (.incompatibleOperands op.symbol (g.render left) (g.render right))
  | .unary op operand =>
    if g.fails rule then some (.badOperand op.symbol (g.render operand)) else none
  | .read object attr =>
    if g.fails rule then some (.missingAttribute (g.render object) attr) else none
  | .call callee _ =>
    match g.support? rule with
    | some .unsupported => some (.notCallable (g.render callee))
    | some .mismatched => some (.argumentMismatch (g.render callee))
    | _ => none
  | .iterate source => if g.fails rule then some (.notIterable (g.render source)) else none
  | .subscript value index =>
    if g.fails rule then some (.notIndexable (g.render value))
    else if g.nonIntegerIndex value index then some (.nonIntegerIndex (g.render index))
    else none
  | .members c =>
    ((g.bases c).find? fun base => !g.canBeBase base).map fun base =>
      .badBaseClass (g.render base)
  | .plain _ | .merge _ | .write .. => none

def check (g : Graph) (id : NodeId) : Option Issue :=
  (g.rule? id).bind g.issue?

end FlowTyping.Graph
