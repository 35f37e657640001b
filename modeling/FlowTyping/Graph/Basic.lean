/-
The constraint graph: its nodes, and the classes, functions and modules that types point to.

Every expression and every binding of a program owns a node.  A node holds the set of types found
for it so far, the rule that gives its types from other nodes, and its dependents, the nodes to work
out again when the set grows.  Nodes whose turn has come wait on the work list, each at most once.
Identifiers are positions, and looking up a position that does not exist gives nothing.

This file has the data and the queries; `Graph.Rule`, `Graph.Change` and `Graph.Propagation` say how
sets grow.
-/
import FlowTyping.Measure
import FlowTyping.Operator
import FlowTyping.Signature
import FlowTyping.Table
import FlowTyping.TypeSet

namespace FlowTyping

/-- A value that comes into a merge along one path. -/
inductive Incoming where
  | value (node : NodeId)
  /-- The name may have no value along this path. -/
  | unbound
deriving DecidableEq, Repr, Inhabited

/-- How a node gets its types. -/
inductive Rule where
  | plain (inputs : List NodeId)
  | merge (incoming : List Incoming)
  | binary (op : BinaryOp) (left right : NodeId)
  | unary (op : UnaryOp) (operand : NodeId)
  | read (object : NodeId) (attr : String)
  /-- Puts a value into a member of an object; the node itself stays empty. -/
  | write (object : NodeId) (attr : String) (value : NodeId)
  | call (callee : NodeId) (args : List Argument)
  | iterate (source : NodeId)
  | subscript (value index : NodeId)
  /-- Keeps the member table of a class in step with its bases. -/
  | members (owner : ClassId)
deriving DecidableEq, Repr, Inhabited

/-- The nodes that a rule depends on from the start. -/
def Rule.sources : Rule → List NodeId
  | .plain inputs => inputs
  | .merge incoming =>
    incoming.filterMap fun
      | .value node => some node
      | .unbound => none
  | .binary _ left right => [left, right]
  | .unary _ operand => [operand]
  | .read object _ => [object]
  | .write object _ _ => [object]
  | .call callee args => callee :: args.map (·.value)
  | .iterate source => [source]
  | .subscript value index => [value, index]
  | .members _ => []

structure Node where
  rule : Rule
  types : TypeSet
  /-- The nodes to work out again when `types` grows, in the order in which they asked. -/
  dependents : List NodeId
  line : Nat
deriving Inhabited

/-- Where a class has a member from. -/
inductive Origin where
  | own
  | inherited (position : Nat)
deriving DecidableEq, Repr, Inhabited

structure Member where
  node : NodeId
  origin : Origin
deriving DecidableEq, Repr, Inhabited

structure ClassInfo where
  name : String
  /-- The node that stands for the class itself. -/
  node : NodeId
  bases : List NodeId
  members : Table String Member
  /-- Some base is unknown or built in, so a missing member is no error. -/
  anyBased : Bool
  /-- The pairs of member nodes that have been joined, the smaller number first. -/
  linked : List (NodeId × NodeId)
deriving Inhabited

/-- How a function behaves as a member of a class. -/
inductive Role where
  | method
  | staticMethod
  | classMethod
  | property
deriving DecidableEq, Repr, Inhabited

structure FunctionInfo where
  /-- The path of names that leads to the function. -/
  name : String
  params : List Param
  returns : NodeId
  role : Role
  line : Nat
deriving Inhabited

structure ModuleInfo where
  name : String
  exports : Table String NodeId
  submodules : Table String ModuleId
deriving Inhabited

structure Graph where
  nodes : Array Node
  classes : Array ClassInfo
  functions : Array FunctionInfo
  modules : Array ModuleInfo
  /-- The shared nodes that hold exactly one type. -/
  constants : List (Ty × NodeId)
  worklist : List NodeId
  /-- Whether a name without a value counts as `None` in a merge. -/
  unboundAsNone : Bool
  recomputations : Nat
  growths : Nat
deriving Inhabited

namespace Graph

def empty (unboundAsNone : Bool) : Graph := ⟨#[], #[], #[], #[], [], [], unboundAsNone, 0, 0⟩

/-! ### Queries -/

def types (g : Graph) (id : NodeId) : TypeSet :=
  match g.nodes[id.index]? with
  | some node => node.types
  | none => .empty

def rule? (g : Graph) (id : NodeId) : Option Rule :=
  match g.nodes[id.index]? with
  | some node => some node.rule
  | none => none

def line (g : Graph) (id : NodeId) : Nat :=
  match g.nodes[id.index]? with
  | some node => node.line
  | none => 0

def dependents (g : Graph) (id : NodeId) : List NodeId :=
  match g.nodes[id.index]? with
  | some node => node.dependents
  | none => []

def class? (g : Graph) (c : ClassId) : Option ClassInfo := g.classes[c.index]?

def function? (g : Graph) (f : FunctionId) : Option FunctionInfo := g.functions[f.index]?

def module? (g : Graph) (m : ModuleId) : Option ModuleInfo := g.modules[m.index]?

def member? (g : Graph) (c : ClassId) (name : String) : Option Member :=
  (g.class? c).bind (·.members.get? name)

def bases (g : Graph) (c : ClassId) : List NodeId :=
  match g.class? c with
  | some info => info.bases
  | none => []

def anyBased (g : Graph) (c : ClassId) : Bool :=
  match g.class? c with
  | some info => info.anyBased
  | none => false

/-- The classes among the types of the bases of a class, in order. -/
def parents (g : Graph) (c : ClassId) : List ClassId :=
  (g.bases c).flatMap fun base =>
    (g.types base).toList.filterMap fun
      | .classObject parent => some parent
      | _ => none

def nodeCount (g : Graph) : Nat := g.nodes.size

/-- The number of pairs of a node and a dependent of it. -/
def edgeCount (g : Graph) : Nat := total (·.dependents.length) g.nodes.toList

/-! ### Names of types -/

/-- The name of a type as a reader knows it. -/
def describe (g : Graph) : Ty → String
  | .classObject c => "type[" ++ className c ++ "]"
  | .instanceOf c => className c
  | .function f => "def " ++ functionName f
  | .method f => "method " ++ functionName f
  | .moduleObject m => "module " ++ ((g.module? m).map (·.name)).getD ""
  | t => t.display
where
  className (c : ClassId) : String := ((g.class? c).map (·.name)).getD ""
  functionName (f : FunctionId) : String := ((g.function? f).map (·.name)).getD ""

/-- The set of a node as it is reported: where nothing is known, anything is possible. -/
def presented (g : Graph) (id : NodeId) : TypeSet := (g.types id).presented

/-- The names of the types of a node in alphabetical order. -/
def typeNames (g : Graph) (id : NodeId) : List String :=
  Text.sort ((g.presented id).toList.map g.describe)

def render (g : Graph) (id : NodeId) : String := Text.braced (g.typeNames id)

end Graph

end FlowTyping
