/-
What the rule of a node finds in a graph.

A finding is a set of types, the nodes that it was read off (so that the node can be told when they
change), and how far the operation is supported.  An operation on sets is tried on every type, or
every pair of types, and the findings are joined: it is supported as soon as one combination is, and
a combination that fails adds no types.  While a set that an operation needs is still empty there is
no finding at all.

`Graph.find?` has all rules but the two that change tables and not sets.
-/
import FlowTyping.Builtin.Method
import FlowTyping.Graph.Basic
import FlowTyping.Search

namespace FlowTyping

/-- How far an operation is supported; each case outdoes the ones before it. -/
inductive Support where
  | unsupported
  /-- There is something to call, but the arguments do not fit it. -/
  | mismatched
  | supported
deriving DecidableEq, Repr, Inhabited

def Support.best : Support → Support → Support
  | supported, _ => supported
  | _, supported => supported
  | mismatched, _ => mismatched
  | _, s => s

structure Finding where
  types : TypeSet
  watched : List NodeId
  support : Support
deriving Inhabited

namespace Finding

def failed : Finding := ⟨.empty, [], .unsupported⟩

def gives (types : TypeSet) : Finding := ⟨types, [], .supported⟩

def givesType (t : Ty) : Finding := gives (.single t)

def or (f g : Finding) : Finding :=
  ⟨f.types.union g.types, f.watched ++ g.watched, f.support.best g.support⟩

/-- The findings of all candidates together. -/
def join (fs : List Finding) : Finding := fs.foldl or failed

def watching (nodes : List NodeId) (f : Finding) : Finding :=
  { f with watched := nodes ++ f.watched }

def isSupported (f : Finding) : Bool := f.support = .supported

/-- The same types, and supported whatever they are. -/
def succeeding (f : Finding) : Finding := { f with support := .supported }

/-- Supported with a type exactly if the condition holds. -/
def givesIf (condition : Bool) (t : Ty) : Finding := if condition then givesType t else failed

def ofOption : Option Ty → Finding
  | some t => givesType t
  | none => failed

end Finding

namespace Graph

/-! ### Members and special methods -/

/-- The node that tells when a class gets members or bases. -/
def classNodes (g : Graph) (c : ClassId) : List NodeId :=
  match g.class? c with
  | some info => [info.node]
  | none => []

def returned (g : Graph) (f : FunctionId) : Finding :=
  match g.function? f with
  | some info => ⟨g.types info.returns, [info.returns], .supported⟩
  | none => .failed

/-- What the functions in a member return; a member that is no function may return anything. -/
def returnedBy (g : Graph) (member : NodeId) : Finding :=
  (Finding.join ((g.types member).toList.map fun
    | .function f | .method f => g.returned f
    | _ => .givesType .any)).succeeding.watching [member]

def special (g : Graph) (c : ClassId) (name : String) : Finding :=
  (match g.member? c name with
    | some member => g.returnedBy member.node
    | none => .givesIf (g.anyBased c) .any).watching (g.classNodes c)

def hasMember (g : Graph) (c : ClassId) (name : String) : Bool := (g.member? c name).isSome

/-! ### Operators -/

/-- The results with one operand unknown; no result at all says nothing. -/
def unknownOperand (kinds : KindSet) : Finding :=
  if kinds.isEmpty then .givesType .any else .gives (.ofKinds kinds)

/-- Whether `item in container` can be asked. -/
def searchable (g : Graph) (item container : Ty) : Bool :=
  match container with
  | .base k =>
    match item with
    | .base i => k.accepts i
    | .any => k.element?.isSome
    | _ => k = .list || k = .tuple || k = .set || k = .dict
  | .any => true
  | .instanceOf c =>
    g.hasMember c "__contains__" || g.hasMember c "__iter__" || g.hasMember c "__getitem__" ||
      g.anyBased c
  | .classObject c => g.anyBased c
  | _ => false

/-- The class whose members decide about an operation on a type. -/
def decidingNodes (g : Graph) : Ty → List NodeId
  | .instanceOf c | .classObject c => g.classNodes c
  | _ => []

/-- What an operand gives by its special method, if the operator has a name for one on its side. -/
def specialOf (g : Graph) (name? : Option String) : Ty → Finding
  | .instanceOf c =>
    match name? with
    | some name => g.special c name
    | none => .failed
  | _ => .failed

/-- An operator on two types.  The right operand is asked only if the left one cannot answer. -/
def binary (g : Graph) (op : BinaryOp) (l r : Ty) : Finding :=
  if op.isTotal then .givesType (.base .bool)
  else if op.isMembership then
    (Finding.givesIf (g.searchable l r) (.base .bool)).watching (g.decidingNodes r)
  else
    match l, r with
    | .base a, .base b => .ofOption ((op.result? a b).map .base)
    | .any, .base b => unknownOperand (op.resultsOfRight b)
    | .base a, .any => unknownOperand (op.resultsOfLeft a)
    | .any, _ => .givesType .any
    | _, .any => .givesType .any
    | l, r =>
      let left := g.specialOf op.special? l
      if left.isSupported then left else left.or (g.specialOf op.reflected? r)

def unary (g : Graph) (op : UnaryOp) (t : Ty) : Finding :=
  match op, t with
  | .not, _ => .givesType (.base .bool)
  | op, .base k => .ofOption ((op.result? k).map .base)
  | _, .any => .givesType .any
  | op, .instanceOf c => g.special c op.special
  | _, _ => .failed

/-! ### Attributes -/

def role? (g : Graph) (f : FunctionId) : Option Role := (g.function? f).map FunctionInfo.role

/-- A member of a class, read through an instance. -/
def throughInstance (g : Graph) : Ty → Finding
  | .function f =>
    match g.role? f with
    | some .staticMethod => .givesType (.function f)
    | some .property => g.returned f
    | _ => .givesType (.method f)
  | t => .givesType t

def throughClass (g : Graph) : Ty → Finding
  | .function f =>
    match g.role? f with
    | some .classMethod => .givesType (.method f)
    | some .property => .givesType .any
    | _ => .givesType (.function f)
  | t => .givesType t

/-- All types of a member under a view. -/
def viewed (g : Graph) (view : Ty → Finding) (member : NodeId) : Finding :=
  (Finding.join ((g.types member).toList.map view)).succeeding.watching [member]

def moduleAttribute (g : Graph) (m : ModuleId) (attr : String) : Finding :=
  match g.module? m with
  | none => .failed
  | some info =>
    match info.exports.get? attr with
    | some node => (Finding.gives (g.types node)).watching [node]
    | none =>
      match info.submodules.get? attr with
      | some sub => .givesType (.moduleObject sub)
      | none =>
        .givesIf (attr = "__name__" || attr = "__file__" || attr = "__doc__") (.base .str)

def attributeOf (g : Graph) (attr : String) : Ty → Finding
  | .instanceOf c =>
    (match g.member? c attr with
      | some member => g.viewed g.throughInstance member.node
      | none =>
        if attr = "__class__" then .givesType (.classObject c)
        else if attr = "__dict__" then .givesType (.base .dict)
        else .givesIf (g.anyBased c) .any).watching (g.classNodes c)
  | .classObject c =>
    (match g.member? c attr with
      | some member => g.viewed g.throughClass member.node
      | none =>
        if attr = "__name__" || attr = "__qualname__" then .givesType (.base .str)
        else .givesIf (g.anyBased c || attr.startsWith "__") .any).watching (g.classNodes c)
  | .moduleObject m => g.moduleAttribute m attr
  | .base k =>
    if (Builtin.method? k attr).isSome then .givesType (.builtinMethod k attr)
    else .givesIf (attr = "__class__") (.builtinType k)
  | _ => .givesType .any

/-! ### Calls -/

/-- Whether a class is another one or is derived from it. -/
def isSubclass (g : Graph) (derived base : ClassId) : Bool :=
  Search.reaches ((List.range g.classes.size).map fun i => (g.parents ⟨i⟩).map (·.index))
    derived.index base.index

/-- Whether a parameter of one type takes a value of another. -/
def accepts (g : Graph) (expected given : Ty) : Bool :=
  if expected = given then true
  else
    match expected, given with
    | .base .float, .base .int | .base .float, .base .bool | .base .int, .base .bool => true
    | .instanceOf base, .instanceOf derived => g.isSubclass derived base
    | .function _, .function _ | .function _, .method _
    | .method _, .function _ | .method _, .method _ => true
    | _, _ => false

/-- Whether an argument may go to a parameter; a set that is empty is still open. -/
def compatible (g : Graph) (argument parameter : NodeId) : Bool :=
  let given := g.types argument
  let expected := g.types parameter
  given.isEmpty || expected.isEmpty || given.hasAny || expected.hasAny ||
    given.toList.any fun t => expected.toList.any fun e => g.accepts e t

/-- A call of a function, with the receiver supplied or not. -/
def callFunction (g : Graph) (args : List Argument) (bound : Bool) (f : FunctionId) : Finding :=
  match g.function? f with
  | none => ⟨.empty, [], .mismatched⟩
  | some info =>
    let fits :=
      match Signature.bind? info.params args bound with
      | some pairs => pairs.all fun (argument, parameter) => g.compatible argument parameter
      | none => false
    if fits then ⟨g.types info.returns, [info.returns], .supported⟩
    else ⟨.empty, [info.returns], .mismatched⟩

def functionsOf (types : TypeSet) : List FunctionId :=
  types.toList.filterMap fun
    | .function f => some f
    | _ => none

/-- A call of a class makes an instance if a constructor takes the arguments. -/
def callClass (g : Graph) (args : List Argument) (c : ClassId) : Finding :=
  let instantiate (accepted : Bool) : Finding :=
    if accepted then .givesType (.instanceOf c) else ⟨.empty, [], .mismatched⟩
  (match g.member? c "__init__" with
    | some init =>
      let calls : List Finding :=
        (functionsOf (g.types init.node)).map (g.callFunction args true)
      (instantiate (calls.isEmpty || calls.any (·.isSupported))).watching
        (init.node :: calls.flatMap Finding.watched)
    | none => instantiate (g.anyBased c || args.isEmpty)).watching (g.classNodes c)

/-- A call of a member that is found on an instance; what is no function may return anything. -/
def callMember (g : Graph) (args : List Argument) : Ty → Finding
  | .function f => g.callFunction args true f
  | _ => .givesType .any

/-- A call of an instance is a call of its `__call__`. -/
def callInstance (g : Graph) (args : List Argument) (c : ClassId) : Finding :=
  (match g.member? c "__call__" with
    | some call =>
      let types := g.types call.node
      let found := Finding.join (types.toList.map (g.callMember args))
      (if types.isEmpty then found.succeeding else found).watching [call.node]
    | none => .givesIf (g.anyBased c) .any).watching (g.classNodes c)

def positionalArguments (args : List Argument) : List NodeId :=
  (args.filter (·.passing = .positional)).map (·.value)

/-- A call of a built-in function; unpacked arguments may be any number. -/
def callBuiltin (g : Graph) (args : List Argument) (name : String) : Finding :=
  match Builtin.function? name with
  | none => .givesType .any
  | some function =>
    let positional := positionalArguments args
    let unpacked := args.any fun a => a.passing = .unpacked || a.passing = .unpackedMapping
    if unpacked || function.admits positional.length then
      let first := (positional.head?.map g.types).filter (!·.isEmpty)
      (Finding.gives (function.returns.types first)).watching positional.head?.toList
    else ⟨.empty, [], .mismatched⟩

def call (g : Graph) (args : List Argument) : Ty → Finding
  | .any => .givesType .any
  | .function f => g.callFunction args false f
  | .method f => g.callFunction args true f
  | .classObject c => g.callClass args c
  | .instanceOf c => g.callInstance args c
  | .builtinFunction name => g.callBuiltin args name
  | .builtinType k =>
    if (positionalArguments args).length ≤ Builtin.typeArity k then .givesType (.base k)
    else ⟨.empty, [], .mismatched⟩
  | .builtinClass _ => .givesType .any
  | .builtinMethod k name => .gives (((Builtin.method? k name).getD .any).types none)
  | .base _ | .slice | .moduleObject _ => .failed

/-! ### Iteration and subscripts -/

def element (g : Graph) : Ty → Finding
  | .base k => .ofOption k.element?
  | .any => .givesType .any
  | .instanceOf c =>
    if g.hasMember c "__iter__" then (Finding.givesType .any).watching (g.classNodes c)
    else g.special c "__getitem__"
  | .classObject c => (Finding.givesIf (g.anyBased c) .any).watching (g.classNodes c)
  | _ => .failed

/-- A subscript of a type; the index may be a slice, something else, or either. -/
def item (g : Graph) (sliced plain : Bool) : Ty → Finding
  | .base k =>
    (if sliced then Finding.ofOption (k.subscript? true) else .failed).or
      (if plain then Finding.ofOption (k.subscript? false) else .failed)
  | .any | .builtinType _ | .builtinClass _ => .givesType .any
  | .instanceOf c => g.special c "__getitem__"
  | .classObject c =>
    (Finding.givesIf (g.hasMember c "__class_getitem__" || g.anyBased c) .any).watching
      (g.classNodes c)
  | _ => .failed

/-! ### Rules -/

/-- One operation on every type of a set, if the set is known. -/
def forEach (types : TypeSet) (operation : Ty → Finding) : Option Finding :=
  if types.isEmpty then none else some (.join (types.toList.map operation))

/-- The types that come into a merge along one path. -/
def incomingTypes (g : Graph) : Incoming → TypeSet
  | .value node => g.types node
  | .unbound => if g.unboundAsNone then .single (.base .none) else .empty

/-- What a rule finds, if the sets that it needs are known. -/
def find? (g : Graph) : Rule → Option Finding
  | .plain inputs => some (.gives (inputs.foldl (fun s i => s.union (g.types i)) .empty))
  | .merge incoming => some (.gives (incoming.foldl (fun s i => s.union (g.incomingTypes i)) .empty))
  | .binary op left right =>
    if (g.types left).isEmpty || (g.types right).isEmpty then none
    else
      some (.join ((g.types left).toList.flatMap fun l =>
        (g.types right).toList.map fun r => g.binary op l r))
  | .unary op operand => forEach (g.types operand) (g.unary op)
  | .read object attr => forEach (g.types object) (g.attributeOf attr)
  | .call callee args => forEach (g.types callee) (g.call args)
  | .iterate source => forEach (g.types source) g.element
  | .subscript value index =>
    let indices := g.types index
    let plain := indices.isEmpty || indices.toList.any (· ≠ .slice)
    forEach (g.types value) (g.item (indices.contains .slice) plain)
  | .write .. | .members _ => none

end Graph

end FlowTyping
