/-
Narrowing the kinds of unknown parameters by their use.

An operator between two parameters of one function pairs their domains; between a parameter and
something whose kinds are known it restricts the parameter, and so do reading an attribute,
iterating, subscripting and passing the parameter on to a function that takes certain kinds only.
When the body of the function has been walked, the domains are solved and become the types of the
parameters.
-/
import FlowTyping.Inference.Basic

namespace FlowTyping.Inference

def slot? (node : NodeId) : Infer (Option Slot) := return (← get).slots.get? node

/-- Whether the function of a slot is being walked and has an unknown parameter at the position. -/
def Slot.isIn (slot : Slot) (unknowns : Array Unknowns) : Bool :=
  match unknowns[slot.function]? with
  | some u => slot.position < u.domains.size
  | none => false

def askSlot (slot : Slot) : Infer Unit := modify fun s => s.asked (slot.isIn s.unknowns)

def modifyDomains (function : Nat) (f : Domains → Domains) : Infer Unit :=
  modify fun s =>
    { s with unknowns := s.unknowns.modify function fun u => { u with domains := f u.domains } }

/-- Note the places of the parameters of a function. -/
def noteSlots (function : Nat) : List (NodeId × Nat) → Table NodeId Slot → Table NodeId Slot
  | [], slots => slots
  | (node, position) :: rest, slots =>
    noteSlots function rest (slots.insert node ⟨function, position⟩)

def pushUnknowns (params : List NodeId) : Infer Unit :=
  modify fun s =>
    { s with
      unknowns := s.unknowns.push ⟨params, .ofCount params.length⟩
      slots := noteSlots s.unknowns.size params.zipIdx s.slots }

/-- The types of a parameter whose domain has been solved. -/
def solvedTypes (config : Config) : Option KindSet → TypeSet
  | some kinds => if config.inferParameters then .ofKinds kinds else .any
  | none => .any

def seedAll : List (NodeId × TypeSet) → Infer Unit
  | [] => return ()
  | (node, types) :: rest => do
    seed node types
    seedAll rest

/-- Take off the unknown parameters of the innermost function, with their places. -/
def State.takeUnknowns? (s : State) : Option Unknowns × State :=
  match s.unknowns.back? with
  | some u => (some u, { s with unknowns := s.unknowns.pop, slots := s.slots.without u.params })
  | none => (none, s)

/-- Give the parameters of the innermost function their types. -/
def popUnknowns : Infer Unit := do
  match ← modifyGet State.takeUnknowns? with
  | none => return ()
  | some u =>
    let config := (← read).config
    seedAll (u.params.zip (u.domains.solve.map (solvedTypes config)))

/-- Restrict the kinds of a node if it is an unknown parameter. -/
def restrict (node : NodeId) (allowed : KindSet) : Infer Unit := do
  match ← slot? node with
  | some slot =>
    askSlot slot
    modifyDomains slot.function (·.restrict slot.position allowed)
  | none => return ()

/-- The kinds in a set if it is known and holds nothing else. -/
def knownKinds? (types : TypeSet) : Option KindSet :=
  if types.isEmpty || types.hasAny then none else types.kinds?

/-- Restrict an operand to what goes with the other one, once the kinds of that one are known. -/
def restrictBeside (node other : NodeId) (allowed : KindSet → KindSet) : Infer Unit := do
  match knownKinds? (← typesOf other) with
  | some kinds => restrict node (allowed kinds)
  | none => return ()

/-- Use two nodes as the operands of an operator. -/
def constrainOperands (op : BinaryOp) (left right : NodeId) : Infer Unit := do
  match ← slot? left, ← slot? right with
  | some l, some r =>
    if l.function = r.function then
      askSlot l
      askSlot r
      modifyDomains l.function (·.pair l.position r.position op)
  | some _, none => restrictBeside left right fun kinds => op.operandKinds (some kinds) true
  | none, some _ => restrictBeside right left fun kinds => op.operandKinds (some kinds) false
  | none, none => return ()

/-! ### Arguments -/

def parameterKinds? (g : Graph) (f : FunctionId) (position : Nat) : Option KindSet := do
  let info ← g.function? f
  let param ← (info.params.filter (·.mode = .positional))[position]?
  knownKinds? (g.types param.node)

/-- The kinds that something callable takes at a position. -/
def acceptedKinds? (g : Graph) (position : Nat) : Ty → Option KindSet
  | .builtinFunction name =>
    if position = 0 then (Builtin.function? name).bind (·.accepts?) else none
  | .function f => parameterKinds? g f position
  | .method f => parameterKinds? g f (position + 1)
  | _ => none

/-- The kinds that some callee takes at a position, if that is known of all of them. -/
def acceptedByAll? (g : Graph) (position : Nat) (callees : List Ty) : Option KindSet :=
  if callees.isEmpty then none
  else (callees.mapM (acceptedKinds? g position)).map fun sets => sets.foldl .union .empty

def constrainPositions (callee : NodeId) : List (NodeId × Nat) → Infer Unit
  | [] => return ()
  | (value, position) :: rest => do
    let g := (← get).graph
    match acceptedByAll? g position (g.types callee).toList with
    | some allowed => restrict value allowed
    | none => pure ()
    constrainPositions callee rest

def constrainArguments (callee : NodeId) (args : List Argument) : Infer Unit :=
  constrainPositions callee (Graph.positionalArguments args).zipIdx

/-! ### Operations on nodes -/

def binaryNode (op : BinaryOp) (left right : NodeId) (line : Nat) : Infer NodeId := do
  constrainOperands op left right
  addChecked (.binary op left right) line

def readNode (object : NodeId) (attr : String) (line : Nat) : Infer NodeId := do
  restrict object (Builtin.kindsWithMethod attr)
  addChecked (.read object attr) line

def iterateNode (source : NodeId) (line : Nat) : Infer NodeId := do
  restrict source Kind.iterable
  addChecked (.iterate source) line

def unaryKinds? : UnaryOp → Option KindSet
  | .minus | .plus => some Kind.numeric
  | .invert => some Kind.integral
  | .not => none

def unaryNode (op : UnaryOp) (operand : NodeId) (line : Nat) : Infer NodeId := do
  match unaryKinds? op with
  | some kinds => restrict operand kinds
  | none => pure ()
  addChecked (.unary op operand) line

def subscriptNode (value index : NodeId) (line : Nat) : Infer NodeId := do
  restrict value Kind.indexable
  addChecked (.subscript value index) line

/-- A parameter that is called is of no kind. -/
def callNode (callee : NodeId) (args : List Argument) (line : Nat) : Infer NodeId := do
  constrainArguments callee args
  addChecked (.call callee args) line

end FlowTyping.Inference
