/-
Building a graph.

Each operation leaves the work list empty, so that every effect of it can be seen at once.  The one
exception is `constant`: a node that holds exactly one type is shared by all who ask for it, and it
waits until the next operation.
-/
import FlowTyping.Graph.Propagation

namespace FlowTyping.Graph

/-! ### Nodes -/

def add (g : Graph) (rule : Rule) (line : Nat) : NodeId × Graph :=
  let (id, g) := g.push rule line
  (id, g.propagate)

/-- The shared node that holds one type and never has inputs. -/
def constant (g : Graph) (t : Ty) : NodeId × Graph :=
  match g.constants.lookup t with
  | some id => (id, g)
  | none =>
    let (id, g) := g.push (.plain []) 0
    (id, { g.putTypes id (.single t) with constants := (t, id) :: g.constants })

def addInput (g : Graph) (id input : NodeId) : Graph := (g.connect id input).propagate

def seed (g : Graph) (id : NodeId) (types : TypeSet) : Graph :=
  if types.isSubset (g.types id) then g.propagate
  else ((g.putTypes id types).touch id).propagate

def addIncoming (id : NodeId) (g : Graph) (value : Incoming) : Graph :=
  match g.rule? id with
  | some (.merge incoming) =>
    if value ∈ incoming then g
    else
      let g := g.modifyNode id fun node => { node with rule := .merge (incoming ++ [value]) }
      match value with
      | .value source => g.subscribe id source
      | .unbound => g
  | _ => g

def isMerge (g : Graph) (id : NodeId) : Bool :=
  match g.rule? id with
  | some (.merge _) => true
  | _ => false

/-- Add values to a merge.  Only a merge takes any. -/
def addToMerge (g : Graph) (id : NodeId) (values : List Incoming) : Graph :=
  if values.isEmpty || g.isMerge id then
    ((values.foldl (addIncoming id) g).schedule id).propagate
  else g

/-! ### Classes, functions and modules -/

def addClass (g : Graph) (name : String) (line : Nat) : ClassId × Graph :=
  let c : ClassId := ⟨g.classes.size⟩
  let (node, g) := g.push (.members c) line
  let g := g.putTypes node (.single (.classObject c))
  (c, { g with classes := g.classes.push ⟨name, node, [], .empty, false, []⟩ }.propagate)

def setBases (g : Graph) (c : ClassId) (bases : List NodeId) : Graph :=
  match g.class? c with
  | none => g
  | some info =>
    let g := bases.foldl (fun g base => g.subscribe info.node base) g
    ((g.modifyClass c fun info => { info with bases }).schedule info.node).propagate

/-- Declare a member in the body of a class.  A member that it replaces is joined with it, except
for the constructor. -/
def addOwnMember (g : Graph) (c : ClassId) (name : String) (node : NodeId) : Graph :=
  let previous := g.member? c name
  let g := g.setMember c name ⟨node, .own⟩
  let g :=
    match previous with
    | some member =>
      if member.node ≠ node ∧ name ≠ "__init__" then g.link c node member.node else g
    | none => g
  (g.touchClass c).propagate

def addFunction (g : Graph) (info : FunctionInfo) : FunctionId × Graph :=
  (⟨g.functions.size⟩, { g with functions := g.functions.push info })

def addModule (g : Graph) (name : String) : ModuleId × Graph :=
  (⟨g.modules.size⟩, { g with modules := g.modules.push ⟨name, .empty, .empty⟩ })

def setExport (g : Graph) (m : ModuleId) (name : String) (node : NodeId) : Graph :=
  g.modifyModule m fun info => { info with exports := info.exports.insert name node }

/-- Make a module an attribute of another, unless the name is taken. -/
def addSubmodule (g : Graph) (parent : ModuleId) (name : String) (child : ModuleId) : Graph :=
  g.modifyModule parent fun info =>
    { info with submodules := info.submodules.insertNew name child }

/-- Work out every node once more; also tells how many sets grew. -/
def repropagate (g : Graph) : Nat × Graph :=
  let before := g.growths
  let g := ((List.range g.nodes.size).foldl (fun g i => g.schedule ⟨i⟩) g).propagate
  (g.growths - before, g)

end FlowTyping.Graph
