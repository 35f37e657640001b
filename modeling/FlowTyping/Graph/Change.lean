/-
The single steps by which a graph changes: new nodes, subscriptions, inputs, members.

None of them works anything out; they only put nodes on the work list.  A node may be joined to an
input only if it has the plain rule, so that a shared constant or an operation never takes in
foreign types through a member table.
-/
import FlowTyping.Graph.Basic

namespace FlowTyping.Graph

def modifyNode (g : Graph) (id : NodeId) (f : Node → Node) : Graph :=
  { g with nodes := g.nodes.modify id.index f }

def modifyClass (g : Graph) (c : ClassId) (f : ClassInfo → ClassInfo) : Graph :=
  { g with classes := g.classes.modify c.index f }

def modifyModule (g : Graph) (m : ModuleId) (f : ModuleInfo → ModuleInfo) : Graph :=
  { g with modules := g.modules.modify m.index f }

/-- Put a node at the end of the work list unless it waits already. -/
def schedule (g : Graph) (id : NodeId) : Graph :=
  if id ∈ g.worklist then g else { g with worklist := g.worklist ++ [id] }

/-- Have `dependent` worked out again whenever `source` changes. -/
def subscribe (g : Graph) (dependent source : NodeId) : Graph :=
  g.modifyNode source fun node =>
    if dependent ∈ node.dependents then node
    else { node with dependents := node.dependents ++ [dependent] }

def touch (g : Graph) (id : NodeId) : Graph := (g.dependents id).foldl schedule g

/-- A new node with an empty set, scheduled. -/
def push (g : Graph) (rule : Rule) (line : Nat) : NodeId × Graph :=
  let id : NodeId := ⟨g.nodes.size⟩
  let g := { g with nodes := g.nodes.push ⟨rule, .empty, [], line⟩ }
  (id, (rule.sources.foldl (fun g source => g.subscribe id source) g).schedule id)

def putTypes (g : Graph) (id : NodeId) (types : TypeSet) : Graph :=
  g.modifyNode id fun node => { node with types := node.types.union types }

/-- Make `input` flow into a plain node, once. -/
def connect (g : Graph) (id input : NodeId) : Graph :=
  match g.rule? id with
  | some (.plain inputs) =>
    if id = input ∨ input ∈ inputs then g
    else
      ((g.modifyNode id fun node => { node with rule := .plain (inputs ++ [input]) }).subscribe
        id input).schedule id
  | _ => g

/-! ### Member tables -/

def setMember (g : Graph) (c : ClassId) (name : String) (member : Member) : Graph :=
  g.modifyClass c fun info => { info with members := info.members.insert name member }

def ordered (a b : NodeId) : NodeId × NodeId := if a.index ≤ b.index then (a, b) else (b, a)

/-- Make two member nodes of a class flow into each other, once. -/
def link (g : Graph) (c : ClassId) (a b : NodeId) : Graph :=
  match g.class? c with
  | none => g
  | some info =>
    if ordered a b ∈ info.linked then g
    else
      ((g.modifyClass c fun info => { info with linked := ordered a b :: info.linked }).connect
        a b).connect b a

/-- Tell the dependents of a class that its table has changed. -/
def touchClass (g : Graph) (c : ClassId) : Graph :=
  match g.class? c with
  | some info => g.touch info.node
  | none => g

/-- The node of a member, which is created if there is none. -/
def ensureMember (g : Graph) (c : ClassId) (name : String) (line : Nat) : NodeId × Graph :=
  match g.member? c name with
  | some member => (member.node, g)
  | none =>
    let (node, g) := g.push (.plain []) line
    (node, (g.setMember c name ⟨node, .own⟩).touchClass c)

/-- Let a value flow into an attribute of a type.  A class gets the member if it lacks it, a module
keeps its exports. -/
def writeTo (attr : String) (value : NodeId) (line : Nat) (g : Graph) : Ty → Graph
  | .instanceOf c | .classObject c =>
    let (node, g) := g.ensureMember c attr line
    g.connect node value
  | .moduleObject m =>
    match (g.module? m).bind (·.exports.get? attr) with
    | some node => g.connect node value
    | none => g
  | _ => g

/-- Let a value flow into an attribute of every type of an object. -/
def write (g : Graph) (object : NodeId) (attr : String) (value : NodeId) (line : Nat) : Graph :=
  (g.types object).toList.foldl (writeTo attr value line) g

/-! ### Inheritance -/

/-- A member that a base at some position offers. -/
structure Offer where
  position : Nat
  name : String
  node : NodeId
deriving DecidableEq, Repr, Inhabited

/-- What a type of a base at some position offers to a class. -/
def offersOf (g : Graph) (c : ClassId) (position : Nat) : Ty → List Offer
  | .classObject parent =>
    match if parent = c then none else g.class? parent with
    | some info => info.members.entries.map fun (name, member) => ⟨position, name, member.node⟩
    | none => []
  | _ => []

/-- What the bases of a class offer, base after base. -/
def offers (g : Graph) (c : ClassId) : List Offer :=
  (g.bases c).zipIdx.flatMap fun (base, position) =>
    (g.types base).toList.flatMap (g.offersOf c position)

/-- Whether a type of a base leaves open what the class has. -/
def leavesOpen (g : Graph) (c : ClassId) : Ty → Bool
  | .classObject parent => parent ≠ c && g.anyBased parent
  | .any | .builtinType _ => true
  | .builtinClass name => name ≠ "object"
  | _ => false

/-- Take an offer up: a new name is added, an own member is joined with the offered one, and an
inherited member gives way to one from an earlier base.  Constructors of different classes are never
joined.  The flag says whether the table has changed. -/
def takeUp (c : ClassId) (state : Graph × Bool) (offer : Offer) : Graph × Bool :=
  let (g, changed) := state
  match g.member? c offer.name with
  | none => (g.setMember c offer.name ⟨offer.node, .inherited offer.position⟩, true)
  | some ⟨node, .own⟩ =>
    if node ≠ offer.node ∧ offer.name ≠ "__init__" then (g.link c node offer.node, changed)
    else (g, changed)
  | some ⟨node, .inherited earlier⟩ =>
    if offer.position < earlier ∧ node ≠ offer.node then
      (g.setMember c offer.name ⟨offer.node, .inherited offer.position⟩, true)
    else (g, changed)

/-- Have a class told when one of its parents changes. -/
def subscribeToParents (g : Graph) (c : ClassId) : Graph :=
  match g.class? c with
  | none => g
  | some info =>
    ((g.parents c).filter (· ≠ c)).foldl (fun g parent =>
      match g.class? parent with
      | some p => g.subscribe info.node p.node
      | none => g) g

/-- Bring the table of a class in step with its bases; the flag says whether it has changed. -/
def mergeBases (g : Graph) (c : ClassId) : Graph × Bool :=
  let opens := (g.bases c).any fun base => (g.types base).toList.any (g.leavesOpen c)
  let offers := g.offers c
  let (g, changed) := offers.foldl (takeUp c) (g.subscribeToParents c, false)
  if opens && !g.anyBased c then
    (g.modifyClass c fun info => { info with anyBased := true }, true)
  else (g, changed)

end FlowTyping.Graph
