/-
The state of the analysis of a module.

A module is walked body by body.  Each body has a scope with the versions of its names and the nodes
made for them; a name has one node for each version and a summary node, into which all versions flow
and through which other scopes see the name.  The parameters of the functions being walked are
unknown, and the ways in which they are used narrow the domains of their kinds.

`Infer` is the monad of the walk: it reads the settings and the imports of the module, and it
changes the constraint graph and the scopes.  Two fields of its state only keep a record: `left` has
the scopes that are closed, and `strays` counts how often a scope or a parameter is asked for that
is not there.
-/
import FlowTyping.Config.Basic
import FlowTyping.Domain
import FlowTyping.Graph.Build
import FlowTyping.Issue
import FlowTyping.Text.Dotted
import FlowTyping.Version.Basic

namespace FlowTyping

inductive ImportTarget where
  | module (id : ModuleId)
  /-- A module whose own analysis is waiting for this one. -/
  | cyclic
  | missing
deriving DecidableEq, Repr, Inhabited

/-- A constructor whose results are checked when all types are known. -/
structure Constructor where
  owner : ClassId
  returns : NodeId
  line : Nat
deriving DecidableEq, Repr, Inhabited

structure Analysis where
  name : String
  module : ModuleId
  /-- The summary of each name of the module. -/
  exports : Table String NodeId
  functions : List FunctionId
  /-- The nodes to check when all types are known. -/
  checks : List NodeId
  constructors : List Constructor
  /-- What can be said before that. -/
  diagnostics : List Diagnostic
deriving Inhabited

namespace Inference

inductive ScopeKind where
  | module
  | classBody (id : ClassId)
  | functionBody (id : FunctionId)
deriving DecidableEq, Repr, Inhabited

structure Scope where
  kind : ScopeKind
  versions : Versions
  /-- The node of each version of a name. -/
  bindings : Table (String × Nat) NodeId
  /-- The node into which all versions of a name flow. -/
  summaries : Table String NodeId
  /-- The elements of the loops that are being walked. -/
  loops : Table LoopId NodeId
  /-- The names of comprehensions and lambdas around the current expression, the innermost first. -/
  frames : List (Table String NodeId)
deriving Inhabited

def Scope.ofVersions (kind : ScopeKind) (versions : Versions) : Scope :=
  ⟨kind, versions, .empty, .empty, .empty, []⟩

def Scope.isFunction (s : Scope) : Bool :=
  match s.kind with
  | .functionBody _ => true
  | _ => false

def Scope.isLocal (s : Scope) (name : String) : Bool := s.versions.locals.contains name

/-- The unknown parameters of a function and the domains of their kinds. -/
structure Unknowns where
  params : List NodeId
  domains : Domains
deriving Repr

/-- The place of an unknown parameter: which of the functions being walked it belongs to, counted
from the outermost one, and its position there. -/
structure Slot where
  function : Nat
  position : Nat
deriving DecidableEq, Repr

/-- What stays fixed during the analysis of a module. -/
structure Context where
  config : Config
  imports : Table String ImportTarget
  name : String
  module : ModuleId
  isPackage : Bool

structure State where
  graph : Graph
  /-- The scopes around the current expression, the scope of the module first. -/
  scopes : Array Scope
  /-- The names of the functions and classes being walked, the outermost first. -/
  path : List String
  /-- The unknown parameters, those of the innermost function last. -/
  unknowns : Array Unknowns
  /-- The place of each unknown parameter. -/
  slots : Table NodeId Slot
  /-- The modules from which everything is imported, in order. -/
  starImports : List ModuleId
  functions : List FunctionId
  checks : List NodeId
  constructors : List Constructor
  diagnostics : List Diagnostic
  /-- The scopes of the bodies that have been walked, the last one first. -/
  left : List Scope
  /-- How often something was asked for that is not there. -/
  strays : Nat
deriving Inhabited

def State.start (g : Graph) : State := ⟨g, #[], [], #[], .empty, [], [], [], [], [], [], 0⟩

/-- The state after something was asked for. -/
def State.asked (s : State) (there : Bool) : State :=
  { s with strays := s.strays + bif there then 0 else 1 }

end Inference

/-- Steps of the analysis of a module. -/
abbrev Infer := ReaderT Inference.Context (StateM Inference.State)

namespace Inference

/-! ### The graph -/

def onGraph {α : Type} (f : Graph → α × Graph) : Infer α :=
  modifyGet fun s =>
    let (a, g) := f s.graph
    (a, { s with graph := g })

def changeGraph (f : Graph → Graph) : Infer Unit := modify fun s => { s with graph := f s.graph }

def addNode (rule : Rule) (line : Nat) : Infer NodeId := onGraph (·.add rule line)

def constant (t : Ty) : Infer NodeId := onGraph (·.constant t)

def anyNode : Infer NodeId := constant .any

def noneNode : Infer NodeId := constant (.base .none)

def listNode : Infer NodeId := constant (.base .list)

def addInput (id input : NodeId) : Infer Unit := changeGraph (·.addInput id input)

def seed (id : NodeId) (types : TypeSet) : Infer Unit := changeGraph (·.seed id types)

def typesOf (id : NodeId) : Infer TypeSet := return (← get).graph.types id

def addCheck (id : NodeId) : Infer Unit := modify fun s => { s with checks := s.checks ++ [id] }

def addChecked (rule : Rule) (line : Nat) : Infer NodeId := do
  let id ← addNode rule line
  addCheck id
  return id

def report (line : Nat) (issue : Issue) : Infer Unit := do
  let name := (← read).name
  modify fun s => { s with diagnostics := s.diagnostics ++ [⟨name, line, issue⟩] }

/-! ### Scopes -/

def depth : Infer Nat := modifyGet fun s => (s.scopes.size - 1, s.asked (0 < s.scopes.size))

def scopeAt (d : Nat) : Infer Scope :=
  modifyGet fun s => ((s.scopes[d]?).getD default, s.asked (d < s.scopes.size))

def currentScope : Infer Scope := do scopeAt (← depth)

def modifyScopeAt (d : Nat) (f : Scope → Scope) : Infer Unit :=
  modify fun s => { s.asked (d < s.scopes.size) with scopes := s.scopes.modify d f }

def modifyScope (f : Scope → Scope) : Infer Unit := do modifyScopeAt (← depth) f

def pushScope (scope : Scope) : Infer Unit :=
  modify fun s => { s with scopes := s.scopes.push scope }

def popScope : Infer Unit :=
  modify fun s => { s with scopes := s.scopes.pop, left := s.scopes.back?.toList ++ s.left }

/-- Walk the body of a function or class of some name. -/
def inPath (name : String) (walk : Infer Unit) : Infer Unit := do
  let path := (← get).path
  modify fun s => { s with path := path ++ [name] }
  walk
  modify fun s => { s with path }

/-- A name with the path that leads to it. -/
def qualify (name : String) : Infer String := return Text.undotted ((← get).path ++ [name])

/-! ### Frames -/

def pushFrame (names : Table String NodeId) : Infer Unit :=
  modifyScope fun s => { s with frames := names :: s.frames }

def popFrame : Infer Unit := modifyScope fun s => { s with frames := s.frames.tail }

def bindInFrame (name : String) (node : NodeId) : Infer Unit :=
  modifyScope fun s =>
    match s.frames with
    | [] => s
    | names :: frames => { s with frames := names.insert name node :: frames }

end Inference

end FlowTyping
