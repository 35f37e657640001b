/-
Several modules over one constraint graph.

A module is analysed after the modules that it imports, so their exports are known to it.  A module
that is imported again while its own analysis is waiting closes a cycle, and to the importer it may
be anything.  Loading a module below a package loads the package first, and makes the module
an attribute of it.

Modules that are imported may be missing or ill formed, and the importer reports it; a module that
is added on request has to be there.
-/
import FlowTyping.Inference.Definition
import FlowTyping.Project.Source

namespace FlowTyping

/-- How far a module has got. -/
inductive LoadState where
  | inProgress (id : ModuleId)
  | done (id : ModuleId)
  | missing
deriving DecidableEq, Repr, Inhabited

inductive LoadError where
  | notFound (name : String)
  | illFormed (name : String)
deriving DecidableEq, Repr, Inhabited

def LoadError.message : LoadError → String
  | notFound name => "module '" ++ name ++ "' not found"
  | illFormed name => "failed to parse " ++ name

structure Project where
  config : Config
  graph : Graph
  states : Table String LoadState
  /-- The analyses in the order in which they were completed. -/
  analyses : List Analysis
deriving Inhabited

namespace Project

def empty (config : Config) : Project := ⟨config, .empty config.unboundAsNone, .empty, []⟩

def setState (p : Project) (name : String) (state : LoadState) : Project :=
  { p with states := p.states.insert name state }

/-- The identifier of a module that is being or has been analysed. -/
def idOf? (p : Project) (name : String) : Option ModuleId :=
  match p.states.get? name with
  | some (.inProgress id) | some (.done id) => some id
  | _ => none

/-- The name of the package of a module, and its name there. -/
def parent? (name : String) : Option (String × String) :=
  let parts := Text.dotted name
  if parts.length < 2 then none else some (Text.undotted parts.dropLast, parts.getLastD "")

/-! ### Analysis of one module -/

section

variable (ensure : Project → String → ImportTarget × Project)

/-- Load the modules that a module may import, and note what each leads to.  A member that is no
module is no import. -/
def loadImports (importer : String) (p : Project) (imports : Table String ImportTarget) :
    List (String × Bool) → Table String ImportTarget × Project
  | [] => (imports, p)
  | (name, optional) :: candidates =>
    if name = importer then loadImports importer p imports candidates
    else
      let (target, p) := ensure p name
      let imports :=
        if optional ∧ target = .missing then imports else imports.insert name target
      loadImports importer p imports candidates

def loadParent (p : Project) (name : String) : Option (ModuleId × String) × Project :=
  match parent? name with
  | none => (none, p)
  | some (parent, leaf) =>
    let (_, p) := ensure p parent
    ((p.idOf? parent).map fun id => (id, leaf), p)

/-- Analyse a module after all that it needs. -/
def analyse (p : Project) (m : Module) (isPackage : Bool) : ImportTarget × Project :=
  let (parent, p) := loadParent ensure p m.name
  let (id, g) := p.graph.addModule m.name
  let g := match parent with
    | some (package, leaf) => g.addSubmodule package leaf id
    | none => g
  let p := { p with graph := g }.setState m.name (.inProgress id)
  let candidates := (Import.candidates m isPackage).entries
  let (imports, p) := loadImports ensure m.name p .empty candidates
  let (analysis, g) := Analysis.ofModule ⟨p.config, imports, m.name, id, isPackage⟩ m.body p.graph
  let p := { p with graph := g }.setState m.name (.done id)
  (.module id, { p with analyses := p.analyses ++ [analysis] })

end

/-! ### Loading -/

/-- What a name leads to, loading the module if nothing is known of it.  The number bounds how deep
loading is nested. -/
def ensure (source : Source) : Nat → Project → String → ImportTarget × Project
  | 0, p, _ => (.missing, p)
  | fuel + 1, p, name =>
    match p.states.get? name with
    | some (.inProgress _) => (.cyclic, p)
    | some (.done id) => (.module id, p)
    | some .missing => (.missing, p)
    | none =>
      match (source.load? name).bind fun l => (l.module? name).map (·, l.isPackage) with
      | some (m, isPackage) => analyse (ensure source fuel) p m isPackage
      | none => (.missing, p.setState name .missing)

/-- Analyse a module and everything that it imports; there is a project also if that fails. -/
def tryAdd (source : Source) (p : Project) (name : String) : Except LoadError Unit × Project :=
  match p.states.get? name with
  | some (.done _) | some (.inProgress _) => (.ok (), p)
  | some .missing => (.error (.notFound name), p)
  | none =>
    match source.load? name with
    | none => (.error (.notFound name), p)
    | some loaded =>
      match loaded.module? name with
      | none => (.error (.illFormed name), p)
      | some m => (.ok (), (analyse (ensure source source.bound) p m loaded.isPackage).2)

/-- The project with one more module, unless that fails. -/
def addModule (source : Source) (p : Project) (name : String) : Except LoadError Project :=
  let (answer, p) := p.tryAdd source name
  answer.map fun _ => p

/-- Work out every node once more; also tells how many sets grew. -/
def repropagate (p : Project) : Nat × Project :=
  let (grown, g) := p.graph.repropagate
  (grown, { p with graph := g })

end Project

end FlowTyping
