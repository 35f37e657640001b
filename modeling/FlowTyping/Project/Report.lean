/-
The report of a module: its diagnostics in the order of lines, the types of its names, and the types
of the parameters and results of its functions.

Types are given by their names in alphabetical order.  Of diagnostics that are equal and stand next
to each other only one is kept.
-/
import FlowTyping.Graph.Check
import FlowTyping.Project.Basic

namespace FlowTyping

structure TypedName where
  name : String
  types : List String
deriving DecidableEq, Repr, Inhabited

structure FunctionReport where
  name : String
  line : Nat
  params : List TypedName
  returns : List String
deriving DecidableEq, Repr, Inhabited

structure Report where
  module : String
  diagnostics : List Diagnostic
  bindings : List TypedName
  functions : List FunctionReport
deriving DecidableEq, Repr, Inhabited

/-! ### Making reports -/

namespace Report

def failures (g : Graph) (module : String) (checks : List NodeId) : List Diagnostic :=
  checks.filterMap fun id => (g.check id).map fun issue => ⟨module, g.line id, issue⟩

/-- The diagnostic of a constructor that may return something other than `None`. -/
def constructorReturn? (g : Graph) (module : String) (c : Constructor) : Option Diagnostic :=
  let returned := (g.types c.returns).toList.filter fun t => t ≠ .base .none ∧ t ≠ .any
  if returned.isEmpty then none
  else
    let name := ((g.class? c.owner).map (·.name)).getD ""
    some ⟨module, c.line, .constructorReturnsValue name (Text.braced (returned.map g.describe))⟩

/-- The list with only one of each run of equal diagnostics. -/
def dropRepeats : List Diagnostic → List Diagnostic
  | [] => []
  | [d] => [d]
  | d :: e :: ds => if d = e then dropRepeats (e :: ds) else d :: dropRepeats (e :: ds)

/-- Diagnostics in the order of lines; those of one line keep their order. -/
def ordered (ds : List Diagnostic) : List Diagnostic :=
  dropRepeats (ds.mergeSort fun a b => decide (a.line ≤ b.line))

def typedName (g : Graph) (name : String) (node : NodeId) : TypedName := ⟨name, g.typeNames node⟩

def functionReport (g : Graph) (info : FunctionInfo) : FunctionReport :=
  ⟨info.name, info.line, info.params.map fun p => typedName g p.name p.node,
    g.typeNames info.returns⟩

/-- The report of an analysis, judged by the types as they stand. -/
def ofAnalysis (config : Config) (g : Graph) (a : Analysis) : Report :=
  let constructors :=
    if config.checkConstructorReturns then a.constructors.filterMap (constructorReturn? g a.name)
    else []
  { module := a.name
    diagnostics := ordered (a.diagnostics ++ failures g a.name a.checks ++ constructors)
    bindings := a.exports.entries.map fun (name, node) => typedName g name node
    functions := (a.functions.filterMap g.function?).map (functionReport g) }

/-! ### JSON -/

end Report

def TypedName.toJson (t : TypedName) : Json :=
  .object [("name", .string t.name), ("types", .strings t.types)]

def FunctionReport.toJson (f : FunctionReport) : Json :=
  .object [("name", .string f.name), ("line", .nat f.line),
    ("params", .array (f.params.map (·.toJson))), ("returns", .strings f.returns)]

def Report.toJson (r : Report) : Json :=
  .object [("module", .string r.module), ("diagnostics", .array (r.diagnostics.map (·.toJson))),
    ("bindings", .array (r.bindings.map (·.toJson))),
    ("functions", .array (r.functions.map (·.toJson)))]

/-! ### Projects -/

/-- Settle the graph and report on every analysis in the order of completion. -/
def Project.finish (p : Project) : List Report :=
  let (_, p) := p.repropagate
  p.analyses.map (.ofAnalysis p.config p.graph)

/-- The name of a module that is analysed on its own. -/
def Report.soleModule : String := "__main__"

/-- Analyse a text on its own; all imports lead nowhere. -/
def Report.ofText (config : Config) (text : SourceText) : Except LoadError Report :=
  let source := Source.ofModules (Table.empty.insert soleModule text)
  match Project.addModule source (.empty config) soleModule with
  | .error e => .error e
  | .ok p =>
    match p.finish.find? (·.module = soleModule) with
    | some report => .ok report
    | none => .error (.notFound soleModule)

end FlowTyping
