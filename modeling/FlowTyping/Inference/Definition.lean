/-
Walking bodies: the items of each block, and the functions and classes among them.

The blocks are walked in depth-first preorder, so the iterable of a loop comes before its target.
The merges of a scope get their nodes first, since a read in a loop may see a merge of a value that
is written later.  The body of a function or class is walked where it is defined; `walk` takes the
depth to which definitions are nested as an argument, and `nesting` computes it from the statements.
-/
import FlowTyping.Flow.Layout
import FlowTyping.Inference.Statement

namespace FlowTyping.Inference

/-! ### Merges -/

/-- Nodes for the merges of a scope, without anything that comes in. -/
def mergeNodes (flow : Flow) : List Merge → Infer (List (Merge × NodeId))
  | [] => return []
  | m :: ms => do
    let node ← addNode (.merge []) (flow.line m.block)
    modifyScope fun s => { s with bindings := s.bindings.insert (m.name, m.version) node }
    let nodes ← mergeNodes flow ms
    return (m, node) :: nodes

def incoming (name : String) (line : Nat) : List Definition → Infer (List Incoming)
  | [] => return []
  | .version v :: ds => do
    let node ← binding name v line
    let values ← incoming name line ds
    return .value node :: values
  | .unbound :: ds => do
    let values ← incoming name line ds
    return .unbound :: values

def connectMerges (flow : Flow) : List (Merge × NodeId) → Infer Unit
  | [] => return ()
  | (m, node) :: ms => do
    let values ← incoming m.name (flow.line m.block) m.sources
    changeGraph (·.addToMerge node values)
    connectMerges flow ms

/-! ### Functions -/

/-- What the decorators of a function say about it. -/
structure Decoration where
  role : Role
  /-- Some decorator is unknown, so the decorated function may be anything. -/
  unknown : Bool
  /-- The function belongs to a property that has been defined before. -/
  accessor : Bool
deriving DecidableEq, Repr

def Decoration.add (d : Decoration) : Expr → Decoration
  | .name _ _ name =>
    if name = "staticmethod" then { d with role := .staticMethod }
    else if name = "classmethod" then { d with role := .classMethod }
    else if name = "property" then { d with role := .property }
    else { d with unknown := true }
  | .attribute _ _ attr =>
    if attr = "setter" || attr = "getter" || attr = "deleter" then { d with accessor := true }
    else { d with unknown := true }
  | _ => { d with unknown := true }

def decoration (decorators : List Expr) : Decoration :=
  decorators.foldl .add ⟨.method, false, false⟩

/-- The type of the first argument of a member of a class. -/
def receiver? (owner : Option ClassId) (role : Role) : Option Ty :=
  owner.bind fun c =>
    match role with
    | .method | .property => some (.instanceOf c)
    | .classMethod => some (.classObject c)
    | .staticMethod => none

def reportMisplaced : List Flow.Misplaced → Infer Unit
  | [] => return ()
  | m :: ms => do
    report m.line (.construction m.message)
    reportMisplaced ms

/-- Report the jump statements of a body that are out of place, if that is wanted. -/
def reportFlow (flow : Flow) : Infer Unit := do
  if (← read).config.reportConstructionErrors then reportMisplaced flow.misplaced else pure ()

/-- The parameters of a function as locals of its scope. -/
def bindParameters : List Param → Infer Unit
  | [] => return ()
  | p :: ps => do
    modifyScope fun s =>
      { s with bindings := s.bindings.insert (p.name, Versions.initial) p.node }
    let total ← summary (← depth) p.name
    addInput total p.node
    bindParameters ps

/-- The results of a function beyond its `return` statements: anything if it hands out values, and
`None` if control can reach its end. -/
def implicitResult (versions : Versions) (flow : Flow) (returns : NodeId) : Infer Unit := do
  if versions.hasYield then seed returns .any
  else if flow.fallsThrough then addInput returns (← noneNode)
  else pure ()

def defineFunction (walk : Flow → Infer Unit) (line : Nat) (fn : FunctionDef Stmt) :
    Infer Unit := do
  discard (values fn.decorators)
  let d := decoration fn.decorators
  let owner := match (← currentScope).kind with
    | .classBody c => some c
    | _ => none
  let params ← allParameters fn.params line
  let returns ← addNode (.plain []) line
  let name ← qualify fn.name.name
  let function ← onGraph (·.addFunction ⟨name, params, returns, d.role, line⟩)
  modify fun s => { s with functions := s.functions ++ [function] }
  if d.accessor then pure ()
  else
    let value ← if d.unknown then anyNode else constant (.function function)
    writeName fn.name.id fn.name.name value line
  match owner with
  | some c =>
    if fn.name.name = "__init__" && (← read).config.checkConstructorReturns then
      modify fun s => { s with constructors := s.constructors ++ [⟨c, returns, line⟩] }
  | none => pure ()
  let flow := Flow.ofFunction fn.body
  reportFlow flow
  let versions := Versions.ofFlow flow (params.map (·.name))
  pushScope (.ofVersions (.functionBody function) versions)
  inPath fn.name.name do
    bindParameters params
    pushUnknowns (← seedParameters (receiver? owner d.role) params.zipIdx)
    walk flow
    implicitResult versions flow returns
    popUnknowns
  popScope

/-! ### Classes -/

/-- Define a class and walk its body.  Its names are members before its bases are known, so a member
of its own is never taken for an inherited one. -/
def defineClass (walk : Flow → Infer Unit) (line : Nat) (cls : ClassDef Stmt) : Infer Unit := do
  discard (values cls.decorators)
  let bases ← values cls.bases
  discard (keywordArguments cls.keywords)
  let name ← qualify cls.name.name
  let c ← onGraph (·.addClass name line)
  let nodes := (← get).graph.classNodes c
  assignClass cls.name nodes
  let flow := Flow.ofClass cls.body
  reportFlow flow
  let versions := Versions.ofFlow flow []
  pushScope (.ofVersions (.classBody c) versions)
  inPath cls.name.name do
    summaries (← depth) versions.locals
    changeGraph (·.setBases c bases)
    checkClass nodes
    walk flow
  popScope
where
  assignClass (name : Binder) : List NodeId → Infer Unit
    | [] => return ()
    | node :: _ => writeName name.id name.name node line
  checkClass : List NodeId → Infer Unit
    | [] => return ()
    | node :: _ => addCheck node

/-! ### Items -/

def enterContext (line : Nat) (item : WithItem Expr) : Infer Unit := do
  let context ← load item.context
  let enter ← addNode (.read context "__enter__") line
  let value ← addNode (.call enter []) line
  match item.vars with
  | some vars => assign vars value
  | none => return ()

/-- The result of the current function, if there is one. -/
def giveBack (value : NodeId) : Infer Unit := do
  match (← currentScope).kind with
  | .functionBody f =>
    match (← get).graph.function? f with
    | some info => addInput info.returns value
    | none => return ()
  | _ => return ()

/-- Walk an item; `walk` is for the bodies of definitions. -/
def item (walk : Flow → Infer Unit) (i : Flow.Item) : Infer Unit := do
  match i.action with
  | .simple stmt => simple stmt
  | .test condition => discard (load condition)
  | .forIter loop iter =>
    let source ← load iter
    let element ← iterateNode source i.line
    modifyScope fun s => { s with loops := s.loops.insert loop element }
  | .forTarget loop target =>
    match (← currentScope).loops.get? loop with
    | some element => assign target element
    | none => assign target (← anyNode)
  | .functionDef fn => defineFunction walk i.line fn
  | .classDef cls => defineClass walk i.line cls
  | .withEnter context => enterContext i.line context
  | .handler handler =>
    optional handler.type
    match handler.name with
    | some name => writeName name.id name.name (← anyNode) i.line
    | none => return ()
  | .ret value =>
    match value with
    | some value => giveBack (← load value)
    | none => giveBack (← noneNode)

def items (walk : Flow → Infer Unit) : List Flow.Item → Infer Unit
  | [] => return ()
  | i :: is => do
    item walk i
    items walk is

/-- Walk the body of the current scope, with definitions nested to at most some depth. -/
def walk : Nat → Flow → Infer Unit
  | 0, _ => return ()
  | nested + 1, flow => do
    let versions := (← currentScope).versions
    connectMerges flow (← mergeNodes flow versions.merges)
    items (walk nested) (versions.reachable.flatMap flow.items)

/-! ### Nesting -/

mutual

/-- How deep definitions are nested in a statement. -/
def nesting : Stmt → Nat
  | .functionDef _ ⟨_, _, _, body⟩ => nestingOfAll body + 1
  | .classDef _ ⟨_, _, _, _, body⟩ => nestingOfAll body + 1
  | .forLoop _ _ _ body orelse => max (nestingOfAll body) (nestingOfAll orelse)
  | .whileLoop _ _ body orelse => max (nestingOfAll body) (nestingOfAll orelse)
  | .ifThen _ _ body orelse => max (nestingOfAll body) (nestingOfAll orelse)
  | .withBlock _ _ body => nestingOfAll body
  | .tryBlock _ body handlers orelse finalbody =>
    max (max (nestingOfAll body) (nestingOfHandlers handlers))
      (max (nestingOfAll orelse) (nestingOfAll finalbody))
  | _ => 0
termination_by structural s => s

def nestingOfAll : List Stmt → Nat
  | [] => 0
  | s :: ss => max (nesting s) (nestingOfAll ss)
termination_by structural ss => ss

def nestingOfHandlers : List (Handler Stmt) → Nat
  | [] => 0
  | ⟨_, _, _, body⟩ :: hs => max (nestingOfAll body) (nestingOfHandlers hs)
termination_by structural hs => hs

end

/-! ### Modules -/

/-- Walk a module; afterwards its scope is the only one. -/
def walkModule (body : List Stmt) : Infer Unit := do
  let flow := Flow.ofModule body
  reportFlow flow
  let versions := Versions.ofFlow flow []
  pushScope (.ofVersions .module versions)
  summaries 0 versions.locals
  walk (nestingOfAll body + 1) flow

end FlowTyping.Inference

namespace FlowTyping

def Analysis.ofModule (context : Inference.Context) (body : List Stmt) (g : Graph) :
    Analysis × Graph :=
  let ((), s) := (Inference.walkModule body).run context (.start g)
  let exports := match s.scopes[0]? with
    | some scope => scope.summaries
    | none => .empty
  (⟨context.name, context.module, exports, s.functions, s.checks, s.constructors, s.diagnostics⟩,
    s.graph)

end FlowTyping
