/-
The nodes of names.

A read is looked for in the comprehensions and lambdas around it, then among the locals of the
scope, where its version tells the node, then in the functions around the scope, then in the module,
in the modules from which everything is imported, and in the built-ins.  A name that is found
nowhere may be anything.  Other scopes see all versions of a name at once.
-/
import FlowTyping.Inference.Basic

namespace FlowTyping.Inference

/-- The summary of a name in a scope; a new one is an export of a module or a member of a class. -/
def summary (d : Nat) (name : String) : Infer NodeId := do
  let scope ← scopeAt d
  match scope.summaries.get? name with
  | some node => return node
  | none =>
    let node ← addNode (.plain []) 0
    modifyScopeAt d fun s => { s with summaries := s.summaries.insert name node }
    match scope.kind with
    | .module =>
      let m := (← read).module
      changeGraph (·.setExport m name node)
    | .classBody c => changeGraph (·.addOwnMember c name node)
    | .functionBody _ => pure ()
    return node

def summaries (d : Nat) : List String → Infer Unit
  | [] => return ()
  | name :: names => do
    discard (summary d name)
    summaries d names

def binding (name : String) (version line : Nat) : Infer NodeId := do
  match (← currentScope).bindings.get? (name, version) with
  | some node => return node
  | none =>
    let node ← addNode (.plain []) line
    modifyScope fun s => { s with bindings := s.bindings.insert (name, version) node }
    let total ← summary (← depth) name
    addInput total node
    return node

/-- The node of a local that has no value. -/
def unboundNode (line : Nat) : Infer NodeId := do
  if (← read).config.unboundAsNone then noneNode else addNode (.plain []) line

/-- The position of the innermost function around a scope that has a local of some name. -/
def ownerBelow? (scopes : Array Scope) (name : String) : Nat → Option Nat
  | 0 => none
  | d + 1 =>
    match scopes[d + 1]? with
    | some scope =>
      if scope.isFunction && scope.isLocal name then some (d + 1) else ownerBelow? scopes name d
    | none => ownerBelow? scopes name d

/-- The node of a local of a function around the current scope. -/
def enclosing? (name : String) : Infer (Option NodeId) := do
  match ownerBelow? (← get).scopes name ((← depth) - 1) with
  | some d => return some (← summary d name)
  | none => return none

/-- The node that the first of some modules exports under a name. -/
def exported? (g : Graph) (name : String) : List ModuleId → Option NodeId
  | [] => none
  | m :: ms =>
    match (g.module? m).bind (·.exports.get? name) with
    | some node => some node
    | none => exported? g name ms

/-- The node of a name of the module, of a star import, or of the built-ins. -/
def global (name : String) : Infer NodeId := do
  let scope ← scopeAt 0
  if scope.isLocal name || scope.summaries.contains name then summary 0 name
  else
    let s ← get
    match exported? s.graph name s.starImports with
    | some node => return node
    | none =>
      if (← read).config.builtinsAsAny.contains name then anyNode
      else constant ((Builtin.lookup? name).getD .any)

/-- The node of a name in the frames around an expression. -/
def framed? (name : String) : List (Table String NodeId) → Option NodeId
  | [] => none
  | names :: frames =>
    match names.get? name with
    | some node => some node
    | none => framed? name frames

/-- The node of a name that the scope does not own. -/
def outer (name : String) : Infer NodeId := do
  match ← enclosing? name with
  | some node => return node
  | none => global name

def readName (id : NameId) (name : String) (line : Nat) : Infer NodeId := do
  let scope ← currentScope
  match framed? name scope.frames with
  | some node => return node
  | none =>
    if scope.versions.globals.contains name then global name
    else if scope.versions.nonlocals.contains name then
      match ← enclosing? name with
      | some node => return node
      | none => anyNode
    else
      match scope.versions.read? id with
      | some (.version v) => binding name v line
      | some .unbound => unboundNode line
      | none => if scope.isLocal name then summary (← depth) name else outer name

/-- The node into which a write of a name goes, if any. -/
def written? (id : NameId) (name : String) (line : Nat) : Infer (Option NodeId) := do
  let scope ← currentScope
  match scope.versions.written? id with
  | some v => return some (← binding name v line)
  | none =>
    if scope.versions.globals.contains name then return some (← summary 0 name)
    else if scope.versions.nonlocals.contains name then enclosing? name
    else return none

def writeName (id : NameId) (name : String) (value : NodeId) (line : Nat) : Infer Unit := do
  match ← written? id name line with
  | some target => addInput target value
  | none => return ()

end FlowTyping.Inference
