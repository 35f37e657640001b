/-
Simple statements: assignments, deletions and imports.

An assignment of one display to another of the same length pairs their items, so that the types of
the items are kept apart; any other assignment to several targets goes through the elements of the
value.
-/
import FlowTyping.Import
import FlowTyping.Inference.Expression

namespace FlowTyping.Inference

def assignAll (value : NodeId) : List Expr → Infer Unit
  | [] => return ()
  | target :: targets => do
    assign target value
    assignAll value targets

def assignPairs : List (Expr × Expr) → Infer Unit
  | [] => return ()
  | (target, value) :: pairs => do
    let node ← load value
    assign target node
    assignPairs pairs

def displayItems? : Expr → Option (List Expr)
  | .tuple _ items | .list _ items => some items
  | _ => none

/-- The items of two displays that can be paired. -/
def pairing? (target value : Expr) : Option (List (Expr × Expr)) := do
  let names ← displayItems? target
  let items ← displayItems? value
  if names.length = items.length && !(names ++ items).any isStarred then some (names.zip items)
  else none

def assignment (targets : List Expr) (value : Expr) : Infer Unit := do
  let pairs :=
    match targets with
    | [target] => pairing? target value
    | _ => none
  match pairs with
  | some pairs => assignPairs pairs
  | none => assignAll (← load value) targets

def augmentedAssignment (line : Nat) (target : Expr) (op : BinaryOp) (value : Expr) :
    Infer Unit := do
  match target with
  | .name _ id name =>
    let current ← readName id name line
    let operand ← load value
    let result ← binaryNode op current operand line
    writeName id name result line
  | .attribute _ object attr =>
    let object ← load object
    let current ← readNode object attr line
    let operand ← load value
    let result ← binaryNode op current operand line
    discard (addNode (.write object attr result) line)
  | _ =>
    let current ← load target
    let operand ← load value
    discard (binaryNode op current operand line)

/-- Deleting a name leaves it alone; of an attribute only the object is evaluated. -/
def deletion : List Expr → Infer Unit
  | [] => return ()
  | target :: targets => do
    match target with
    | .name .. => pure ()
    | .attribute _ object _ => discard (load object)
    | _ => discard (load target)
    deletion targets

/-! ### Imports -/

/-- The node of an imported module; if there is none it may be anything. -/
def moduleNode (name : String) (line : Nat) (reported : Bool) : Infer NodeId := do
  match (← read).imports.get? name with
  | some (.module id) => constant (.moduleObject id)
  | some .cyclic => anyNode
  | some .missing | none =>
    if reported then report line (.unresolvedImport name) else pure ()
    anyNode

/-- Import modules; without a name given by the program the topmost package is bound. -/
def importModules (line : Nat) : List Alias → Infer Unit
  | [] => return ()
  | a :: as => do
    let full ← moduleNode a.path line true
    let value ← if a.aliased then pure full
      else moduleNode ((Text.dotted a.path).headD a.path) line false
    writeName a.binder.id a.binder.name value line
    importModules line as

/-- The node of a member that is imported from a module. -/
def memberNode (target : Option ImportTarget) (member : String) (line : Nat) : Infer NodeId := do
  match target with
  | some (.module id) =>
    let module ← constant (.moduleObject id)
    addChecked (.read module member) line
  | _ => anyNode

def importMembers (target : Option ImportTarget) (line : Nat) : List Alias → Infer Unit
  | [] => return ()
  | a :: as => do
    if a.binder.name = "*" then
      match target with
      | some (.module id) => modify fun s => { s with starImports := s.starImports ++ [id] }
      | _ => pure ()
    else
      let value ← memberNode target a.path line
      writeName a.binder.id a.binder.name value line
    importMembers target line as

/-- The module name of a relative import as it is written. -/
def writtenName (module : Option String) (level : Nat) : String :=
  String.ofList (List.replicate level '.') ++ module.getD ""

def importFrom (line : Nat) (module : Option String) (aliases : List Alias) (level : Nat) :
    Infer Unit := do
  let context ← read
  let absolute := Import.resolve? context.name context.isPackage module level
  let target := absolute.bind context.imports.get?
  match absolute, target with
  | some _, some (.module _) | some _, some .cyclic => pure ()
  | some name, _ => report line (.unresolvedImport name)
  | none, _ => report line (.unresolvedImport (writtenName module level))
  importMembers target line aliases

/-! ### Statements -/

/-- A statement without statements inside it. -/
def simple : Stmt → Infer Unit
  | .assign _ targets value => assignment targets value
  | .augAssign line target op value => augmentedAssignment line target op value
  | .annAssign _ target (some value) => do assign target (← load value)
  | .delete _ targets => deletion targets
  | .raise _ exc cause => do
    optional exc
    optional cause
  | .assert _ test message => do
    discard (load test)
    optional message
  | .importModules line aliases => importModules line aliases
  | .importFrom line module aliases level => importFrom line module aliases level
  | .expr _ value => discard (load value)
  | _ => return ()

end FlowTyping.Inference
