/-
Names of imported modules.

`resolve?` gives the absolute name that an import means: a relative import counts its dots up from
the package of the importer, and fails when it leaves the topmost one.  `candidates` lists the
modules that a body may need before it can be analysed, in the order in which it names them.  For
`from a import b` these are `a` and, in case `b` is a module and not a member, `a.b`; the second one
may be absent, and is marked so.
-/
import FlowTyping.Table
import FlowTyping.Text.Dotted
import FlowTyping.Tree.Basic

namespace FlowTyping.Import

/-- The absolute name of an imported module; `level` is the number of dots before it. -/
def resolve? (importer : String) (isPackage : Bool) (module : Option String) (level : Nat) :
    Option String :=
  if level = 0 then module
  else
    let parts := Text.dotted importer
    let package := if isPackage then parts else parts.dropLast
    if package.length < level - 1 then none
    else
      let parts := package.take (package.length - (level - 1)) ++ (module.map Text.dotted).getD []
      if parts.isEmpty then none else some (Text.undotted parts)

def extend (name part : String) : String := if name.isEmpty then part else name ++ "." ++ part

/-- The names of the packages that lead to a module, followed by its own. -/
def leadingNames (name : String) : List String :=
  go "" (Text.dotted name)
where
  go (before : String) : List String → List String
    | [] => []
    | part :: parts => extend before part :: go (extend before part) parts

/-- Modules to load, each with a mark that tells whether it may be absent. -/
abbrev Candidates := Table String Bool

/-- The candidates of an import of whole modules; none of them may be absent. -/
def ofModules (found : Candidates) (aliases : List Alias) : Candidates :=
  (aliases.flatMap fun a => leadingNames a.path).foldl (fun found n => found.insert n false) found

def ofMembers (found : Candidates) (absolute : String) (aliases : List Alias) : Candidates :=
  let found := (leadingNames absolute).foldl (fun found n => found.insertNew n false) found
  (aliases.filter (·.binder.name ≠ "*")).foldl
    (fun found a => found.insertNew (absolute ++ "." ++ a.path) true) found

section

variable (importer : String) (isPackage : Bool)

mutual

def ofStmt (found : Candidates) : Stmt → Candidates
  | .importModules _ aliases => ofModules found aliases
  | .importFrom _ module aliases level =>
    match resolve? importer isPackage module level with
    | some absolute => ofMembers found absolute aliases
    | none => found
  | .functionDef _ ⟨_, _, _, body⟩ => ofBody found body
  | .classDef _ ⟨_, _, _, _, body⟩ => ofBody found body
  | .forLoop _ _ _ body orelse => ofBody (ofBody found body) orelse
  | .whileLoop _ _ body orelse => ofBody (ofBody found body) orelse
  | .ifThen _ _ body orelse => ofBody (ofBody found body) orelse
  | .withBlock _ _ body => ofBody found body
  | .tryBlock _ body handlers orelse finalbody =>
    ofBody (ofBody (ofHandlers (ofBody found body) handlers) orelse) finalbody
  | _ => found
termination_by structural s => s

def ofBody (found : Candidates) : List Stmt → Candidates
  | [] => found
  | s :: ss => ofBody (ofStmt found s) ss
termination_by structural ss => ss

def ofHandlers (found : Candidates) : List (Handler Stmt) → Candidates
  | [] => found
  | ⟨_, _, _, body⟩ :: hs => ofHandlers (ofBody found body) hs
termination_by structural hs => hs

end

end

/-- The modules that a module may need, in the order in which it names them. -/
def candidates (module : Module) (isPackage : Bool) : Candidates :=
  ofBody module.name isPackage .empty module.body

end FlowTyping.Import
