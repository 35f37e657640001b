/-
The bodies of a module: its own statements, and those of every function and class in it.

Each body runs in a scope of its own and is analysed on its own.  `Module.bodies` lists them in the
order of the text, an outer body before the ones inside it.
-/
import FlowTyping.Tree.Basic

namespace FlowTyping

inductive BodyKind where
  | module
  | function
  | classBody
deriving DecidableEq, Repr, Inhabited

structure Body where
  /-- The names of the functions and classes around the statements, the outermost first. -/
  path : List String
  kind : BodyKind
  params : List String
  stmts : List Stmt
deriving Inhabited

namespace Body

mutual

def ofStmt (path : List String) : Stmt → List Body
  | .functionDef _ ⟨name, params, _, body⟩ =>
    ⟨path ++ [name.name], .function, params.names, body⟩ :: ofStmts (path ++ [name.name]) body
  | .classDef _ ⟨name, _, _, _, body⟩ =>
    ⟨path ++ [name.name], .classBody, [], body⟩ :: ofStmts (path ++ [name.name]) body
  | .forLoop _ _ _ body orelse => ofStmts path body ++ ofStmts path orelse
  | .whileLoop _ _ body orelse => ofStmts path body ++ ofStmts path orelse
  | .ifThen _ _ body orelse => ofStmts path body ++ ofStmts path orelse
  | .withBlock _ _ body => ofStmts path body
  | .tryBlock _ body handlers orelse finalbody =>
    ofStmts path body ++ ofHandlers path handlers ++ ofStmts path orelse ++ ofStmts path finalbody
  | _ => []
termination_by structural s => s

def ofStmts (path : List String) : List Stmt → List Body
  | [] => []
  | s :: ss => ofStmt path s ++ ofStmts path ss
termination_by structural ss => ss

def ofHandlers (path : List String) : List (Handler Stmt) → List Body
  | [] => []
  | ⟨_, _, _, body⟩ :: hs => ofStmts path body ++ ofHandlers path hs
termination_by structural hs => hs

end

end Body

def Module.bodies (m : Module) : List Body := ⟨[], .module, [], m.body⟩ :: Body.ofStmts [] m.body

end FlowTyping
