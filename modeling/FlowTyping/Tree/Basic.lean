/-
The syntax tree that inference works on.

Every statement and expression has the line on which it starts, and every occurrence of a name has a
number of its own: names that are read or stored, and the binders of `def`, `class`, `import` and
`except`.  The numbers tell occurrences of one name apart, so tables of reads and writes can be
keyed by them.
-/
import FlowTyping.Clause
import FlowTyping.Operator

namespace FlowTyping

/-- Number of one occurrence of a name in a module. -/
structure NameId where
  index : Nat
deriving DecidableEq, Repr, Inhabited

/-- A name bound by a statement rather than by an expression. -/
structure Binder where
  id : NameId
  name : String
deriving DecidableEq, Repr, Inhabited

/-- The parameters of a function: those that take positional arguments, the one that takes the
rest of them, those that take keywords only, and the one that takes the rest of the keywords. -/
structure Parameters (ε : Type) where
  positional : List (Parameter ε)
  vararg : Option String
  keywordOnly : List (Parameter ε)
  kwarg : Option String
deriving Inhabited

inductive Expr where
  | name (line : Nat) (id : NameId) (name : String)
  | constant (line : Nat) (constant : Constant)
  | binary (line : Nat) (left : Expr) (op : BinaryOp) (right : Expr)
  | unary (line : Nat) (op : UnaryOp) (operand : Expr)
  | bool (line : Nat) (op : BoolOp) (values : List Expr)
  | compare (line : Nat) (left : Expr) (ops : List BinaryOp) (comparators : List Expr)
  | call (line : Nat) (func : Expr) (args : List Expr) (keywords : List (Keyword Expr))
  | attribute (line : Nat) (value : Expr) (attr : String)
  | subscript (line : Nat) (value index : Expr)
  | slice (line : Nat) (lower upper step : Option Expr)
  | list (line : Nat) (items : List Expr)
  | tuple (line : Nat) (items : List Expr)
  | set (line : Nat) (items : List Expr)
  /-- An absent key stands for a mapping that is unpacked. -/
  | dict (line : Nat) (keys : List (Option Expr)) (values : List Expr)
  | comprehension (line : Nat) (kind : ComprehensionKind) (element : Expr)
      (value : Option Expr) (generators : List (Generator Expr))
  | lambda (line : Nat) (params : Parameters Expr) (body : Expr)
  | conditional (line : Nat) (test body orelse : Expr)
  | named (line : Nat) (target value : Expr)
  | starred (line : Nat) (value : Expr)
  /-- A formatted text; only the expressions inside it matter. -/
  | formatted (line : Nat) (parts : List Expr)
  | yield (line : Nat) (value : Option Expr)
  | yieldFrom (line : Nat) (value : Expr)
  | await (line : Nat) (value : Expr)
deriving Inhabited

def Expr.line : Expr → Nat
  | name l _ _ | constant l _ | binary l _ _ _ | unary l _ _ | bool l _ _ | compare l _ _ _
  | call l _ _ _ | .attribute l _ _ | subscript l _ _ | slice l _ _ _ | list l _ | tuple l _
  | set l _ | dict l _ _ | comprehension l _ _ _ _ | lambda l _ _ | conditional l _ _ _
  | named l _ _ | starred l _ | formatted l _ | yield l _ | yieldFrom l _ | await l _ => l

/-- One name of an import: the dotted path or member that is imported, the name that is bound, and
whether that name was given by the program. -/
structure Alias where
  path : String
  binder : Binder
  aliased : Bool
deriving DecidableEq, Repr, Inhabited

structure FunctionDef (σ : Type) where
  name : Binder
  params : Parameters Expr
  decorators : List Expr
  body : List σ
deriving Inhabited

structure ClassDef (σ : Type) where
  name : Binder
  bases : List Expr
  keywords : List (Keyword Expr)
  decorators : List Expr
  body : List σ
deriving Inhabited

structure Handler (σ : Type) where
  line : Nat
  type : Option Expr
  name : Option Binder
  body : List σ
deriving Inhabited

inductive Stmt where
  | functionDef (line : Nat) (fn : FunctionDef Stmt)
  | classDef (line : Nat) (cls : ClassDef Stmt)
  | ret (line : Nat) (value : Option Expr)
  | delete (line : Nat) (targets : List Expr)
  | assign (line : Nat) (targets : List Expr) (value : Expr)
  | augAssign (line : Nat) (target : Expr) (op : BinaryOp) (value : Expr)
  | annAssign (line : Nat) (target : Expr) (value : Option Expr)
  | forLoop (line : Nat) (target iter : Expr) (body orelse : List Stmt)
  | whileLoop (line : Nat) (test : Expr) (body orelse : List Stmt)
  | ifThen (line : Nat) (test : Expr) (body orelse : List Stmt)
  | withBlock (line : Nat) (items : List (WithItem Expr)) (body : List Stmt)
  | raise (line : Nat) (exc cause : Option Expr)
  | tryBlock (line : Nat) (body : List Stmt) (handlers : List (Handler Stmt))
      (orelse finalbody : List Stmt)
  | assert (line : Nat) (test : Expr) (message : Option Expr)
  | importModules (line : Nat) (aliases : List Alias)
  | importFrom (line : Nat) (module : Option String) (aliases : List Alias) (level : Nat)
  | global (line : Nat) (names : List String)
  | nonlocal (line : Nat) (names : List String)
  | expr (line : Nat) (value : Expr)
  | pass (line : Nat)
  | break (line : Nat)
  | continue (line : Nat)
deriving Inhabited

def Stmt.line : Stmt → Nat
  | functionDef l _ | classDef l _ | ret l _ | delete l _ | assign l _ _ | augAssign l _ _ _
  | annAssign l _ _ | forLoop l _ _ _ _ | whileLoop l _ _ _ | ifThen l _ _ _ | withBlock l _ _
  | raise l _ _ | tryBlock l _ _ _ _ | assert l _ _ | importModules l _ | importFrom l _ _ _
  | global l _ | nonlocal l _ | expr l _ | pass l | .break l | .continue l => l

structure Module where
  name : String
  body : List Stmt
deriving Inhabited

namespace Parameters

/-- All parameters in the order of declaration. -/
def toList {ε : Type} (p : Parameters ε) : List (Parameter ε) :=
  p.positional ++ (p.vararg.map fun n => ⟨n, none⟩).toList ++ p.keywordOnly ++
    (p.kwarg.map fun n => ⟨n, none⟩).toList

def names {ε : Type} (p : Parameters ε) : List String := p.toList.map (·.name)

end Parameters

end FlowTyping
