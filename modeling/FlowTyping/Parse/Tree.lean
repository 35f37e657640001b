/-
The syntax tree that a parser hands over.

Every node has the byte offset at which its text starts.  The tree leaves out what inference never
reads: annotations, contexts, values of constants, format specifications and type parameters.
Asynchronous forms are the same as the plain ones, and statements that are not analysed are kept
only as places in a body.
-/
import FlowTyping.Clause
import FlowTyping.Operator

namespace FlowTyping.Parse

/-- The parameters of a function as they are written. -/
structure Parameters (ε : Type) where
  positionalOnly : List (Parameter ε)
  positional : List (Parameter ε)
  vararg : Option String
  keywordOnly : List (Parameter ε)
  kwarg : Option String
deriving Inhabited

inductive Expr where
  | bool (offset : Nat) (op : BoolOp) (values : List Expr)
  | named (offset : Nat) (target value : Expr)
  | binary (offset : Nat) (left : Expr) (op : BinaryOp) (right : Expr)
  | unary (offset : Nat) (op : UnaryOp) (operand : Expr)
  | lambda (offset : Nat) (params : Parameters Expr) (body : Expr)
  | conditional (offset : Nat) (test body orelse : Expr)
  | dict (offset : Nat) (keys : List (Option Expr)) (values : List Expr)
  | set (offset : Nat) (items : List Expr)
  | list (offset : Nat) (items : List Expr)
  | tuple (offset : Nat) (items : List Expr)
  | comprehension (offset : Nat) (kind : ComprehensionKind) (element : Expr)
      (value : Option Expr) (generators : List (Generator Expr))
  | await (offset : Nat) (value : Expr)
  | yield (offset : Nat) (value : Option Expr)
  | yieldFrom (offset : Nat) (value : Expr)
  | compare (offset : Nat) (left : Expr) (ops : List BinaryOp) (comparators : List Expr)
  | call (offset : Nat) (func : Expr) (args : List Expr) (keywords : List (Keyword Expr))
  | formatted (offset : Nat) (value : Expr)
  | joined (offset : Nat) (values : List Expr)
  | constant (offset : Nat) (constant : Constant)
  | attribute (offset : Nat) (value : Expr) (attr : String)
  | subscript (offset : Nat) (value index : Expr)
  | starred (offset : Nat) (value : Expr)
  | name (offset : Nat) (name : String)
  | slice (offset : Nat) (lower upper step : Option Expr)
deriving Inhabited

/-- A name that an import brings in, and the name it is given. -/
structure Alias where
  name : String
  asName : Option String
deriving DecidableEq, Repr, Inhabited

structure Handler (σ : Type) where
  offset : Nat
  type : Option Expr
  name : Option String
  body : List σ
deriving Inhabited

inductive Stmt where
  | functionDef (offset : Nat) (name : String) (params : Parameters Expr) (body : List Stmt)
      (decorators : List Expr)
  | classDef (offset : Nat) (name : String) (bases : List Expr) (keywords : List (Keyword Expr))
      (body : List Stmt) (decorators : List Expr)
  | ret (offset : Nat) (value : Option Expr)
  | delete (offset : Nat) (targets : List Expr)
  | assign (offset : Nat) (targets : List Expr) (value : Expr)
  | augAssign (offset : Nat) (target : Expr) (op : BinaryOp) (value : Expr)
  | annAssign (offset : Nat) (target : Expr) (value : Option Expr)
  | forLoop (offset : Nat) (target iter : Expr) (body orelse : List Stmt)
  | whileLoop (offset : Nat) (test : Expr) (body orelse : List Stmt)
  | ifThen (offset : Nat) (test : Expr) (body orelse : List Stmt)
  | withBlock (offset : Nat) (items : List (WithItem Expr)) (body : List Stmt)
  | raise (offset : Nat) (exc cause : Option Expr)
  | tryBlock (offset : Nat) (body : List Stmt) (handlers : List (Handler Stmt))
      (orelse finalbody : List Stmt)
  | assert (offset : Nat) (test : Expr) (message : Option Expr)
  | importModules (offset : Nat) (aliases : List Alias)
  | importFrom (offset : Nat) (module : Option String) (aliases : List Alias) (level : Nat)
  | global (offset : Nat) (names : List String)
  | nonlocal (offset : Nat) (names : List String)
  | expr (offset : Nat) (value : Expr)
  | pass (offset : Nat)
  | break (offset : Nat)
  | continue (offset : Nat)
  /-- A statement that is not analysed. -/
  | other
deriving Inhabited

end FlowTyping.Parse
