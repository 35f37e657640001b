/-
Parsed trees written as JSON.

A node is an array: its tag, the byte offset of its text, then its fields in a fixed order; `null`
stands for an absent field.  A body is an array of statements.  `Parse.ofJson?` reads a whole body.
The two readers of nodes are tied together by the depth of the value: a node is deeper than its
fields, so `Json.depth` levels are enough.
-/
import FlowTyping.Json.Basic
import FlowTyping.Parse.Tree

namespace FlowTyping

namespace Json

mutual

def depth : Json → Nat
  | array items => depthItems items + 1
  | object entries => depthEntries entries + 1
  | null | bool _ | number _ | string _ => 1
termination_by structural j => j

def depthItems : List Json → Nat
  | [] => 0
  | j :: js => max j.depth (depthItems js)
termination_by structural js => js

def depthEntries : List (String × Json) → Nat
  | [] => 0
  | (_, j) :: es => max j.depth (depthEntries es)
termination_by structural es => es

end

end Json

namespace Parse

open Json

/-! ### Operators and other words -/

/-- The binary operators and comparisons by their names in a tree. -/
def binaryOps : List (String × BinaryOp) :=
  [ ("Add", .add), ("Sub", .sub), ("Mult", .mult), ("MatMult", .matMult), ("Div", .div),
    ("Mod", .mod), ("Pow", .pow), ("LShift", .shiftLeft), ("RShift", .shiftRight),
    ("BitOr", .bitOr), ("BitXor", .bitXor), ("BitAnd", .bitAnd), ("FloorDiv", .floorDiv),
    ("Eq", .eq), ("NotEq", .notEq), ("Lt", .lt), ("LtE", .ltE), ("Gt", .gt), ("GtE", .gtE),
    ("Is", .is), ("IsNot", .isNot), ("In", .mem), ("NotIn", .notMem) ]

def unaryOps : List (String × UnaryOp) :=
  [("Invert", .invert), ("Not", .not), ("UAdd", .plus), ("USub", .minus)]

def boolOps : List (String × BoolOp) := [("And", .and), ("Or", .or)]

def constants : List (String × Constant) :=
  [ ("None", .none), ("Bool", .bool), ("Str", .str), ("Bytes", .bytes), ("Int", .int),
    ("Tuple", .tuple), ("Float", .float), ("Complex", .complex), ("Ellipsis", .ellipsis) ]

def word? {α : Type} (table : List (String × α)) (j : Json) : Option α :=
  j.asString?.bind (table.lookup ·)

/-! ### Parts of nodes -/

section

variable (expr : Json → Option Expr)

def parameter? : Json → Option (Parameter Expr)
  | array [string name, default] => return ⟨name, ← default.asOptional? expr⟩
  | _ => none

def parameters? : Json → Option (Parameters Expr)
  | array [positionalOnly, positional, vararg, keywordOnly, kwarg] =>
    return ⟨← positionalOnly.asList? (parameter? expr), ← positional.asList? (parameter? expr),
      ← vararg.asOptional? asString?, ← keywordOnly.asList? (parameter? expr),
      ← kwarg.asOptional? asString?⟩
  | _ => none

def keyword? : Json → Option (Keyword Expr)
  | array [arg, value] => return ⟨← arg.asOptional? asString?, ← expr value⟩
  | _ => none

def generator? : Json → Option (Generator Expr)
  | array [target, iter, conditions] =>
    return ⟨← expr target, ← expr iter, ← conditions.asList? expr⟩
  | _ => none

def withItem? : Json → Option (WithItem Expr)
  | array [context, vars] => return ⟨← expr context, ← vars.asOptional? expr⟩
  | _ => none

end

def alias? : Json → Option Alias
  | array [string name, asName] => return ⟨name, ← asName.asOptional? asString?⟩
  | _ => none

/-! ### Nodes -/

/-- An expression whose fields are read by `expr`. -/
def exprNode? (expr : Json → Option Expr) : Json → Option Expr
  | array (string tag :: offset :: fields) => do
    let o ← offset.asNat?
    let exprs := fun j : Json => j.asList? expr
    let optional := fun j : Json => j.asOptional? expr
    let generators := fun j : Json => j.asList? (generator? expr)
    match tag, fields with
    | "BoolOp", [op, values] => return .bool o (← word? boolOps op) (← exprs values)
    | "NamedExpr", [target, value] => return .named o (← expr target) (← expr value)
    | "BinOp", [left, op, right] =>
      return .binary o (← expr left) (← word? binaryOps op) (← expr right)
    | "UnaryOp", [op, operand] => return .unary o (← word? unaryOps op) (← expr operand)
    | "Lambda", [params, body] => return .lambda o (← parameters? expr params) (← expr body)
    | "IfExp", [test, body, orelse] =>
      return .conditional o (← expr test) (← expr body) (← expr orelse)
    | "Dict", [keys, values] => return .dict o (← keys.asList? optional) (← exprs values)
    | "Set", [items] => return .set o (← exprs items)
    | "List", [items] => return .list o (← exprs items)
    | "Tuple", [items] => return .tuple o (← exprs items)
    | "ListComp", [element, gens] =>
      return .comprehension o .list (← expr element) none (← generators gens)
    | "SetComp", [element, gens] =>
      return .comprehension o .set (← expr element) none (← generators gens)
    | "GeneratorExp", [element, gens] =>
      return .comprehension o .generator (← expr element) none (← generators gens)
    | "DictComp", [key, value, gens] =>
      return .comprehension o .dict (← expr key) (some (← expr value)) (← generators gens)
    | "Await", [value] => return .await o (← expr value)
    | "YieldFrom", [value] => return .yieldFrom o (← expr value)
    | "Starred", [value] => return .starred o (← expr value)
    | "Yield", [value] => return .yield o (← optional value)
    | "Compare", [left, ops, comparators] =>
      return .compare o (← expr left) (← ops.asList? (word? binaryOps)) (← exprs comparators)
    | "Call", [func, args, keywords] =>
      return .call o (← expr func) (← exprs args) (← keywords.asList? (keyword? expr))
    | "FormattedValue", [value] => return .formatted o (← expr value)
    | "JoinedStr", [values] => return .joined o (← exprs values)
    | "Constant", [constant] => return .constant o (← word? constants constant)
    | "Attribute", [value, attr] => return .attribute o (← expr value) (← attr.asString?)
    | "Subscript", [value, index] => return .subscript o (← expr value) (← expr index)
    | "Name", [name] => return .name o (← name.asString?)
    | "Slice", [lower, upper, step] =>
      return .slice o (← optional lower) (← optional upper) (← optional step)
    | _, _ => none
  | _ => none

/-- An expression of at most so many levels. -/
def expr? : Nat → Json → Option Expr
  | 0, _ => none
  | levels + 1, j => exprNode? (expr? levels) j

def handler? (expr : Json → Option Expr) (stmt : Json → Option Stmt) : Json → Option (Handler Stmt)
  | array [offset, type, name, body] =>
    return ⟨← offset.asNat?, ← type.asOptional? expr, ← name.asOptional? asString?,
      ← body.asList? stmt⟩
  | _ => none

/-- A statement whose fields are read by `expr` and `stmt`. -/
def stmtNode? (expr : Json → Option Expr) (stmt : Json → Option Stmt) : Json → Option Stmt
  | array (string tag :: offset :: fields) => do
    let o ← offset.asNat?
    let exprs := fun j : Json => j.asList? expr
    let optional := fun j : Json => j.asOptional? expr
    let stmts := fun j : Json => j.asList? stmt
    match tag, fields with
    | "FunctionDef", [name, params, body, decorators]
    | "AsyncFunctionDef", [name, params, body, decorators] =>
      return .functionDef o (← name.asString?) (← parameters? expr params) (← stmts body)
        (← exprs decorators)
    | "ClassDef", [name, bases, keywords, body, decorators] =>
      return .classDef o (← name.asString?) (← exprs bases) (← keywords.asList? (keyword? expr))
        (← stmts body) (← exprs decorators)
    | "Return", [value] => return .ret o (← optional value)
    | "Delete", [targets] => return .delete o (← exprs targets)
    | "Assign", [targets, value] => return .assign o (← exprs targets) (← expr value)
    | "AugAssign", [target, op, value] =>
      return .augAssign o (← expr target) (← word? binaryOps op) (← expr value)
    | "AnnAssign", [target, value] => return .annAssign o (← expr target) (← optional value)
    | "For", [target, iter, body, orelse]
    | "AsyncFor", [target, iter, body, orelse] =>
      return .forLoop o (← expr target) (← expr iter) (← stmts body) (← stmts orelse)
    | "While", [test, body, orelse] =>
      return .whileLoop o (← expr test) (← stmts body) (← stmts orelse)
    | "If", [test, body, orelse] => return .ifThen o (← expr test) (← stmts body) (← stmts orelse)
    | "With", [items, body]
    | "AsyncWith", [items, body] =>
      return .withBlock o (← items.asList? (withItem? expr)) (← stmts body)
    | "Raise", [exc, cause] => return .raise o (← optional exc) (← optional cause)
    | "Try", [body, handlers, orelse, finalbody]
    | "TryStar", [body, handlers, orelse, finalbody] =>
      return .tryBlock o (← stmts body) (← handlers.asList? (handler? expr stmt)) (← stmts orelse)
        (← stmts finalbody)
    | "Assert", [test, message] => return .assert o (← expr test) (← optional message)
    | "Import", [aliases] => return .importModules o (← aliases.asList? alias?)
    | "ImportFrom", [module, aliases, level] =>
      return .importFrom o (← module.asOptional? asString?) (← aliases.asList? alias?)
        (← level.asNat?)
    | "Global", [names] => return .global o (← names.asList? asString?)
    | "Nonlocal", [names] => return .nonlocal o (← names.asList? asString?)
    | "Expr", [value] => return .expr o (← expr value)
    | "Pass", [] => return .pass o
    | "Break", [] => return .break o
    | "Continue", [] => return .continue o
    | "Match", [] | "TypeAlias", [] => return .other
    | _, _ => none
  | _ => none

/-- A statement of at most so many levels. -/
def stmt? : Nat → Json → Option Stmt
  | 0, _ => none
  | levels + 1, j => stmtNode? (expr? levels) (stmt? levels) j

def ofJson? (j : Json) : Option (List Stmt) := j.asList? (stmt? j.depth)

end Parse

end FlowTyping
