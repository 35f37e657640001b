/-
From a parsed tree to the tree that inference works on.

Byte offsets become line numbers, and the occurrences of names are numbered 0, 1, 2, … in the order
of evaluation: a value before the targets it is assigned to, the iterable of a loop before its
target, the generators of a comprehension before its element, decorators and defaults before the
name of the function they belong to.  Of a formatted text only the expressions inside it are kept.
A statement that is not analysed becomes `pass` on the line of the statement around it.
-/
import FlowTyping.Lines
import FlowTyping.Parse.Tree
import FlowTyping.Tree.Basic

namespace FlowTyping.Numbering

/-- Computations that hand out numbers to occurrences of names. -/
abbrev Numbered := StateM Nat

def fresh : Numbered NameId := fun n => (⟨n⟩, n + 1)

def binder (name : String) : Numbered Binder := do
  let id ← fresh
  return ⟨id, name⟩

def optionalBinder : Option String → Numbered (Option Binder)
  | none => return none
  | some name => return some (← binder name)

section

variable (lines : Lines)

/-! ### Expressions -/

mutual

def expr : Parse.Expr → Numbered Expr
  | .bool o op values => return .bool (lines.line o) op (← exprs values)
  | .named o target value => do
    let value ← expr value
    let target ← expr target
    return .named (lines.line o) target value
  | .binary o left op right => do
    let left ← expr left
    let right ← expr right
    return .binary (lines.line o) left op right
  | .unary o op operand => return .unary (lines.line o) op (← expr operand)
  | .lambda o ⟨positionalOnly, positional, vararg, keywordOnly, kwarg⟩ body => do
    let first ← parameters positionalOnly
    let rest ← parameters positional
    let keywords ← parameters keywordOnly
    let body ← expr body
    return .lambda (lines.line o) ⟨first ++ rest, vararg, keywords, kwarg⟩ body
  | .conditional o test body orelse => do
    let test ← expr test
    let body ← expr body
    let orelse ← expr orelse
    return .conditional (lines.line o) test body orelse
  | .dict o keys values => do
    let keys ← optionals keys
    let values ← exprs values
    return .dict (lines.line o) keys values
  | .set o items => return .set (lines.line o) (← exprs items)
  | .list o items => return .list (lines.line o) (← exprs items)
  | .tuple o items => return .tuple (lines.line o) (← exprs items)
  | .comprehension o kind element value gens => do
    let gens ← generators gens
    let element ← expr element
    let value ← optional value
    return .comprehension (lines.line o) kind element value gens
  | .await o value => return .await (lines.line o) (← expr value)
  | .yield o value => return .yield (lines.line o) (← optional value)
  | .yieldFrom o value => return .yieldFrom (lines.line o) (← expr value)
  | .compare o left ops comparators => do
    let left ← expr left
    let comparators ← exprs comparators
    return .compare (lines.line o) left ops comparators
  | .call o func args kws => do
    let func ← expr func
    let args ← exprs args
    let kws ← keywords kws
    return .call (lines.line o) func args kws
  | .formatted o value => return .formatted (lines.line o) [← expr value]
  | .joined o values => return .formatted (lines.line o) (← formattedParts values)
  | .constant o c => return .constant (lines.line o) c
  | .attribute o value attr => return .attribute (lines.line o) (← expr value) attr
  | .subscript o value index => do
    let value ← expr value
    let index ← expr index
    return .subscript (lines.line o) value index
  | .starred o value => return .starred (lines.line o) (← expr value)
  | .name o name => return .name (lines.line o) (← fresh) name
  | .slice o lower upper step => do
    let lower ← optional lower
    let upper ← optional upper
    let step ← optional step
    return .slice (lines.line o) lower upper step
termination_by structural e => e

def exprs : List Parse.Expr → Numbered (List Expr)
  | [] => return []
  | e :: es => do
    let e ← expr e
    let es ← exprs es
    return e :: es
termination_by structural es => es

def optional : Option Parse.Expr → Numbered (Option Expr)
  | none => return none
  | some e => return some (← expr e)
termination_by structural e => e

def optionals : List (Option Parse.Expr) → Numbered (List (Option Expr))
  | [] => return []
  | e :: es => do
    let e ← optional e
    let es ← optionals es
    return e :: es
termination_by structural es => es

def parameters : List (Parameter Parse.Expr) → Numbered (List (Parameter Expr))
  | [] => return []
  | ⟨name, default⟩ :: ps => do
    let default ← optional default
    let ps ← parameters ps
    return ⟨name, default⟩ :: ps
termination_by structural ps => ps

def generators : List (Generator Parse.Expr) → Numbered (List (Generator Expr))
  | [] => return []
  | ⟨target, iter, conditions⟩ :: gs => do
    let iter ← expr iter
    let target ← expr target
    let conditions ← exprs conditions
    let gs ← generators gs
    return ⟨target, iter, conditions⟩ :: gs
termination_by structural gs => gs

def keywords : List (Keyword Parse.Expr) → Numbered (List (Keyword Expr))
  | [] => return []
  | ⟨arg, value⟩ :: ks => do
    let value ← expr value
    let ks ← keywords ks
    return ⟨arg, value⟩ :: ks
termination_by structural ks => ks

def formattedParts : List Parse.Expr → Numbered (List Expr)
  | [] => return []
  | .formatted _ value :: es => do
    let value ← expr value
    let es ← formattedParts es
    return value :: es
  | _ :: es => formattedParts es
termination_by structural es => es

end

/-- The parameters of a function, positional-only ones first. -/
def parameterList (p : Parse.Parameters Parse.Expr) : Numbered (Parameters Expr) := do
  let first ← parameters lines p.positionalOnly
  let rest ← parameters lines p.positional
  let keywords ← parameters lines p.keywordOnly
  return ⟨first ++ rest, p.vararg, keywords, p.kwarg⟩

def withItems : List (WithItem Parse.Expr) → Numbered (List (WithItem Expr))
  | [] => return []
  | ⟨context, vars⟩ :: items => do
    let context ← expr lines context
    let vars ← optional lines vars
    let items ← withItems items
    return ⟨context, vars⟩ :: items

end

/-! ### Imports -/

/-- The part of a dotted path before its first dot. -/
def topLevel (path : String) : String := String.ofList (path.toList.takeWhile (· ≠ '.'))

/-- `import a.b` binds `a`; with a name given, that name is bound to `a.b` itself. -/
def moduleAliases : List Parse.Alias → Numbered (List Alias)
  | [] => return []
  | a :: as => do
    let bound ← binder (a.asName.getD (topLevel a.name))
    let as ← moduleAliases as
    return ⟨a.name, bound, a.asName.isSome⟩ :: as

/-- `from m import a` binds `a`, or the name given for it. -/
def memberAliases : List Parse.Alias → Numbered (List Alias)
  | [] => return []
  | a :: as => do
    let bound ← binder (a.asName.getD a.name)
    let as ← memberAliases as
    return ⟨a.name, bound, a.asName.isSome⟩ :: as

/-! ### Statements -/

section

variable (lines : Lines)

mutual

/-- A statement inside a statement on line `around`. -/
def stmt (around : Nat) : Parse.Stmt → Numbered Stmt
  | .functionDef o name params body decorators => do
    let decorators ← exprs lines decorators
    let params ← parameterList lines params
    let name ← binder name
    let body ← stmts (lines.line o) body
    return .functionDef (lines.line o) ⟨name, params, decorators, body⟩
  | .classDef o name bases kws body decorators => do
    let name ← binder name
    let bases ← exprs lines bases
    let kws ← keywords lines kws
    let decorators ← exprs lines decorators
    let body ← stmts (lines.line o) body
    return .classDef (lines.line o) ⟨name, bases, kws, decorators, body⟩
  | .ret o value => return .ret (lines.line o) (← optional lines value)
  | .delete o targets => return .delete (lines.line o) (← exprs lines targets)
  | .assign o targets value => do
    let value ← expr lines value
    let targets ← exprs lines targets
    return .assign (lines.line o) targets value
  | .augAssign o target op value => do
    let value ← expr lines value
    let target ← expr lines target
    return .augAssign (lines.line o) target op value
  | .annAssign o target value => do
    let value ← optional lines value
    let target ← expr lines target
    return .annAssign (lines.line o) target value
  | .forLoop o target iter body orelse => do
    let iter ← expr lines iter
    let target ← expr lines target
    let body ← stmts (lines.line o) body
    let orelse ← stmts (lines.line o) orelse
    return .forLoop (lines.line o) target iter body orelse
  | .whileLoop o test body orelse => do
    let test ← expr lines test
    let body ← stmts (lines.line o) body
    let orelse ← stmts (lines.line o) orelse
    return .whileLoop (lines.line o) test body orelse
  | .ifThen o test body orelse => do
    let test ← expr lines test
    let body ← stmts (lines.line o) body
    let orelse ← stmts (lines.line o) orelse
    return .ifThen (lines.line o) test body orelse
  | .withBlock o items body => do
    let items ← withItems lines items
    let body ← stmts (lines.line o) body
    return .withBlock (lines.line o) items body
  | .raise o exc cause => do
    let exc ← optional lines exc
    let cause ← optional lines cause
    return .raise (lines.line o) exc cause
  | .tryBlock o body hs orelse finalbody => do
    let body ← stmts (lines.line o) body
    let hs ← handlers hs
    let orelse ← stmts (lines.line o) orelse
    let finalbody ← stmts (lines.line o) finalbody
    return .tryBlock (lines.line o) body hs orelse finalbody
  | .assert o test message => do
    let test ← expr lines test
    let message ← optional lines message
    return .assert (lines.line o) test message
  | .importModules o aliases => return .importModules (lines.line o) (← moduleAliases aliases)
  | .importFrom o module aliases level =>
    return .importFrom (lines.line o) module (← memberAliases aliases) level
  | .global o names => return .global (lines.line o) names
  | .nonlocal o names => return .nonlocal (lines.line o) names
  | .expr o value => return .expr (lines.line o) (← expr lines value)
  | .pass o => return .pass (lines.line o)
  | .break o => return .break (lines.line o)
  | .continue o => return .continue (lines.line o)
  | .other => return .pass around
termination_by structural s => s

def stmts (around : Nat) : List Parse.Stmt → Numbered (List Stmt)
  | [] => return []
  | s :: ss => do
    let s ← stmt around s
    let ss ← stmts around ss
    return s :: ss
termination_by structural ss => ss

def handlers : List (Parse.Handler Parse.Stmt) → Numbered (List (Handler Stmt))
  | [] => return []
  | ⟨o, type, name, body⟩ :: hs => do
    let type ← optional lines type
    let name ← optionalBinder name
    let body ← stmts (lines.line o) body
    let hs ← handlers hs
    return ⟨lines.line o, type, name, body⟩ :: hs
termination_by structural hs => hs

end

end

end FlowTyping.Numbering

namespace FlowTyping

/-- The module of a parsed body: lines are counted in `text`, occurrences from zero. -/
def Module.ofParse (name text : String) (body : List Parse.Stmt) : Module :=
  ⟨name, (Numbering.stmts (.ofText text) 1 body 0).1⟩

end FlowTyping
