/-
The reads and writes of names in a body, in the order of evaluation.

The first iterable of a comprehension is evaluated outside it; the names that its targets bind are
hidden from there on.  The body of a lambda or of a nested definition runs later in a scope of its
own, so only defaults, decorators, bases and keywords count here.  An assignment expression binds in
the body around all comprehensions, so its write is never hidden.
-/
import FlowTyping.Flow.Basic

namespace FlowTyping

inductive Event where
  | read (id : NameId) (name : String)
  | write (id : NameId) (name : String)
  /-- Hands out a value, which makes a function a generator. -/
  | yields
deriving DecidableEq, Repr, Inhabited

namespace Event

def name? : Event → Option String
  | read _ name | write _ name => some name
  | yields => none

def written? : Event → Option String
  | write _ name => some name
  | read .. | yields => none

/-! ### Names of a target -/

mutual

/-- The names that a target of a comprehension binds. -/
def boundNames : Expr → List String
  | .name _ _ name => [name]
  | .tuple _ items => boundNamesOfAll items
  | .list _ items => boundNamesOfAll items
  | .starred _ value => boundNames value
  | _ => []
termination_by structural e => e

def boundNamesOfAll : List Expr → List String
  | [] => []
  | e :: es => boundNames e ++ boundNamesOfAll es
termination_by structural es => es

end

/-! ### Expressions -/

/-- A read, unless the name is hidden. -/
def reading (hidden : List String) (id : NameId) (name : String) : List Event :=
  if name ∈ hidden then [] else [read id name]

mutual

def ofExpr (hidden : List String) : Expr → List Event
  | .name _ id name => reading hidden id name
  | .constant .. => []
  | .binary _ left _ right => ofExpr hidden left ++ ofExpr hidden right
  | .unary _ _ operand => ofExpr hidden operand
  | .bool _ _ values => ofExprs hidden values
  | .compare _ left _ comparators => ofExpr hidden left ++ ofExprs hidden comparators
  | .call _ func args keywords =>
    ofExpr hidden func ++ ofExprs hidden args ++ ofKeywords hidden keywords
  | .attribute _ value _ => ofExpr hidden value
  | .subscript _ value index => ofExpr hidden value ++ ofExpr hidden index
  | .slice _ lower upper step =>
    ofOption hidden lower ++ ofOption hidden upper ++ ofOption hidden step
  | .list _ items => ofExprs hidden items
  | .tuple _ items => ofExprs hidden items
  | .set _ items => ofExprs hidden items
  | .dict _ keys values =>
    (List.zipWith (· ++ ·) (ofEachKey hidden keys) (ofEach hidden values)).flatten
  | .comprehension _ _ element value generators =>
    let inside := hidden ++ hiddenBy generators
    ofGenerators true hidden generators ++ ofExpr inside element ++ ofOption inside value
  | .lambda _ ⟨positional, _, keywordOnly, _⟩ _ =>
    ofDefaults hidden positional ++ ofDefaults hidden keywordOnly
  | .conditional _ test body orelse =>
    ofExpr hidden test ++ ofExpr hidden body ++ ofExpr hidden orelse
  | .named _ target value =>
    ofExpr hidden value ++
      match target with
      | .name _ id name => [write id name]
      | _ => []
  | .starred _ value => ofExpr hidden value
  | .formatted _ parts => ofExprs hidden parts
  | .yield _ value => yields :: ofOption hidden value
  | .yieldFrom _ value => yields :: ofExpr hidden value
  | .await _ value => ofExpr hidden value
termination_by structural e => e

def ofExprs (hidden : List String) : List Expr → List Event
  | [] => []
  | e :: es => ofExpr hidden e ++ ofExprs hidden es
termination_by structural es => es

def ofOption (hidden : List String) : Option Expr → List Event
  | none => []
  | some e => ofExpr hidden e
termination_by structural e => e

def ofKeywords (hidden : List String) : List (Keyword Expr) → List Event
  | [] => []
  | ⟨_, value⟩ :: ks => ofExpr hidden value ++ ofKeywords hidden ks
termination_by structural ks => ks

def ofDefaults (hidden : List String) : List (Parameter Expr) → List Event
  | [] => []
  | ⟨_, default⟩ :: ps => ofOption hidden default ++ ofDefaults hidden ps
termination_by structural ps => ps

/-- The events of each value of a dictionary display. -/
def ofEach (hidden : List String) : List Expr → List (List Event)
  | [] => []
  | e :: es => ofExpr hidden e :: ofEach hidden es
termination_by structural es => es

/-- The events of each key of a dictionary display. -/
def ofEachKey (hidden : List String) : List (Option Expr) → List (List Event)
  | [] => []
  | k :: ks => ofOption hidden k :: ofEachKey hidden ks
termination_by structural ks => ks

def hiddenBy : List (Generator Expr) → List String
  | [] => []
  | ⟨target, _, _⟩ :: gs => boundNames target ++ hiddenBy gs
termination_by structural gs => gs

/-- The iterables and conditions of generators. -/
def ofGenerators (isFirst : Bool) (hidden : List String) : List (Generator Expr) → List Event
  | [] => []
  | ⟨target, iter, conditions⟩ :: gs =>
    let inside := hidden ++ boundNames target
    ofExpr (if isFirst then hidden else inside) iter ++ ofExprs inside conditions ++
      ofGenerators false inside gs
termination_by structural gs => gs

end

/-! ### Targets -/

mutual

def ofTarget : Expr → List Event
  | .name _ id name => [write id name]
  | .tuple _ items => ofTargets items
  | .list _ items => ofTargets items
  | .starred _ value => ofTarget value
  | .attribute _ value _ => ofExpr [] value
  | .subscript _ value index => ofExpr [] value ++ ofExpr [] index
  | e => ofExpr [] e
termination_by structural e => e

def ofTargets : List Expr → List Event
  | [] => []
  | e :: es => ofTarget e ++ ofTargets es
termination_by structural es => es

end

/-! ### Statements and items -/

def ofBinder (b : Binder) : Event := write b.id b.name

def ofParameters (params : Parameters Expr) : List Event :=
  ofDefaults [] params.positional ++ ofDefaults [] params.keywordOnly

/-- An augmented assignment to a name reads it first. -/
def ofAugAssign (target value : Expr) : List Event :=
  match target with
  | .name _ id name => read id name :: ofExpr [] value ++ [write id name]
  | _ => ofTarget target ++ ofExpr [] value

/-- Deleting a name has no events. -/
def ofDelete : Expr → List Event
  | .name .. => []
  | target => ofTarget target

def ofAliases (aliases : List Alias) : List Event :=
  (aliases.filter (·.binder.name ≠ "*")).map fun a => ofBinder a.binder

/-- The events of a statement that has no statements inside. -/
def ofSimple : Stmt → List Event
  | .assign _ targets value => ofExpr [] value ++ ofTargets targets
  | .augAssign _ target _ value => ofAugAssign target value
  | .annAssign _ target (some value) => ofExpr [] value ++ ofTarget target
  | .delete _ targets => targets.flatMap ofDelete
  | .raise _ exc cause => ofOption [] exc ++ ofOption [] cause
  | .assert _ test message => ofExpr [] test ++ ofOption [] message
  | .importModules _ aliases => ofAliases aliases
  | .importFrom _ _ aliases _ => ofAliases aliases
  | .expr _ value => ofExpr [] value
  | _ => []

def ofAction : Flow.Action → List Event
  | .simple stmt => ofSimple stmt
  | .test condition => ofExpr [] condition
  | .forIter _ iter => ofExpr [] iter
  | .forTarget _ target => ofTarget target
  | .functionDef fn => ofExprs [] fn.decorators ++ ofParameters fn.params ++ [ofBinder fn.name]
  | .classDef cls =>
    ofExprs [] cls.decorators ++ ofExprs [] cls.bases ++ ofKeywords [] cls.keywords ++
      [ofBinder cls.name]
  | .withEnter item =>
    ofExpr [] item.context ++
      match item.vars with
      | some vars => ofTarget vars
      | none => []
  | .handler handler => ofOption [] handler.type ++ (handler.name.map ofBinder).toList
  | .ret value => ofOption [] value

def ofItems (items : List Flow.Item) : List Event := items.flatMap fun item => ofAction item.action

def globalNames : Flow.Action → List String
  | .simple (.global _ names) => names
  | _ => []

def nonlocalNames : Flow.Action → List String
  | .simple (.nonlocal _ names) => names
  | _ => []

end Event

end FlowTyping
