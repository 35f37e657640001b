/-
The flow graph of a body: blocks of items with edges to the blocks that may come next.

A body is what runs in one scope: the statements of a module, of a function or of a class.  A block
holds what is evaluated one after the other; compound statements are split over blocks, while a
nested function or class is a single item, since its body has a flow graph of its own.  Control
enters at `entry`, and it gets to `exit` by a `return` or by falling off the end.
-/
import FlowTyping.Search
import FlowTyping.Text.Order
import FlowTyping.Tree.Basic

namespace FlowTyping

structure BlockId where
  index : Nat
deriving DecidableEq, Repr, Inhabited

/-- Number of a `for` loop, which ties its iterable to its target. -/
structure LoopId where
  index : Nat
deriving DecidableEq, Repr, Inhabited

namespace Flow

/-- Something that is evaluated in a block. -/
inductive Action where
  /-- A statement without statements inside it. -/
  | simple (stmt : Stmt)
  | test (condition : Expr)
  /-- The iterable of a `for`, evaluated once before the loop. -/
  | forIter (loop : LoopId) (iter : Expr)
  /-- The target of a `for`, bound at the start of each round. -/
  | forTarget (loop : LoopId) (target : Expr)
  | functionDef (fn : FunctionDef Stmt)
  | classDef (cls : ClassDef Stmt)
  | withEnter (item : WithItem Expr)
  | handler (handler : Handler Stmt)
  | ret (value : Option Expr)
deriving Inhabited

/-- The word for an action in the text of a flow graph. -/
def Action.label : Action → String
  | simple (.assign ..) => "assign"
  | simple (.augAssign ..) => "augassign"
  | simple (.annAssign ..) => "annassign"
  | simple (.delete ..) => "delete"
  | simple (.raise ..) => "raise"
  | simple (.assert ..) => "assert"
  | simple (.importModules ..) => "import"
  | simple (.importFrom ..) => "import"
  | simple (.global ..) => "global"
  | simple (.nonlocal ..) => "nonlocal"
  | simple (.expr ..) => "expr"
  | simple _ => "stmt"
  | test _ => "test"
  | forIter .. => "for-iter"
  | forTarget .. => "for-target"
  | functionDef _ => "def"
  | classDef _ => "class"
  | withEnter _ => "with"
  | handler _ => "except"
  | ret _ => "return"

/-- An action and the line of the statement that it belongs to. -/
structure Item where
  line : Nat
  action : Action
deriving Inhabited

structure Block where
  items : List Item
  /-- The blocks that may come next. -/
  exits : List BlockId
  /-- The one of them that comes next when nothing jumps. -/
  next : Option BlockId
  /-- Whether the block ends in a jump or a `raise`. -/
  definiteExit : Bool
  isLoopHeader : Bool
  line : Nat
deriving Inhabited

inductive Jump where
  | break
  | continue
  | ret
deriving DecidableEq, Repr, Inhabited

/-- A jump statement that has nowhere to go; it is recorded and has no effect. -/
structure Misplaced where
  jump : Jump
  line : Nat
deriving DecidableEq, Repr, Inhabited

def Misplaced.message (m : Misplaced) : String :=
  match m.jump with
  | .break => "'break' outside loop"
  | .continue => "'continue' not properly in loop"
  | .ret => "'return' outside function"

end Flow

structure Flow where
  blocks : Array Flow.Block
  entry : BlockId
  exit : BlockId
  misplaced : List Flow.Misplaced
  /-- Whether control can reach the end of the body without a `return`. -/
  fallsThrough : Bool
deriving Inhabited

namespace Flow

def exits (flow : Flow) (b : BlockId) : List BlockId :=
  match flow.blocks[b.index]? with
  | some block => block.exits
  | none => []

def items (flow : Flow) (b : BlockId) : List Item :=
  match flow.blocks[b.index]? with
  | some block => block.items
  | none => []

def line (flow : Flow) (b : BlockId) : Nat :=
  match flow.blocks[b.index]? with
  | some block => block.line
  | none => 0

/-- The numbers of the blocks that may follow each block. -/
def successors (blocks : Array Block) : List (List Nat) :=
  blocks.toList.map fun block => block.exits.map (·.index)

/-- The blocks that can be reached from the entry, in depth-first preorder. -/
def reachable (flow : Flow) : List BlockId :=
  (Search.preorder (successors flow.blocks) flow.entry.index).map BlockId.mk

/-- The blocks from which control may come, for every block in ascending order. -/
def predecessors (flow : Flow) : List (List BlockId) :=
  (List.range flow.blocks.size).map fun b =>
    ((List.range flow.blocks.size).map BlockId.mk).filter fun a => ⟨b⟩ ∈ flow.exits a

/-! ### Text -/

/-- What there is to say about a block besides its number. -/
def tags (flow : Flow) (b : BlockId) (block : Block) : List String :=
  (if b = flow.entry then ["entry"] else []) ++ (if b = flow.exit then ["exit"] else []) ++
    (if block.isLoopHeader then ["loop"] else [])

def displayBlock (flow : Flow) (b : BlockId) (block : Block) : String :=
  let tags := flow.tags b block
  let mark := if tags.isEmpty then "" else " (" ++ Text.commaSeparated tags ++ ")"
  let items := block.items.map fun item =>
    "  " ++ toString item.line ++ ": " ++ item.action.label ++ "\n"
  let exits := Text.commaSeparated (block.exits.map fun exit => toString exit.index)
  "block " ++ toString b.index ++ mark ++ ":\n" ++ String.join items ++ "  exits: [" ++ exits ++ "]\n"

/-- The blocks with their items and exits, one after the other. -/
def display (flow : Flow) : String :=
  String.join (flow.blocks.toList.zipIdx.map fun (block, i) => flow.displayBlock ⟨i⟩ block)

end Flow

end FlowTyping
