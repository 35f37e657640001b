/-
The flow graph of a body.

Laying out a body leaves blocks that are empty and only lead on to another one.  `fold` drops them:
an edge to such a block goes to the first block after it that is kept, and the kept blocks are
numbered anew in their order.  Loop headers and the last block are always kept.
-/
import FlowTyping.Flow.Builder
import FlowTyping.Tree.Body

namespace FlowTyping.Flow

/-- The block to which an empty block that can be dropped leads. -/
def passes? (blocks : Array Block) (id : BlockId) : Option BlockId :=
  match blocks[id.index]? with
  | none => none
  | some block =>
    match block.exits with
    | [target] =>
      if id ≠ last ∧ block.items.isEmpty ∧ ¬ block.isLoopHeader ∧ target ≠ id then some target
      else none
    | _ => none

def isKept (blocks : Array Block) (id : BlockId) : Bool := (passes? blocks id).isNone

/-- Follow blocks that can be dropped for at most some steps. -/
def follow (blocks : Array Block) : Nat → BlockId → BlockId
  | 0, id => id
  | fuel + 1, id =>
    match passes? blocks id with
    | some target => follow blocks fuel target
    | none => id

/-- The new number of a block that is kept. -/
def number? (blocks : Array Block) (id : BlockId) : Option BlockId :=
  if isKept blocks id then some ⟨(List.range id.index).countP fun i => isKept blocks ⟨i⟩⟩ else none

/-- The new number of the block that stands for a block. -/
def folded? (blocks : Array Block) (id : BlockId) : Option BlockId :=
  number? blocks (follow blocks (blocks.size + 1) id)

/-- The list without repetitions, first occurrences kept. -/
def firsts (ids : List BlockId) : List BlockId :=
  ids.foldl (fun seen id => if id ∈ seen then seen else seen ++ [id]) []

def foldBlock (blocks : Array Block) (block : Block) : Block :=
  { block with
    exits := firsts (block.exits.filterMap (folded? blocks))
    next := block.next.bind (folded? blocks) }

/-- Drop the blocks that only lead on. -/
def fold (blocks : Array Block) : Array Block :=
  ((blocks.toList.zipIdx.filter fun (_, i) => isKept blocks ⟨i⟩).map fun (block, _) =>
    foldBlock blocks block).toArray

/-- The flow graph of a builder whose body is complete. -/
def finish (b : Builder) : Flow :=
  let fallsThrough := !b.isDefinite b.current &&
    Search.reaches (successors b.blocks) first.index b.current.index
  let b := b.fallTo last
  { blocks := fold b.blocks
    entry := (folded? b.blocks first).getD ⟨0⟩
    exit := (number? b.blocks last).getD ⟨0⟩
    misplaced := b.misplaced
    fallsThrough }

def ofModule (body : List Stmt) : Flow := finish (Builder.body body (.start false))

def ofFunction (body : List Stmt) : Flow := finish (Builder.body body (.start true))

def isConstructor : Stmt → Bool
  | .functionDef _ fn => fn.name.name = "__init__"
  | _ => false

/-- The statements of a class with its constructors first, so that the attributes that they set are
known to the rest. -/
def constructorsFirst (body : List Stmt) : List Stmt :=
  body.filter isConstructor ++ body.filter (!isConstructor ·)

def ofClass (body : List Stmt) : Flow := finish (Builder.body (constructorsFirst body) (.start false))

def ofBody (body : Body) : Flow :=
  match body.kind with
  | .module => ofModule body.stmts
  | .function => ofFunction body.stmts
  | .classBody => ofClass body.stmts

end FlowTyping.Flow
