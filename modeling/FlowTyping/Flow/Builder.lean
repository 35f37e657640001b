/-
Laying out a body as blocks.

A builder holds the blocks so far, the block to which the next item goes, and the frames around it,
the innermost first: loops, regions that handlers protect, and regions with a clean-up, the
`finally` clause of a `try`.  An item in a protected region gets a block of its own, with an edge to
every handler that may catch what it raises.  A jump leads to the innermost clean-up that it leaves;
each clean-up remembers where the jumps through it go on, and once its body stands, its last block
gets an edge to each of these.

Each compound statement is a function on builders that takes the layout of its parts as functions,
so `Builder.stmt` is a plain recursion over the statement.
-/
import FlowTyping.Flow.Basic

namespace FlowTyping.Flow

/-- A region around the current block. -/
inductive Frame where
  | loop (header after : BlockId)
  | guarded (handlers : List BlockId)
  /-- The first block of the clean-up and the targets of the jumps that pass through it. -/
  | cleanup (entry : BlockId) (pending : List BlockId)
deriving DecidableEq, Repr, Inhabited

structure Builder where
  blocks : Array Block
  current : BlockId
  frames : List Frame
  misplaced : List Misplaced
  inFunction : Bool
  nextLoop : Nat
  /-- How often a block was to be changed that is not there. -/
  strays : Nat
deriving Inhabited

def first : BlockId := ⟨0⟩

/-- The block to which control gets when a body ends. -/
def last : BlockId := ⟨1⟩

def emptyBlock (isLoopHeader : Bool) (line : Nat) : Block := ⟨[], [], none, false, isLoopHeader, line⟩

namespace Builder

def start (inFunction : Bool) : Builder :=
  ⟨#[emptyBlock false 0, emptyBlock false 0], first, [], [], inFunction, 0, 0⟩

/-! ### Blocks and edges -/

def modifyBlock (b : Builder) (id : BlockId) (f : Block → Block) : Builder :=
  { b with
    blocks := b.blocks.modify id.index f
    strays := b.strays + bif id.index < b.blocks.size then 0 else 1 }

/-- Whether a block has jumped away.  Where it has not, or is not there, it is changed next. -/
def isDefinite (b : Builder) (id : BlockId) : Bool :=
  match b.blocks[id.index]? with
  | some block => block.definiteExit
  | none => false

def addBlock (b : Builder) (isLoopHeader : Bool) (line : Nat) : BlockId × Builder :=
  (⟨b.blocks.size⟩, { b with blocks := b.blocks.push (emptyBlock isLoopHeader line) })

def addBlocks (b : Builder) : List Nat → List BlockId × Builder
  | [] => ([], b)
  | line :: lines =>
    let (id, b) := b.addBlock false line
    let (ids, b) := b.addBlocks lines
    (id :: ids, b)

def moveTo (b : Builder) (id : BlockId) : Builder := { b with current := id }

def edge (b : Builder) (source target : BlockId) : Builder :=
  b.modifyBlock source fun block =>
    if target ∈ block.exits then block else { block with exits := block.exits ++ [target] }

def edges (b : Builder) (source : BlockId) (targets : List BlockId) : Builder :=
  targets.foldl (fun b target => b.edge source target) b

/-- Go on from the current block to another one, unless it has jumped away. -/
def fallTo (b : Builder) (target : BlockId) : Builder :=
  if b.isDefinite b.current then b
  else (b.edge b.current target).modifyBlock b.current fun block => { block with next := some target }

/-- Go on in a block that nothing leads to. -/
def terminate (b : Builder) (line : Nat) : Builder :=
  let b := b.modifyBlock b.current fun block => { block with definiteExit := true }
  let (id, b) := b.addBlock false line
  b.moveTo id

/-! ### Frames -/

def enter (b : Builder) (frame : Frame) : Builder := { b with frames := frame :: b.frames }

def leave (b : Builder) : Builder := { b with frames := b.frames.tail }

/-- The blocks in which an exception may land: the handlers around it up to the first clean-up. -/
def raiseTargets : List Frame → List BlockId
  | [] => []
  | .guarded handlers :: frames => handlers ++ raiseTargets frames
  | .cleanup entry _ :: _ => [entry]
  | .loop .. :: frames => raiseTargets frames

/-- Where a jump leads in the end, if anywhere. -/
def target? (jump : Jump) : List Frame → Option BlockId
  | [] => if jump = .ret then some last else none
  | .loop header after :: frames =>
    match jump with
    | .break => some after
    | .continue => some header
    | .ret => target? jump frames
  | _ :: frames => target? jump frames

/-- The clean-ups that a jump passes on its way, the innermost first. -/
def cleanups (jump : Jump) : List Frame → List BlockId
  | [] => []
  | .loop .. :: frames => if jump = .ret then cleanups jump frames else []
  | .guarded _ :: frames => cleanups jump frames
  | .cleanup entry _ :: frames => entry :: cleanups jump frames

/-- Note in each clean-up on the way of a jump where the jump goes on. -/
def thread (jump : Jump) (target : BlockId) : List Frame → List Frame
  | [] => []
  | .loop header after :: frames =>
    .loop header after :: if jump = .ret then thread jump target frames else frames
  | .guarded handlers :: frames => .guarded handlers :: thread jump target frames
  | .cleanup entry pending :: frames =>
    let next := (cleanups jump frames).headD target
    .cleanup entry (if next ∈ pending then pending else pending ++ [next]) ::
      thread jump target frames

/-! ### Items and jumps -/

def put (b : Builder) (line : Nat) (action : Action) : Builder :=
  b.modifyBlock b.current fun block =>
    { block with
      items := block.items ++ [⟨line, action⟩]
      line := if block.items.isEmpty then line else block.line }

/-- Put an item that may raise; in a protected region it gets a block of its own. -/
def putGuarded (b : Builder) (line : Nat) (action : Action) : Builder :=
  let targets := raiseTargets b.frames
  if targets.isEmpty then b.put line action
  else
    let (id, b) := b.addBlock false line
    (((b.fallTo id).moveTo id).put line action).edges id targets

/-- Jump away, through every clean-up on the way. -/
def jump (b : Builder) (jump : Jump) (line : Nat) : Builder :=
  match target? jump b.frames with
  | none => { b with misplaced := b.misplaced ++ [⟨jump, line⟩] }
  | some target =>
    let b := b.edge b.current ((cleanups jump b.frames).headD target)
    { b with frames := thread jump target b.frames }.terminate line

/-! ### Compound statements -/

/-- Two ways from the current block that meet again. -/
def branch (b : Builder) (line : Nat) (body : Builder → Builder)
    (orelse : Option (Builder → Builder)) : Builder :=
  let condition := b.current
  let (bodyBlock, b) := b.addBlock false line
  let (after, b) := b.addBlock false line
  match orelse with
  | none =>
    let b := (b.edge condition bodyBlock).edge condition after
    ((body (b.moveTo bodyBlock)).fallTo after).moveTo after
  | some orelse =>
    let (elseBlock, b) := b.addBlock false line
    let b := (b.edge condition bodyBlock).edge condition elseBlock
    let b := (body (b.moveTo bodyBlock)).fallTo after
    ((orelse (b.moveTo elseBlock)).fallTo after).moveTo after

/-- A loop whose header and first body block stand.  A `break` passes over the `else` clause. -/
def loop (b : Builder) (line : Nat) (header bodyBlock : BlockId) (body : Builder → Builder)
    (orelse : Option (Builder → Builder)) : Builder :=
  let (after, b) := b.addBlock false line
  match orelse with
  | none =>
    let b := (b.edge header bodyBlock).edge header after
    let b := (body ((b.enter (.loop header after)).moveTo bodyBlock)).fallTo header
    b.leave.moveTo after
  | some orelse =>
    let (elseBlock, b) := b.addBlock false line
    let b := (b.edge header bodyBlock).edge header elseBlock
    let b := (body ((b.enter (.loop header after)).moveTo bodyBlock)).fallTo header
    ((orelse (b.leave.moveTo elseBlock)).fallTo after).moveTo after

def whileLoop (b : Builder) (line : Nat) (test : Expr) (body : Builder → Builder)
    (orelse : Option (Builder → Builder)) : Builder :=
  let (header, b) := b.addBlock true line
  let b := ((b.fallTo header).moveTo header).put line (.test test)
  let (bodyBlock, b) := b.addBlock false line
  b.loop line header bodyBlock body orelse

def forLoop (b : Builder) (line : Nat) (target iter : Expr) (body : Builder → Builder)
    (orelse : Option (Builder → Builder)) : Builder :=
  let id : LoopId := ⟨b.nextLoop⟩
  let b := { b with nextLoop := b.nextLoop + 1 }.putGuarded line (.forIter id iter)
  let (header, b) := b.addBlock true line
  let b := b.fallTo header
  let (bodyBlock, b) := b.addBlock false line
  let b := b.modifyBlock bodyBlock fun block =>
    { block with items := block.items ++ [⟨line, .forTarget id target⟩] }
  b.loop line header bodyBlock body orelse

/-- The protected part of a `try`: its body, its `else` clause and its handlers, all of which go on
to `join`.  An exception may come before the first statement of the body is done. -/
def guard (b : Builder) (join : BlockId) (handlerLines : List Nat) (body orelse : Builder → Builder)
    (handlers : List BlockId → Builder → Builder) : Builder :=
  let (handlerBlocks, b) := b.addBlocks handlerLines
  let b := b.enter (.guarded handlerBlocks)
  let b := b.edges b.current (raiseTargets b.frames)
  let b := (orelse (body b).leave).fallTo join
  handlers handlerBlocks b

/-- The targets of the jumps that pass through the innermost clean-up. -/
def pendingTargets : List Frame → List BlockId
  | .cleanup _ pending :: _ => pending
  | _ => []

def tryBlock (b : Builder) (line : Nat) (handlerLines : List Nat) (body orelse : Builder → Builder)
    (handlers : BlockId → List BlockId → Builder → Builder)
    (finalbody : Option (Builder → Builder)) : Builder :=
  let (after, b) := b.addBlock false line
  match finalbody with
  | none => (b.guard after handlerLines body orelse (handlers after)).moveTo after
  | some finalbody =>
    let (entry, b) := b.addBlock false line
    let b := (b.enter (.cleanup entry [])).guard entry handlerLines body orelse (handlers entry)
    let pending := pendingTargets b.frames
    let b := finalbody (b.leave.moveTo entry)
    let b := if b.isDefinite b.current then b else (b.fallTo after).edges b.current pending
    b.moveTo after

/-! ### Statements -/

mutual

def stmt : Stmt → Builder → Builder
  | .functionDef line fn, b => b.putGuarded line (.functionDef fn)
  | .classDef line cls, b => b.putGuarded line (.classDef cls)
  | .ret line value, b =>
    if b.inFunction then (b.putGuarded line (.ret value)).jump .ret line
    else { b with misplaced := b.misplaced ++ [⟨.ret, line⟩] }
  | .raise line exc cause, b =>
    (b.putGuarded line (.simple (.raise line exc cause))).terminate line
  | .break line, b => b.jump .break line
  | .continue line, b => b.jump .continue line
  | .pass _, b => b
  | .ifThen line test thenBody elseBody, b =>
    (b.put line (.test test)).branch line (body thenBody)
      (if elseBody.isEmpty then none else some (body elseBody))
  | .whileLoop line test loopBody elseBody, b =>
    b.whileLoop line test (body loopBody)
      (if elseBody.isEmpty then none else some (body elseBody))
  | .forLoop line target iter loopBody elseBody, b =>
    b.forLoop line target iter (body loopBody)
      (if elseBody.isEmpty then none else some (body elseBody))
  | .withBlock line items withBody, b =>
    body withBody (items.foldl (fun b item => b.putGuarded line (.withEnter item)) b)
  | .tryBlock line tryBody hs elseBody finalBody, b =>
    b.tryBlock line (hs.map (·.line)) (body tryBody) (body elseBody) (handlers hs)
      (if finalBody.isEmpty then none else some (body finalBody))
  | .delete line targets, b => b.putGuarded line (.simple (.delete line targets))
  | .assign line targets value, b => b.putGuarded line (.simple (.assign line targets value))
  | .augAssign line target op value, b =>
    b.putGuarded line (.simple (.augAssign line target op value))
  | .annAssign line target value, b => b.putGuarded line (.simple (.annAssign line target value))
  | .assert line test message, b => b.putGuarded line (.simple (.assert line test message))
  | .importModules line aliases, b => b.putGuarded line (.simple (.importModules line aliases))
  | .importFrom line module aliases level, b =>
    b.putGuarded line (.simple (.importFrom line module aliases level))
  | .global line names, b => b.putGuarded line (.simple (.global line names))
  | .nonlocal line names, b => b.putGuarded line (.simple (.nonlocal line names))
  | .expr line value, b => b.putGuarded line (.simple (.expr line value))
termination_by structural s => s

def body : List Stmt → Builder → Builder
  | [], b => b
  | s :: ss, b => body ss (stmt s b)
termination_by structural ss => ss

/-- Lay out handlers in the blocks that stand ready for them. -/
def handlers : List (Handler Stmt) → BlockId → List BlockId → Builder → Builder
  | ⟨line, type, name, handlerBody⟩ :: hs, join, id :: ids, b =>
    let b := (b.moveTo id).put line (.handler ⟨line, type, name, handlerBody⟩)
    handlers hs join ids ((body handlerBody b).fallTo join)
  | _, _, _, b => b
termination_by structural hs => hs

end

end Builder

end FlowTyping.Flow
