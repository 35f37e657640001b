/-
The nodes of expressions.

Walking an expression makes the nodes for its value.  The same walk serves the targets of
assignments: a name, an attribute, a subscript or a display of them may be loaded, may have a value
stored into it, or, in a comprehension, may be bound to a value in the frame around it; anything
else is only evaluated.
-/
import FlowTyping.Inference.Name
import FlowTyping.Inference.Parameter

namespace FlowTyping.Inference

/-- What is done with the place that an expression stands for. -/
inductive Use where
  | load
  | store (value : NodeId)
  | bind (value : NodeId)
deriving DecidableEq, Repr, Inhabited

def literalType : Constant → Ty
  | .none => .base .none
  | .bool => .base .bool
  | .int => .base .int
  | .float => .base .float
  | .str => .base .str
  | .bytes => .base .bytes
  | .tuple => .base .tuple
  | .complex | .ellipsis => .any

def comprehensionType : ComprehensionKind → Ty
  | .list => .base .list
  | .set => .base .set
  | .dict => .base .dict
  | .generator => .any

def isStarred : Expr → Bool
  | .starred .. => true
  | _ => false

def passing (arg : Expr) : Passing := if isStarred arg then .unpacked else .positional

def keywordPassing : Option String → Passing
  | some name => .keyword name
  | none => .unpackedMapping

/-- The type of a parameter that is not left to be found by its use: a collector of arguments, or
the receiver of a method. -/
def givenType? (receiver : Option Ty) (param : Param) (position : Nat) : Option Ty :=
  match param.mode with
  | .varPositional => some (.base .tuple)
  | .varKeyword => some (.base .dict)
  | .positional => if position = 0 then receiver else none
  | .keywordOnly => none

/-- Give types to the parameters that have one, and list the others. -/
def seedParameters (receiver : Option Ty) : List (Param × Nat) → Infer (List NodeId)
  | [] => return []
  | (param, position) :: rest => do
    match givenType? receiver param position with
    | some t =>
      seed param.node (.single t)
      seedParameters receiver rest
    | none =>
      let unknown ← seedParameters receiver rest
      return param.node :: unknown

/-- The parameter that collects positional arguments or keywords. -/
def collector (mode : ParamMode) (line : Nat) : Option String → Infer (List Param)
  | none => return []
  | some name => do
    let node ← addNode (.plain []) line
    return [⟨name, node, mode, false⟩]

def frameOf (params : List Param) : Table String NodeId :=
  params.foldl (fun names p => names.insert p.name p.node) .empty

mutual

/-- Walk an expression; loading it gives the node of its value. -/
def expr : Expr → Use → Infer NodeId
  | .name line id name, use =>
    match use with
    | .load => readName id name line
    | .store value => do
      writeName id name value line
      return value
    | .bind value => do
      let node ← addNode (.plain [value]) line
      bindInFrame name node
      return node
  | .tuple line items, use =>
    match use with
    | .load => do
      discard (values items)
      constant (.base .tuple)
    | .store value => do
      let element ← iterateNode value line
      useAll (.store element) items
      return value
    | .bind value => do
      let element ← addNode (.iterate value) line
      useAll (.bind element) items
      return value
  | .list line items, use =>
    match use with
    | .load => do
      discard (values items)
      constant (.base .list)
    | .store value => do
      let element ← iterateNode value line
      useAll (.store element) items
      return value
    | .bind value => do
      let element ← addNode (.iterate value) line
      useAll (.bind element) items
      return value
  | .starred _ inner, use =>
    match use with
    | .load => expr inner .load
    | .store _ => do
      let rest ← listNode
      expr inner (.store rest)
    | .bind _ => do
      let rest ← listNode
      expr inner (.bind rest)
  | .attribute line object attr, use => do
    let object ← expr object .load
    match use with
    | .load => readNode object attr line
    | .store value => addNode (.write object attr value) line
    | .bind value => addNode (.write object attr value) line
  | .subscript line value index, use => do
    let value ← expr value .load
    let index ← expr index .load
    match use with
    | .load => subscriptNode value index line
    | .store _ | .bind _ => do
      restrict value Kind.indexable
      return value
  | .constant _ c, _ => constant (literalType c)
  | .binary line left op right, _ => do
    let left ← expr left .load
    let right ← expr right .load
    binaryNode op left right line
  | .unary line op operand, _ => do
    let operand ← expr operand .load
    unaryNode op operand line
  | .bool line _ operands, _ => do
    let nodes ← values operands
    addNode (.plain nodes) line
  | .compare line left ops comparators, _ => do
    let left ← expr left .load
    match ← comparisons line left ops comparators with
    | [node] => return node
    | nodes => addNode (.plain nodes) line
  | .call line func args keywords, _ => do
    let callee ← expr func .load
    restrict callee .empty
    let positional ← arguments args
    let named ← keywordArguments keywords
    callNode callee (positional ++ named) line
  | .slice _ lower upper step, _ => do
    optional lower
    optional upper
    optional step
    constant .slice
  | .set _ items, _ => do
    discard (values items)
    constant (.base .set)
  | .dict _ keys items, _ => do
    optionals keys
    discard (values items)
    constant (.base .dict)
  | .formatted _ parts, _ => do
    discard (values parts)
    constant (.base .str)
  | .comprehension _ kind element value gens, _ => do
    generators true gens
    discard (expr element .load)
    optional value
    if gens.isEmpty then pure () else popFrame
    constant (comprehensionType kind)
  | .lambda line ⟨positional, vararg, keywordOnly, kwarg⟩ body, _ => do
    let params ← parameters .positional line positional
    let params := params ++ (← collector .varPositional line vararg)
    let params := params ++ (← parameters .keywordOnly line keywordOnly)
    let params := params ++ (← collector .varKeyword line kwarg)
    let returns ← addNode (.plain []) line
    let name ← qualify "<lambda>"
    let function ← onGraph (·.addFunction ⟨name, params, returns, .method, line⟩)
    let unknown ← seedParameters none params.zipIdx
    pushFrame (frameOf params)
    pushUnknowns unknown
    let value ← expr body .load
    popUnknowns
    popFrame
    addInput returns value
    constant (.function function)
  | .conditional line test body orelse, _ => do
    discard (expr test .load)
    let body ← expr body .load
    let orelse ← expr orelse .load
    addNode (.plain [body, orelse]) line
  | .named line target value, _ => do
    let value ← expr value .load
    match target with
    | .name _ id name => writeName id name value line
    | _ => pure ()
    return value
  | .yield _ value, _ => do
    optional value
    anyNode
  | .yieldFrom _ value, _ => do
    discard (expr value .load)
    anyNode
  | .await _ value, _ => do
    discard (expr value .load)
    anyNode
termination_by structural e => e

def values : List Expr → Infer (List NodeId)
  | [] => return []
  | e :: es => do
    let node ← expr e .load
    let nodes ← values es
    return node :: nodes
termination_by structural es => es

def useAll (use : Use) : List Expr → Infer Unit
  | [] => return ()
  | e :: es => do
    discard (expr e use)
    useAll use es
termination_by structural es => es

def optional : Option Expr → Infer Unit
  | none => return ()
  | some e => discard (expr e .load)
termination_by structural e => e

def optionals : List (Option Expr) → Infer Unit
  | [] => return ()
  | e :: es => do
    optional e
    optionals es
termination_by structural es => es

/-- The links of a chain of comparisons, each between two neighbours. -/
def comparisons (line : Nat) (previous : NodeId) (ops : List BinaryOp) :
    List Expr → Infer (List NodeId)
  | [] => return []
  | e :: es =>
    match ops with
    | [] => return []
    | op :: ops => do
      let right ← expr e .load
      let link ← binaryNode op previous right line
      let links ← comparisons line right ops es
      return link :: links
termination_by structural es => es

def arguments : List Expr → Infer (List Argument)
  | [] => return []
  | e :: es => do
    let value ← expr e .load
    let args ← arguments es
    return ⟨value, passing e⟩ :: args
termination_by structural es => es

def keywordArguments : List (Keyword Expr) → Infer (List Argument)
  | [] => return []
  | ⟨arg, e⟩ :: ks => do
    let value ← expr e .load
    let args ← keywordArguments ks
    return ⟨value, keywordPassing arg⟩ :: args
termination_by structural ks => ks

/-- Parameters with their defaults, which are evaluated outside the function. -/
def parameters (mode : ParamMode) (line : Nat) : List (Parameter Expr) → Infer (List Param)
  | [] => return []
  | ⟨name, default⟩ :: ps => do
    let node ← addNode (.plain []) line
    defaultValue node default
    let params ← parameters mode line ps
    return ⟨name, node, mode, default.isSome⟩ :: params
termination_by structural ps => ps

def defaultValue (node : NodeId) : Option Expr → Infer Unit
  | none => return ()
  | some e => do
    let value ← expr e .load
    addInput node value
termination_by structural e => e

/-- The generators of a comprehension.  The first iterable is evaluated before the frame of the
comprehension is there. -/
def generators (isFirst : Bool) : List (Generator Expr) → Infer Unit
  | [] => return ()
  | ⟨target, iter, conditions⟩ :: gs => do
    let source ← expr iter .load
    if isFirst then pushFrame .empty else pure ()
    let element ← iterateNode source iter.line
    discard (expr target (.bind element))
    discard (values conditions)
    generators false gs
termination_by structural gs => gs

end

def load (e : Expr) : Infer NodeId := expr e .load

def assign (target : Expr) (value : NodeId) : Infer Unit := discard (expr target (.store value))

def allParameters (p : Parameters Expr) (line : Nat) : Infer (List Param) := do
  let params ← parameters .positional line p.positional
  let params := params ++ (← collector .varPositional line p.vararg)
  let params := params ++ (← parameters .keywordOnly line p.keywordOnly)
  return params ++ (← collector .varKeyword line p.kwarg)

end FlowTyping.Inference
