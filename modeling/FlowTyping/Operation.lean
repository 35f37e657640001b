/-
What the operators and the built-in operations give on base kinds.

`BinaryOp.result?` is the table of binary operators: the kind of the result, or nothing where the
operation raises a type error.  Everything else about operators and kinds is read off it: whether a
pair of kinds is supported, and which results are possible when only one operand is known.  Element
reads of containers give `any`, since containers carry no element types.
-/
import FlowTyping.KindSet
import FlowTyping.Operator
import FlowTyping.Ty

namespace FlowTyping

namespace Kind

/-- Whether a value of kind `item` may be looked for in a value of kind `container`. -/
def accepts (container item : Kind) : Bool :=
  match container with
  | str => item == str
  | bytes => item == bytes || item.isIntegral
  | list | tuple | set | dict => true
  | bool | int | float | none => false

def iterable : KindSet := .ofList [str, bytes, list, tuple, set, dict]

def indexable : KindSet := .ofList [str, bytes, list, tuple, dict]

def numeric : KindSet := .ofList [bool, int, float]

def integral : KindSet := .ofList [bool, int]

/-- Type of an element met when a kind is iterated over. -/
def element? : Kind → Option Ty
  | str => some (.base str)
  | bytes => some (.base int)
  | list | tuple | set | dict => some .any
  | bool | int | float | none => .none

/-- Type of `value[index]`; `sliced` says that the index is a slice. -/
def subscript? (k : Kind) (sliced : Bool) : Option Ty :=
  match k with
  | str => some (.base str)
  | bytes => some (.base (if sliced then bytes else int))
  | list | tuple => some (if sliced then .base k else .any)
  | dict => some .any
  | bool | int | float | none | set => .none

/-- Whether an index into the kind has to be an integer or a slice. -/
def needsIntegerIndex : Kind → Bool := isSequence

end Kind

namespace BinaryOp

/-- Kind of a result of arithmetic: `float` wherever a `float` takes part. -/
def widened (l r : Kind) : Kind := if l = .float ∨ r = .float then .float else .int

/-- Kind of `l op r`, or nothing where the operation raises a type error. -/
def result? (op : BinaryOp) (l r : Kind) : Option Kind :=
  let numeric := l.isNumeric && r.isNumeric
  let integral := l.isIntegral && r.isIntegral
  match op with
  | eq | notEq | is | isNot => some .bool
  | mem | notMem => if r.accepts l then some .bool else none
  | lt | ltE | gt | gtE =>
    if numeric || (l == r && (l.isSequence || l == .set)) then some .bool else none
  | add =>
    if numeric then some (widened l r)
    else if l == r && l.isSequence then some l
    else none
  | sub =>
    if numeric then some (widened l r)
    else if l == .set && r == .set then some .set
    else none
  | mult =>
    if numeric then some (widened l r)
    else if l.isSequence && r.isIntegral then some l
    else if r.isSequence && l.isIntegral then some r
    else none
  | div => if numeric then some .float else none
  | floorDiv | pow => if numeric then some (widened l r) else none
  | mod =>
    if numeric then some (widened l r)
    else if l == .str then some .str
    else if l == .bytes then some .bytes
    else none
  | shiftLeft | shiftRight => if integral then some .int else none
  | bitAnd | bitXor | bitOr =>
    if l == .bool && r == .bool then some .bool
    else if integral then some .int
    else if l == .set && r == .set then some .set
    else if op == bitOr && l == .dict && r == .dict then some .dict
    else none
  | matMult => none

def supports (op : BinaryOp) (l r : Kind) : Bool := (op.result? l r).isSome

/-- Results of `l op r` over all kinds `l`. -/
def resultsOfRight (op : BinaryOp) (r : Kind) : KindSet :=
  .ofList (Kind.all.filterMap fun l => op.result? l r)

/-- Results of `l op r` over all kinds `r`. -/
def resultsOfLeft (op : BinaryOp) (l : Kind) : KindSet :=
  .ofList (Kind.all.filterMap fun r => op.result? l r)

end BinaryOp

/-- Kind of a unary operation's result, or nothing where it raises a type error. -/
def UnaryOp.result? : UnaryOp → Kind → Option Kind
  | not, _ => some .bool
  | plus, k | minus, k =>
    if k.isIntegral then some .int else if k == .float then some .float else none
  | invert, k => if k.isIntegral then some .int else none

end FlowTyping
