/-
The operators of a program: binary operators, comparisons among them, unary operators and the
two connectives.

A chain of comparisons is read one link at a time, so a comparison is a binary operator like any
other.  Besides its spelling each operator has the name of the special method by which a class may
support it, and most binary operators have a second name under which the right operand is asked
when the left one declines.
-/

namespace FlowTyping

/-- A binary operator or one link of a comparison. -/
inductive BinaryOp where
  | add
  | sub
  | mult
  | matMult
  | div
  | mod
  | pow
  | shiftLeft
  | shiftRight
  | bitOr
  | bitXor
  | bitAnd
  | floorDiv
  | eq
  | notEq
  | lt
  | ltE
  | gt
  | gtE
  | is
  | isNot
  | mem
  | notMem
deriving DecidableEq, Repr, Inhabited

namespace BinaryOp

def symbol : BinaryOp → String
  | add => "+"
  | sub => "-"
  | mult => "*"
  | matMult => "@"
  | div => "/"
  | mod => "%"
  | pow => "**"
  | shiftLeft => "<<"
  | shiftRight => ">>"
  | bitOr => "|"
  | bitXor => "^"
  | bitAnd => "&"
  | floorDiv => "//"
  | eq => "=="
  | notEq => "!="
  | lt => "<"
  | ltE => "<="
  | gt => ">"
  | gtE => ">="
  | is => "is"
  | isNot => "is not"
  | mem => "in"
  | notMem => "not in"

/-- The special method by which the left operand supports the operator.  Equality and identity
hold of all values and need none. -/
def special? : BinaryOp → Option String
  | add => some "__add__"
  | sub => some "__sub__"
  | mult => some "__mul__"
  | matMult => some "__matmul__"
  | div => some "__truediv__"
  | mod => some "__mod__"
  | pow => some "__pow__"
  | shiftLeft => some "__lshift__"
  | shiftRight => some "__rshift__"
  | bitOr => some "__or__"
  | bitXor => some "__xor__"
  | bitAnd => some "__and__"
  | floorDiv => some "__floordiv__"
  | lt => some "__lt__"
  | ltE => some "__le__"
  | gt => some "__gt__"
  | gtE => some "__ge__"
  | mem | notMem => some "__contains__"
  | eq | notEq | is | isNot => none

/-- The special method by which the right operand supports the operator. -/
def reflected? : BinaryOp → Option String
  | add => some "__radd__"
  | sub => some "__rsub__"
  | mult => some "__rmul__"
  | matMult => some "__rmatmul__"
  | div => some "__rtruediv__"
  | mod => some "__rmod__"
  | pow => some "__rpow__"
  | shiftLeft => some "__rlshift__"
  | shiftRight => some "__rrshift__"
  | bitOr => some "__ror__"
  | bitXor => some "__rxor__"
  | bitAnd => some "__rand__"
  | floorDiv => some "__rfloordiv__"
  | lt => some "__gt__"
  | ltE => some "__ge__"
  | gt => some "__lt__"
  | gtE => some "__le__"
  | eq | notEq | is | isNot | mem | notMem => none

/-- Membership tests ask the right operand. -/
def isMembership : BinaryOp → Bool
  | mem | notMem => true
  | _ => false

/-- Equality and identity are defined on all values. -/
def isTotal : BinaryOp → Bool
  | eq | notEq | is | isNot => true
  | _ => false

end BinaryOp

inductive UnaryOp where
  | invert
  | not
  | plus
  | minus
deriving DecidableEq, Repr, Inhabited

namespace UnaryOp

def symbol : UnaryOp → String
  | invert => "~"
  | not => "not"
  | plus => "+"
  | minus => "-"

/-- The special method by which the operand supports the operator. -/
def special : UnaryOp → String
  | invert => "__invert__"
  | not => "__bool__"
  | plus => "__pos__"
  | minus => "__neg__"

end UnaryOp

/-- A connective, which yields one of its operands. -/
inductive BoolOp where
  | and
  | or
deriving DecidableEq, Repr, Inhabited

end FlowTyping
