/-
The small parts of statements and expressions: keyword arguments, parameters, generators of
comprehensions, items of `with` statements, and the kinds of constants and comprehensions.

They are the same whether names have been numbered or not, so each is a structure over the type of
the expressions inside it.
-/

namespace FlowTyping

inductive Constant where
  | none
  | bool
  | int
  | float
  | complex
  | str
  | bytes
  | ellipsis
  | tuple
deriving DecidableEq, Repr, Inhabited

inductive ComprehensionKind where
  | list
  | set
  | dict
  | generator
deriving DecidableEq, Repr, Inhabited

/-- An argument passed by keyword; without a name it is a mapping that is unpacked. -/
structure Keyword (ε : Type) where
  arg : Option String
  value : ε
deriving Repr, Inhabited

/-- A parameter, possibly with a default. -/
structure Parameter (ε : Type) where
  name : String
  default : Option ε
deriving Repr, Inhabited

/-- One `for` of a comprehension with its conditions. -/
structure Generator (ε : Type) where
  target : ε
  iter : ε
  conditions : List ε
deriving Repr, Inhabited

/-- One context of a `with` statement and what it is bound to. -/
structure WithItem (ε : Type) where
  context : ε
  vars : Option ε
deriving Repr, Inhabited

end FlowTyping
