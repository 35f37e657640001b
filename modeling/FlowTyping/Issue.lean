/-
What inference has to say about a program.

An issue is an operation that can succeed for no type that was inferred, an import that leads
nowhere, or a jump statement that is out of place.  Issues never stop an analysis.  A diagnostic is
an issue at a line of a module; its text is fixed by the issue.
-/
import FlowTyping.Json.Basic

namespace FlowTyping

/-- A cause for a report; the texts are the rendered type sets and names involved. -/
inductive Issue where
  | incompatibleOperands (op left right : String)
  | badOperand (op operand : String)
  | notCallable (callee : String)
  | argumentMismatch (callee : String)
  | badBaseClass (base : String)
  | missingAttribute (object attr : String)
  | notIterable (value : String)
  | notIndexable (value : String)
  | notSearchable (container : String)
  | nonIntegerIndex (index : String)
  | constructorReturnsValue (className value : String)
  | unresolvedImport (module : String)
  | construction (message : String)
deriving DecidableEq, Repr, Inhabited

namespace Issue

def message : Issue → String
  | incompatibleOperands op left right =>
    "unsupported operand types for " ++ op ++ ": " ++ left ++ " and " ++ right
  | badOperand op operand => "bad operand type for unary " ++ op ++ ": " ++ operand
  | notCallable callee => callee ++ " is not callable"
  | argumentMismatch callee => "arguments do not match any signature of " ++ callee
  | badBaseClass base => base ++ " cannot be used as a base class"
  | missingAttribute object attr => object ++ " has no attribute '" ++ attr ++ "'"
  | notIterable value => value ++ " is not iterable"
  | notIndexable value => value ++ " is not subscriptable"
  | notSearchable container => container ++ " does not support membership tests"
  | nonIntegerIndex index => "sequence indices must be integers or slices, not " ++ index
  | constructorReturnsValue className value =>
    className ++ ".__init__ should return None, not " ++ value
  | unresolvedImport module => "cannot resolve module '" ++ module ++ "'"
  | construction message => message

def kindName : Issue → String
  | incompatibleOperands .. => "incompatible_operands"
  | badOperand .. => "bad_operand"
  | notCallable _ => "not_callable"
  | argumentMismatch _ => "argument_mismatch"
  | badBaseClass _ => "bad_base_class"
  | missingAttribute .. => "missing_attribute"
  | notIterable _ => "not_iterable"
  | notIndexable _ => "not_indexable"
  | notSearchable _ => "not_searchable"
  | nonIntegerIndex _ => "non_integer_index"
  | constructorReturnsValue .. => "constructor_returns_value"
  | unresolvedImport _ => "unresolved_import"
  | construction _ => "construction"

/-- The named texts of an issue, in the order of a report. -/
def fields : Issue → List (String × String)
  | incompatibleOperands op left right => [("op", op), ("left", left), ("right", right)]
  | badOperand op operand => [("op", op), ("operand", operand)]
  | notCallable callee | argumentMismatch callee => [("callee", callee)]
  | badBaseClass base => [("base", base)]
  | missingAttribute object attr => [("object", object), ("attr", attr)]
  | notIterable value | notIndexable value => [("value", value)]
  | notSearchable container => [("container", container)]
  | nonIntegerIndex index => [("index", index)]
  | constructorReturnsValue className value => [("class", className), ("value", value)]
  | unresolvedImport module => [("module", module)]
  | construction message => [("message", message)]

/-- The entries of an issue in a report: its kind, then its texts. -/
def entries (i : Issue) : List (String × Json) :=
  ("kind", .string i.kindName) :: i.fields.map fun (key, text) => (key, .string text)

end Issue

structure Diagnostic where
  module : String
  line : Nat
  issue : Issue
deriving DecidableEq, Repr, Inhabited

namespace Diagnostic

def message (d : Diagnostic) : String := d.issue.message

/-- The diagnostic on one line: module, line number, text. -/
def display (d : Diagnostic) : String := d.module ++ ":" ++ toString d.line ++ ": " ++ d.message

/-- The diagnostic in a report.  The issue's entries stand between the line and the text, so an
issue with a module or a message of its own repeats that key. -/
def toJson (d : Diagnostic) : Json :=
  .object
    ([("module", .string d.module), ("line", .nat d.line)] ++ d.issue.entries ++
      [("message", .string d.message)])

end Diagnostic

end FlowTyping
