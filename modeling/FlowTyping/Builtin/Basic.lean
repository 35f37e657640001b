/-
The built-in functions, types and classes that every program can name.

A built-in function has a range of positional arities, a rule for what a call gives, and possibly
kinds to which its first argument is confined.  `Builtin.lookup?` resolves a name: functions come
before types, types before classes, and a handful of names stand for plain values.
-/
import FlowTyping.Operation
import FlowTyping.TypeSet

namespace FlowTyping.Builtin

/-- What a call of a built-in gives. -/
inductive Returns where
  | kind (kind : Kind)
  /-- The types of the first argument. -/
  | firstArgument
  | any
deriving DecidableEq, Repr, Inhabited

/-- The types that a call gives when its first argument has the given types, if it is known. -/
def Returns.types (r : Returns) (first : Option TypeSet) : TypeSet :=
  match r with
  | .kind k => .single (.base k)
  | .firstArgument => first.getD .any
  | .any => .any

structure Function where
  name : String
  /-- Fewest positional arguments. -/
  least : Nat
  /-- Most positional arguments; nothing if there is no limit. -/
  most : Option Nat
  returns : Returns
deriving DecidableEq, Repr

def functions : List Function :=
  [ ⟨"abs", 1, some 1, .firstArgument⟩,
    ⟨"all", 1, some 1, .kind .bool⟩,
    ⟨"any", 1, some 1, .kind .bool⟩,
    ⟨"ascii", 1, some 1, .kind .str⟩,
    ⟨"bin", 1, some 1, .kind .str⟩,
    ⟨"callable", 1, some 1, .kind .bool⟩,
    ⟨"chr", 1, some 1, .kind .str⟩,
    ⟨"delattr", 2, some 2, .kind .none⟩,
    ⟨"dir", 0, some 1, .kind .list⟩,
    ⟨"divmod", 2, some 2, .kind .tuple⟩,
    ⟨"enumerate", 1, some 2, .any⟩,
    ⟨"eval", 1, some 3, .any⟩,
    ⟨"exec", 1, some 3, .kind .none⟩,
    ⟨"filter", 2, some 2, .any⟩,
    ⟨"format", 1, some 2, .kind .str⟩,
    ⟨"getattr", 2, some 3, .any⟩,
    ⟨"globals", 0, some 0, .kind .dict⟩,
    ⟨"hasattr", 2, some 2, .kind .bool⟩,
    ⟨"hash", 1, some 1, .kind .int⟩,
    ⟨"hex", 1, some 1, .kind .str⟩,
    ⟨"id", 1, some 1, .kind .int⟩,
    ⟨"input", 0, some 1, .kind .str⟩,
    ⟨"isinstance", 2, some 2, .kind .bool⟩,
    ⟨"issubclass", 2, some 2, .kind .bool⟩,
    ⟨"iter", 1, some 2, .any⟩,
    ⟨"len", 1, some 1, .kind .int⟩,
    ⟨"locals", 0, some 0, .kind .dict⟩,
    ⟨"map", 2, none, .any⟩,
    ⟨"max", 1, none, .any⟩,
    ⟨"min", 1, none, .any⟩,
    ⟨"next", 1, some 2, .any⟩,
    ⟨"oct", 1, some 1, .kind .str⟩,
    ⟨"open", 1, some 8, .any⟩,
    ⟨"ord", 1, some 1, .kind .int⟩,
    ⟨"pow", 2, some 3, .any⟩,
    ⟨"print", 0, none, .kind .none⟩,
    ⟨"property", 0, some 4, .any⟩,
    ⟨"range", 1, some 3, .any⟩,
    ⟨"repr", 1, some 1, .kind .str⟩,
    ⟨"reversed", 1, some 1, .any⟩,
    ⟨"round", 1, some 2, .any⟩,
    ⟨"setattr", 3, some 3, .kind .none⟩,
    ⟨"sorted", 1, some 1, .kind .list⟩,
    ⟨"sum", 1, some 2, .any⟩,
    ⟨"super", 0, some 2, .any⟩,
    ⟨"type", 1, some 3, .any⟩,
    ⟨"vars", 0, some 1, .kind .dict⟩,
    ⟨"zip", 0, none, .any⟩,
    ⟨"classmethod", 1, some 1, .any⟩,
    ⟨"staticmethod", 1, some 1, .any⟩ ]

def function? (name : String) : Option Function := functions.find? fun f => f.name == name

/-- Kinds to which the first argument of a function is confined, where it is. -/
def Function.accepts? (f : Function) : Option KindSet :=
  if f.name == "len" then some Kind.iterable
  else if f.name == "abs" || f.name == "round" then some Kind.numeric
  else if ["chr", "bin", "hex", "oct"].contains f.name then some Kind.integral
  else if f.name == "ord" then some (.ofList [.str, .bytes])
  else if ["sorted", "sum", "min", "max", "enumerate", "reversed", "all", "any", "iter"].contains
      f.name then some Kind.iterable
  else none

/-- Whether a function can be called with that many positional arguments. -/
def Function.admits (f : Function) (count : Nat) : Bool :=
  decide (f.least ≤ count) && f.most.all fun most => decide (count ≤ most)

/-- The built-in types: each name makes values of one kind. -/
def types : List (String × Kind) :=
  [ ("bool", .bool), ("int", .int), ("float", .float), ("str", .str), ("bytes", .bytes),
    ("bytearray", .bytes), ("list", .list), ("tuple", .tuple), ("set", .set),
    ("frozenset", .set), ("dict", .dict) ]

/-- Most positional arguments with which a built-in type can be called. -/
def typeArity : Kind → Nat
  | .int => 2
  | .str | .bytes => 3
  | _ => 1

/-- The built-in classes that can be base classes but are no kinds. -/
def classes : List String :=
  [ "object", "BaseException", "Exception", "ArithmeticError", "AssertionError",
    "AttributeError", "EOFError", "FileNotFoundError", "ImportError", "IndexError", "IOError",
    "KeyError", "KeyboardInterrupt", "LookupError", "MemoryError", "ModuleNotFoundError",
    "NameError", "NotImplementedError", "OSError", "OverflowError", "RecursionError",
    "RuntimeError", "StopIteration", "SystemExit", "TypeError", "UnicodeDecodeError",
    "UnicodeEncodeError", "ValueError", "ZeroDivisionError", "Warning", "DeprecationWarning",
    "UserWarning" ]

/-- Built-in names that stand for plain values. -/
def values : List (String × Ty) :=
  [ ("__name__", .base .str), ("__file__", .base .str), ("__doc__", .base .str),
    ("__debug__", .base .bool), ("NotImplemented", .any), ("Ellipsis", .any),
    ("__builtins__", .any) ]

def lookup? (name : String) : Option Ty :=
  if (function? name).isSome then some (.builtinFunction name)
  else match types.lookup name with
    | some k => some (.builtinType k)
    | none =>
      if classes.contains name then some (.builtinClass name) else values.lookup name

end FlowTyping.Builtin
