/-
The methods that values of a base kind have.

The catalogue covers what can be read off a value of each kind; `bool` has the methods of `int`, and
`None` has none.  `kindsWithMethod` turns the catalogue round: it confines a value of unknown kind
by a method that is read off it.
-/
import FlowTyping.Builtin.Basic

namespace FlowTyping.Builtin

/-- Names of methods that all give the same. -/
def giving (returns : Returns) (names : List String) : List (String × Returns) :=
  names.map fun name => (name, returns)

/-- The methods of a kind and what their calls give. -/
def methods : Kind → List (String × Returns)
  | .str =>
    giving (.kind .str)
      [ "capitalize", "casefold", "center", "expandtabs", "format", "join", "ljust", "lower",
        "lstrip", "removeprefix", "removesuffix", "replace", "rjust", "rstrip", "strip",
        "swapcase", "title", "upper", "zfill" ] ++
    giving (.kind .int) ["count", "find", "index", "rfind", "rindex"] ++
    giving (.kind .bytes) ["encode"] ++
    giving (.kind .bool)
      [ "endswith", "isalnum", "isalpha", "isdigit", "isidentifier", "islower", "isnumeric",
        "isspace", "istitle", "isupper", "startswith" ] ++
    giving (.kind .tuple) ["partition", "rpartition"] ++
    giving (.kind .list) ["rsplit", "split", "splitlines"]
  | .bytes =>
    giving (.kind .int) ["count", "find", "index"] ++
    giving (.kind .str) ["decode", "hex"] ++
    giving (.kind .bool) ["endswith", "startswith"] ++
    giving (.kind .bytes) ["join", "lower", "replace", "strip", "upper"] ++
    giving (.kind .list) ["split"]
  | .list =>
    giving (.kind .none) ["append", "clear", "extend", "insert", "remove", "reverse", "sort"] ++
    giving (.kind .list) ["copy"] ++
    giving (.kind .int) ["count", "index"] ++
    giving .any ["pop"]
  | .dict =>
    giving (.kind .none) ["clear", "update"] ++
    giving (.kind .dict) ["copy"] ++
    giving .any ["get", "items", "keys", "pop", "setdefault", "values"] ++
    giving (.kind .tuple) ["popitem"]
  | .set =>
    giving (.kind .none)
      [ "add", "clear", "difference_update", "discard", "intersection_update", "remove",
        "update" ] ++
    giving (.kind .set) ["copy", "difference", "intersection", "symmetric_difference", "union"] ++
    giving (.kind .bool) ["isdisjoint", "issubset", "issuperset"] ++
    giving .any ["pop"]
  | .tuple => giving (.kind .int) ["count", "index"]
  | .int | .bool =>
    giving (.kind .int) ["bit_length", "conjugate", "real", "imag"] ++
    giving (.kind .bytes) ["to_bytes"]
  | .float =>
    giving (.kind .float) ["conjugate", "real", "imag"] ++
    giving (.kind .str) ["hex"] ++
    giving (.kind .bool) ["is_integer"]
  | .none => []

/-- What a call of the method `name` of a value of kind `k` gives, if there is such a method. -/
def method? (k : Kind) (name : String) : Option Returns := (methods k).lookup name

/-- Kinds whose values have the method `name`. -/
def kindsWithMethod (name : String) : KindSet := .ofPred fun k => (method? k name).isSome

end FlowTyping.Builtin
