/-
Slashed paths and the module names of files.

A path is read as a list of components: repeated slashes, a slash at the end and `.` anywhere but at
the start of a relative path say nothing.  A file name has an extension if there is something before
its last dot.  `moduleName?` gives the dotted name of a file below a root: the path from the root
with its extension removed, where `__init__` stands for its directory.  What is shown to the user is
the path as it was written, so `join` and `enclosing` work on the text.
-/
import FlowTyping.Text.Dotted

namespace FlowTyping.Path

inductive Component where
  | root
  | current
  | parent
  | name (text : String)
deriving DecidableEq, Repr

def Component.text : Component → String
  | root => "/"
  | current => "."
  | parent => ".."
  | name text => text

/-- The component that a part after the first stands for, if it says anything. -/
def component? (part : String) : Option Component :=
  if part == "" || part == "." then none
  else if part == ".." then some .parent
  else some (.name part)

def components (path : String) : List Component :=
  match Text.split '/' path with
  | [] => []
  | first :: rest =>
    let start :=
      if first == "" then (if rest.isEmpty then [] else [.root])
      else if first == "." then [.current]
      else (component? first).toList
    start ++ rest.filterMap component?

/-- A file name cut at its last dot: what is before it and what is after it.  There is no cut in
`..`, in a name without a dot, and where nothing is before the dot. -/
def cutExtension? (name : String) : Option (String × String) :=
  match (Text.dotted name).reverse with
  | last :: stem@(_ :: _) =>
    let before := Text.undotted stem.reverse
    if name == ".." || before == "" then none else some (before, last)
  | _ => none

/-- A file name without its extension.  The dot goes with the extension, but where nothing else
would be left than a dot, both dots of the name stay. -/
def withoutExtension (name : String) : String :=
  match cutExtension? name with
  | some (stem, _) => if stem == "." then ".." else stem
  | none => name

/-- A file name with another extension in place of its own. -/
def withExtension (name extension : String) : String :=
  match cutExtension? name with
  | some (stem, _) => stem ++ "." ++ extension
  | none => name ++ "." ++ extension

def isSource (name : String) : Bool :=
  match cutExtension? name with
  | some (_, extension) => extension == "py"
  | none => false

/-- What follows the first list in the second, if the second begins with it. -/
def below? {α : Type} [DecidableEq α] : List α → List α → Option (List α)
  | [], path => some path
  | _ :: _, [] => none
  | r :: rs, c :: cs => if r = c then below? rs cs else none

/-- The dotted name of the parts of a path; a last part `__init__` stands for its directory. -/
def moduleNameOfParts? (parts : List String) : Option String :=
  let parts := if parts.getLast? == some "__init__" then parts.dropLast else parts
  if parts.isEmpty then none else some (Text.undotted parts)

/-- The dotted module name of a file, given by the path from the project root. -/
def moduleNameBelow? (path : List Component) : Option String :=
  match path.getLast? with
  | some (.name file) =>
    if isSource file then
      moduleNameOfParts? (path.dropLast.map Component.text ++ [withoutExtension file])
    else none
  | _ => none

/-- The dotted module name of the file at `path` in a project at `root`. -/
def moduleName? (root path : String) : Option String :=
  (below? (components root) (components path)).bind moduleNameBelow?

/-! ### Paths as they are written -/

/-- The path of something in the directory at `path`. -/
def join (path name : String) : String :=
  if path.endsWith "/" then path ++ name else path ++ "/" ++ name

/-- The path of the directory that a file is in.  A file named without a directory is in `.`. -/
def enclosing (file : String) : String :=
  match (Text.split '/' file).dropLast with
  | [] => "."
  | first :: rest =>
    match (rest.reverse.dropWhile fun part => (component? part).isNone).reverse with
    | [] => if first == "" then "/" else first
    | rest => Text.join '/' (first :: rest)

/-- Whether a path can only name a directory, because it ends in a slash or in `.`. -/
def namesDirectory (path : String) : Bool :=
  match (Text.split '/' path).getLast? with
  | some part => part == "" || part == "."
  | none => false

end FlowTyping.Path
