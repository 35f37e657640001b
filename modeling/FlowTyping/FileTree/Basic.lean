/-
Trees of files, and the paths that lead to places in them.

A place in a tree is given by the names on the way to it, and the empty list is the tree's own
directory.  A path is followed from there one component at a time, and each step must start at a
directory.  Nothing outside a tree can be reached: a path that starts at the root of the file system
or climbs above the tree leads nowhere.
-/
import FlowTyping.Path
import FlowTyping.Project.Source
import FlowTyping.Text.Order

namespace FlowTyping

/-- The names on the way to a place in a tree, its own last. -/
abbrev Location := List String

/-- Files at their locations.  A directory is there if something is in it, or if it is listed. -/
structure FileTree where
  files : Table Location SourceText
  directories : List Location
  /-- How the directory of the tree itself is shown. -/
  title : String

namespace Location

/-- Order by the first name that differs; a directory comes before what is in it. -/
def before : Location → Location → Bool
  | _, [] => false
  | [], _ :: _ => true
  | a :: as, b :: bs => Text.before a b || (a == b && before as bs)

def sort (locations : List Location) : List Location :=
  locations.mergeSort fun a b => !before b a

def isSource (l : Location) : Bool := (l.getLast?.map Path.isSource).getD false

/-- The dotted module name of the file at a location below the project root. -/
def moduleName? (l : Location) : Option String := Path.moduleNameBelow? (l.map .name)

end Location

namespace FileTree

def empty (title : String) : FileTree := ⟨.empty, [], title⟩

/-- The names in a path inside the tree, such as the path that an entry is stored under. -/
def location (path : String) : Location :=
  (Path.components path).filterMap fun
    | .name text => some text
    | _ => none

def addFile (t : FileTree) (path : String) (source : SourceText) : FileTree :=
  { t with files := t.files.insert (location path) source }

def addDirectory (t : FileTree) (path : String) : FileTree :=
  { t with directories := t.directories ++ [location path] }

/-! ### Places -/

def isFile (t : FileTree) (l : Location) : Bool := t.files.contains l

def isDirectory (t : FileTree) (l : Location) : Bool :=
  l.isEmpty || t.directories.any (Path.below? l · |>.isSome)
    || t.files.keys.any fun file => file != l && (Path.below? l file).isSome

def step? (t : FileTree) (here : Location) (c : Path.Component) : Option Location :=
  if t.isDirectory here then
    match c with
    | .root => none
    | .current => some here
    | .parent => if here.isEmpty then none else some here.dropLast
    | .name text => some (here ++ [text])
  else none

/-- The place that a path leads to, if there is something. -/
def resolve? (t : FileTree) (path : String) : Option Location := do
  let l ← (Path.components path).foldlM t.step? []
  if t.isDirectory l || (t.isFile l && !Path.namesDirectory path) then return l else none

def file? (t : FileTree) (path : String) : Option SourceText := (t.resolve? path).bind t.files.get?

def directory? (t : FileTree) (path : String) : Option Location :=
  (t.resolve? path).filter t.isDirectory

def display (t : FileTree) (l : Location) : String := l.foldl Path.join t.title

/-- The Python files below a directory, by their locations from there. -/
def sources (t : FileTree) (directory : Location) : List Location :=
  Location.sort ((t.files.keys.filterMap (Path.below? directory)).filter Location.isSource)

end FileTree

/-! ### Modules in a tree -/

namespace Source

/-- Where the text of a module can be that is not a package: the file with the extension `.py`. -/
def moduleFile? (base : Location) : Option Location :=
  base.getLast?.map fun last => base.dropLast ++ [Path.withExtension last "py"]

def packageFile (base : Location) : Location := base ++ ["__init__.py"]

/-- The modules of a project at a location of a tree.  A file comes before a directory of the same
name, and empty parts of a dotted name say nothing. -/
def ofTree (t : FileTree) (root : Location) : Source where
  load? name :=
    let base := root ++ (Text.dotted name).filter (· ≠ "")
    match (moduleFile? base).bind t.files.get? with
    | some source => some ⟨source, false⟩
    | none => (t.files.get? (packageFile base)).map (⟨·, true⟩)
  bound := (2 * t.files.size + 2) * (total List.length t.files.keys + 2)

end Source

end FlowTyping
