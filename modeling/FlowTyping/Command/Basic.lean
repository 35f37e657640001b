/-
Running a command over a tree of files.

Each path of `check` is a project of its own: its root is the directory given, or the directory of
the file given, unless `--root` names another, and only the files of the path itself are reported
on.  The first failure ends the run and nothing of the reports is written.  A run ends with the code
0, with 1 if `check` found issues, and with 2 if it failed or was not asked for anything.
-/
import FlowTyping.Command.Arguments
import FlowTyping.Config.Toml
import FlowTyping.FileTree.Basic
import FlowTyping.Project.Report

namespace FlowTyping

namespace Command

/-! ### Failures and outcomes -/

/-- Why a command could not be carried out; paths are given as they were written. -/
inductive Failure where
  | missing (path : String)
  | notFile (path : String)
  | badConfig (path : String)
  | unresolved (path : String)
  | notModule (file root : String)
  | load (cause : LoadError)
  | noReport

def Failure.message : Failure → String
  | missing path => path ++ " does not exist"
  | notFile path => path ++ " is not a file"
  | badConfig path => "failed to load " ++ path
  | unresolved path => "failed to resolve " ++ path
  | notModule file root => file ++ " is not a Python module under " ++ root
  | load cause => cause.message
  | noReport => "no report produced"

/-- What a run leaves behind: its exit code, what it writes, and the text of its failure. -/
structure Outcome where
  code : Nat
  output : String
  error : Option String := none
deriving DecidableEq, Repr, Inhabited

/-- The first line of a text.  A line feed ends it, and a carriage return right before that end is
not part of it. -/
def firstLine (text : String) : String :=
  let line := ((Text.split '\n' text).headD "").toList
  String.ofList (if line.getLast? = some '\r' then line.dropLast else line)

/-- The failure in one line; a path in its text may itself hold line feeds. -/
def Outcome.headline? (outcome : Outcome) : Option String := outcome.error.map firstLine

/-! ### Analysis -/

def configFile : String := "pyinfer.toml"

def defaultRoot (t : FileTree) (path : String) : String :=
  if (t.directory? path).isSome then path else Path.enclosing path

def configAt (t : FileTree) (path : String) : Except Failure Config :=
  match (t.file? path).bind fun file => Config.ofToml? file.text with
  | some config => .ok config
  | none => .error (.badConfig path)

/-- The settings from the file given, or from the configuration file in the root if there is one. -/
def configFor (t : FileTree) (options : Options) (root : String) : Except Failure Config :=
  match options.config with
  | some path => configAt t path
  | none =>
    let path := Path.join root configFile
    if (t.file? path).isSome then configAt t path else .ok .standard

/-- The files that a path stands for, in order: itself, or the Python files below a directory. -/
def filesAt (t : FileTree) (path : String) : List String :=
  match t.directory? path with
  | some directory => (t.sources directory).map (·.foldl Path.join path)
  | none => [path]

def moduleAt (t : FileTree) (root : Location) (file : String) : Except Failure String :=
  match t.resolve? file with
  | none => .error (.unresolved file)
  | some l =>
    match (Path.below? root l).bind Location.moduleName? with
    | some name => .ok name
    | none => .error (.notModule file (t.display root))

/-- Analyse the modules in some files; what they import is analysed with them but not reported. -/
def analyse (t : FileTree) (root : String) (files : List String) (config : Config) :
    Except Failure (List Report) := do
  match t.resolve? root with
  | none => throw (.unresolved root)
  | some l =>
    let names ← files.mapM (moduleAt t l)
    let add (p : Project) (name : String) : Except Failure Project :=
      (Project.addModule (.ofTree t l) p name).mapError .load
    let p ← names.foldlM add (.empty config)
    return p.finish.filter (names.contains ·.module)

def analysePath (t : FileTree) (options : Options) (path : String) :
    Except Failure (List Report) := do
  let root := options.root.getD (defaultRoot t path)
  analyse t root (filesAt t path) (← configFor t options root)

/-! ### Writing answers -/

def unlines (lines : List String) : String := String.join (lines.map (· ++ "\n"))

/-- The last line of a check. -/
def verdict (issues modules : Nat) : String :=
  if issues = 0 then "No issues found (" ++ toString modules ++ " modules)"
  else "Found " ++ toString issues ++ " issues in " ++ toString modules ++ " modules"

/-- The issues of some reports, one on a line, and how many there are. -/
def issueLines (reports : List Report) : List String :=
  let diagnostics := reports.flatMap (·.diagnostics)
  diagnostics.map (·.display) ++ [verdict diagnostics.length reports.length]

def typedText (t : TypedName) : String := t.name ++ ": " ++ Text.braced t.types

def functionText (f : FunctionReport) : String :=
  "def " ++ f.name ++ "(" ++ Text.commaSeparated (f.params.map typedText) ++ ") -> " ++
    Text.braced f.returns

/-- The types of a module, one name or function on a line. -/
def typeLines (report : Report) : List String :=
  ("module " ++ report.module) ::
    (report.bindings.map typedText ++ report.functions.map functionText).map ("  " ++ ·)

/-! ### Commands -/

def runCheck (t : FileTree) (paths : List String) (options : Options) : Except Failure Outcome := do
  let reports ← paths.mapM fun path => do
    if (t.resolve? path).isNone then throw (.missing path)
    analysePath t options path
  let reports := reports.flatten
  let code := if reports.all (·.diagnostics.isEmpty) then 0 else 1
  match options.format.getD .text with
  | .json => return { code, output := unlines [(Json.array (reports.map (·.toJson))).pretty] }
  | .text => return { code, output := unlines (issueLines reports) }

def runTypes (t : FileTree) (file : String) (options : Options) : Except Failure Outcome := do
  if (t.file? file).isNone then throw (.notFile file)
  match ← analysePath t options file with
  | [] => throw .noReport
  | report :: _ =>
    match options.format.getD .text with
    | .json => return { code := 0, output := unlines [report.toJson.pretty] }
    | .text => return { code := 0, output := unlines (typeLines report) }

end Command

def Command.run (t : FileTree) (command : Command) : Command.Outcome :=
  let result := match command with
    | .check paths options => runCheck t paths options
    | .types file options => runTypes t file options
  match result with
  | .ok outcome => outcome
  | .error failure => { code := 2, output := "", error := some failure.message }

namespace Command

def usage : List String :=
  ["Static type inference for unannotated Python", "",
    "Usage: pyinfer [-v] check [--root DIR] [--config FILE] [--format text|json] PATH...",
    "       pyinfer [-v] types [--root DIR] [--config FILE] [--format text|json] FILE"]

def Stop.outcome : Stop → Outcome
  | misuse => { code := 2, output := "" }
  | help => { code := 0, output := unlines usage }
  | version => { code := 0, output := unlines ["pyinfer 0.1.0"] }

def runArguments (t : FileTree) (arguments : List String) : Outcome :=
  match ofArguments arguments with
  | .ok command => command.run t
  | .error stop => stop.outcome

end Command

end FlowTyping
