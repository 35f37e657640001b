/-
The command line: what the arguments of a run ask for.

There are two commands.  `check` takes one or more paths and `types` takes one file; both take the
options `--root`, `--config` and `--format`, which may stand anywhere among the paths.  An option
has its value in the same argument after `=` or in the next one, and is given at most once.  Flags
for more detail in the log are counted nowhere, since the log is no part of the answer.  After `--`
every argument is a path.
-/
import FlowTyping.Text.Dotted

namespace FlowTyping

namespace Command

/-- How a command writes its answer. -/
inductive Format where
  | text
  | json
deriving DecidableEq, Repr, Inhabited

def Format.ofName? : String → Option Format
  | "text" => some .text
  | "json" => some .json
  | _ => none

structure Options where
  root : Option String := none
  config : Option String := none
  format : Option Format := none
deriving DecidableEq, Repr, Inhabited

end Command

inductive Command where
  | check (paths : List String) (options : Command.Options)
  | types (file : String) (options : Command.Options)
deriving DecidableEq, Repr, Inhabited

namespace Command

/-- Why there is no command to run. -/
inductive Stop where
  | misuse
  | help
  | version
deriving DecidableEq, Repr, Inhabited

/-! ### Single arguments -/

inductive Argument where
  | separator
  | long (name : String) (value : Option String)
  | short (flags : List Char)
  | plain (text : String)
deriving DecidableEq, Repr

/-- The shape of an argument; a single dash is a path like any other. -/
def Argument.ofText (text : String) : Argument :=
  match text.toList with
  | ['-', '-'] => .separator
  | '-' :: '-' :: rest =>
    let name := String.ofList (rest.takeWhile (· ≠ '='))
    match rest.dropWhile (· ≠ '=') with
    | _ :: value => .long name (some (String.ofList value))
    | [] => .long name none
  | '-' :: c :: flags => .short (c :: flags)
  | _ => .plain text

/-- Flags that only set the detail of the log are passed over. -/
def readFlags (atTop : Bool) : List Char → Except Stop Unit
  | [] => .ok ()
  | 'v' :: flags => readFlags atTop flags
  | 'h' :: _ => .error .help
  | 'V' :: _ => .error (if atTop then .version else .misuse)
  | _ :: _ => .error .misuse

/-! ### The arguments of a command -/

/-- What the arguments of a command have said so far. -/
structure Given where
  paths : List String := []
  options : Options := {}
deriving DecidableEq, Repr, Inhabited

namespace Given

/-- One more path; empty paths are refused, and so is a second one where only one may be. -/
def addPath (single : Bool) (g : Given) (path : String) : Except Stop Given :=
  if path == "" || (single && !g.paths.isEmpty) then .error .misuse
  else .ok { g with paths := g.paths ++ [path] }

/-- The value of an option; an option that was given before is refused. -/
def setOption (g : Given) (name value : String) : Except Stop Given :=
  let o := g.options
  if value == "" then .error .misuse
  else match name with
    | "root" => if o.root.isNone then .ok { g with options.root := some value } else .error .misuse
    | "config" =>
      if o.config.isNone then .ok { g with options.config := some value } else .error .misuse
    | "format" =>
      match Format.ofName? value with
      | some format =>
        if o.format.isNone then .ok { g with options.format := some format } else .error .misuse
      | none => .error .misuse
    | _ => .error .misuse

/-- Read the arguments after the name of a command. -/
def read (single : Bool) (g : Given) : List String → Except Stop Given
  | [] => .ok g
  | argument :: rest =>
    match Argument.ofText argument with
    | .separator => rest.foldlM (addPath single) g
    | .plain path => do read single (← g.addPath single path) rest
    | .short flags => do
      readFlags false flags
      read single g rest
    | .long "verbose" none => read single g rest
    | .long "help" none => .error .help
    | .long name (some value) => do read single (← g.setOption name value) rest
    | .long name none =>
      match rest with
      | [] => .error .misuse
      | next :: rest =>
        match Argument.ofText next with
        | .plain value => do read single (← g.setOption name value) rest
        | _ => .error .misuse

end Given

/-! ### The whole line -/

def ofArguments : List String → Except Stop Command
  | [] => .error .misuse
  | argument :: rest =>
    match Argument.ofText argument with
    | .plain "check" => do
      let g ← Given.read false {} rest
      if g.paths.isEmpty then .error .misuse else .ok (.check g.paths g.options)
    | .plain "types" => do
      let g ← Given.read true {} rest
      match g.paths with
      | [file] => .ok (.types file g.options)
      | _ => .error .misuse
    | .plain "help" =>
      .error (if rest.length ≤ 1 && rest.all (["check", "types", "help"].contains ·) then .help
        else .misuse)
    | .short flags => do
      readFlags true flags
      ofArguments rest
    | .long "verbose" none => ofArguments rest
    | .long "help" none => .error .help
    | .long "version" none => .error .version
    | _ => .error .misuse

end Command

end FlowTyping
