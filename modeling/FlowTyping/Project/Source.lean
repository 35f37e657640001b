/-
Where modules come from.

A source gives the text of a module by its dotted name, together with its parsed statements if the
text is well formed, and tells whether the module is a package, that is, whether other modules stand
below it.  Modules that wait for one another while they are loaded have different names, so their
number and the length of their names bound how deep loading can go; a source knows such a bound.
-/
import FlowTyping.Measure
import FlowTyping.Table
import FlowTyping.Text.Dotted
import FlowTyping.Tree.Numbering

namespace FlowTyping

/-- A text of the program and its statements, if it is well formed. -/
structure SourceText where
  text : String
  tree : Option (List Parse.Stmt)
deriving Inhabited

structure Loaded where
  source : SourceText
  isPackage : Bool
deriving Inhabited

structure Source where
  load? : String → Option Loaded
  /-- How deep the loading of modules can be nested. -/
  bound : Nat

/-- The statements of a module ready for analysis, if it is well formed. -/
def Loaded.module? (l : Loaded) (name : String) : Option Module :=
  l.source.tree.map (.ofParse name l.source.text)

namespace Source

def ofModules (modules : Table String SourceText) : Source where
  load? name := (modules.get? name).map fun source =>
    ⟨source, modules.keys.any fun other => other.startsWith (name ++ ".")⟩
  bound := (modules.size + 1) * (total (fun name => (Text.dotted name).length) modules.keys + 2)

end Source

end FlowTyping
