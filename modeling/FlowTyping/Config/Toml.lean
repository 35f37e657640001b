/-
Reading the settings from a TOML document.

A setting that is not given keeps its standard value, and a key that is no setting is ignored.  A
document that is ill formed, or a setting of the wrong type, makes the whole configuration invalid.
-/
import FlowTyping.Config.Basic
import FlowTyping.Toml.Reader

namespace FlowTyping.Config

def flag? (entries : Toml.Entries) (key : String) (standard : Bool) : Option Bool :=
  match Table.find? key entries with
  | none => some standard
  | some (.boolean value) => some value
  | some _ => none

def text? : Toml.Value → Option String
  | .string text => some text
  | _ => none

def names? (entries : Toml.Entries) (key : String) (standard : List String) :
    Option (List String) :=
  match Table.find? key entries with
  | none => some standard
  | some (.array items) => items.mapM text?
  | some _ => none

def ofEntries? (entries : Toml.Entries) : Option Config := do
  return {
    inferParameters := ← flag? entries "infer_parameters" standard.inferParameters
    unboundAsNone := ← flag? entries "unbound_as_none" standard.unboundAsNone
    checkConstructorReturns :=
      ← flag? entries "check_constructor_returns" standard.checkConstructorReturns
    reportConstructionErrors :=
      ← flag? entries "report_construction_errors" standard.reportConstructionErrors
    builtinsAsAny := ← names? entries "builtins_as_any" standard.builtinsAsAny }

/-- The settings of a text, if it is a valid configuration. -/
def ofToml? (text : String) : Option Config := (Toml.parse? text).bind ofEntries?

end FlowTyping.Config
