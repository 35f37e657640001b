/-
What the analysis of a module has to report while it walks.

Only two kinds of things are said before all types are known: that an import leads nowhere, and that
a jump statement is out of place.  `walkReports` lists them in the order in which a walk comes
across them.
-/
import Mathlib
import FlowTyping.Inference.Definition

namespace FlowTyping.Inference

/-! ### Imports -/

/-- The imports of a module lead nowhere under a name. -/
def Lacks (imports : Table String ImportTarget) (name : String) : Prop :=
  imports.get? name = none ∨ imports.get? name = some .missing

instance (imports : Table String ImportTarget) (name : String) : Decidable (Lacks imports name) :=
  inferInstanceAs (Decidable (_ ∨ _))

def importReports (context : Context) : Stmt → List Diagnostic
  | .importModules line aliases =>
    (aliases.filter fun a => Lacks context.imports a.path).map fun a =>
      ⟨context.name, line, .unresolvedImport a.path⟩
  | .importFrom line module _ level =>
    match Import.resolve? context.name context.isPackage module level with
    | some name => if Lacks context.imports name then [⟨context.name, line, .unresolvedImport name⟩] else []
    | none => [⟨context.name, line, .unresolvedImport (writtenName module level)⟩]
  | _ => []

/-- What is reported about a name that imports lead to some target under, or to none. -/
def missingReports (context : Context) (line : Nat) (name : String) : Option ImportTarget → List Diagnostic
  | none | some .missing => [⟨context.name, line, .unresolvedImport name⟩]
  | _ => []

theorem missingReports_get? (context : Context) (line : Nat) (name : String) :
    missingReports context line name (context.imports.get? name) =
      if Lacks context.imports name then [⟨context.name, line, .unresolvedImport name⟩] else [] := by
  rcases h : context.imports.get? name with - | target
  · simp [missingReports, Lacks, h]
  · cases target <;> simp [missingReports, Lacks, h]

theorem importReports_cons (context : Context) (line : Nat) (a : Alias) (aliases : List Alias) :
    importReports context (.importModules line (a :: aliases)) =
      missingReports context line a.path (context.imports.get? a.path) ++
        importReports context (.importModules line aliases) := by
  rw [missingReports_get?]
  simp only [importReports, List.filter_cons, decide_eq_true_eq]
  split <;> rfl

/-! ### Bodies -/

def misplacedReports (context : Context) (flow : Flow) : List Diagnostic :=
  if context.config.reportConstructionErrors then
    flow.misplaced.map fun m => ⟨context.name, m.line, .construction m.message⟩
  else []

def itemReports (context : Context) (inner : Flow → List Diagnostic) (i : Flow.Item) : List Diagnostic :=
  match i.action with
  | .simple stmt => importReports context stmt
  | .functionDef fn => misplacedReports context (.ofFunction fn.body) ++ inner (.ofFunction fn.body)
  | .classDef cls => misplacedReports context (.ofClass cls.body) ++ inner (.ofClass cls.body)
  | _ => []

def walkReports (context : Context) : Nat → Flow → List Diagnostic
  | 0, _ => []
  | nested + 1, flow =>
    (flow.reachable.flatMap flow.items).flatMap (itemReports context (walkReports context nested))

def moduleReports (context : Context) (body : List Stmt) : List Diagnostic :=
  misplacedReports context (.ofModule body) ++
    walkReports context (nestingOfAll body + 1) (.ofModule body)

end FlowTyping.Inference
