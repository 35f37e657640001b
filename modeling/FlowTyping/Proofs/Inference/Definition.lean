/-
The parts of a definition.

The definition of a function goes on in the same way whatever is done about its name.  What is left
then is given a name of its own here, so that it can be spoken of.
-/
import Mathlib
import FlowTyping.Inference.Definition

namespace FlowTyping.Inference

/-- The walk over the body of a function, in a scope of its own. -/
def walkFunction (walk : Flow → Infer Unit) (fn : FunctionDef Stmt) (owner : Option ClassId)
    (params : List Param) (returns : NodeId) (function : FunctionId) : Infer Unit := do
  let flow := Flow.ofFunction fn.body
  reportFlow flow
  let versions := Versions.ofFlow flow (params.map (·.name))
  pushScope (.ofVersions (.functionBody function) versions)
  inPath fn.name.name do
    bindParameters params
    pushUnknowns (← seedParameters (receiver? owner (decoration fn.decorators).role) params.zipIdx)
    walk flow
    implicitResult versions flow returns
    popUnknowns
  popScope

/-- What is left of a function definition once its name is written: a constructor is noted, and the
body is walked. -/
def finishFunction (walk : Flow → Infer Unit) (line : Nat) (fn : FunctionDef Stmt)
    (owner : Option ClassId) (params : List Param) (returns : NodeId) (function : FunctionId) :
    Infer Unit := do
  match owner with
  | some c =>
    if fn.name.name = "__init__" && (← read).config.checkConstructorReturns then
      modify fun s => { s with constructors := s.constructors ++ [⟨c, returns, line⟩] }
  | none => pure ()
  walkFunction walk fn owner params returns function

/-- What is done about the name of a function, and then the rest. -/
def nameFunction (walk : Flow → Infer Unit) (line : Nat) (fn : FunctionDef Stmt) (owner : Option ClassId)
    (params : List Param) (returns : NodeId) (function : FunctionId) : Infer Unit :=
  let rest := finishFunction walk line fn owner params returns function
  if (decoration fn.decorators).accessor then rest
  else if (decoration fn.decorators).unknown then do
    writeName fn.name.id fn.name.name (← anyNode) line
    rest
  else do
    writeName fn.name.id fn.name.name (← constant (.function function)) line
    rest

/-- The class whose body a scope is. -/
def classOf? : ScopeKind → Option ClassId
  | .classBody c => some c
  | _ => none

end FlowTyping.Inference

namespace FlowTyping

theorem Analysis.ofModule_graph (context : Inference.Context) (body : List Stmt) (g : Graph) :
    (Analysis.ofModule context body g).2 =
      (Inference.walkModule body context (Inference.State.start g)).2.graph := by
  unfold Analysis.ofModule ReaderT.run
  rcases Inference.walkModule body context (Inference.State.start g) with ⟨⟨⟩, s⟩
  rfl

end FlowTyping
