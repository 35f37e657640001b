/-
What an analysis reports.

An analysis goes side by side with itself, over whatever graph, since every number may be paired
with itself.  What the walks of a twin report is then what the analysis reports, and no request that
it makes adds a module.
-/
import FlowTyping.Proofs.Twin.Definition

namespace FlowTyping

open Inference

theorem Graph.moduleNames_run {r r' : Graph.Request} (h : Pairing.same.RequestMatch r r')
    (g : Graph) : (r.run g).moduleNames = g.moduleNames := by
  have hinner : r.isInner → (r.run g).moduleNames = g.moduleNames := fun hr =>
    congrArg (·.toList.map (·.name)) (Graph.aside_modules.run (fun _ => rfl) hr g)
  cases h with
  | @constant t _ _ =>
    show (g.constant t).2.moduleNames = _
    rcases g.constant_cases t with ⟨id, -, heq⟩ | heq
    · rw [heq]
    · rw [heq]
      exact congrArg (·.toList.map (·.name)) (Graph.aside_modules.push g (.plain []) 0)
  | addFunction h => rfl
  | setExport h name hnode => exact g.moduleNames_modifyModule _ fun _ => rfl
  | _ => exact hinner rfl

theorem optionRel_refl {α : Type} {R : α → α → Prop} (h : ∀ a, R a a) (a : Option α) : Option.Rel R a a := by
  cases a with
  | none => exact .none
  | some a => exact .some (h a)

/-- An analysis beside itself, over a graph with modules of the given names. -/
def Twin.same (context : Context) (names : List String) : Twin where
  left := context
  right := context
  agrees := .refl context
  graphs w g h := h = g ∧ w = .same ∧ g.moduleNames = names
  node_of_receiver := by
    rintro w g h a b ⟨-, rfl, -⟩ hab
    exact hab
  node_inj := by
    rintro w g h a b a' b' ⟨-, rfl, -⟩ rfl rfl
    exact Iff.rfl
  run := by
    rintro w g h r r' ⟨rfl, rfl, hnames⟩ hmatch
    refine ⟨.same, .refl _, ⟨by rw [hmatch.eq], rfl, (Graph.moduleNames_run hmatch h).trans hnames⟩, ?_⟩
    obtain rfl := hmatch.eq
    cases r with
    | add _ _ => rfl
    | constant _ => rfl
    | addClass _ _ => rfl
    | addFunction _ => rfl
    | _ => exact trivial
  classNodes := by
    rintro w g h c d ⟨rfl, rfl, -⟩ rfl
    exact List.forall₂_same.2 fun _ _ => rfl
  returns := by
    rintro w g h f k ⟨rfl, rfl, -⟩ rfl
    exact optionRel_refl (R := fun i j : FunctionInfo => i.returns = j.returns) (fun _ => rfl) _
  exported := by
    rintro w g h m n ⟨rfl, rfl, -⟩ rfl name
    exact optionRel_refl (fun _ => rfl) _
  knownKinds := by
    rintro w g h a b ⟨rfl, rfl, -⟩ rfl
    rfl
  accepted := by
    rintro w g h a b ⟨rfl, rfl, -⟩ rfl position
    rfl

theorem Pairing.targetMatch_same (target : ImportTarget) : Pairing.same.TargetMatch target target := by
  cases target with
  | module id => exact .module rfl
  | cyclic => exact .cyclic
  | missing => exact .missing

theorem Twin.States.ends {context : Context} {names : List String} {vs : List Versions} {ds : List Diagnostic}
    {w : Pairing} {s : State} (h : (Twin.same context names).States vs ds w s s) :
    s.diagnostics = ds ∧ s.graph.moduleNames = names := ⟨h.diagnostics.1, h.graph.2.2⟩

/-- **The analysis of a module**: it is named after the module, it reports what the walk does, and
it makes no module. -/
theorem Analysis.ofModule_reports (context : Context) (body : List Stmt) (g : Graph) :
    (Analysis.ofModule context body g).1.name = context.name ∧
      (Analysis.ofModule context body g).1.diagnostics = moduleReports context body ∧
      (Analysis.ofModule context body g).2.moduleNames = g.moduleNames := by
  have hstart : (Twin.same context g.moduleNames).States [] [] .same (.start g) (.start g) :=
    Twin.states_start ⟨rfl, rfl, rfl⟩ rfl fun _ => optionRel_refl Pairing.targetMatch_same _
  obtain ⟨w, -, hend⟩ := Twin.states_walkModule hstart body
  have hends : (walkModule body context (.start g)).2.diagnostics = moduleReports context body ∧
      (walkModule body context (.start g)).2.graph.moduleNames = g.moduleNames := Twin.States.ends hend
  unfold Analysis.ofModule ReaderT.run
  generalize walkModule body context (.start g) = result at hends ⊢
  obtain ⟨⟨⟩, s⟩ := result
  exact ⟨rfl, hends⟩

end FlowTyping
