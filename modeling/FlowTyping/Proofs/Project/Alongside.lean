/-
Loading modules beside others.

A project loads some modules, and a second project does the same after it has loaded others that
have nothing to do with them.  Step by step the two do the same: a name that is unknown to one is
unknown to the other, a module gets the next number on both sides, and it is walked over graphs that
stand beside each other, so the walks form a twin.  What is found belongs together in the end
(`Loading.alongside`), and reports depend only on what belongs together (`Graph.Copy.report`).
-/
import FlowTyping.Proofs.Project.Tidy
import FlowTyping.Proofs.Twin.Beside

namespace FlowTyping

open FlowTyping.Graph (Request)

variable {w : Pairing} {x y : Analysis} {g h : Graph} {s t : LoadState}

/-! ### Analyses -/

/-- The same analysis, up to the numbers in it. -/
structure Pairing.AnalysisMatch (w : Pairing) (x y : Analysis) : Prop where
  name : y.name = x.name
  exported : Table.Match w.node x.exports y.exports
  functions : List.Forall₂ w.ofFunction x.functions y.functions
  checks : List.Forall₂ w.node x.checks y.checks
  constructors : List.Forall₂ (fun c d => w.ofClass c.owner d.owner ∧ w.node c.returns d.returns ∧
    d.line = c.line) x.constructors y.constructors
  diagnostics : y.diagnostics = x.diagnostics

theorem Pairing.AnalysisMatch.mono {w' : Pairing} (h : w.AnalysisMatch x y)
    (hw : w.Grows w') : w'.AnalysisMatch x y where
  name := h.name
  exported := h.exported.mono hw.node
  functions := h.functions.imp fun _ _ hf => hw.ofFunction hf
  checks := h.checks.imp fun _ _ hi => hw.node hi
  constructors := h.constructors.imp fun _ _ hc => ⟨hw.ofClass hc.1, hw.node hc.2.1, hc.2.2⟩
  diagnostics := h.diagnostics

/-- **Twins find the same.** -/
theorem Twin.analysisMatch {P : Twin}
    (hstart : P.States [] [] w (.start g) (.start h)) (body : List Stmt) :
    ∃ w', w.Grows w' ∧ P.graphs w' (Analysis.ofModule P.left body g).2 (Analysis.ofModule P.right body h).2 ∧
      w'.AnalysisMatch (Analysis.ofModule P.left body g).1 (Analysis.ofModule P.right body h).1 := by
  obtain ⟨w', hw, hend⟩ := Twin.states_walkModule hstart body
  refine ⟨w', hw, ?_⟩
  unfold Analysis.ofModule ReaderT.run
  generalize Inference.walkModule body P.left (.start g) = found at hend ⊢
  generalize Inference.walkModule body P.right (.start h) = found' at hend ⊢
  obtain ⟨⟨⟩, s⟩ := found
  obtain ⟨⟨⟩, t⟩ := found'
  refine ⟨hend.graph, P.agrees.name, ?_, hend.functions, hend.checks, ?_, hend.diagnostics.2.trans hend.diagnostics.1.symm⟩
  · -- the exports are the summaries of the only scope
    dsimp only
    exact optionRel_cases (hend.scopes.get 0) .nil fun hscope =>
      hscope.summaries.mono fun hi => P.node_of_receiver hend.graph hi
  · exact hend.constructors.imp fun _ _ hc =>
      ⟨hc.owner, P.node_of_receiver hend.graph hc.returns, hc.line.symm⟩

/-! ### Reports -/

theorem filterMap_of_forall₂ {α β γ : Type} {R : α → β → Prop} {f : α → Option γ} {k : β → Option γ}
    {as : List α} {bs : List β} (h : List.Forall₂ R as bs) (hfk : ∀ a b, R a b → k b = f a) :
    bs.filterMap k = as.filterMap f := by
  induction h with
  | nil => rfl
  | cons hab _ ih => rw [List.filterMap_cons, List.filterMap_cons, hfk _ _ hab, ih]

namespace Graph

variable {ρ : Renaming} {g h : Graph}

namespace Copy

variable (hc : Copy ρ g h)
include hc

theorem check (id : NodeId) : h.check (ρ.node id) = g.check id := by
  unfold Graph.check
  rw [hc.rule?, Option.bind_map]
  congr 1
  funext r
  exact hc.mirror.issue? r

/-- A node with an issue is no constant, so it has its line in the copy. -/
theorem failure (hclean : g.Clean) (module : String) (id : NodeId) :
    ((h.check (ρ.node id)).map fun issue => Diagnostic.mk module (h.line (ρ.node id)) issue) =
      (g.check id).map fun issue => ⟨module, g.line id, issue⟩ := by
  rw [hc.check]
  rcases hissue : g.check id with - | issue
  · rfl
  · rw [hc.line]
    rintro ⟨t, ht⟩
    rw [Graph.check, (hclean.constants t id ht).1] at hissue
    cases hissue

theorem constructorReturn? (module : String) {c d : Constructor}
    (howner : ρ.ofClass c.owner = d.owner) (hreturns : ρ.node c.returns = d.returns) (hline : d.line = c.line) :
    Report.constructorReturn? h module d = Report.constructorReturn? g module c := by
  have hreturned : (ρ.types (g.types c.returns)).toList.filter (fun t => t ≠ .base .none ∧ t ≠ .any) =
      ((g.types c.returns).toList.filter fun t => t ≠ .base .none ∧ t ≠ .any).map ρ.ty := by
    rw [Renaming.toList_types, List.filter_map]
    congr 1
    refine List.filter_congr fun t _ => ?_
    cases t <;> rfl
  unfold Report.constructorReturn?
  rw [← howner, ← hreturns, hline, hc.types, hreturned, hc.class?]
  simp only [List.isEmpty_map, List.map_map, Option.map_map, Function.comp_def, hc.mirror.describe]
  rfl

theorem functionReport (info : FunctionInfo) :
    Report.functionReport h (ρ.functionInfo info) = Report.functionReport g info := by
  simp only [Report.functionReport, Renaming.functionInfo, Renaming.param, Report.typedName,
    List.map_map, Function.comp_def, hc.mirror.typeNames]

/-- **A report can be made from a copy.** -/
theorem report (hclean : g.Clean) (hm : (g.renamed ρ).AnalysisMatch x y)
    (config : Config) : Report.ofAnalysis config h y = Report.ofAnalysis config g x := by
  have hfailures : Report.failures h y.name y.checks = Report.failures g x.name x.checks := by
    rw [hm.name]
    refine filterMap_of_forall₂ hm.checks fun i j hij => ?_
    rw [← hij.1]
    exact hc.failure hclean x.name i
  have hconstructors : y.constructors.filterMap (Report.constructorReturn? h y.name) =
      x.constructors.filterMap (Report.constructorReturn? g x.name) := by
    rw [hm.name]
    exact filterMap_of_forall₂ hm.constructors fun c d hcd =>
      hc.constructorReturn? x.name hcd.1.1 hcd.2.1.1 hcd.2.2
  have hbindings : y.exports.entries.map (fun e => Report.typedName h e.1 e.2) =
      x.exports.entries.map (fun e => Report.typedName g e.1 e.2) := by
    rw [← List.filterMap_eq_map, ← List.filterMap_eq_map]
    refine filterMap_of_forall₂ hm.exported fun e f hef => ?_
    show some (Report.typedName h f.1 f.2) = some (Report.typedName g e.1 e.2)
    rw [Report.typedName, Report.typedName, ← hef.1, ← hef.2.1, hc.mirror.typeNames]
  have hfunctions : (y.functions.filterMap h.function?).map (Report.functionReport h) =
      (x.functions.filterMap g.function?).map (Report.functionReport g) := by
    rw [List.map_filterMap, List.map_filterMap]
    refine filterMap_of_forall₂ hm.functions fun f k hfk => ?_
    rw [← hfk.1, hc.function?, Option.map_map]
    congr 1
    funext info
    exact hc.functionReport info
  unfold Report.ofAnalysis
  rw [hfailures, hconstructors, hfunctions, hm.name, hm.diagnostics]
  exact congrArg (fun bindings => Report.mk _ _ bindings _) hbindings

end Copy

end Graph

/-! ### Projects -/

/-- The same load state, up to the number in it. -/
inductive Pairing.StateMatch (w : Pairing) : LoadState → LoadState → Prop
  | inProgress {m n : ModuleId} (h : w.ofModule m n) : StateMatch w (.inProgress m) (.inProgress n)
  | done {m n : ModuleId} (h : w.ofModule m n) : StateMatch w (.done m) (.done n)
  | missing : StateMatch w .missing .missing

namespace Pairing

variable {w w' : Pairing}

theorem StateMatch.mono (h : w.StateMatch s t) (hw : w.Grows w') : w'.StateMatch s t := by
  cases h with
  | inProgress h => exact .inProgress (hw.ofModule h)
  | done h => exact .done (hw.ofModule h)
  | missing => exact .missing

theorem StateMatch.target (h : w.StateMatch s t) : w.TargetMatch s.target t.target := by
  cases h with
  | inProgress h => exact .cyclic
  | done h => exact .module h
  | missing => exact .missing

theorem StateMatch.id? (h : w.StateMatch s t) :
    Option.Rel w.ofModule (Project.LoadState.id? s) (Project.LoadState.id? t) := by
  cases h with
  | inProgress h | done h => exact .some h
  | missing => exact .none

theorem TargetMatch.missing_iff {t u : ImportTarget} (h : w.TargetMatch t u) : u = .missing ↔ t = .missing := by
  cases h <;> simp

end Pairing

namespace Project

variable {source : Source} {name : String} {m : Module} {isPackage : Bool} {w w' : Pairing}
  {ρ : Renaming} {other p p' q : Project} {names : List String} {targets targets' : List ImportTarget}

theorem match_noteAll {candidates : List (String × Bool)} {imports imports' : Table String ImportTarget}
    (h : imports.Match w.TargetMatch imports') (htargets : List.Forall₂ w.TargetMatch targets targets') :
    (noteAll imports candidates targets).Match w.TargetMatch (noteAll imports' candidates targets') := by
  induction htargets generalizing imports imports' candidates with
  | nil =>
    unfold noteAll
    rw [List.zip_nil_right]
    exact h
  | @cons target target' _ _ htarget _ ih =>
    rcases candidates with - | ⟨candidate, candidates⟩
    · exact h
    · rw [noteAll_cons, noteAll_cons]
      refine ih ?_
      unfold note
      simp only [htarget.missing_iff]
      split
      · exact h
      · exact h.insert _ htarget

/-- A project that loads modules on its own, and one that loads them after another project has got
somewhere else.  Nothing is said of the names that the other project knows. -/
structure Alongside (ρ : Renaming) (other : Project) (w : Pairing) (p q : Project) : Prop where
  graphs : ∃ σ, Graph.Alongside ρ other.graph σ p.graph q.graph ∧ w = p.graph.renamed σ
  config : q.config = p.config
  states : ∀ x, other.states.get? x = none →
    Option.Rel w.StateMatch (p.states.get? x) (q.states.get? x)
  analyses : ∃ later, q.analyses = other.analyses ++ later ∧
    List.Forall₂ w.AnalysisMatch p.analyses later

namespace Alongside

theorem setState (h : Alongside ρ other w p q) (hst : w.StateMatch s t) (name : String) :
    Alongside ρ other w (p.setState name s) (q.setState name t) where
  graphs := h.graphs
  config := h.config
  states x hx := by
    rw [get?_setState, get?_setState]
    split
    · exact .some hst
    · exact h.states x hx
  analyses := h.analyses

theorem withGraphs {k : Graph} (h : Alongside ρ other w p q) (hw : w.Grows w')
    (hgraphs : ∃ σ, Graph.Alongside ρ other.graph σ g k ∧ w' = g.renamed σ) :
    Alongside ρ other w' { p with graph := g } { q with graph := k } where
  graphs := hgraphs
  config := h.config
  states x hx := optionRel_imp (h.states x hx) fun hst => hst.mono hw
  analyses := by
    obtain ⟨later, heq, hall⟩ := h.analyses
    exact ⟨later, heq, hall.imp fun _ _ hm => hm.mono hw⟩

theorem package? (h : Alongside ρ other w p q)
    (hpackage : ∀ x ∈ packages name, other.states.get? x = none) :
    Option.Rel (fun e f => w.ofModule e.1 f.1 ∧ f.2 = e.2) (p.package? name) (q.package? name) := by
  unfold packages at hpackage
  unfold Project.package?
  generalize parent? name = e at hpackage ⊢
  rcases e with - | ⟨parent, leaf⟩
  · exact .none
  · show Option.Rel _ ((p.idOf? parent).map (·, leaf)) ((q.idOf? parent).map (·, leaf))
    rw [idOf?_eq, idOf?_eq]
    refine optionRel_cases (h.states parent (hpackage parent List.mem_cons_self)) .none fun hst => ?_
    show Option.Rel _ ((LoadState.id? _).map _) ((LoadState.id? _).map _)
    exact optionRel_cases hst.id? .none fun hid => .some ⟨hid, rfl⟩

end Alongside

end Project

/-- A module gets the next number on both sides, and its place in its package. -/
theorem Graph.Alongside.placed {ρ σ : Renaming} {a b : Graph}
    {parent parent' : Option (ModuleId × String)} (hl : Graph.Alongside ρ a σ b h) (name : String)
    (hparent : Option.Rel (fun e f => (b.renamed σ).ofModule e.1 f.1 ∧ f.2 = e.2) parent parent') :
    ∃ σ', Graph.Alongside ρ a σ' (Project.placed b name parent) (Project.placed h name parent') ∧
      (b.renamed σ).Grows ((Project.placed b name parent).renamed σ') ∧
      ((Project.placed b name parent).renamed σ').ofModule ⟨b.modules.size⟩ ⟨h.modules.size⟩ := by
  have hgiven : Request.Given b (.addModule name) := trivial
  obtain ⟨σ₁, hl₁, hσ₁⟩ := hl.request (r := .addModule name) hgiven trivial
    (fun _ => Request.noConfusion) Request.noConfusion
  have hgrows := hl.grows hgiven (hσ₁.earlier (hl.sound.prepared_change hgiven).later)
  have hnext : ((b.addModule name).2.renamed σ₁).ofModule ⟨b.modules.size⟩ ⟨h.modules.size⟩ := by
    have hsize : b.modules.size < (b.addModule name).2.modules.size := by
      show _ < (b.modules.push _).size
      rw [Array.size_push]
      exact Nat.lt_succ_self _
    exact ⟨(hσ₁.ofModule hsize).trans hl.copy.nextModule_eq, hsize⟩
  cases hparent with
  | none => exact ⟨σ₁, hl₁, hgrows, hnext⟩
  | @some e f hef =>
    obtain ⟨package, leaf⟩ := e
    obtain ⟨package', leaf'⟩ := f
    obtain ⟨hpackage, rfl⟩ := hef
    obtain ⟨hpackage, hthere⟩ := hgrows.ofModule hpackage
    have hgiven₁ : Request.Given (b.addModule name).2 (.addSubmodule package leaf' ⟨b.modules.size⟩) :=
      ⟨hthere, hnext.2⟩
    obtain ⟨σ₂, hl₂, hσ₂⟩ := hl₁.request hgiven₁ trivial (fun _ => Request.noConfusion) Request.noConfusion
    have hgrows₁ := hl₁.grows hgiven₁ (hσ₂.earlier (hl₁.sound.prepared_change hgiven₁).later)
    refine ⟨σ₂, ?_, hgrows.trans hgrows₁, hgrows₁.ofModule hnext⟩
    rw [show σ₁.request (.addSubmodule package leaf' ⟨b.modules.size⟩) =
      .addSubmodule package' leaf' ⟨h.modules.size⟩ by rw [Renaming.request, hpackage, hnext.1]] at hl₂
    exact hl₂

namespace Project

variable {source : Source} {m : Module} {w w' : Pairing} {ρ : Renaming}
  {other p p' q : Project} {names : List String} {targets targets' : List ImportTarget}

namespace Alongside

variable {id id' : ModuleId}

theorem register (h : Alongside ρ other w p q) (name : String)
    (hpackage : ∀ x ∈ packages name, other.states.get? x = none) :
    ∃ w', w.Grows w' ∧ w'.ofModule p.nextId q.nextId ∧
      Alongside ρ other w' (p.register name (p.package? name)) (q.register name (q.package? name)) := by
  have hparent := h.package? hpackage
  obtain ⟨σ, hl, rfl⟩ := h.graphs
  obtain ⟨σ', hl', hw, hnext⟩ := hl.placed name hparent
  exact ⟨_, hw, hnext, (h.withGraphs hw ⟨σ', hl', rfl⟩).setState (.inProgress hnext) name⟩

theorem done {result result' : Analysis × Graph} (h : Alongside ρ other w p q)
    (hw : w.Grows w') (hid : w.ofModule id id')
    (hgraphs : ∃ σ, Graph.Alongside ρ other.graph σ result.2 result'.2 ∧ w' = result.2.renamed σ)
    (hanalysis : w'.AnalysisMatch result.1 result'.1) :
    Alongside ρ other w' (p.complete m id result) (q.complete m id' result') := by
  have hdone := (h.withGraphs hw hgraphs).setState (.done (hw.ofModule hid)) m.name
  obtain ⟨later, heq, hall⟩ := hdone.analyses
  refine ⟨hdone.graphs, hdone.config, hdone.states, later ++ [result'.1], ?_,
    List.rel_append hall (.cons hanalysis .nil)⟩
  show q.analyses ++ [result'.1] = _
  rw [show q.analyses = other.analyses ++ later from heq, List.append_assoc]

/-- A module is walked in the same way on both sides. -/
theorem complete (h : Alongside ρ other w p q) (hid : w.ofModule id id')
    (htargets : List.Forall₂ w.TargetMatch targets targets') (m : Module) (isPackage : Bool) :
    ∃ w', w.Grows w' ∧ Alongside ρ other w' (p.complete m id (p.walked m isPackage id targets))
      (q.complete m id' (q.walked m isPackage id' targets')) := by
  have himports : (noteAll .empty (wanted m isPackage) targets).Match w.TargetMatch
      (noteAll .empty (wanted m isPackage) targets') := match_noteAll .nil htargets
  obtain ⟨w', hw, hgraphs, hanalysis⟩ := Twin.analysisMatch
    (P := Twin.beside (contextOf p m isPackage id (noteAll .empty (wanted m isPackage) targets))
      (contextOf q m isPackage id' (noteAll .empty (wanted m isPackage) targets')) ⟨h.config, rfl, rfl⟩ ρ other.graph)
    (Twin.states_start h.graphs hid himports.get?) m.body
  exact ⟨w', hw, h.done hw hid hgraphs hanalysis⟩

end Alongside

/-- **Modules are loaded in the same way beside others**, as long as they lead to nothing that the
others know. -/
theorem Loading.alongside (hload : Loading source p names targets p') (h : Alongside ρ other w p q)
    (hother : ∀ n ∈ names, ∀ x, Leads source n x → other.states.get? x = none) :
    ∃ w' targets' q', w.Grows w' ∧ Loading source q names targets' q' ∧ Alongside ρ other w' p' q' ∧
      List.Forall₂ w'.TargetMatch targets targets' := by
  induction hload generalizing w q with
  | nil p => exact ⟨w, [], q, .refl w, .nil q, h, .nil⟩
  | @known p p' name names state targets hstate _ ih =>
    have hself := h.states name (hother name List.mem_cons_self name .refl)
    rw [hstate] at hself
    obtain ⟨state', hstate', hmatch⟩ := optionRel_some_left hself
    obtain ⟨w', targets', q', hw, hload', h', htargets⟩ :=
      ih h fun n hn => hother n (List.mem_cons_of_mem _ hn)
    exact ⟨w', _, q', hw, .known hstate' hload', h', .cons (hmatch.target.mono hw) htargets⟩
  | @absent p p' name names targets hstate hmodule _ ih =>
    have hself := h.states name (hother name List.mem_cons_self name .refl)
    rw [hstate] at hself
    obtain ⟨w', targets', q', hw, hload', h', htargets⟩ :=
      ih (h.setState .missing name) fun n hn => hother n (List.mem_cons_of_mem _ hn)
    refine ⟨w', _, q', hw, .absent ?_ hmodule hload', h', .cons .missing htargets⟩
    generalize q.states.get? name = o at hself ⊢
    cases hself
    rfl
  | @loaded p p₁ p₂ p' name names m isPackage before found targets hstate hmodule _ _ _ ih₁ ih₂ ih₃ =>
    have hself := h.states name (hother name List.mem_cons_self name .refl)
    rw [hstate] at hself
    -- all that the module needs is unknown to the others as well
    have hneeded : ∀ x, Needs source name x → ∀ y, Leads source x y → other.states.get? y = none :=
      fun x hx y hy => hother name List.mem_cons_self y (.head hx hy)
    have hpackages : ∀ x ∈ packages name, Needs source name x := fun x hx =>
      ⟨m, isPackage, hmodule, .inl hx⟩
    have himported : ∀ x ∈ imported m isPackage, Needs source name x := fun x hx =>
      ⟨m, isPackage, hmodule, .inr hx⟩
    -- the package, the number, the imports, the walk, and the rest
    obtain ⟨w₁, before', q₁, hw₁, hload₁, h₁, -⟩ := ih₁ h fun x hx => hneeded x (hpackages x hx)
    obtain ⟨w₂, hw₂, hid, h₂⟩ := h₁.register name fun x hx => hneeded x (hpackages x hx) x .refl
    obtain ⟨w₃, found', q₂, hw₃, hload₂, h₃, hfound⟩ := ih₂ h₂ fun x hx => hneeded x (himported x hx)
    obtain ⟨w₄, hw₄, h₄⟩ := h₃.complete (hw₃.ofModule hid) hfound m isPackage
    obtain ⟨w₅, targets', q', hw₅, hload₃, h₅, htargets⟩ :=
      ih₃ h₄ fun n hn => hother n (List.mem_cons_of_mem _ hn)
    refine ⟨w₅, _, q', (((hw₁.trans hw₂).trans hw₃).trans hw₄).trans hw₅,
      .loaded ?_ hmodule hload₁ hload₂ hload₃, h₅,
      .cons (.module (hw₅.ofModule (hw₄.ofModule (hw₃.ofModule hid)))) htargets⟩
    generalize q.states.get? name = o at hself ⊢
    cases hself
    rfl

end Project

end FlowTyping
