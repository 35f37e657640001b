/-
Two walks over one module, side by side.

The body of a function or class is walked in a scope of its own, which is put aside afterwards.
`keeps_walk` is by induction on the depth to which definitions are nested, and it holds for any
number of scopes around the body.  The result for a whole module is `states_walkModule`: whatever
the two analyses have made belongs together, and neither has asked for a scope or a parameter that
is not there.
-/
import FlowTyping.Proofs.Inference.Definition
import FlowTyping.Proofs.Twin.Expression

namespace FlowTyping.Twin

open Inference

variable {P : Twin} {vs : List Versions} {v : Versions} {ds : List Diagnostic} {w : Pairing}
  {a b : Option ClassId} {as bs : List NodeId} {f k : FunctionId} {fn : FunctionDef Stmt}
  {ps qs : List Param} {x y : NodeId}

/-! ### Merges -/

theorem sim_mergeNodes (flow : Flow) (merges : List Merge) :
    P.Sim (vs ++ [v]) ds w (mergeNodes flow merges) (mergeNodes flow merges)
      fun w as bs => List.Forall₂ (fun e f => e.1 = f.1 ∧ w.receiver e.2 f.2) as bs := by
  induction merges generalizing w with
  | nil => exact Sim.pure fun _ _ => .nil
  | cons m merges ih =>
    refine (sim_addNode .merge _).bind fun w₁ a b _ hab => ?_
    refine Keeps.andThen (keeps_modifyScope (fun _ => rfl) fun _ hw _ _ hscope =>
      { hscope with bindings := hscope.bindings.insert (m.name, m.version) (hw.receiver hab) })
      fun w₂ _ _ hw₂ => ih.bind fun w₃ as bs hw₃ hs => Sim.pure fun w₄ hw₄ => ?_
    exact .cons ⟨rfl, ((hw₂.trans hw₃).trans hw₄).receiver hab⟩
      (hs.imp fun _ _ h => ⟨h.1, hw₄.receiver h.2⟩)

theorem sim_incoming (name : String) (line : Nat) (sources : List Definition) :
    P.Sim (vs ++ [v]) ds w (incoming name line sources) (incoming name line sources)
      fun w => List.Forall₂ w.IncomingMatch := by
  induction sources generalizing w with
  | nil => exact Sim.pure fun _ _ => .nil
  | cons d sources ih =>
    cases d with
    | version version =>
      exact (sim_binding name version line).toNode.bind fun w₁ _ _ _ hab => ih.bind fun w₂ _ _ hw₂ hs =>
        Sim.pure fun w₃ hw₃ => .cons (.value ((hw₂.trans hw₃).node hab))
          (hs.imp fun _ _ h => h.mono hw₃)
    | unbound =>
      exact ih.bind fun w₁ _ _ _ hs => Sim.pure fun w₂ hw₂ =>
        .cons .unbound (hs.imp fun _ _ h => h.mono hw₂)

theorem keeps_connectMerges {as bs : List (Merge × NodeId)} (flow : Flow)
    (h : List.Forall₂ (fun e f => e.1 = f.1 ∧ w.receiver e.2 f.2) as bs) :
    P.Keeps (vs ++ [v]) ds w (connectMerges flow as) (connectMerges flow bs) := by
  induction as generalizing w bs with
  | nil =>
    cases h
    exact Keeps.pure
  | cons e as ih =>
    rcases h with - | ⟨hef, h⟩
    rename_i f bs
    obtain ⟨m, a⟩ := e
    obtain ⟨m', b⟩ := f
    obtain ⟨heq, hab⟩ := hef
    change m = m' at heq
    subst heq
    refine (sim_incoming m.name _ m.sources).bind fun w₁ xs ys hw₁ hs => ?_
    have hmerge : P.Keeps (vs ++ [v]) ds w₁ (changeGraph (·.addToMerge a xs))
        (changeGraph (·.addToMerge b ys)) := Sim.ofGraphs fun _ _ _ hw hgraph =>
      keeps_request (.addToMerge (P.node_of_receiver hgraph ((hw₁.trans hw).receiver hab))
        (hs.imp fun _ _ h => h.mono hw))
    exact hmerge.andThen fun w₂ _ _ hw₂ =>
      ih (h.imp fun _ _ h => ⟨h.1, (hw₁.trans hw₂).receiver h.2⟩)

/-! ### Functions -/

theorem says_reportFlow (flow : Flow) :
    P.Says vs ds w (misplacedReports P.left flow) (reportFlow flow) (reportFlow flow) := by
  have hall : ∀ (ms : List Flow.Misplaced) (ds : List Diagnostic) (w : Pairing),
      P.Says vs ds w (ms.map fun m => ⟨P.left.name, m.line, .construction m.message⟩)
        (reportMisplaced ms) (reportMisplaced ms) := by
    intro ms
    induction ms with
    | nil => exact fun _ _ => Keeps.pure.mute
    | cons m ms ih => exact fun _ _ => (says_report _ _).andThen fun w' _ _ _ => ih _ w'
  refine sim_read.bind fun _ c c' _ hcontexts => ?_
  obtain ⟨rfl, rfl⟩ := hcontexts
  rw [P.agrees.config, misplacedReports]
  split
  · exact hall _ _ _
  · exact Keeps.pure.mute

theorem keeps_bindParameters (h : List.Forall₂ w.ParamMatch ps qs) :
    P.Keeps (vs ++ [v]) ds w (bindParameters ps) (bindParameters qs) := by
  induction ps generalizing w qs with
  | nil =>
    cases h
    exact Keeps.pure
  | cons p ps ih =>
    rcases h with - | ⟨hpq, h⟩
    unfold bindParameters
    rw [← hpq.name]
    refine Keeps.andThen (keeps_modifyScope (fun _ => rfl) fun _ hw _ _ hscope =>
      { hscope with bindings := hscope.bindings.insert _ (hw.receiver hpq.node) })
      fun w₁ _ _ hw₁ => sim_depth.bind fun w₂ d d' hw₂ hd => ?_
    obtain ⟨rfl, rfl⟩ := hd
    refine (sim_summary lt_length_concat p.name).bind fun w₃ total total' hw₃ htotal => ?_
    have hw := (hw₁.trans hw₂).trans hw₃
    have hinput : P.Keeps (vs ++ [v]) ds w₃ (addInput total p.node) (addInput total' _) :=
      Sim.ofGraphs fun _ _ _ hw' hgraph => keeps_addInput (hw'.receiver htotal)
        (P.node_of_receiver hgraph ((hw.trans hw').receiver hpq.node))
    exact hinput.andThen fun w₄ _ _ hw₄ => ih (forall₂_param_mono h (hw.trans hw₄))

theorem keeps_implicitResult {a b : NodeId} (versions : Versions) (flow : Flow)
    (h : w.receiver a b) :
    P.Keeps vs ds w (implicitResult versions flow a) (implicitResult versions flow b) := by
  unfold implicitResult
  refine Sim.ite (fun _ => keeps_seed h (tyMatch_single (.fixed trivial))) fun _ =>
    Sim.ite (fun _ => ?_) fun _ => Keeps.pure
  exact sim_noneNode.bind fun _ _ _ hw hnone => keeps_addInput (hw.receiver h) hnone

theorem receiver?_rel (h : Option.Rel w.ofClass a b) (role : Role) :
    Option.Rel w.TyMatch (receiver? a role) (receiver? b role) := by
  cases h with
  | none => exact .none
  | some h =>
    cases role with
    | method | property => exact .some (.instanceOf h)
    | classMethod => exact .some (.classObject h)
    | staticMethod => exact .none

theorem map_name_eq (h : List.Forall₂ w.ParamMatch ps qs) : qs.map (·.name) = ps.map (·.name) := by
  induction h with
  | nil => rfl
  | cons hpq _ ih => rw [List.map_cons, List.map_cons, ih, hpq.name]

/-- A walk over bodies that works whatever scopes are around them, and reports what `inner` says. -/
def Walks (P : Twin) (walk : Flow → Infer Unit) (inner : Flow → List Diagnostic) : Prop :=
  ∀ vs v ds w flow, v.reachable = flow.reachable → P.Says (vs ++ [v]) ds w (inner flow) (walk flow) (walk flow)

theorem reachable_ofFlow (flow : Flow) (params : List String) :
    (Versions.ofFlow flow params).reachable = flow.reachable := rfl

/-- What the definition of a body reports. -/
def bodyReports (P : Twin) (inner : Flow → List Diagnostic) (flow : Flow) : List Diagnostic :=
  misplacedReports P.left flow ++ inner flow

variable {walk : Flow → Infer Unit} {inner : Flow → List Diagnostic}

theorem says_walkFunction (hwalk : P.Walks walk inner) (hparams : List.Forall₂ w.ParamMatch ps qs)
    (howner : Option.Rel w.ofClass a b) (hreturns : w.receiver x y) (hfk : w.ofFunction f k) :
    P.Says vs ds w (P.bodyReports inner (.ofFunction fn.body)) (walkFunction walk fn a ps x f)
      (walkFunction walk fn b qs y k) := by
  refine (says_reportFlow _).andThen fun w₁ _ _ hw₁ => ?_
  rw [map_name_eq hparams]
  refine says_inScope (Pairing.scopeMatch_ofVersions (.functionBody (hw₁.ofFunction hfk)) _)
    (says_inPath ?_)
  refine (keeps_bindParameters (forall₂_param_mono hparams hw₁)).andThen fun w₂ _ _ hw₂ => ?_
  have hw := hw₁.trans hw₂
  refine (sim_seedParameters (receiver?_rel (optionRel_imp howner fun h => hw.ofClass h) _)
    (forall₂_param_mono hparams hw) 0).bind fun w₃ _ _ hw₃ hunknown =>
    (keeps_pushUnknowns hunknown).andThen fun w₄ _ _ hw₄ =>
    (hwalk _ _ _ w₄ _ (reachable_ofFlow _ _)).andKeeps fun w₅ _ _ hw₅ => ?_
  have hlater := ((hw.trans hw₃).trans hw₄).trans hw₅
  exact (keeps_implicitResult _ _ (hlater.receiver hreturns)).andThen fun _ _ _ _ => keeps_popUnknowns

theorem keeps_noteConstructor {c d : ClassId} (line : Nat) (h : w.ofClass c d)
    (hreturns : w.receiver x y) :
    P.Keeps vs ds w (modify fun s => { s with constructors := s.constructors ++ [⟨c, x, line⟩] })
      (modify fun s => { s with constructors := s.constructors ++ [⟨d, y, line⟩] }) :=
  keeps_modify fun _ _ _ hw hst => { hst with
    constructors := List.rel_append hst.constructors
      (.cons ⟨hw.ofClass h, hw.receiver hreturns, rfl⟩ .nil) }

theorem says_finishFunction (line : Nat) (hwalk : P.Walks walk inner)
    (hparams : List.Forall₂ w.ParamMatch ps qs) (howner : Option.Rel w.ofClass a b)
    (hreturns : w.receiver x y) (hfk : w.ofFunction f k) :
    P.Says vs ds w (P.bodyReports inner (.ofFunction fn.body))
      (finishFunction walk line fn a ps x f) (finishFunction walk line fn b qs y k) := by
  have hbody : ∀ w', w.Grows w' →
      P.Says vs ds w' (P.bodyReports inner (.ofFunction fn.body)) (walkFunction walk fn a ps x f)
        (walkFunction walk fn b qs y k) := fun w' hw =>
    says_walkFunction hwalk (forall₂_param_mono hparams hw)
      (optionRel_imp howner fun h => hw.ofClass h) (hw.receiver hreturns) (hw.ofFunction hfk)
  cases howner with
  | none => exact hbody w (.refl w)
  | some hcd =>
    refine sim_read.bind fun w₁ c c' hw₁ hcontexts => ?_
    obtain ⟨rfl, rfl⟩ := hcontexts
    dsimp only
    rw [P.agrees.config]
    split
    · exact (keeps_noteConstructor line (hw₁.ofClass hcd) (hw₁.receiver hreturns)).andThen
        fun w₂ _ _ hw₂ => hbody w₂ (hw₁.trans hw₂)
    · exact hbody w₁ hw₁

theorem classOf?_rel {a b : ScopeKind} (h : w.KindMatch a b) :
    Option.Rel w.ofClass (classOf? a) (classOf? b) := by
  cases h with
  | module | functionBody _ => exact .none
  | classBody h => exact .some h

theorem keeps_noteFunction (h : w.ofFunction f k) :
    P.Keeps vs ds w (modify fun s => { s with functions := s.functions ++ [f] })
      (modify fun s => { s with functions := s.functions ++ [k] }) :=
  keeps_modify fun _ _ _ hw hst =>
    { hst with functions := List.rel_append hst.functions (.cons (hw.ofFunction h) .nil) }

theorem says_defineFunction (line : Nat) (fn : FunctionDef Stmt) (hwalk : P.Walks walk inner) :
    P.Says (vs ++ [v]) ds w (P.bodyReports inner (.ofFunction fn.body))
      (defineFunction walk line fn) (defineFunction walk line fn) := by
  refine (sim_values fn.decorators w).discard.andThen fun w₁ _ _ _ =>
    sim_currentScope.bind fun w₂ s t _ hscope => (sim_allParameters fn.params line).bind
      fun w₃ ps qs hw₃ hparams => (sim_plain line).bind fun w₄ x y hw₄ hreturns =>
      (sim_qualify _).bind fun w₅ name name' hw₅ hname => ?_
  subst hname
  have hinfo : w₅.FunctionMatch ⟨name, ps, x, (decoration fn.decorators).role, line⟩
      ⟨name, qs, y, (decoration fn.decorators).role, line⟩ :=
    ⟨rfl, forall₂_param_mono hparams (hw₄.trans hw₅), hw₅.receiver hreturns, rfl, rfl⟩
  refine (sim_addFunction hinfo).bind fun w₆ f k hw₆ hfk =>
    (keeps_noteFunction hfk).andThen fun w₇ _ _ hw₇ => ?_
  -- whatever is done about the name, the rest is the same
  have hrest : ∀ w', w₇.Grows w' → P.Says (vs ++ [v]) ds w'
      (P.bodyReports inner (.ofFunction fn.body))
      (finishFunction walk line fn (classOf? s.kind) ps x f)
      (finishFunction walk line fn (classOf? t.kind) qs y k) := fun w' hw' =>
    says_finishFunction line hwalk
      (forall₂_param_mono hparams ((hw₄.trans hw₅).trans ((hw₆.trans hw₇).trans hw')))
      (optionRel_imp (classOf?_rel hscope.kind) fun h =>
        ((hw₃.trans (hw₄.trans hw₅)).trans ((hw₆.trans hw₇).trans hw')).ofClass h)
      ((hw₅.trans ((hw₆.trans hw₇).trans hw')).receiver hreturns) ((hw₇.trans hw').ofFunction hfk)
  show P.Says (vs ++ [v]) ds w₇ _ (nameFunction walk line fn (classOf? s.kind) ps x f)
    (nameFunction walk line fn (classOf? t.kind) qs y k)
  unfold nameFunction
  generalize finishFunction walk line fn (classOf? s.kind) ps x f = rest at hrest ⊢
  generalize finishFunction walk line fn (classOf? t.kind) qs y k = rest' at hrest ⊢
  have hwrite : ∀ z z' : Infer NodeId, P.Sim (vs ++ [v]) ds w₇ z z' Pairing.node →
      P.Says (vs ++ [v]) ds w₇ (P.bodyReports inner (.ofFunction fn.body)) (do
        writeName fn.name.id fn.name.name (← z) line
        rest) (do
        writeName fn.name.id fn.name.name (← z') line
        rest') := fun z z' hz =>
    hz.bind fun w₈ _ _ hw₈ h => (keeps_writeName _ _ line h).andThen fun w₉ _ _ hw₉ =>
      hrest w₉ (hw₈.trans hw₉)
  dsimp only
  split
  · exact hrest w₇ (.refl w₇)
  · split
    · exact hwrite _ _ sim_anyNode
    · exact hwrite _ _ (sim_constant (.function (hw₇.ofFunction hfk)))

/-! ### Classes -/

theorem sim_addClass (name : String) (line : Nat) :
    P.Sim vs ds w (onGraph (·.addClass name line)) (onGraph (·.addClass name line))
      Pairing.ofClass := by
  intro w₁ s t hw hst
  obtain ⟨w₂, hw₂, hst₂, hanswer⟩ := hst.run (.addClass name line)
  exact ⟨w₂, hw₂, hst₂, hanswer⟩

theorem keeps_assignClass (line : Nat) (name : Binder) (h : List.Forall₂ w.node as bs) :
    P.Keeps (vs ++ [v]) ds w (defineClass.assignClass line name as) (defineClass.assignClass line name bs) := by
  cases h with
  | nil => exact Keeps.pure
  | cons hab _ => exact keeps_writeName _ _ line hab

theorem keeps_checkClass (h : List.Forall₂ w.node as bs) :
    P.Keeps vs ds w (defineClass.checkClass as) (defineClass.checkClass bs) := by
  cases h with
  | nil => exact Keeps.pure
  | cons hab _ => exact keeps_addCheck hab

theorem says_defineClass (line : Nat) (cls : ClassDef Stmt) (hwalk : P.Walks walk inner) :
    P.Says (vs ++ [v]) ds w (P.bodyReports inner (.ofClass cls.body)) (defineClass walk line cls)
      (defineClass walk line cls) := by
  refine (sim_values cls.decorators w).discard.andThen fun w₁ _ _ _ =>
    (sim_values cls.bases w₁).bind fun w₂ bases bases' _ hbases =>
    (sim_keywordArguments cls.keywords w₂).discard.andThen fun w₃ _ _ hw₃ =>
    (sim_qualify _).bind fun w₄ name name' hw₄ hname => ?_
  subst hname
  refine (sim_addClass name line).bind fun w₅ c d hw₅ hcd => sim_get.bind fun w₆ s t hw₆ hst => ?_
  have hnodes := P.classNodes hst.graph (hw₆.ofClass hcd)
  dsimp only
  generalize s.graph.classNodes c = nodes at hnodes ⊢
  generalize t.graph.classNodes d = nodes' at hnodes ⊢
  refine (keeps_assignClass line cls.name hnodes).andThen fun w₇ _ _ hw₇ =>
    (says_reportFlow _).andThen fun w₈ _ _ hw₈ => ?_
  have hw := (hw₆.trans hw₇).trans hw₈
  refine says_inScope (Pairing.scopeMatch_ofVersions (.classBody (hw.ofClass hcd)) _)
    (says_inPath ?_)
  refine sim_depth.bind fun w₉ e e' hw₉ he => ?_
  obtain ⟨rfl, rfl⟩ := he
  refine (keeps_summaries lt_length_concat _).andThen fun w₁₀ _ _ hw₁₀ => ?_
  have hlater := hw.trans (hw₉.trans hw₁₀)
  refine (keeps_request (.setBases (hlater.ofClass hcd)
    (hbases.imp fun _ _ h => (((hw₃.trans hw₄).trans hw₅).trans hlater).node h))).andThen fun w₁₁ _ _ hw₁₁ =>
    (keeps_checkClass (hnodes.imp fun _ _ h =>
      ((hw₇.trans hw₈).trans ((hw₉.trans hw₁₀).trans hw₁₁)).node h)).andThen fun w₁₂ _ _ _ =>
    hwalk _ _ _ w₁₂ _ (reachable_ofFlow _ _)

/-! ### Items -/

theorem keeps_enterContext (line : Nat) (item : WithItem Expr) :
    P.Keeps (vs ++ [v]) ds w (enterContext line item) (enterContext line item) := by
  refine (sim_load item.context).bind fun _ _ _ _ hc =>
    (sim_addNode (.read "__enter__" hc) line).toNode.bind fun _ _ _ _ henter =>
    (sim_addNode (.call henter .nil) line).toNode.bind fun _ _ _ _ hvalue => ?_
  rcases item.vars with - | vars
  · exact Keeps.pure
  · exact keeps_assign vars hvalue

theorem keeps_giveBack {a b : NodeId} (h : w.node a b) :
    P.Keeps (vs ++ [v]) ds w (giveBack a) (giveBack b) := by
  refine sim_currentScope.bind fun w₁ s t hw₁ hscope => ?_
  have hkind := hscope.kind
  generalize s.kind = kind at hkind ⊢
  generalize t.kind = kind' at hkind ⊢
  cases hkind with
  | module | classBody _ => exact Keeps.pure
  | functionBody hfk =>
    refine sim_get.bind fun w₂ s t hw₂ hst => ?_
    refine optionRel_cases (P.returns hst.graph (hw₂.ofFunction hfk)) Keeps.pure fun hreturns => ?_
    exact keeps_addInput hreturns ((hw₁.trans hw₂).node h)

theorem says_item (i : Flow.Item) (hwalk : P.Walks walk inner) :
    P.Says (vs ++ [v]) ds w (itemReports P.left inner i) (item walk i) (item walk i) := by
  obtain ⟨line, action⟩ := i
  cases action with
  | simple stmt => exact says_simple stmt
  | test condition => exact (sim_load condition).discard.mute
  | forIter loop iter =>
    refine Keeps.mute ((sim_load iter).bind fun _ _ _ _ hsource => (sim_iterateNode line hsource).bind
      fun _ _ _ _ helement => ?_)
    exact keeps_modifyScope (fun _ => rfl) fun _ hw _ _ hscope =>
      { hscope with loops := hscope.loops.insert _ (hw.node helement) }
  | forTarget loop target =>
    refine Keeps.mute (sim_currentScope.bind fun w₁ s t _ hscope => ?_)
    refine optionRel_cases (hscope.loops.get? loop) ?_ fun hab => keeps_assign _ hab
    exact sim_anyNode.bind fun _ _ _ _ h => keeps_assign _ h
  | functionDef fn => exact says_defineFunction line fn hwalk
  | classDef cls => exact says_defineClass line cls hwalk
  | withEnter entry => exact (keeps_enterContext line entry).mute
  | handler handler =>
    refine Keeps.mute ((keeps_optional _ w).andThen fun _ _ _ _ => ?_)
    dsimp only
    split
    · exact sim_anyNode.bind fun _ _ _ _ h => keeps_writeName _ _ _ h
    · exact Keeps.pure
  | ret value =>
    rcases value with - | value
    · exact Keeps.mute (sim_noneNode.bind fun _ _ _ _ h => keeps_giveBack h)
    · exact Keeps.mute ((sim_load value).bind fun _ _ _ _ h => keeps_giveBack h)

theorem says_items (is : List Flow.Item) (hwalk : P.Walks walk inner) :
    P.Says (vs ++ [v]) ds w (is.flatMap (itemReports P.left inner)) (items walk is) (items walk is) := by
  induction is generalizing ds w with
  | nil => exact Keeps.pure.mute
  | cons i is ih => exact (says_item i hwalk).andThen fun _ _ _ _ => ih

/-- **Two walks over a body go side by side**, however deep definitions are nested. -/
theorem walks_walk (nested : Nat) : P.Walks (Inference.walk nested) (walkReports P.left nested) := by
  induction nested with
  | zero => exact fun _ _ _ _ _ _ => Keeps.pure.mute
  | succ nested ih =>
    intro vs v ds w flow hreachable
    refine sim_currentScope_versions.bind fun w₁ s t _ hscope => ?_
    obtain ⟨hscope, rfl⟩ := hscope
    have hversions : t.versions = s.versions := hscope.versions
    dsimp only
    rw [hversions, hreachable]
    exact (sim_mergeNodes flow _).bind fun _ _ _ _ hs =>
      (keeps_connectMerges flow hs).andThen fun _ _ _ _ => says_items _ ih

/-! ### Modules -/

theorem states_start {g h : Graph} (hgraph : P.graphs w g h)
    (hmodule : w.ofModule P.left.module P.right.module)
    (himports : ∀ name, Option.Rel w.TargetMatch (P.left.imports.get? name)
      (P.right.imports.get? name)) : P.States [] [] w (.start g) (.start h) where
  graph := hgraph
  module := hmodule
  imports := himports
  scopes := ⟨⟨rfl, fun _ => .none⟩, rfl⟩
  path := rfl
  unknowns := ⟨⟨rfl, fun _ => .none⟩, .nil, fun _ he => absurd he List.not_mem_nil⟩
  starImports := .nil
  functions := .nil
  checks := .nil
  constructors := .nil
  diagnostics := ⟨rfl, rfl⟩
  left := .nil
  strays := ⟨rfl, rfl⟩

theorem states_opened {s t : State} {a b : Scope} {report report' x y : Infer Unit} {es fs : List Diagnostic}
    (hst : P.States vs ds w s t) (hreport : P.Says vs ds w es report report')
    (h : ∀ w : Pairing, w.ScopeMatch a b) (hx : ∀ w, P.Says (vs ++ [a.versions]) (ds ++ es) w fs x y) :
    ∃ w', w.Grows w' ∧ P.States (vs ++ [a.versions]) (ds ++ es ++ fs) w'
      ((do report; pushScope a; x : Infer Unit) P.left s).2
      ((do report'; pushScope b; y : Infer Unit) P.right t).2 := by
  obtain ⟨w₁, hw₁, hst₁, -⟩ := hreport w s t (.refl w) hst
  obtain ⟨w₂, hw₂, hend, -⟩ := hx w₁ w₁ _ _ (.refl w₁) (hst₁.pushScope (h w₁))
  exact ⟨w₂, hw₁.trans hw₂, hend⟩

/-- **Two analyses of a module go side by side**; in the end each has the scope of the module. -/
theorem states_walkModule {s t : State} (hst : P.States [] [] w s t) (body : List Stmt) :
    ∃ w', w.Grows w' ∧ P.States [.ofFlow (.ofModule body) []] (moduleReports P.left body) w'
      (walkModule body P.left s).2 (walkModule body P.right t).2 :=
  states_opened hst (says_reportFlow _) (fun _ => Pairing.scopeMatch_ofVersions .module _) fun _ =>
    (keeps_summaries Nat.one_pos _).andThen fun w _ _ _ => walks_walk _ [] _ _ w _ (reachable_ofFlow _ _)

end FlowTyping.Twin
