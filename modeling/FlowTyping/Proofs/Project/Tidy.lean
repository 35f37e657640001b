/-
Projects in good order.

The graph of a project has a history: it comes about from the empty graph by requests, each of which
mentions only what exists and puts nothing into a constant.  For the analysis of a module this is
the result of its walk; the other steps of a project make one or two requests of their own.  So
every step keeps a project in good order (`Step.tidy`), and shared constants are never polluted.
-/
import FlowTyping.Proofs.Project.Order
import FlowTyping.Proofs.Twin.Single

namespace FlowTyping

open FlowTyping.Graph (Since)

variable {g : Graph}

/-- The numbers that an analysis holds, and its exports are no constants. -/
structure Analysis.InRange (g : Graph) (a : Analysis) : Prop where
  module : a.module.index < g.modules.size
  exported : ∀ e ∈ a.exports.entries, g.HasNode e.2 ∧ ¬ g.Shared e.2
  functions : ∀ f ∈ a.functions, f.index < g.functions.size
  checks : ∀ id ∈ a.checks, g.HasNode id
  constructors : ∀ c ∈ a.constructors, c.owner.index < g.classes.size ∧ g.HasNode c.returns

theorem Analysis.InRange.later {g' : Graph} {a : Analysis} (h : a.InRange g) (hs : g.Sound)
    (hsince : Since g g') : a.InRange g' := by
  obtain ⟨hlater, hshared⟩ := hsince.later hs
  have hnode : ∀ {id}, g.HasNode id → g'.HasNode id := fun hid => lt_of_lt_of_le hid hlater.size
  refine ⟨lt_of_lt_of_le h.module hlater.moduleCount, fun e he => ?_, fun f hf => ?_,
    fun id hid => hnode (h.checks id hid), fun c hc => ?_⟩
  · obtain ⟨hthere, hnot⟩ := h.exported e he
    exact ⟨hnode hthere, fun hend => hnot (hshared _ hthere hend)⟩
  · exact lt_of_lt_of_le (h.functions f hf) hlater.functionCount
  · obtain ⟨howner, hreturns⟩ := h.constructors c hc
    exact ⟨lt_of_lt_of_le howner hlater.classCount, hnode hreturns⟩

theorem Analysis.inRange_ofModule {context : Inference.Context} {body : List Stmt}
    (hs : g.Sound) (hmodule : context.module.index < g.modules.size)
    (h : (Inference.walkModule body context (.start g)).2.Tidy g) :
    Since g (Analysis.ofModule context body g).2 ∧
      (Analysis.ofModule context body g).1.InRange (Analysis.ofModule context body g).2 := by
  unfold Analysis.ofModule ReaderT.run
  generalize Inference.walkModule body context (.start g) = result at h ⊢
  obtain ⟨⟨⟩, s⟩ := result
  refine ⟨h.since, lt_of_lt_of_le hmodule (h.since.later hs).1.moduleCount, fun e he => ?_,
    h.functions, h.checks, h.constructors⟩
  -- the exports are the summaries of the outermost scope
  dsimp only at he
  rcases hscope : s.scopes[0]? with - | scope
  · rw [hscope] at he
    exact absurd he List.not_mem_nil
  · rw [hscope] at he
    have hmem : scope ∈ s.everyScope :=
      List.mem_append_left _ (Array.mem_def.1 (Array.mem_of_getElem? hscope))
    exact (h.scopes scope hmem).summaries e he

namespace Project

variable {source : Source} {name : String} {m : Module} {isPackage : Bool} {p p' q : Project}
  {config : Config} {id : ModuleId}

/-! ### Steps -/

/-- The graph has a history from the empty one, and load states and analyses hold only numbers of
what is there. -/
structure Tidy (p : Project) : Prop where
  since : Since (.empty p.config.unboundAsNone) p.graph
  modules : ∀ name id, p.idOf? name = some id → id.index < p.graph.modules.size
  analyses : ∀ a ∈ p.analyses, a.InRange p.graph

theorem tidy_empty (config : Config) : (Project.empty config).Tidy where
  since := .refl (Graph.sound_empty _) (Graph.clean_empty _)
  modules := (fits_empty config).modules
  analyses _ ha := absurd ha List.not_mem_nil

theorem Tidy.fits (h : p.Tidy) : p.Fits := ⟨h.since.sound, h.modules⟩

theorem Tidy.step (h : p.Tidy) (hsince : Since p.graph p'.graph) (hconfig : p'.config = p.config)
    (hmodules : p'.Fits)
    (hanalyses : ∀ a ∈ p'.analyses, a ∈ p.analyses ∨ a.InRange p'.graph) : p'.Tidy := by
  refine ⟨?_, hmodules.modules, fun a ha => ?_⟩
  · rw [hconfig]
    exact h.since.trans hsince
  · exact (hanalyses a ha).elim (fun ha => (h.analyses a ha).later h.since.sound hsince) id

/-- A module gets a number and its place in a package by one or two requests. -/
theorem since_placed {parent : Option (ModuleId × String)} (hs : g.Sound)
    (hclean : g.Clean) (hparent : ∀ e, parent = some e → e.1.index < g.modules.size) :
    Since g (placed g name parent) := by
  have hmodule : Since g (Graph.Request.run g (.addModule name)) :=
    (Since.refl hs hclean).request trivial trivial
  rcases parent with - | ⟨package, leaf⟩
  · exact hmodule
  · have hsize : (Graph.Request.run g (.addModule name)).modules.size = g.modules.size + 1 :=
      Array.size_push _
    have hpackage : package.index < g.modules.size := hparent _ rfl
    refine hmodule.request (r := .addSubmodule package leaf ⟨g.modules.size⟩) ⟨?_, ?_⟩ trivial
    · rw [hsize]
      exact Nat.lt_succ_of_lt hpackage
    · rw [hsize]
      exact Nat.lt_succ_self _

theorem index_package? {e : ModuleId × String} (h : p.Tidy) (he : p.package? name = some e) :
    e.1.index < p.graph.modules.size := by
  obtain ⟨parent, -, hparent⟩ := Option.bind_eq_some_iff.1 he
  obtain ⟨id, hid, rfl⟩ := Option.map_eq_some_iff.1 hparent
  exact h.modules _ id hid

/-- The walk over a module whose imports are known. -/
def walk (p : Project) (m : Module) (isPackage : Bool) (id : ModuleId) : Inference.State :=
  (Inference.walkModule m.body (contextOf p m isPackage id (p.importsOf m isPackage))
    (.start p.graph)).2

/-- **The walk over a module that is ready is in good order.** -/
theorem Tidy.walk (h : p.Tidy) (hready : Ready source p m isPackage id) :
    (p.walk m isPackage id).Tidy p.graph ∧ id.index < p.graph.modules.size := by
  have hid : id.index < p.graph.modules.size := by
    refine h.modules m.name id ?_
    rw [idOf?_eq, hready.state]
    rfl
  refine ⟨Inference.tidy_walkModule h.since.sound h.since.clean hid (fun x number hx => ?_) m.body,
    hid⟩
  refine h.modules x number ?_
  rw [idOf?_eq, done_of_get?_importsOf hx]
  rfl

/-- **Every step leaves a project in good order**, and the graph goes on from where it was. -/
theorem Step.tidy (hstep : Step source p p') (h : p.Tidy) :
    p'.Tidy ∧ Since p.graph p'.graph ∧ p'.config = p.config := by
  have hrefl : Since p.graph p.graph := .refl h.since.sound h.since.clean
  cases hstep with
  | @miss name _ _ =>
    refine ⟨h.step hrefl rfl (h.fits.setState name ?_) fun a ha => .inl ha, hrefl, rfl⟩
    rintro _ ⟨⟩
  | @register name _ _ =>
    have hplaced : Since p.graph (p.register name (p.package? name)).graph :=
      since_placed h.since.sound h.since.clean fun e he => index_package? h he
    exact ⟨h.step hplaced rfl (register_fits name _ h.fits) fun a ha => .inl ha, hplaced, rfl⟩
  | @complete m isPackage id hready =>
    obtain ⟨hwalk, hid⟩ := h.walk hready
    have hresult : Since p.graph (p.walkedNow m isPackage id).2 ∧
        (p.walkedNow m isPackage id).1.InRange (p.walkedNow m isPackage id).2 :=
      Analysis.inRange_ofModule h.since.sound hid hwalk
    generalize p.walkedNow m isPackage id = result at hresult ⊢
    obtain ⟨hsince, hrange⟩ := hresult
    have hlater := (hsince.later h.since.sound).1
    refine ⟨h.step hsince rfl (complete_fits m h.fits hid ⟨hsince.sound, hlater⟩) fun a ha => ?_,
      hsince, rfl⟩
    rcases List.mem_append.1 ha with ha | ha
    · exact .inl ha
    · rw [List.mem_singleton.1 ha]
      exact .inr hrange
  | repropagate =>
    have hsince : Since p.graph p.repropagate.2.graph := hrefl.request (r := .repropagate) trivial trivial
    have hlater := (hsince.later h.since.sound).1
    exact ⟨h.step hsince rfl (h.fits.withGraph ⟨hsince.sound, hlater⟩) fun a ha => .inl ha, hsince, rfl⟩

theorem Reaches.tidy (hrun : Reaches source p p') (h : p.Tidy) :
    p'.Tidy ∧ Since p.graph p'.graph ∧ p'.config = p.config := by
  induction hrun with
  | refl => exact ⟨h, .refl h.since.sound h.since.clean, rfl⟩
  | tail _ hstep ih =>
    obtain ⟨hp', hsince, hconfig⟩ := ih
    obtain ⟨hp'', hsince', hconfig'⟩ := hstep.tidy hp'
    exact ⟨hp'', hsince.trans hsince', hconfig'.trans hconfig⟩

theorem tidy_after (modules : Table String SourceText) (config : Config) (requests : List Request) :
    (after modules config requests).Tidy ∧ (after modules config requests).config = config := by
  obtain ⟨hp, -, hconfig⟩ := Reaches.tidy (after_reaches modules config requests).1 (tidy_empty config)
  exact ⟨hp, hconfig⟩

theorem tidy_ofModules (modules : Table String SourceText) (config : Config) (names : List String) :
    (ofModules modules config names).Tidy ∧ (ofModules modules config names).config = config := by
  rw [ofModules_eq_after]
  exact tidy_after modules config _

/-! ### Constants -/

/-- The graph of a walk and the one after it. -/
theorem graph_complete_walkedNow (id : ModuleId) :
    (q.complete m id (q.walkedNow m isPackage id)).graph = (q.walk m isPackage id).graph := by
  rw [graph_complete]
  unfold walkedNow Project.walk
  exact Analysis.ofModule_graph _ _ _

/-- The names of the scopes of a walk stand for no constants, then and later. -/
theorem Made.scopes {scope : Inference.Scope}
    (h : Made source config p q m isPackage id) (hscope : scope ∈ (q.walk m isPackage id).everyScope) :
    (∀ e ∈ scope.bindings.entries, ¬ p.graph.Shared e.2) ∧
      ∀ e ∈ scope.summaries.entries, ¬ p.graph.Shared e.2 := by
  have hq := (Reaches.tidy h.before (tidy_empty config)).1
  have hwalk := (hq.walk h.ready).1
  have hthere := hwalk.scopes scope hscope
  -- after the walk the project has the graph of the walk, and from there it goes on
  have hcomplete := ((Step.complete h.ready).tidy hq).1
  have hsince := (Reaches.tidy h.later hcomplete).2.1
  rw [graph_complete_walkedNow] at hsince
  obtain ⟨-, hshared⟩ := hsince.later hwalk.since.sound
  exact ⟨fun e he hend => (hthere.bindings e he).2 (hshared _ (hthere.bindings e he).1 hend),
    fun e he hend => (hthere.summaries e he).2 (hshared _ (hthere.summaries e he).1 hend)⟩

/-- **Shared constants are never polluted.**  After any requests every node in the list of constants
has no inputs and holds exactly the type that it is listed for.  No member of a class, no export of
a module, no parameter and no result of a function is such a node.  Every analysis stems from the
walk over a module at some point, and of all scopes of these walks no version of a name and no
summary of a name is such a node. -/
theorem constants_are_never_polluted (modules : Table String SourceText) (config : Config)
    (requests : List Request) :
    let source := Source.ofModules modules
    let p := after modules config requests
    (∀ t id, (t, id) ∈ p.graph.constants →
      p.graph.rule? id = some (.plain []) ∧ (p.graph.types id).toList = [t]) ∧
    (∀ c info, p.graph.class? c = some info → ∀ e ∈ info.members.entries, ¬ p.graph.Shared e.2.node) ∧
    (∀ n info, p.graph.module? n = some info → ∀ e ∈ info.exports.entries, ¬ p.graph.Shared e.2) ∧
    (∀ f info, p.graph.function? f = some info →
      (∀ x ∈ info.params, ¬ p.graph.Shared x.node) ∧ ¬ p.graph.Shared info.returns) ∧
    (∀ a ∈ p.analyses, ∃ q m isPackage id,
      Made source config p q m isPackage id ∧ (q.walkedNow m isPackage id).1 = a) ∧
    ∀ q m isPackage id, Made source config p q m isPackage id →
      ∀ scope ∈ (q.walk m isPackage id).everyScope,
        (∀ e ∈ scope.bindings.entries, ¬ p.graph.Shared e.2) ∧
          ∀ e ∈ scope.summaries.entries, ¬ p.graph.Shared e.2 := by
  intro source p
  have hclean : p.graph.Clean := (tidy_after modules config requests).1.since.clean
  refine ⟨fun t id ht => ?_, hclean.members, hclean.exported, fun f info hf => ?_, fun a ha => ?_,
    fun q m isPackage id hmade scope hscope => hmade.scopes hscope⟩
  · obtain ⟨hrule, htypes⟩ := hclean.constants t id ht
    exact ⟨hrule, by rw [htypes]; rfl⟩
  · exact ⟨fun x hx => (hclean.params f info hf x hx).2, hclean.returns f info hf⟩
  · obtain ⟨before, later, hsplit⟩ := List.append_of_mem ha
    obtain ⟨q, m, isPackage, id, hmade, -, heq⟩ :=
      Reaches.made (after_reaches modules config requests).1 hsplit
    exact ⟨q, m, isPackage, id, hmade, heq⟩

end Project

end FlowTyping
