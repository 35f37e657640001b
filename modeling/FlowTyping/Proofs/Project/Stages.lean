/-
The stages in which a module is added to a project.

A module gets a number and its place in its package, its imports are loaded, and then it is walked.
Each stage is a change of the project (`register`, `complete`), and each one keeps the graph sound
and the numbers of modules in range, as far as it does not depend on the walk.
-/
import FlowTyping.Project.Basic
import FlowTyping.Proofs.Graph.Build

namespace FlowTyping.Project

variable {p : Project} {g : Graph}

/-! ### Projects that fit -/

/-- The graph is sound, and modules that have a number exist. -/
structure Fits (p : Project) : Prop where
  sound : p.graph.Sound
  modules : ∀ name id, p.idOf? name = some id → id.index < p.graph.modules.size

theorem fits_empty (config : Config) : (Project.empty config).Fits :=
  ⟨Graph.sound_empty _, fun _ _ h => nomatch h⟩

theorem Fits.withGraph (h : p.Fits) (hg : p.graph.Reached g) : { p with graph := g }.Fits :=
  ⟨hg.sound, fun name id hid => lt_of_lt_of_le (h.modules name id hid) hg.later.moduleCount⟩

/-- The number that a state gives a module. -/
def LoadState.id? : LoadState → Option ModuleId
  | .inProgress id | .done id => some id
  | .missing => none

theorem idOf?_eq (p : Project) (name : String) :
    p.idOf? name = (p.states.get? name).bind LoadState.id? := by
  unfold idOf?
  rcases p.states.get? name with - | (id | id | -) <;> rfl

theorem Fits.setState {state : LoadState} (h : p.Fits) (name : String)
    (hstate : ∀ id, LoadState.id? state = some id → id.index < p.graph.modules.size) :
    (p.setState name state).Fits := by
  refine ⟨h.sound, fun other id hid => ?_⟩
  rw [idOf?_eq, Project.setState, Table.get?_insert] at hid
  split at hid
  · exact hstate id hid
  · exact h.modules other id (idOf?_eq p other ▸ hid)

/-! ### Stages -/

section

variable {ensure : Project → String → ImportTarget × Project}

/-- The graph with a module more, which stands in its package if there is one. -/
def placed (g : Graph) (name : String) (parent : Option (ModuleId × String)) : Graph :=
  match parent with
  | some (package, leaf) => (g.addModule name).2.addSubmodule package leaf (g.addModule name).1
  | none => (g.addModule name).2

/-- A project that knows of a module by its number. -/
def register (p : Project) (name : String) (parent : Option (ModuleId × String)) : Project :=
  { p with graph := placed p.graph name parent }.setState name
    (.inProgress (p.graph.addModule name).1)

/-- What the analysis of a module reads beside the graph. -/
def contextOf (p : Project) (m : Module) (isPackage : Bool) (id : ModuleId)
    (imports : Table String ImportTarget) : Inference.Context :=
  ⟨p.config, imports, m.name, id, isPackage⟩

/-- A project with the analysis of a module all of whose imports are loaded. -/
def complete (p : Project) (m : Module) (id : ModuleId) (result : Analysis × Graph) : Project :=
  { { p with graph := result.2 }.setState m.name (.done id) with
    analyses := p.analyses ++ [result.1] }

/-- Analysing a module: its package is loaded, then its imports, then it is walked. -/
theorem analyse_eq (p : Project) (m : Module) (isPackage : Bool) : analyse ensure p m isPackage =
      let first := loadParent ensure p m.name
      let id := (first.2.graph.addModule m.name).1
      let loaded := loadImports ensure m.name (first.2.register m.name first.1) .empty
        (Import.candidates m isPackage).entries
      (.module id, complete loaded.2 m id
        (Analysis.ofModule (contextOf loaded.2 m isPackage id loaded.1) m.body loaded.2.graph)) := by
  unfold analyse register placed complete contextOf
  generalize loadParent ensure p m.name = first
  obtain ⟨parent, p₁⟩ := first
  -- what the two sides apply is the same, so it need not be opened
  generalize Analysis.ofModule = walked
  generalize loadImports ensure m.name = load
  generalize Import.candidates m isPackage = candidates
  rcases parent with - | ⟨package, leaf⟩ <;> rfl

theorem placed_reached (name : String) (parent : Option (ModuleId × String))
    (h : g.Sound) : g.Reached (placed g name parent) ∧
      (g.addModule name).1.index < (placed g name parent).modules.size := by
  have hmodule : g.Reached (g.addModule name).2 := h.addModule name
  have hid : (g.addModule name).1.index < (g.addModule name).2.modules.size := by
    show g.modules.size < (g.modules.push _).size
    rw [Array.size_push]
    exact Nat.lt_succ_self _
  rcases parent with - | ⟨package, leaf⟩
  · exact ⟨hmodule, hid⟩
  · have hplace := hmodule.sound.addSubmodule hid package leaf
    exact ⟨⟨hplace.sound, hmodule.later.trans hplace.later⟩,
      lt_of_lt_of_le hid hplace.later.moduleCount⟩

theorem register_fits (name : String) (parent : Option (ModuleId × String)) (hp : p.Fits) :
    (p.register name parent).Fits := by
  obtain ⟨hreached, hid⟩ := placed_reached name parent hp.sound
  refine (hp.withGraph hreached).setState name ?_
  rintro _ ⟨⟩
  exact hid

theorem complete_fits {id : ModuleId} {result : Analysis × Graph} (m : Module) (hp : p.Fits)
    (hid : id.index < p.graph.modules.size) (hreached : p.graph.Reached result.2) :
    (p.complete m id result).Fits := by
  have hdone : ({ p with graph := result.2 }.setState m.name (.done id)).Fits := by
    refine (hp.withGraph hreached).setState m.name ?_
    rintro _ ⟨⟩
    exact lt_of_lt_of_le hid hreached.later.moduleCount
  exact ⟨hdone.sound, hdone.modules⟩

end

/-! ### Adding modules -/

/-- A project to which modules are added one after the other; what cannot be added is left out. -/
def addAll (source : Source) (p : Project) (names : List String) : Project :=
  names.foldl (fun p name => (p.tryAdd source name).2) p

/-- The project that has the named modules of a table of texts, added in the order of the names. -/
def ofModules (modules : Table String SourceText) (config : Config) (names : List String) : Project :=
  (Project.empty config).addAll (.ofModules modules) names

end FlowTyping.Project
