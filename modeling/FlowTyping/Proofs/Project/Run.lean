/-
Projects as a transition system.

Loading is nested: a module waits for its package and its imports, and these wait for others.  Seen
from the project it is flat: `Step` has four steps, and a loading is a sequence of them, however
deep it is nested (`Loading.reaches`).  What an import leads to can be read off the load states at
the moment when the module is analysed (`Loading.targets_eq`), since a state that has been reached
stays.  `after` is the project that answers some requests one after the other, and it is reached by
steps (`after_reaches`).  So what every step keeps holds after all requests.
-/
import FlowTyping.Proofs.Project.Loading

namespace FlowTyping.Project

open List

variable {source : Source} {name x : String} {m : Module} {isPackage : Bool} {p p' q : Project}
  {names : List String} {targets : List ImportTarget} {id : ModuleId}

/-! ### Import maps -/

/-- What a name leads to, by what is known of it. -/
def targetOf (p : Project) (name : String) : ImportTarget :=
  ((p.states.get? name).map LoadState.target).getD .missing

/-- What the imports of a module lead to, by what is known of them. -/
def importsOf (p : Project) (m : Module) (isPackage : Bool) : Table String ImportTarget :=
  noteAll .empty (wanted m isPackage) ((imported m isPackage).map p.targetOf)

/-- The analysis of a module whose imports are all known, and the graph after it. -/
def walkedNow (p : Project) (m : Module) (isPackage : Bool) (id : ModuleId) : Analysis × Graph :=
  Analysis.ofModule (contextOf p m isPackage id (p.importsOf m isPackage)) m.body p.graph

theorem targetOf_of_get? {state : LoadState} (h : p.states.get? name = some state) :
    p.targetOf name = state.target := by
  rw [targetOf, h]
  rfl

/-- Only a module that is done counts as a module. -/
theorem done_of_targetOf (h : p.targetOf name = .module id) :
    p.states.get? name = some (.done id) := by
  unfold targetOf at h
  generalize p.states.get? name = o at h ⊢
  rcases o with - | state
  · cases h
  · cases state <;> cases h
    rfl

/-- **Where loading leads is written in the load states**: a state that has been reached stays. -/
theorem Loading.targets_eq (h : Loading source p names targets p') : targets = names.map p'.targetOf := by
  induction h with
  | nil p => rfl
  | known hstate rest ih => rw [map_cons, ← ih, targetOf_of_get? (rest.kept hstate)]
  | @absent p p' name _ _ _ _ rest ih =>
    have hstate : (p.setState name .missing).states.get? name = some .missing := by
      rw [get?_setState, if_pos rfl]
    rw [map_cons, ← ih, targetOf_of_get? (rest.kept hstate)]
    rfl
  | @loaded p p₁ p₂ p' name _ m isPackage _ found _ _ hmodule _ _ rest _ _ ih =>
    have hstate : (p₂.complete m p₁.nextId (p₂.walked m isPackage p₁.nextId found)).states.get? name =
        some (.done p₁.nextId) := by
      rw [get?_complete (Source.name_of_module? hmodule), if_pos rfl]
    rw [map_cons, ← ih, targetOf_of_get? (rest.kept hstate)]
    rfl

theorem noteAll_cons (imports : Table String ImportTarget) (candidate : String × Bool)
    (candidates : List (String × Bool)) (target : ImportTarget) (targets : List ImportTarget) :
    noteAll imports (candidate :: candidates) (target :: targets) =
      noteAll (note imports candidate target) candidates targets := rfl

/-- An import that leads to a module does so by the load state of its name. -/
theorem get?_noteAll_targetOf {candidates : List (String × Bool)}
    {imports : Table String ImportTarget}
    (himports : imports.get? x = some (.module id) → p.states.get? x = some (.done id))
    (h : (noteAll imports candidates ((candidates.map (·.1)).map p.targetOf)).get? x = some (.module id)) :
    p.states.get? x = some (.done id) := by
  induction candidates generalizing imports with
  | nil => exact himports h
  | cons candidate candidates ih =>
    rw [map_cons, map_cons, noteAll_cons] at h
    refine ih (fun hnoted => ?_) h
    unfold note at hnoted
    split at hnoted
    · exact himports hnoted
    · rw [Table.get?_insert] at hnoted
      split at hnoted
      · next hx =>
        rw [← hx]
        exact done_of_targetOf (Option.some.inj hnoted)
      · exact himports hnoted

theorem done_of_get?_importsOf (h : (p.importsOf m isPackage).get? x = some (.module id)) :
    p.states.get? x = some (.done id) :=
  get?_noteAll_targetOf (by rintro ⟨⟩) h

/-! ### Steps -/

/-- The imports of a module that has got a number are all known, so it can be analysed. -/
structure Ready (source : Source) (p : Project) (m : Module) (isPackage : Bool) (id : ModuleId) : Prop where
  module : source.module? m.name = some (m, isPackage)
  state : p.states.get? m.name = some (.inProgress id)
  imports : ∀ x ∈ imported m isPackage, (p.states.get? x).isSome

/-- One step of a project. -/
inductive Step (source : Source) : Project → Project → Prop
  | miss {p : Project} {name : String} (hstate : p.states.get? name = none)
      (hmodule : source.module? name = none) : Step source p (p.setState name .missing)
  | register {p : Project} {name : String} (hmodule : (source.module? name).isSome)
      (hpackage : ∀ x ∈ packages name, (p.states.get? x).isSome) :
      Step source p (p.register name (p.package? name))
  | complete {p : Project} {m : Module} {isPackage : Bool} {id : ModuleId} (h : Ready source p m isPackage id) :
      Step source p (p.complete m id (p.walkedNow m isPackage id))
  | repropagate (p : Project) : Step source p p.repropagate.2

theorem repropagate_eq (p : Project) : p.repropagate.2 = { p with graph := p.graph.repropagate.2 } := rfl

/-- What a project can become in any number of steps. -/
abbrev Reaches (source : Source) : Project → Project → Prop := Relation.ReflTransGen (Step source)

/-- **A loading is a sequence of steps**, however deep it is nested. -/
theorem Loading.reaches (h : Loading source p names targets p') : Reaches source p p' := by
  induction h with
  | nil p => exact .refl
  | known _ _ ih => exact ih
  | absent hstate hmodule _ ih => exact .head (.miss hstate hmodule) ih
  | @loaded p p₁ p₂ p' name _ m isPackage _ found _ _ hmodule package imports _ ih₁ ih₂ ih₃ =>
    have hname := Source.name_of_module? hmodule
    have hregister : Step source p₁ (p₁.register name (p₁.package? name)) :=
      .register (by rw [hmodule]; rfl) fun x hx => package.isSome_of_mem hx
    have hready : Ready source p₂ m isPackage p₁.nextId := by
      refine ⟨hname ▸ hmodule, imports.kept ?_, fun x hx => imports.isSome_of_mem hx⟩
      rw [get?_register, if_pos hname.symm]
    -- the targets that were found are the ones that the states tell
    have hwalked : p₂.walked m isPackage p₁.nextId found = p₂.walkedNow m isPackage p₁.nextId := by
      rw [imports.targets_eq]
      rfl
    rw [hwalked] at ih₃
    exact ih₁.trans (.head hregister (ih₂.trans (.head (.complete hready) ih₃)))

/-! ### Requests -/

inductive Request where
  | add (name : String)
  | repropagate
deriving DecidableEq, Repr

/-- The project after a request, also one that fails. -/
def answer (source : Source) (p : Project) : Request → Project
  | .add name => (p.tryAdd source name).2
  | .repropagate => p.repropagate.2

/-- The project that has answered some requests, starting with nothing. -/
def after (modules : Table String SourceText) (config : Config) (requests : List Request) : Project :=
  requests.foldl (answer (.ofModules modules)) (.empty config)

variable (modules : Table String SourceText) (config : Config)

theorem after_concat (requests : List Request) (request : Request) :
    after modules config (requests ++ [request]) =
      answer (.ofModules modules) (after modules config requests) request := by
  rw [after, foldl_append]
  rfl

theorem ofModules_eq_after (names : List String) :
    ofModules modules config names = after modules config (names.map .add) := by
  rw [after, foldl_map]
  rfl

variable {all : List String}

/-- A request to add a module is answered by steps, or it fails. -/
theorem tryAdd_reaches (hcovers : Covers source all) (hp : AtRest source p) (name : String) :
    (∃ p', p.tryAdd source name = (.ok (), p') ∧ Reaches source p p' ∧ AtRest source p') ∨
      ∃ e, p.tryAdd source name = (.error e, p) := by
  rcases hmodule : source.module? name with - | module
  · exact .inr ⟨_, tryAdd_of_absent hp hmodule⟩
  · obtain ⟨target, p', hadd, hload⟩ := tryAdd_of_module? hcovers hp (by rw [hmodule]; rfl)
    exact .inl ⟨p', hadd, hload.reaches, hload.atRest hp⟩

theorem answer_reaches (hcovers : Covers source all) (hp : AtRest source p) (request : Request) :
    Reaches source p (answer source p request) ∧ AtRest source (answer source p request) := by
  cases request with
  | add name =>
    rcases tryAdd_reaches hcovers hp name with ⟨p', hadd, hreaches, hrest⟩ | ⟨e, hadd⟩
    · rw [answer, hadd]
      exact ⟨hreaches, hrest⟩
    · rw [answer, hadd]
      exact ⟨.refl, hp⟩
  | repropagate => exact ⟨.single (.repropagate p), hp⟩

/-- **What requests lead to is reached by steps**, and then no module is under way. -/
theorem after_reaches (requests : List Request) :
    Reaches (.ofModules modules) (.empty config) (after modules config requests) ∧
      AtRest (.ofModules modules) (after modules config requests) := by
  induction requests using List.reverseRecOn with
  | nil => exact ⟨.refl, atRest_empty config⟩
  | append_singleton requests request ih =>
    rw [after_concat]
    obtain ⟨hreaches, hrest⟩ := answer_reaches (covers_ofModules modules) ih.2 request
    exact ⟨ih.1.trans hreaches, hrest⟩

end FlowTyping.Project
