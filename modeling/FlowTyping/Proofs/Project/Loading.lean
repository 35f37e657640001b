/-
Loading modules, as a relation between projects.

`Loading source p names targets p'` says that loading the modules of some names one after the other
takes the project `p` to `p'` and leads to `targets`.  The rules are those of the program: a name of
which something is known is left alone, a name without a well-formed module is noted as missing, and
a module is analysed after its package and then its imports have been loaded.

The nesting of the program's own loading is bounded, and the bound is never felt (`ensure_loading`):
a module that waits for its package has a longer name than the package, and a module that waits for
its imports is known by then, so along a chain of waiting modules the number of unknown modules
falls, or it stays and the names get shorter.
-/
import FlowTyping.Proofs.Project.Stages
import FlowTyping.Proofs.Text.Dotted

namespace FlowTyping

open List Option

/-- The well-formed module of a name, and whether it is a package. -/
def Source.module? (source : Source) (name : String) : Option (Module × Bool) :=
  (source.load? name).bind fun l => (l.module? name).map (·, l.isPackage)

/-- What a module that has got so far is to an importer. -/
def LoadState.target : LoadState → ImportTarget
  | .inProgress _ => .cyclic
  | .done id => .module id
  | .missing => .missing

variable {source : Source} {name : String} {m : Module} {isPackage : Bool}

theorem Source.name_of_module? (h : source.module? name = some (m, isPackage)) : m.name = name := by
  obtain ⟨loaded, -, hloaded⟩ := bind_eq_some_iff.1 h
  obtain ⟨m', hm', heq⟩ := map_eq_some_iff.1 hloaded
  obtain ⟨tree, -, rfl⟩ := map_eq_some_iff.1 hm'
  rw [← (Prod.mk.inj heq).1]
  rfl

namespace Project

/-! ### The rules of loading -/

/-- The package that is loaded before a module. -/
def packages (name : String) : List String := ((parent? name).map (·.1)).toList

/-- The candidates of a module other than itself. -/
def wanted (m : Module) (isPackage : Bool) : List (String × Bool) :=
  (Import.candidates m isPackage).entries.filter (·.1 ≠ m.name)

/-- The names of the modules that are loaded before a module is walked. -/
def imported (m : Module) (isPackage : Bool) : List String := (wanted m isPackage).map (·.1)

/-- Note what an import leads to; a member that is no module is no import. -/
def note (imports : Table String ImportTarget) (candidate : String × Bool) (target : ImportTarget) :
    Table String ImportTarget :=
  if candidate.2 ∧ target = .missing then imports else imports.insert candidate.1 target

/-- What the candidates of a module lead to. -/
def noteAll (imports : Table String ImportTarget) (candidates : List (String × Bool))
    (targets : List ImportTarget) : Table String ImportTarget :=
  (candidates.zip targets).foldl (fun imports e => note imports e.1 e.2) imports

/-- The package of a module and its name there, if the package is known. -/
def package? (p : Project) (name : String) : Option (ModuleId × String) :=
  (parent? name).bind fun e => (p.idOf? e.1).map (·, e.2)

def nextId (p : Project) : ModuleId := ⟨p.graph.modules.size⟩

/-- The analysis of a module whose imports lead to some targets, and the graph after it. -/
def walked (p : Project) (m : Module) (isPackage : Bool) (id : ModuleId)
    (targets : List ImportTarget) : Analysis × Graph :=
  Analysis.ofModule (contextOf p m isPackage id (noteAll .empty (wanted m isPackage) targets)) m.body p.graph

/-- Loading modules one after the other. -/
inductive Loading (source : Source) : Project → List String → List ImportTarget → Project → Prop
  | nil (p : Project) : Loading source p [] [] p
  | known {p p' : Project} {name : String} {names : List String} {state : LoadState}
      {targets : List ImportTarget} (hstate : p.states.get? name = some state)
      (rest : Loading source p names targets p') :
      Loading source p (name :: names) (state.target :: targets) p'
  | absent {p p' : Project} {name : String} {names : List String} {targets : List ImportTarget}
      (hstate : p.states.get? name = none) (hmodule : source.module? name = none)
      (rest : Loading source (p.setState name .missing) names targets p') :
      Loading source p (name :: names) (.missing :: targets) p'
  | loaded {p p₁ p₂ p' : Project} {name : String} {names : List String} {m : Module} {isPackage : Bool}
      {before found targets : List ImportTarget} (hstate : p.states.get? name = none)
      (hmodule : source.module? name = some (m, isPackage))
      (package : Loading source p (packages name) before p₁)
      (imports : Loading source (p₁.register name (p₁.package? name)) (imported m isPackage) found p₂)
      (rest : Loading source (p₂.complete m p₁.nextId (p₂.walked m isPackage p₁.nextId found)) names
        targets p') :
      Loading source p (name :: names) (.module p₁.nextId :: targets) p'

variable {p p' : Project} {names all : List String} {targets : List ImportTarget}
  {parent : Option (ModuleId × String)} {result : Analysis × Graph} {state : LoadState} {x : String}
  {id : ModuleId}

theorem Loading.append {p'' : Project} {names' : List String} {targets' : List ImportTarget}
    (h : Loading source p names targets p') (h' : Loading source p' names' targets' p'') :
    Loading source p (names ++ names') (targets ++ targets') p'' := by
  induction h with
  | nil p => exact h'
  | known hstate _ ih => exact .known hstate (ih h')
  | absent hstate hmodule _ ih => exact .absent hstate hmodule (ih h')
  | loaded hstate hmodule package imports _ _ _ ih => exact .loaded hstate hmodule package imports (ih h')

/-! ### Load states -/

theorem get?_setState (state : LoadState) (x : String) :
    (p.setState name state).states.get? x = if name = x then some state else p.states.get? x :=
  Table.get?_insert p.states name x state

theorem get?_register (parent : Option (ModuleId × String)) (x : String) :
    (p.register name parent).states.get? x =
      if name = x then some (.inProgress p.nextId) else p.states.get? x :=
  Table.get?_insert p.states name x _

theorem get?_complete (hname : m.name = name) (id : ModuleId) (result : Analysis × Graph) (x : String) :
    (p.complete m id result).states.get? x = if name = x then some (.done id) else p.states.get? x :=
  hname ▸ Table.get?_insert p.states m.name x _

/-- The final state of a name: it has a module that has been analysed, or it has none. -/
def Ended (source : Source) (name : String) (state : Option LoadState) : Prop :=
  (state = some .missing ∧ source.module? name = none) ∨
    ∃ id, state = some (.done id) ∧ (source.module? name).isSome

theorem Ended.isSome {state : Option LoadState} (h : Ended source name state) : state.isSome := by
  rcases h with ⟨rfl, -⟩ | ⟨id, rfl, -⟩ <;> rfl

/-- A state that stays, or that is known first in the end. -/
def Becomes (source : Source) (name : String) (state state' : Option LoadState) : Prop :=
  state' = state ∨ state = none ∧ Ended source name state'

theorem Becomes.trans {s s' s'' : Option LoadState} (h : Becomes source name s s')
    (h' : Becomes source name s' s'') : Becomes source name s s'' := by
  rcases h' with rfl | ⟨rfl, hended⟩
  · exact h
  · rcases h with hsame | ⟨-, hended'⟩
    · exact .inr ⟨hsame.symm, hended⟩
    · exact absurd hended'.isSome Bool.false_ne_true

section

variable (h : Loading source p names targets p')
include h

/-- **What loading does to load states**: those that are known stay, and the new ones are final. -/
theorem Loading.becomes (x : String) : Becomes source x (p.states.get? x) (p'.states.get? x) := by
  induction h with
  | nil p => exact .inl rfl
  | known _ _ ih => exact ih
  | @absent p p' name _ _ hstate hmodule _ ih =>
    rw [get?_setState] at ih
    by_cases hx : name = x
    · subst hx
      rw [if_pos rfl] at ih
      refine .inr ⟨hstate, ?_⟩
      rcases ih with heq | ⟨hnone, -⟩
      · exact .inl ⟨heq, hmodule⟩
      · cases hnone
    · rwa [if_neg hx] at ih
  | @loaded p p₁ p₂ p' name _ m isPackage _ _ _ hstate hmodule _ _ _ ih₁ ih₂ ih₃ =>
    rw [get?_register] at ih₂
    rw [get?_complete (Source.name_of_module? hmodule)] at ih₃
    by_cases hx : name = x
    · -- whatever became of the module in the meantime, it is done now
      subst hx
      rw [if_pos rfl] at ih₃
      refine .inr ⟨hstate, ?_⟩
      rcases ih₃ with heq | ⟨hnone, -⟩
      · exact .inr ⟨_, heq, by rw [hmodule]; rfl⟩
      · cases hnone
    · rw [if_neg hx] at ih₂ ih₃
      exact (ih₁.trans ih₂).trans ih₃

theorem Loading.kept (hx : p.states.get? x = some state) : p'.states.get? x = some state := by
  rcases h.becomes x with heq | ⟨hnone, -⟩
  · exact heq.trans hx
  · rw [hx] at hnone
    cases hnone

theorem Loading.isSome_kept (hx : (p.states.get? x).isSome) : (p'.states.get? x).isSome := by
  obtain ⟨state, hstate⟩ := isSome_iff_exists.1 hx
  rw [h.kept hstate]
  rfl

def AtRest (source : Source) (p : Project) : Prop :=
  ∀ x state, p.states.get? x = some state → Ended source x (some state)

omit h in
theorem atRest_empty (config : Config) : AtRest source (.empty config) := fun _ _ h => nomatch h

theorem Loading.atRest (hp : AtRest source p) : AtRest source p' := by
  intro x state hx
  rcases h.becomes x with heq | ⟨-, hended⟩
  · exact hp x state (heq ▸ hx)
  · exact hx ▸ hended

end

theorem AtRest.of_module? (h : AtRest source p) (hx : p.states.get? x = some state)
    (hmodule : (source.module? x).isSome) : ∃ id, state = .done id := by
  rcases h x state hx with ⟨-, hnone⟩ | ⟨id, heq, -⟩
  · rw [hnone] at hmodule
    cases hmodule
  · exact ⟨id, Option.some.inj heq⟩

theorem AtRest.of_absent (h : AtRest source p) (hx : p.states.get? x = some state)
    (hmodule : source.module? x = none) : state = .missing := by
  rcases h x state hx with ⟨heq, -⟩ | ⟨-, -, hsome⟩
  · exact Option.some.inj heq
  · rw [hmodule] at hsome
    cases hsome

/-! ### The bound on nesting -/

def unknown (names : List String) (p : Project) : Nat := names.countP fun n => (p.states.get? n).isNone

theorem unknown_le_of_known (h : ∀ x, (p.states.get? x).isSome → (p'.states.get? x).isSome) :
    unknown all p' ≤ unknown all p := by
  refine countP_mono_left fun x _ hx => ?_
  rw [isNone_iff_eq_none] at hx ⊢
  by_contra hne
  have := h x (isSome_iff_ne_none.2 hne)
  rw [hx] at this
  cases this

theorem unknown_register_lt (hmem : name ∈ all) (hp : p.states.get? name = none)
    (h : Loading source p names targets p') :
    unknown all (p'.register name parent) < unknown all p := by
  have hle : ∀ xs : List String, (xs.countP fun n => ((p'.register name parent).states.get? n).isNone) ≤
      xs.countP fun n => (p.states.get? n).isNone := fun xs => by
    refine unknown_le_of_known fun x hx => ?_
    rw [get?_register]
    split
    · rfl
    · exact h.isSome_kept hx
  obtain ⟨before, after, rfl⟩ := append_of_mem hmem
  rw [unknown, unknown, countP_append, countP_append, countP_cons, countP_cons,
    get?_register, if_pos rfl, hp]
  have hbefore := hle before
  have hafter := hle after
  simp only [isNone_some, isNone_none, Bool.false_eq_true, if_false, if_true]
  omega

def parts (name : String) : Nat := (Text.dotted name).length

/-- Some names include those of all modules, and the bound of the source is enough for them. -/
structure Covers (source : Source) (all : List String) : Prop where
  mem : ∀ name, (source.module? name).isSome → name ∈ all
  bound : (all.length + 1) * (total parts all + 2) ≤ source.bound

theorem covers_ofModules (modules : Table String SourceText) :
    Covers (.ofModules modules) modules.keys := by
  refine ⟨fun name h => ?_, ?_⟩
  · obtain ⟨result, hresult⟩ := isSome_iff_exists.1 h
    obtain ⟨loaded, hloaded, -⟩ := bind_eq_some_iff.1 hresult
    obtain ⟨text, htext, -⟩ := map_eq_some_iff.1 hloaded
    exact mem_map_of_mem (Table.mem_entries_of_get? htext)
  · have hlength : modules.keys.length = modules.size := length_map _
    rw [hlength]
    exact le_rfl

/-- How deep the loading of a module can be nested. -/
def depth (source : Source) (all : List String) (p : Project) (name : String) : Nat :=
  if (source.module? name).isSome then unknown all p * (total parts all + 2) + parts name else 0

theorem parts_le_total (h : name ∈ all) : parts name ≤ total parts all := by
  obtain ⟨before, after, rfl⟩ := append_of_mem h
  rw [total_append, total_cons]
  omega

variable {all : List String}

theorem depth_package_lt {package leaf : String} (hmodule : (source.module? name).isSome)
    (hparent : parent? name = some (package, leaf)) :
    depth source all p package < depth source all p name := by
  have hparts : parts name = parts package + 1 := length_dotted_of_parent? hparent
  rw [depth, depth, if_pos hmodule]
  split <;> omega

section

variable (hcovers : Covers source all)
include hcovers

theorem depth_import_lt (hmodule : (source.module? name).isSome)
    (hless : unknown all p' < unknown all p) : depth source all p' x < depth source all p name := by
  have hmul : unknown all p' * (total parts all + 2) + (total parts all + 2) ≤
      unknown all p * (total parts all + 2) := by
    rw [← Nat.succ_mul]
    exact Nat.mul_le_mul_right _ hless
  rw [depth, depth, if_pos hmodule]
  split
  · next hx =>
    have := parts_le_total (hcovers.mem x hx)
    omega
  · omega

theorem depth_lt_bound (p : Project) (name : String) : depth source all p name < source.bound := by
  have hbound := hcovers.bound
  rw [Nat.succ_mul] at hbound
  rw [depth]
  split
  · next hmodule =>
    have hparts := parts_le_total (hcovers.mem name hmodule)
    have hunknown : unknown all p * (total parts all + 2) ≤ all.length * (total parts all + 2) :=
      Nat.mul_le_mul_right _ countP_le_length
    omega
  · omega

/-! ### The program loads -/

/-- A way of loading one module that follows the rules in all projects with few unknown modules. -/
def LoadsBelow (source : Source) (all : List String) (limit : Nat)
    (ensure : Project → String → ImportTarget × Project) : Prop :=
  ∀ p name, depth source all p name < limit →
    Loading source p [name] [(ensure p name).1] (ensure p name).2

variable {limit : Nat} {ensure : Project → String → ImportTarget × Project}

omit hcovers in
theorem loadImports_loading (hensure : LoadsBelow source all limit ensure) (importer : String)
    (candidates : List (String × Bool)) (imports : Table String ImportTarget)
    (hp : ∀ p' x, unknown all p' ≤ unknown all p → depth source all p' x < limit) :
    ∃ found, Loading source p ((candidates.filter (·.1 ≠ importer)).map (·.1)) found
        (loadImports ensure importer p imports candidates).2 ∧
      (loadImports ensure importer p imports candidates).1 =
        noteAll imports (candidates.filter (·.1 ≠ importer)) found := by
  induction candidates generalizing p imports with
  | nil => exact ⟨[], .nil p, rfl⟩
  | cons candidate candidates ih =>
    obtain ⟨name, optional⟩ := candidate
    simp only [loadImports]
    by_cases hname : name = importer
    · rw [if_pos hname, filter_cons_of_neg (by simpa using hname)]
      exact ih imports hp
    · rw [if_neg hname, filter_cons_of_pos (by simpa using hname)]
      have hload := hensure p name (hp p name (le_rfl))
      have hfewer : unknown all (ensure p name).2 ≤ unknown all p :=
        unknown_le_of_known fun x hx => hload.isSome_kept hx
      obtain ⟨found, hrest, hnoted⟩ := ih (note imports (name, optional) (ensure p name).1)
        fun p' x hle => hp p' x (hle.trans hfewer)
      exact ⟨(ensure p name).1 :: found, hload.append hrest, hnoted⟩

omit hcovers in
theorem loadParent_loading (hensure : LoadsBelow source all limit ensure) (name : String)
    (hp : ∀ package leaf, parent? name = some (package, leaf) → depth source all p package < limit) :
    ∃ before, Loading source p (packages name) before (loadParent ensure p name).2 ∧
      (loadParent ensure p name).1 = (loadParent ensure p name).2.package? name := by
  rcases hparent : parent? name with - | ⟨package, leaf⟩
  · have hloaded : loadParent ensure p name = (none, p) := by simp only [loadParent, hparent]
    refine ⟨[], ?_, ?_⟩
    · rw [hloaded, packages, hparent]
      exact .nil p
    · rw [hloaded, package?, hparent]
      rfl
  · have hloaded : loadParent ensure p name =
        (((ensure p package).2.idOf? package).map (·, leaf), (ensure p package).2) := by
      simp only [loadParent, hparent]
    refine ⟨[(ensure p package).1], ?_, ?_⟩
    · rw [hloaded, packages, hparent]
      exact hensure p package (hp package leaf hparent)
    · rw [hloaded, package?, hparent]
      rfl

/-- Analysing a module follows the rules if loading all that it needs does. -/
theorem analyse_loading (hensure : LoadsBelow source all limit ensure)
    (hstate : p.states.get? name = none) (hmodule : source.module? name = some (m, isPackage))
    (hlimit : depth source all p name ≤ limit) :
    Loading source p [name] [(analyse ensure p m isPackage).1] (analyse ensure p m isPackage).2 := by
  have hname := Source.name_of_module? hmodule
  have hsome : (source.module? name).isSome := by rw [hmodule]; rfl
  rw [analyse_eq, hname]
  obtain ⟨before, hpackage, hplace⟩ := loadParent_loading hensure name
    fun package leaf hparent => (depth_package_lt hsome hparent).trans_le hlimit
  dsimp only
  generalize loadParent ensure p name = first at hpackage hplace ⊢
  have hless : unknown all (first.2.register name first.1) < unknown all p :=
    unknown_register_lt (hcovers.mem name hsome) hstate hpackage
  obtain ⟨found, himports, hnoted⟩ := loadImports_loading hensure name
    (Import.candidates m isPackage).entries .empty fun p' x hle =>
      (depth_import_lt hcovers hsome (hle.trans_lt hless)).trans_le hlimit
  rw [hnoted]
  rw [hplace] at himports ⊢
  rw [← hname] at himports ⊢
  refine .loaded (hname ▸ hstate) (hname ▸ hmodule) (hname ▸ hpackage) himports (.nil _)

/-- **The bound on nesting is enough**: loading by name follows the rules. -/
theorem ensure_loading (fuel : Nat) : LoadsBelow source all fuel (Project.ensure source fuel) := by
  induction fuel with
  | zero => exact fun p name h => absurd h (Nat.not_lt_zero _)
  | succ fuel ih =>
    intro p name hdepth
    rcases hstate : p.states.get? name with - | state
    · rcases hmodule : source.module? name with - | ⟨m, isPackage⟩
      · have heq : Project.ensure source (fuel + 1) p name = (.missing, p.setState name .missing) := by
          have hload := hmodule
          rw [Source.module?] at hload
          simp only [Project.ensure, hstate, hload]
        rw [heq]
        exact .absent hstate hmodule (.nil _)
      · have heq : Project.ensure source (fuel + 1) p name =
            analyse (Project.ensure source fuel) p m isPackage := by
          have hload := hmodule
          rw [Source.module?] at hload
          simp only [Project.ensure, hstate, hload]
        rw [heq]
        exact analyse_loading hcovers ih hstate hmodule (Nat.le_of_lt_succ hdepth)
    · have heq : Project.ensure source (fuel + 1) p name = (state.target, p) := by
        rw [Project.ensure, hstate]
        cases state <;> rfl
      rw [heq]
      exact .known hstate (.nil p)

/-! ### Adding modules -/

/-- A module that is there can be added, and then it is loaded. -/
theorem tryAdd_of_module? (hp : AtRest source p) (hmodule : (source.module? name).isSome) :
    ∃ target p', p.tryAdd source name = (.ok (), p') ∧ Loading source p [name] [target] p' := by
  rcases hstate : p.states.get? name with - | state
  · obtain ⟨⟨m, isPackage⟩, hm⟩ := isSome_iff_exists.1 hmodule
    obtain ⟨loaded, hload, hloaded⟩ := bind_eq_some_iff.1 hm
    obtain ⟨m', hm', heq⟩ := map_eq_some_iff.1 hloaded
    obtain ⟨rfl, rfl⟩ := Prod.mk.inj heq
    have hloading := analyse_loading hcovers (ensure_loading hcovers source.bound) hstate hm
      (depth_lt_bound hcovers p name).le
    refine ⟨_, _, ?_, hloading⟩
    simp only [tryAdd, hstate, hload, hm']
  · obtain ⟨id, rfl⟩ := hp.of_module? hstate hmodule
    refine ⟨_, p, ?_, .known hstate (.nil p)⟩
    simp only [tryAdd, hstate]

omit hcovers in
/-- A module that is not there cannot be added: it is not found if the source has no text for it or
if it was noted as missing before, and otherwise it is ill formed. -/
theorem tryAdd_of_absent (hp : AtRest source p) (hmodule : source.module? name = none) :
    p.tryAdd source name = (.error (if source.load? name = none ∨ p.states.get? name = some .missing
      then .notFound name else .illFormed name), p) := by
  rcases hstate : p.states.get? name with - | state
  · rcases hload : source.load? name with - | loaded
    · rw [if_pos (.inl rfl)]
      simp only [tryAdd, hstate, hload]
    · have hloaded : loaded.module? name = none := by
        rw [Source.module?, hload] at hmodule
        exact map_eq_none_iff.1 hmodule
      rw [if_neg (by simp)]
      simp only [tryAdd, hstate, hload, hloaded]
  · obtain rfl := hp.of_absent hstate hmodule
    rw [if_pos (.inr rfl)]
    simp only [tryAdd, hstate]

/-- Adding modules is loading those of them that are there. -/
theorem addAll_loading (hp : AtRest source p) (names : List String) :
    ∃ targets, Loading source p (names.filter fun n => (source.module? n).isSome) targets
      (p.addAll source names) := by
  induction names generalizing p with
  | nil => exact ⟨[], .nil p⟩
  | cons name names ih =>
    show ∃ targets, Loading source p _ targets ((p.tryAdd source name).2.addAll source names)
    by_cases hmodule : (source.module? name).isSome
    · obtain ⟨target, p', hadd, hload⟩ := tryAdd_of_module? hcovers hp hmodule
      obtain ⟨targets, hrest⟩ := ih (hload.atRest hp)
      rw [hadd, filter_cons, if_pos hmodule]
      exact ⟨target :: targets, hload.append hrest⟩
    · rw [tryAdd_of_absent hp (by simpa using hmodule), filter_cons, if_neg hmodule]
      exact ih hp

end

/-- **Every project is loaded**: adding modules to the empty project loads those of them that are
there. -/
theorem ofModules_loading (modules : Table String SourceText) (config : Config)
    (names : List String) : ∃ targets, Loading (.ofModules modules) (.empty config)
      (names.filter fun n => ((Source.ofModules modules).module? n).isSome) targets
      (ofModules modules config names) :=
  addAll_loading (covers_ofModules modules) (atRest_empty config) names

theorem ofModules_atRest (modules : Table String SourceText) (config : Config)
    (names : List String) : AtRest (.ofModules modules) (ofModules modules config names) := by
  obtain ⟨targets, hload⟩ := ofModules_loading modules config names
  exact hload.atRest (atRest_empty config)

/-! ### What is loaded -/

/-- To analyse a module, another one is loaded first: its package or one that it may import. -/
def Needs (source : Source) (x y : String) : Prop :=
  ∃ m isPackage, source.module? x = some (m, isPackage) ∧ (y ∈ packages x ∨ y ∈ imported m isPackage)

/-- What a module needs, what these need, and so on. -/
abbrev Leads (source : Source) : String → String → Prop := Relation.ReflTransGen (Needs source)

theorem isSome_register (h : (p.states.get? x).isSome) :
    ((p.register name parent).states.get? x).isSome := by
  rw [get?_register]
  split
  · rfl
  · exact h

theorem isSome_complete (h : (p.states.get? x).isSome) :
    ((p.complete m id result).states.get? x).isSome := by
  rw [get?_complete rfl]
  split
  · rfl
  · exact h

theorem isSome_complete_self (hname : m.name = name) :
    ((p.complete m id result).states.get? name).isSome := by
  rw [get?_complete hname, if_pos rfl]
  rfl

theorem Loading.isSome_of_mem (h : Loading source p names targets p') (hx : x ∈ names) :
    (p'.states.get? x).isSome := by
  induction h with
  | nil p => cases hx
  | known hstate rest ih =>
    rcases mem_cons.1 hx with rfl | hx
    · exact rest.isSome_kept (by rw [hstate]; rfl)
    · exact ih hx
  | absent _ _ rest ih =>
    rcases mem_cons.1 hx with rfl | hx
    · refine rest.isSome_kept ?_
      rw [get?_setState, if_pos rfl]
      rfl
    · exact ih hx
  | loaded _ hmodule _ _ rest _ _ ih =>
    rcases mem_cons.1 hx with rfl | hx
    · exact rest.isSome_kept (isSome_complete_self (Source.name_of_module? hmodule))
    · exact ih hx

/-- **Loading is complete**: with a module, all that it needs gets known. -/
theorem Loading.needs {y : String} (h : Loading source p names targets p')
    (hx : p.states.get? x = none) (hx' : (p'.states.get? x).isSome) (hneeds : Needs source x y) :
    (p'.states.get? y).isSome := by
  induction h with
  | nil p =>
    rw [hx] at hx'
    cases hx'
  | known _ _ ih => exact ih hx hx'
  | @absent p p' name _ _ _ hmodule _ ih =>
    obtain ⟨m, isPackage, hm, -⟩ := hneeds
    refine ih ?_ hx'
    rw [get?_setState, if_neg]
    · exact hx
    · rintro rfl
      rw [hmodule] at hm
      cases hm
  | @loaded p p₁ p₂ p' name _ m isPackage _ _ _ _ hmodule package imports rest ih₁ ih₂ ih₃ =>
    have hname := Source.name_of_module? hmodule
    -- what is known after one of the three stages is known in the end
    have hafter : (p₂.states.get? y).isSome → (p'.states.get? y).isSome := fun hy =>
      rest.isSome_kept (isSome_complete hy)
    have hbefore : (p₁.states.get? y).isSome → (p'.states.get? y).isSome := fun hy =>
      hafter (imports.isSome_kept (isSome_register hy))
    by_cases hself : name = x
    · subst hself
      obtain ⟨m', isPackage', hm, hy⟩ := hneeds
      obtain ⟨rfl, rfl⟩ := Prod.mk.inj (Option.some.inj (hmodule.symm.trans hm))
      rcases hy with hy | hy
      · exact hbefore (package.isSome_of_mem hy)
      · exact hafter (imports.isSome_of_mem hy)
    · rcases h₁ : p₁.states.get? x with - | state
      · rcases h₂ : p₂.states.get? x with - | state
        · refine ih₃ ?_ hx'
          rw [get?_complete hname, if_neg hself]
          exact h₂
        · refine hafter (ih₂ ?_ (by rw [h₂]; rfl))
          rw [get?_register, if_neg hself]
          exact h₁
      · exact hbefore (ih₁ hx (by rw [h₁]; rfl))

/-- **Loading is to the point**: a module gets known only if one that is to be loaded leads to it.
-/
theorem Loading.leads (h : Loading source p names targets p') (hx : p.states.get? x = none)
    (hx' : (p'.states.get? x).isSome) : ∃ n ∈ names, Leads source n x := by
  induction h with
  | nil p =>
    rw [hx] at hx'
    cases hx'
  | known _ _ ih =>
    obtain ⟨n, hn, hleads⟩ := ih hx hx'
    exact ⟨n, mem_cons_of_mem _ hn, hleads⟩
  | @absent p p' name _ _ _ hmodule _ ih =>
    by_cases hself : name = x
    · exact ⟨name, mem_cons_self, hself ▸ .refl⟩
    · rw [get?_setState, if_neg hself] at ih
      obtain ⟨n, hn, hleads⟩ := ih hx hx'
      exact ⟨n, mem_cons_of_mem _ hn, hleads⟩
  | @loaded p p₁ p₂ p' name _ m isPackage _ _ _ _ hmodule package imports rest ih₁ ih₂ ih₃ =>
    rw [get?_register] at ih₂
    rw [get?_complete (Source.name_of_module? hmodule)] at ih₃
    by_cases hself : name = x
    · exact ⟨name, mem_cons_self, hself ▸ .refl⟩
    · rw [if_neg hself] at ih₂ ih₃
      rcases h₁ : p₁.states.get? x with - | state
      · rcases h₂ : p₂.states.get? x with - | state
        · obtain ⟨n, hn, hleads⟩ := ih₃ h₂ hx'
          exact ⟨n, mem_cons_of_mem _ hn, hleads⟩
        · obtain ⟨n, hn, hleads⟩ := ih₂ h₁ (by rw [h₂]; rfl)
          exact ⟨name, mem_cons_self, .head ⟨m, isPackage, hmodule, .inr hn⟩ hleads⟩
      · obtain ⟨n, hn, hleads⟩ := ih₁ hx (by rw [h₁]; rfl)
        exact ⟨name, mem_cons_self, .head ⟨m, isPackage, hmodule, .inl hn⟩ hleads⟩

/-- From the empty project, exactly that is known in the end to which the modules lead. -/
theorem Loading.isSome_iff_leads {config : Config} (h : Loading source (.empty config) names targets p')
    (x : String) : (p'.states.get? x).isSome ↔ ∃ n ∈ names, Leads source n x := by
  refine ⟨fun hx => h.leads rfl hx, ?_⟩
  rintro ⟨n, hn, hleads⟩
  induction hleads with
  | refl => exact h.isSome_of_mem hn
  | tail _ hneeds ih => exact h.needs rfl ih hneeds

end Project

end FlowTyping
