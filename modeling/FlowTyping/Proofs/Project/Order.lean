/-
Imports are loaded to the end, and in the order of dependency.

A module is registered before its imports are loaded, and it is done when it has been analysed.  So
when a module is analysed, an import that leads to a module leads to one that is done, whose
analysis is in the list (`Reaches.done_analysed`) and stays in front of the one of the importer.
An import that closes a cycle leads to a module that is under way; it is marked as cyclic, and
nothing is said about the order.  A larger bound on the nesting of loading gives the same project
(`tryAdd_bound`).
-/
import FlowTyping.Proofs.Project.Adding
import FlowTyping.Proofs.Project.Run

namespace FlowTyping.Project

open List

variable {source : Source} {name : String} {m : Module} {isPackage : Bool} {p p' q : Project}
  {names : List String} {targets : List ImportTarget} {config : Config}

/-! ### The bound on nesting is not felt -/

/-- There is only one way to load modules. -/
theorem Loading.unique {source' : Source} {targets' : List ImportTarget} {p'' : Project}
    (hsource : source'.module? = source.module?) (h : Loading source p names targets p')
    (h' : Loading source' p names targets' p'') : targets' = targets ∧ p'' = p' := by
  induction h generalizing targets' p'' with
  | nil p =>
    cases h'
    exact ⟨rfl, rfl⟩
  | known hstate _ ih =>
    cases h' with
    | known hstate' rest' =>
      obtain ⟨rfl, rfl⟩ := ih rest'
      obtain rfl := Option.some.inj (hstate.symm.trans hstate')
      exact ⟨rfl, rfl⟩
    | absent hstate' | loaded hstate' => cases hstate.symm.trans hstate'
  | absent hstate hmodule _ ih =>
    rw [← hsource] at hmodule
    cases h' with
    | known hstate' => cases hstate.symm.trans hstate'
    | absent _ _ rest' =>
      obtain ⟨rfl, rfl⟩ := ih rest'
      exact ⟨rfl, rfl⟩
    | loaded _ hmodule' => cases hmodule.symm.trans hmodule'
  | loaded hstate hmodule _ _ _ ih₁ ih₂ ih₃ =>
    rw [← hsource] at hmodule
    cases h' with
    | known hstate' => cases hstate.symm.trans hstate'
    | absent _ hmodule' => cases hmodule.symm.trans hmodule'
    | loaded _ hmodule' package' imports' rest' =>
      obtain ⟨rfl, rfl⟩ := Prod.mk.inj (Option.some.inj (hmodule.symm.trans hmodule'))
      -- package, imports and rest start from projects that have been seen to be equal
      obtain ⟨-, rfl⟩ := ih₁ package'
      obtain ⟨rfl, rfl⟩ := ih₂ imports'
      obtain ⟨rfl, rfl⟩ := ih₃ rest'
      exact ⟨rfl, rfl⟩

/-- **Loading ends by itself**: a larger bound on its nesting changes nothing. -/
theorem tryAdd_bound {all : List String} {bound : Nat} (hcovers : Covers source all)
    (hbound : source.bound ≤ bound) (hp : AtRest source p) (name : String) :
    p.tryAdd { source with bound } name = p.tryAdd source name := by
  have hcovers' : Covers { source with bound } all := ⟨hcovers.mem, hcovers.bound.trans hbound⟩
  have hp' : AtRest { source with bound } p := hp
  rcases hmodule : source.module? name with - | module
  · rw [tryAdd_of_absent hp hmodule]
    exact tryAdd_of_absent hp' hmodule
  · have hsome : (source.module? name).isSome := by
      rw [hmodule]
      rfl
    obtain ⟨target, p₁, hadd, hload⟩ := tryAdd_of_module? hcovers hp hsome
    obtain ⟨target', p₂, hadd', hload'⟩ := tryAdd_of_module? hcovers' hp' hsome
    have hsource : Source.module? { source with bound } = source.module? := rfl
    obtain ⟨-, rfl⟩ := hload.unique hsource hload'
    rw [hadd, hadd']

/-! ### What is done has been analysed -/

theorem analyses_complete (id : ModuleId) (result : Analysis × Graph) :
    (p.complete m id result).analyses = p.analyses ++ [result.1] := rfl

/-- Every module that is done has an analysis under its name and its number. -/
def DoneAnalysed (p : Project) : Prop :=
  ∀ x id, p.states.get? x = some (.done id) → ∃ a ∈ p.analyses, a.name = x ∧ a.module = id

theorem name_module_walkedNow (p : Project) (m : Module) (isPackage : Bool) (id : ModuleId) :
    (p.walkedNow m isPackage id).1.name = m.name ∧ (p.walkedNow m isPackage id).1.module = id := by
  unfold walkedNow Analysis.ofModule
  generalize (Inference.walkModule m.body).run _ _ = result
  rcases result with ⟨⟨⟩, s⟩
  exact ⟨rfl, rfl⟩

theorem Step.done_analysed (h : Step source p p') (hp : DoneAnalysed p) : DoneAnalysed p' := by
  intro x id hx
  cases h with
  | miss _ _ =>
    rw [get?_setState] at hx
    split at hx
    · cases hx
    · exact hp x id hx
  | register _ _ =>
    rw [get?_register] at hx
    split at hx
    · cases hx
    · exact hp x id hx
  | @complete m isPackage number hready =>
    rw [get?_complete rfl] at hx
    rw [analyses_complete]
    split at hx
    · next hname =>
      -- this is the module that has just been analysed
      have hid : number = id := LoadState.done.inj (Option.some.inj hx)
      obtain ⟨hwalked, hmodule⟩ := p.name_module_walkedNow m isPackage number
      generalize p.walkedNow m isPackage number = result at hwalked hmodule
      exact ⟨result.1, mem_append_right _ mem_cons_self, hwalked.trans hname, hmodule.trans hid⟩
    · obtain ⟨a, ha, hfound⟩ := hp x id hx
      exact ⟨a, mem_append_left _ ha, hfound⟩
  | repropagate =>
    rw [repropagate_eq] at hx ⊢
    exact hp x id hx

theorem Reaches.done_analysed (h : Reaches source p p') (hp : DoneAnalysed p) : DoneAnalysed p' := by
  induction h with
  | refl => exact hp
  | tail _ hstep ih => exact hstep.done_analysed ih

theorem doneAnalysed_empty (config : Config) : DoneAnalysed (.empty config) := by
  rintro x id ⟨⟩

/-! ### The list of analyses -/

/-- A module is analysed at some point on the way to a project. -/
structure Made (source : Source) (config : Config) (p q : Project) (m : Module) (isPackage : Bool)
    (id : ModuleId) : Prop where
  before : Reaches source (.empty config) q
  ready : Ready source q m isPackage id
  later : Reaches source (q.complete m id (q.walkedNow m isPackage id)) p

theorem Step.analyses (h : Step source p p') : p'.analyses = p.analyses ∨
    ∃ m isPackage id, Ready source p m isPackage id ∧ p' = p.complete m id (p.walkedNow m isPackage id) ∧
      p'.analyses = p.analyses ++ [(p.walkedNow m isPackage id).1] := by
  cases h with
  | miss | register => exact .inl rfl
  | complete hready => exact .inr ⟨_, _, _, hready, rfl, analyses_complete _ _⟩
  | repropagate =>
    rw [repropagate_eq]
    exact .inl rfl

theorem Reaches.analyses (h : Reaches source p p') : ∃ later, p'.analyses = p.analyses ++ later := by
  induction h with
  | refl => exact ⟨[], (append_nil _).symm⟩
  | tail _ hstep ih =>
    obtain ⟨later, hlater⟩ := ih
    rcases hstep.analyses with heq | ⟨m, isPackage, id, -, -, heq⟩
    · exact ⟨later, heq.trans hlater⟩
    · exact ⟨later ++ [_], by rw [heq, hlater, append_assoc]⟩

/-- **An analysis goes to the end of the list**, behind everything to which the imports of its
module lead. -/
theorem Made.order {id : ModuleId} (h : Made source config p q m isPackage id) :
    (∃ later, p.analyses = q.analyses ++ (q.walkedNow m isPackage id).1 :: later) ∧
      ∀ x number, (q.importsOf m isPackage).get? x = some (.module number) →
        ∃ a ∈ q.analyses, a.name = x ∧ a.module = number := by
  constructor
  · obtain ⟨later, hlater⟩ := Reaches.analyses h.later
    refine ⟨later, ?_⟩
    rw [hlater, analyses_complete, append_assoc]
    rfl
  · intro x number hx
    exact Reaches.done_analysed h.before (doneAnalysed_empty config) x number (done_of_get?_importsOf hx)

/-- **Every analysis in the list was made at some point**, when the ones before it were all there
were. -/
theorem Reaches.made {before later : List Analysis} {a : Analysis}
    (h : Reaches source (.empty config) p) (hp : p.analyses = before ++ a :: later) :
    ∃ q m isPackage id, Made source config p q m isPackage id ∧ q.analyses = before ∧
      (q.walkedNow m isPackage id).1 = a := by
  induction h generalizing later with
  | refl => exact absurd hp (by simp [Project.empty])
  | @tail p p' hrun hstep ih =>
    -- it was there before this step, or this step makes it
    have hearlier : ∀ later', p.analyses = before ++ a :: later' → ∃ q m isPackage id,
        Made source config p' q m isPackage id ∧ q.analyses = before ∧ (q.walkedNow m isPackage id).1 = a := by
      intro later' hp'
      obtain ⟨q, m, isPackage, id, hmade, hfound⟩ := ih hp'
      exact ⟨q, m, isPackage, id, ⟨hmade.before, hmade.ready, hmade.later.tail hstep⟩, hfound⟩
    rcases hstep.analyses with heq | ⟨m, isPackage, id, hready, rfl, heq⟩
    · exact hearlier later (heq.symm.trans hp)
    · rw [hp] at heq
      rcases eq_nil_or_concat later with rfl | ⟨later', last, rfl⟩
      · obtain ⟨hbefore, hlast⟩ := append_singleton_inj.1 heq
        exact ⟨p, m, isPackage, id, ⟨hrun, hready, .refl⟩, hbefore.symm, hlast.symm⟩
      · rw [concat_eq_append, ← cons_append, ← append_assoc] at heq
        exact hearlier later' (append_singleton_inj.1 heq).1.symm

/-! ### Dependency order -/

/-- **Import forcing terminates and is in dependency order.**  After any requests, a request to add
a module is answered by finitely many steps or fails, and the bound on nesting plays no part in it.
No module is under way then, and every module that is done has an analysis.  The list of analyses,
whose order is that of the reports, is made up of the analyses of single modules, and whenever
the import map of such a module leads to a module, an analysis of that one is there already. -/
theorem imports_are_analysed_first (modules : Table String SourceText) (config : Config)
    (requests : List Request) :
    let source := Source.ofModules modules
    let p := after modules config requests
    (∀ name, ((∃ p', p.tryAdd source name = (.ok (), p') ∧ Reaches source p p') ∨
        ∃ e, p.tryAdd source name = (.error e, p)) ∧
      ∀ bound, source.bound ≤ bound →
        p.tryAdd { source with bound } name = p.tryAdd source name) ∧
    (∀ x state, p.states.get? x = some state → state = .missing ∨
      ∃ id, state = .done id ∧ ∃ a ∈ p.analyses, a.name = x ∧ a.module = id) ∧
    p.finish.map (·.module) = p.analyses.map (·.name) ∧
    (∀ before a later, p.analyses = before ++ a :: later → ∃ q m isPackage id,
      Made source config p q m isPackage id ∧ q.analyses = before ∧ (q.walkedNow m isPackage id).1 = a) ∧
    ∀ q m isPackage id, Made source config p q m isPackage id →
      (∃ later, p.analyses = q.analyses ++ (q.walkedNow m isPackage id).1 :: later) ∧
      ∀ x number, (q.importsOf m isPackage).get? x = some (.module number) →
        ∃ a ∈ q.analyses, a.name = x ∧ a.module = number := by
  intro source p
  obtain ⟨hreaches, hrest⟩ := after_reaches modules config requests
  have hcovers := covers_ofModules modules
  refine ⟨fun name => ⟨?_, ?_⟩, fun x state hx => ?_, modules_finish p, ?_, ?_⟩
  · refine (tryAdd_reaches hcovers hrest name).imp_left ?_
    rintro ⟨p', hadd, hrun, -⟩
    exact ⟨p', hadd, hrun⟩
  · exact fun bound hbound => tryAdd_bound hcovers hbound hrest name
  · rcases hrest x state hx with ⟨hmissing, -⟩ | ⟨id, hdone, -⟩
    · exact .inl (Option.some.inj hmissing)
    · obtain rfl := Option.some.inj hdone
      exact .inr ⟨id, rfl, Reaches.done_analysed hreaches (doneAnalysed_empty config) x id hx⟩
  · exact fun before a later hp => hreaches.made hp
  · exact fun q m isPackage id hmade => hmade.order

end FlowTyping.Project
