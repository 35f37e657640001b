/-
Adding modules: what gets analysed, and what a request answers.

The names that loading analyses are exactly those of the modules that get known
(`Loading.analysed`).  A module is known from the moment on when its imports are loaded, but its
package is loaded before, so a package that leads back to the module has it analysed under way, and
then it is analysed once more; there is no other way to get two analyses of one module
(`analysed_once_iff`).

A request to add a module is answered by what is known of the name.  A module that some import has
asked for in vain is known to be missing, and from then on it cannot be told apart from one that was
never there (`addModule_outcome`).
-/
import FlowTyping.Project.Report
import FlowTyping.Proofs.Project.Loading
import FlowTyping.Proofs.Twin.Reports

namespace FlowTyping.Project

open List Option

variable {source : Source} {name : String} {m : Module} {isPackage : Bool} {p p' : Project}
  {names : List String} {targets : List ImportTarget} {config : Config}
  {modules : Table String SourceText}

/-! ### Analyses -/

/-- The names of the modules that have been analysed, in the order of completion. -/
def analysed (p : Project) : List String := p.analyses.map (·.name)

theorem moduleNames_register (parent : Option (ModuleId × String)) :
    (p.register name parent).graph.moduleNames = p.graph.moduleNames ++ [name] := by
  rcases parent with - | ⟨package, leaf⟩
  · exact p.graph.moduleNames_addModule name
  · show ((p.graph.addModule name).2.addSubmodule package leaf (p.graph.addModule name).1).moduleNames = _
    rw [Graph.addSubmodule, Graph.moduleNames_modifyModule _ package, Graph.moduleNames_addModule]
    exact fun _ => rfl

theorem graph_complete (id : ModuleId) (result : Analysis × Graph) :
    (p.complete m id result).graph = result.2 := rfl

theorem analysed_complete (hname : m.name = name) (id : ModuleId) (found : List ImportTarget) :
    analysed (p.complete m id (p.walked m isPackage id found)) = analysed p ++ [name] := by
  show (p.analyses ++ [(p.walked m isPackage id found).1]).map (·.name) = _
  rw [map_append, map_singleton, walked, (Analysis.ofModule_reports _ _ _).1]
  exact congrArg (fun n => analysed p ++ [n]) hname

theorem moduleNames_complete (id : ModuleId) (found : List ImportTarget) :
    (p.complete m id (p.walked m isPackage id found)).graph.moduleNames = p.graph.moduleNames := by
  rw [graph_complete, walked, (Analysis.ofModule_reports _ _ _).2.2]

section

variable (h : Loading source p names targets p') {x : String}
include h

theorem Loading.eq_none (hx : p'.states.get? x = none) : p.states.get? x = none := by
  by_contra hne
  have hsome := h.isSome_kept (isSome_iff_ne_none.2 hne)
  rw [hx] at hsome
  cases hsome

/-- **What loading analyses**: the modules that get known, each of which gets a number when it is
analysed. -/
theorem Loading.analysed : ∃ new, Project.analysed p' = Project.analysed p ++ new ∧
      p'.graph.moduleNames.Perm (p.graph.moduleNames ++ new) ∧
      ∀ x, x ∈ new ↔ p.states.get? x = none ∧ (p'.states.get? x).isSome ∧ (source.module? x).isSome := by
  induction h with
  | nil p =>
    refine ⟨[], (append_nil _).symm, by rw [append_nil], fun x => ?_⟩
    rcases p.states.get? x with - | state <;> simp
  | known _ _ ih => exact ih
  | @absent p p' name _ _ hstate hmodule rest ih =>
    obtain ⟨new, hnew, hperm, hmem⟩ := ih
    refine ⟨new, hnew, hperm, fun x => (hmem x).trans ?_⟩
    rw [get?_setState]
    by_cases hx : name = x
    · subst hx
      simp [hmodule]
    · rw [if_neg hx]
  | @loaded p p₁ p₂ p' name _ m isPackage _ found _ hstate hmodule package imports rest ih₁ ih₂ ih₃ =>
    have hname := Source.name_of_module? hmodule
    obtain ⟨new₁, hnew₁, hperm₁, hmem₁⟩ := ih₁
    obtain ⟨new₂, hnew₂, hperm₂, hmem₂⟩ := ih₂
    obtain ⟨new₃, hnew₃, hperm₃, hmem₃⟩ := ih₃
    rw [analysed_complete hname] at hnew₃
    rw [moduleNames_complete] at hperm₃
    rw [moduleNames_register] at hperm₂
    refine ⟨new₁ ++ (new₂ ++ ([name] ++ new₃)), ?_, ?_, fun x => ?_⟩
    · rw [hnew₃, hnew₂]
      show Project.analysed p₁ ++ new₂ ++ [name] ++ new₃ = _
      rw [hnew₁]
      simp only [append_assoc]
    · have hswap : (p₁.graph.moduleNames ++ [name] ++ new₂).Perm (p₁.graph.moduleNames ++ (new₂ ++ [name])) := by
        rw [append_assoc]
        exact perm_append_comm.append_left _
      have hall := (hperm₃.trans ((hperm₂.trans hswap).append_right _)).trans
        ((hperm₁.append_right _).append_right _)
      simpa only [append_assoc] using hall
    · have hmem₂ := hmem₂ x
      have hmem₃ := hmem₃ x
      rw [get?_register] at hmem₂
      rw [get?_complete hname] at hmem₃
      simp only [mem_append, mem_singleton, hmem₁, hmem₂, hmem₃]
      have hknown₂ : (p₂.states.get? x).isSome → (p'.states.get? x).isSome := fun hx =>
        rest.isSome_kept (isSome_complete hx)
      have hknown₁ : (p₁.states.get? x).isSome → (p'.states.get? x).isSome := fun hx =>
        hknown₂ (imports.isSome_kept (isSome_register hx))
      by_cases hx : name = x
      · subst hx
        have hself : (p'.states.get? name).isSome := rest.isSome_kept (isSome_complete_self hname)
        simp [hstate, hmodule, hself]
      · have hnone₁ : p₁.states.get? x = none → p.states.get? x = none := package.eq_none
        rw [if_neg hx, if_neg hx]
        rcases h₁ : p₁.states.get? x with - | state₁
        · rcases h₂ : p₂.states.get? x with - | state₂
          · simp [hnone₁ h₁, Ne.symm hx]
          · have hsome := hknown₂ (by rw [h₂]; rfl)
            simp [hnone₁ h₁, Ne.symm hx, hsome]
        · have h₂ : p₂.states.get? x = some state₁ := by
            refine imports.kept ?_
            rw [get?_register, if_neg hx]
            exact h₁
          have hsome := hknown₁ (by rw [h₁]; rfl)
          simp [h₂, Ne.symm hx, hsome]

/-! ### How often a module is analysed -/

/-- No module is there twice: not among the analyses, not among the reports, and not by its numbers.
-/
def Once (p : Project) : Prop :=
  (analysed p).Nodup ∧ (p.finish.map (·.module)).Nodup ∧ p.graph.moduleNames.Nodup

/-- No package leads back to a module of its own. -/
def Forward (source : Source) : Prop :=
  ∀ name package leaf, parent? name = some (package, leaf) → (source.module? name).isSome →
    ¬ Leads source package name

omit h in
theorem modules_finish (p : Project) : p.finish.map (·.module) = analysed p := by
  show (p.analyses.map (Report.ofAnalysis _ _)).map (·.module) = _
  rw [List.map_map]
  rfl

/-- All modules that have been analysed are known. -/
def Noted (p : Project) : Prop := ∀ x ∈ analysed p, (p.states.get? x).isSome

theorem Loading.mem_analysed (hx : x ∈ Project.analysed p') :
    x ∈ Project.analysed p ∨ p.states.get? x = none ∧ (p'.states.get? x).isSome := by
  obtain ⟨new, hnew, -, hmem⟩ := h.analysed
  rw [hnew, mem_append, hmem] at hx
  exact hx.imp_right fun hx => ⟨hx.1, hx.2.1⟩

theorem Loading.noted (hp : Noted p) : Noted p' := by
  intro x hx
  rcases h.mem_analysed hx with hx | ⟨-, hx⟩
  · exact h.isSome_kept (hp x hx)
  · exact hx

end

/-- **Nothing is analysed twice if packages do not lead back**: then a module is not known yet when
its package has been loaded, and it is known from then on. -/
theorem Loading.nodup (hsource : Forward source) (h : Loading source p names targets p')
    (hp : (Project.analysed p).Nodup) (hnoted : Noted p) : (Project.analysed p').Nodup := by
  induction h with
  | nil p => exact hp
  | known _ _ ih => exact ih hp hnoted
  | absent _ _ _ ih =>
    refine ih hp fun x hx => ?_
    rw [get?_setState]
    split
    · rfl
    · exact hnoted x hx
  | @loaded p p₁ p₂ p' name _ m isPackage _ found _ hstate hmodule package imports rest ih₁ ih₂ ih₃ =>
    have hname := Source.name_of_module? hmodule
    have hunknown : p₁.states.get? name = none := by
      by_contra hne
      obtain ⟨n, hn, hleads⟩ := package.leads hstate (isSome_iff_ne_none.2 hne)
      obtain ⟨⟨_, leaf⟩, hparent, rfl⟩ := map_eq_some_iff.1 (mem_toList.1 hn)
      exact hsource name _ leaf hparent (by rw [hmodule]; rfl) hleads
    have hnoted₁ := package.noted hnoted
    have hregister : Noted (p₁.register name (p₁.package? name)) := fun x hx => isSome_register (hnoted₁ x hx)
    have hnew : name ∉ Project.analysed p₂ := by
      intro hmem
      rcases imports.mem_analysed hmem with hmem | ⟨hnone, -⟩
      · have hsome := hnoted₁ name hmem
        rw [hunknown] at hsome
        cases hsome
      · rw [get?_register, if_pos rfl] at hnone
        cases hnone
    refine ih₃ ?_ fun x hx => ?_
    · rw [analysed_complete hname]
      rw [← concat_eq_append]
      exact (ih₂ (ih₁ hp hnoted) hregister).concat hnew
    · rw [analysed_complete hname, mem_append, mem_singleton] at hx
      rcases hx with hx | rfl
      · exact isSome_complete (imports.noted hregister x hx)
      · exact isSome_complete_self hname

/-- The project after a request for one module whose package leads back to it. -/
theorem Loading.not_nodup {package leaf : String} (hparent : parent? name = some (package, leaf))
    (hmodule : (source.module? name).isSome) (hleads : Leads source package name)
    (h : Loading source (.empty config) [name] targets p') : ¬ (Project.analysed p').Nodup := by
  cases h with
  | known hstate _ => cases hstate
  | absent _ hnone _ =>
    rw [hnone] at hmodule
    cases hmodule
  | @loaded _ p₁ p₂ _ _ _ m isPackage _ found _ _ hsome package imports rest =>
    cases rest
    rw [packages, hparent] at package
    have hknown := (package.isSome_iff_leads name).2 ⟨_, mem_singleton_self _, hleads⟩
    -- the loading of the package has analysed the module
    have hfirst : name ∈ Project.analysed p₁ := by
      obtain ⟨new, hnew, -, hmem⟩ := package.analysed
      rw [hnew]
      exact mem_append_right _ ((hmem name).2 ⟨rfl, hknown, hmodule⟩)
    have hsecond : name ∈ Project.analysed p₂ := by
      obtain ⟨new, hnew, -, -⟩ := imports.analysed
      rw [hnew]
      exact mem_append_left _ hfirst
    rw [analysed_complete (Source.name_of_module? hsome)]
    exact fun hnodup => disjoint_of_nodup_append hnodup hsecond (mem_singleton_self _)

theorem once_iff (modules : Table String SourceText) (config : Config) (names : List String) :
    Once (ofModules modules config names) ↔ (analysed (ofModules modules config names)).Nodup := by
  obtain ⟨targets, hload⟩ := ofModules_loading modules config names
  obtain ⟨new, hnew, hperm, -⟩ := hload.analysed
  rw [Once, modules_finish]
  refine ⟨fun h => h.1, fun h => ⟨h, h, hperm.nodup_iff.2 ?_⟩⟩
  rw [hnew] at h
  exact h

/-- **Modules are analysed once exactly if no package leads back to a module of its own.**  Whatever
modules are added in whatever order, no module has two analyses, two reports or two numbers,
provided that the package of no module imports that module, be it through other modules.  If some
package does, a request for that module analyses it twice. -/
theorem analysed_once_iff (modules : Table String SourceText) (config : Config) :
    (∀ names, Once (ofModules modules config names)) ↔ Forward (.ofModules modules) := by
  constructor
  · intro honce name package leaf hparent hmodule hleads
    obtain ⟨targets, hload⟩ := ofModules_loading modules config [name]
    rw [filter_cons, if_pos hmodule] at hload
    exact hload.not_nodup hparent hmodule hleads ((once_iff modules config [name]).1 (honce [name]))
  · intro hforward names
    obtain ⟨targets, hload⟩ := ofModules_loading modules config names
    exact (once_iff modules config names).2 (hload.nodup hforward .nil fun x hx => nomatch hx)

/-- A package that imports its own module. -/
def selfImporting : Table String SourceText :=
  ⟨[("pkg", ⟨"import pkg.sub\n", some [.importModules 0 [⟨"pkg.sub", none⟩]]⟩),
    ("pkg.sub", ⟨"x = 1\n", some [.assign 0 [.name 0 "x"] (.constant 4 .int)]⟩)]⟩

/-- A request for the module loads the package first, and that analyses the module. -/
theorem analysed_twice_selfImporting :
    analysed (ofModules selfImporting .standard ["pkg.sub"]) = ["pkg.sub", "pkg", "pkg.sub"] ∧
      (ofModules selfImporting .standard ["pkg.sub"]).graph.moduleNames = ["pkg", "pkg.sub", "pkg.sub"] ∧
      ¬ Once (ofModules selfImporting .standard ["pkg.sub"]) := by
  have hanalysed : analysed (ofModules selfImporting .standard ["pkg.sub"]) = ["pkg.sub", "pkg", "pkg.sub"] := by
    decide +kernel
  refine ⟨hanalysed, by decide +kernel, ?_⟩
  rintro ⟨hnodup, -⟩
  rw [hanalysed] at hnodup
  exact absurd hnodup (by decide)

/-! ### What a request answers -/

theorem isSome_module?_iff : ((Source.ofModules modules).module? name).isSome ↔
      ∃ text tree, modules.get? name = some text ∧ text.tree = some tree := by
  rcases htext : modules.get? name with - | text
  · simp [Source.module?, Source.ofModules, htext]
  · rcases htree : text.tree with - | tree <;>
      simp [Source.module?, Source.ofModules, Loaded.module?, htext, htree]

/-- Without a well-formed module of a name, its text is not well formed if there is one. -/
theorem exists_illFormed_iff (hname : (Source.ofModules modules).module? name = none) :
    (∃ text, modules.get? name = some text ∧ text.tree = none) ↔ ¬ modules.get? name = none := by
  constructor
  · rintro ⟨text, htext, -⟩ hnone
    rw [htext] at hnone
    cases hnone
  · intro hne
    obtain ⟨text, htext⟩ := ne_none_iff_exists'.1 hne
    refine ⟨text, htext, ?_⟩
    by_contra htree
    obtain ⟨tree, htree⟩ := ne_none_iff_exists'.1 htree
    have hsome := isSome_module?_iff.2 ⟨text, tree, htext, htree⟩
    rw [hname] at hsome
    cases hsome

/-- One more module is added to what the others have left. -/
theorem ofModules_concat (modules : Table String SourceText) (config : Config) (names : List String)
    (name : String) : ofModules modules config (names ++ [name]) =
      ((ofModules modules config names).tryAdd (.ofModules modules) name).2 := by
  show (Project.empty config).addAll (.ofModules modules) (names ++ [name]) = _
  rw [addAll, foldl_append]
  rfl

/-- A name without a well-formed module is noted as missing exactly if an analysed module needs it.
-/
theorem missing_iff_needed (hname : (Source.ofModules modules).module? name = none) :
    (ofModules modules config names).states.get? name = some .missing ↔
      ∃ a ∈ (ofModules modules config names).analyses, Needs (.ofModules modules) a.name name := by
  obtain ⟨targets, hload⟩ := ofModules_loading modules config names
  constructor
  · intro hmissing
    obtain ⟨n, hn, hleads⟩ := (hload.isSome_iff_leads name).1 (by rw [hmissing]; rfl)
    rcases Relation.ReflTransGen.cases_tail hleads with rfl | ⟨x, hx, hneeds⟩
    · have hsome := (mem_filter.1 hn).2
      rw [hname] at hsome
      cases hsome
    · obtain ⟨new, hnew, -, hmem⟩ := hload.analysed
      have hsome : ((Source.ofModules modules).module? x).isSome := by
        obtain ⟨m, isPackage, hm, -⟩ := hneeds
        rw [hm]
        rfl
      have hanalysed : x ∈ analysed (ofModules modules config names) := by
        rw [hnew]
        exact mem_append_right _ ((hmem x).2 ⟨rfl, (hload.isSome_iff_leads x).2 ⟨n, hn, hx⟩, hsome⟩)
      obtain ⟨a, ha, rfl⟩ := mem_map.1 hanalysed
      exact ⟨a, ha, hneeds⟩
  · rintro ⟨a, ha, hneeds⟩
    have hknown := hload.noted (fun x hx => nomatch hx) a.name (mem_map_of_mem ha)
    obtain ⟨state, hstate⟩ := isSome_iff_exists.1 (hload.needs rfl hknown hneeds)
    rw [hstate, (ofModules_atRest modules config names).of_absent hstate hname]

/-- **What adding a module answers.**  It succeeds exactly if the source has a well-formed module of
the name, and a request that fails leaves the project as it is.  A text that is not well formed is
called so only as long as no analysed module needs it: such a module has noted the name as missing,
and then the module is not found. -/
theorem addModule_outcome (modules : Table String SourceText) (config : Config)
    (names : List String) (name : String) :
    let source := Source.ofModules modules
    let p := ofModules modules config names
    let illFormed := ∃ text, modules.get? name = some text ∧ text.tree = none
    let needed := ∃ a ∈ p.analyses, Needs source a.name name
    ((p.tryAdd source name).1 = .ok () ↔
      ∃ text tree, modules.get? name = some text ∧ text.tree = some tree) ∧
    ((p.tryAdd source name).1 = .error (.notFound name) ↔
      modules.get? name = none ∨ illFormed ∧ needed) ∧
    ((p.tryAdd source name).1 = .error (.illFormed name) ↔ illFormed ∧ ¬ needed) ∧
    ∀ e, (p.tryAdd source name).1 = .error e → (e = .notFound name ∨ e = .illFormed name) ∧
      (p.tryAdd source name).2 = p ∧ ofModules modules config (names ++ [name]) = p := by
  intro source p illFormed needed
  have hrest : AtRest source p := ofModules_atRest modules config names
  rw [← isSome_module?_iff]
  rcases hmodule : source.module? name with - | result
  · have hadd := tryAdd_of_absent hrest hmodule
    have hload : source.load? name = none ↔ modules.get? name = none := map_eq_none_iff
    have hneeded : p.states.get? name = some .missing ↔ needed := missing_iff_needed hmodule
    have hsame : ofModules modules config (names ++ [name]) = p := by rw [ofModules_concat, hadd]
    have hfound : source.load? name = none ∨ p.states.get? name = some .missing ↔
        modules.get? name = none ∨ needed := or_congr hload hneeded
    rw [show illFormed ↔ _ from exists_illFormed_iff hmodule]
    by_cases h : modules.get? name = none ∨ needed
    · rw [if_pos (hfound.2 h)] at hadd
      refine ⟨by simp [hadd], ?_, ?_, ?_⟩
      · simp only [hadd, true_iff]
        exact h.elim .inl fun hn => (em _).imp_right fun hne => ⟨hne, hn⟩
      · simp only [hadd, Except.error.injEq, reduceCtorEq, false_iff]
        exact fun hboth => h.elim hboth.1 hboth.2
      · rintro e he
        rw [hadd] at he ⊢
        cases he
        exact ⟨.inl rfl, rfl, hsame⟩
    · rw [if_neg (mt hfound.1 h)] at hadd
      rw [not_or] at h
      refine ⟨by simp [hadd], ?_, ?_, ?_⟩
      · simp only [hadd, Except.error.injEq, reduceCtorEq, false_iff]
        exact fun hone => hone.elim h.1 fun hboth => h.2 hboth.2
      · simp only [hadd, true_iff]
        exact h
      · rintro e he
        rw [hadd] at he ⊢
        cases he
        exact ⟨.inr rfl, rfl, hsame⟩
  · have hsome : (source.module? name).isSome := by rw [hmodule]; rfl
    obtain ⟨target, p', hadd, -⟩ := tryAdd_of_module? (covers_ofModules modules) hrest hsome
    obtain ⟨text, tree, htext, htree⟩ := isSome_module?_iff.1 hsome
    have hwell : ¬ illFormed := by
      rintro ⟨other, hother, hnone⟩
      cases htext.symm.trans hother
      rw [htree] at hnone
      cases hnone
    rw [hadd]
    simp [htext, hwell]

/-- A module that imports one that is not well formed. -/
def brokenImport : Table String SourceText :=
  ⟨[("main", ⟨"import broken\n", some [.importModules 0 [⟨"broken", none⟩]]⟩),
    ("broken", ⟨"def (:\n", none⟩)]⟩

/-- The same request has two answers, before and after the module that imports it. -/
theorem addModule_brokenImport :
    ((ofModules brokenImport .standard []).tryAdd (.ofModules brokenImport) "broken").1 =
        .error (.illFormed "broken") ∧
      ((ofModules brokenImport .standard ["main"]).tryAdd (.ofModules brokenImport) "broken").1 =
        .error (.notFound "broken") := by
  have hmissing : (ofModules brokenImport .standard ["main"]).states.get? "broken" = some .missing := by
    decide +kernel
  refine ⟨rfl, ?_⟩
  simp only [tryAdd, hmissing]

end FlowTyping.Project
