/-
Unrelated modules.

All modules of a project share one graph: its numbers, its constants and its work list.  Modules
that lead to nothing in common do not notice each other all the same.  The graph of both is the
graph of the one beside the graph of the other, so each module is walked as it would be in a project
of its own, and when everything is worked out once more, each side comes to rest as it would by
itself.
-/
import FlowTyping.Proofs.Project.Alongside

namespace FlowTyping

open List

/-! ### Nothing beside nothing -/

namespace Graph

theorem copy_empty (unboundAsNone : Bool) :
    Copy .id (Graph.empty unboundAsNone) (Graph.empty unboundAsNone) where
  nextNode _ := rfl
  nextClass _ := rfl
  nextFunction _ := rfl
  nextModule _ := rfl
  node? _ := .none
  class? _ := rfl
  function? _ := rfl
  module? _ := rfl
  unboundAsNone := rfl
  lookup _ _ h := nomatch h
  shared _ := Iff.rfl
  ordered _ _ _ _ h := h
  worklist := rfl

theorem beside_empty (unboundAsNone : Bool) :
    Beside .id .id (Graph.empty unboundAsNone) (Graph.empty unboundAsNone)
      (Graph.empty unboundAsNone) where
  left := copy_empty unboundAsNone
  right := copy_empty unboundAsNone
  leftValid := (sound_empty unboundAsNone).valid
  leftClean := clean_empty unboundAsNone
  rightValid := (sound_empty unboundAsNone).valid
  rightClean := clean_empty unboundAsNone
  valid := (sound_empty unboundAsNone).valid
  clean := clean_empty unboundAsNone
  nodes _ _ hi := absurd hi (Nat.not_lt_zero _)
  ofClass _ _ hc := absurd hc (Nat.not_lt_zero _)
  ofFunction _ _ hf := absurd hf (Nat.not_lt_zero _)
  ofModule _ _ hm := absurd hm (Nat.not_lt_zero _)
  cover _ hid := absurd hid (Nat.not_lt_zero _)

end Graph

namespace Project

/-! ### Two projects in one -/

variable {ρ σ : Renaming} {p q r : Project} {g : Graph}

/-- A project that stands for two others: its graph holds copies of their graphs and nothing else,
and it has found what the first has found and then what the second has found. -/
structure Joins (ρ σ : Renaming) (p q r : Project) : Prop where
  beside : Graph.Beside ρ σ p.graph q.graph r.graph
  left : p.graph.Sound
  right : q.graph.Sound
  whole : r.graph.Sound
  leftConfig : r.config = p.config
  rightConfig : r.config = q.config
  analyses : ∃ first second, r.analyses = first ++ second ∧
    Forall₂ (p.graph.renamed ρ).AnalysisMatch p.analyses first ∧
    Forall₂ (q.graph.renamed σ).AnalysisMatch q.analyses second

theorem map_ofAnalysis {config : Config} {h : Graph} {xs ys : List Analysis} (hc : Graph.Copy ρ g h)
    (hclean : g.Clean) (hall : Forall₂ (g.renamed ρ).AnalysisMatch xs ys) :
    ys.map (Report.ofAnalysis config h) = xs.map (Report.ofAnalysis config g) := by
  rw [← filterMap_eq_map, ← filterMap_eq_map]
  exact filterMap_of_forall₂ hall fun x y hxy => congrArg some (hc.report hclean hxy config)

/-- Numbers that belong together do so when everything has been worked out once more. -/
theorem grows_repropagate {ρ' : Renaming} (hs : g.Sound) (hagree : ρ.Agree ρ' g) :
    (g.renamed ρ).Grows (g.repropagate.2.renamed ρ') :=
  (hs.request (r := .repropagate) trivial).later.renamed hagree fun _ hid hshared =>
    hshared.of_request (r := .repropagate) hid

/-- **The reports of a project that stands for two others.** -/
theorem Joins.finish (h : Joins ρ σ p q r) : r.finish = p.finish ++ q.finish := by
  obtain ⟨first, second, heq, hfirst, hsecond⟩ := h.analyses
  obtain ⟨ρ', σ', hb, hρ, hσ⟩ := h.beside.repropagate h.left h.right h.whole
  have hleft := grows_repropagate h.left hρ
  have hright := grows_repropagate h.right hσ
  show r.analyses.map (Report.ofAnalysis r.config r.graph.repropagate.2) =
    p.analyses.map (Report.ofAnalysis p.config p.graph.repropagate.2) ++
      q.analyses.map (Report.ofAnalysis q.config q.graph.repropagate.2)
  rw [heq, map_append, ← h.leftConfig, ← h.rightConfig,
    map_ofAnalysis hb.left hb.leftClean (hfirst.imp fun _ _ hm => hm.mono hleft),
    map_ofAnalysis hb.right hb.rightClean (hsecond.imp fun _ _ hm => hm.mono hright)]

variable {modules : Table String SourceText}

/-- **A project is a copy of itself**: it loads its modules beside nothing. -/
theorem alongside_ofModules (modules : Table String SourceText) (config : Config)
    (names : List String) : ∃ w, Alongside .id (.empty config) w (ofModules modules config names)
      (ofModules modules config names) := by
  have hsound := Graph.sound_empty config.unboundAsNone
  have hstart : Alongside .id (.empty config) ((Graph.empty config.unboundAsNone).renamed .id)
      (.empty config) (.empty config) :=
    ⟨⟨.id, ⟨⟨.id, .refl _ _, Graph.beside_empty _⟩, hsound, hsound, hsound⟩, rfl⟩, rfl,
      fun _ _ => .none, [], rfl, .nil⟩
  obtain ⟨targets, hload⟩ := ofModules_loading modules config names
  obtain ⟨w, targets', q, -, hload', halong, -⟩ := hload.alongside hstart fun _ _ _ _ => rfl
  obtain ⟨-, rfl⟩ := hload.unique rfl hload'
  exact ⟨w, halong⟩

/-- Modules that lead to nothing that is known yet are loaded beside what is there. -/
theorem joins_ofModules (config : Config) {as bs : List String} (h : ∀ a ∈ as, ∀ b ∈ bs, ∀ x,
    Leads (.ofModules modules) a x → ¬ Leads (.ofModules modules) b x) :
    ∃ ρ σ, Joins ρ σ (ofModules modules config as) (ofModules modules config bs)
      (ofModules modules config (as ++ bs)) := by
  obtain ⟨w, hself⟩ := alongside_ofModules modules config as
  obtain ⟨ρ, ⟨⟨σ, -, hbeside⟩, -, hsound, -⟩, rfl⟩ := hself.graphs
  obtain ⟨first, hanalyses, hfirst⟩ := hself.analyses
  have hempty := Graph.sound_empty config.unboundAsNone
  -- the other way round, nothing stands beside the first project
  have hstart : Alongside ρ (ofModules modules config as)
      ((Graph.empty config.unboundAsNone).renamed σ) (.empty config) (ofModules modules config as) :=
    ⟨⟨σ, ⟨⟨ρ, .refl _ _, hbeside.symm⟩, hsound, hempty, hsound⟩, rfl⟩, (tidy_ofModules modules config as).2,
      fun x hx => by rw [hx]; exact .none, [], (append_nil _).symm, .nil⟩
  obtain ⟨targets, hload⟩ := ofModules_loading modules config as
  obtain ⟨targets', hload'⟩ := ofModules_loading modules config bs
  have hunknown : ∀ b ∈ bs.filter fun n => ((Source.ofModules modules).module? n).isSome, ∀ x,
      Leads (.ofModules modules) b x → (ofModules modules config as).states.get? x = none := by
    intro b hb x hbx
    by_contra hx
    obtain ⟨a, ha, hax⟩ := (hload.isSome_iff_leads x).1 (Option.isSome_iff_ne_none.2 hx)
    exact h a (mem_of_mem_filter ha) b (mem_of_mem_filter hb) x hax hbx
  obtain ⟨w', targets'', q, -, hload'', halong, -⟩ := hload'.alongside hstart hunknown
  -- there is only one way to load them
  obtain ⟨_, hall⟩ := addAll_loading (covers_ofModules modules) (ofModules_atRest modules config as) bs
  obtain ⟨-, rfl⟩ := hall.unique rfl hload''
  have happend : ofModules modules config (as ++ bs) =
      (ofModules modules config as).addAll (.ofModules modules) bs := foldl_append
  obtain ⟨σ', ⟨⟨ρ', hagree, hbeside'⟩, -, hright, hwhole⟩, rfl⟩ := halong.graphs
  obtain ⟨second, heq, hsecond⟩ := halong.analyses
  have hgrows : ((ofModules modules config as).graph.renamed ρ).Grows
      ((ofModules modules config as).graph.renamed ρ') :=
    (Graph.Later.refl _).renamed hagree fun _ _ hshared => hshared
  rw [happend]
  refine ⟨ρ', σ', hbeside', hsound, hright, hwhole, ?_, halong.config, first, second, ?_,
    hfirst.imp fun _ _ hm => hm.mono hgrows, hsecond⟩
  · rw [halong.config, (tidy_ofModules modules config as).2, (tidy_ofModules modules config bs).2]
  · rw [heq, hanalyses]
    rfl

/-- **Unrelated modules do not influence each other.**  Let some modules be added to a project and
then others.  If no name is asked for on both sides, neither by an import nor as the package of a
module, neither at once nor through other modules, then the reports of the project are those that
the first modules get in a project of their own, followed by those that the others get in a project
of their own. -/
theorem unrelated_modules_do_not_interfere (modules : Table String SourceText) (config : Config)
    (as bs : List String) (h : ∀ a ∈ as, ∀ b ∈ bs, ∀ x,
      Leads (.ofModules modules) a x → ¬ Leads (.ofModules modules) b x) :
    (ofModules modules config (as ++ bs)).finish =
      (ofModules modules config as).finish ++ (ofModules modules config bs).finish := by
  obtain ⟨ρ, σ, hjoins⟩ := joins_ofModules config h
  exact hjoins.finish

/-- What a module leads to is among the names that a project knows to which it has been added. -/
theorem mem_keys_of_leads (config : Config) {name x : String}
    (hname : ((Source.ofModules modules).module? name).isSome) (h : Leads (.ofModules modules) name x) :
    x ∈ (ofModules modules config [name]).states.keys := by
  obtain ⟨targets, hload⟩ := ofModules_loading modules config [name]
  rw [filter_cons, if_pos hname] at hload
  obtain ⟨state, hstate⟩ := Option.isSome_iff_exists.1
    ((hload.isSome_iff_leads x).2 ⟨name, mem_cons_self, h⟩)
  exact mem_map_of_mem (Table.mem_entries_of_get? hstate)

/-- Two programs that have nothing in common but the type of a number. -/
def twoPrograms : Table String SourceText :=
  ⟨[("first", ⟨"import tools\nx = tools.one\n", some [.importModules 0 [⟨"tools", none⟩],
      .assign 13 [.name 13 "x"] (.attribute 17 (.name 17 "tools") "one")]⟩),
    ("tools", ⟨"one = 1\n", some [.assign 0 [.name 0 "one"] (.constant 6 .int)]⟩),
    ("second", ⟨"y = 1\nz = y()\n", some [.assign 0 [.name 0 "y"] (.constant 4 .int),
      .assign 6 [.name 6 "z"] (.call 10 (.name 10 "y") [] [])]⟩)]⟩

theorem twoPrograms_do_not_interfere :
    (∀ x, Leads (.ofModules twoPrograms) "first" x → ¬ Leads (.ofModules twoPrograms) "second" x) ∧
      (ofModules twoPrograms .standard ["first", "second"]).finish =
        (ofModules twoPrograms .standard ["first"]).finish ++
          (ofModules twoPrograms .standard ["second"]).finish ∧
      (ofModules twoPrograms .standard ["second"]).finish.map (·.diagnostics) =
        [[⟨"second", 2, .notCallable "{int}"⟩]] := by
  have hunrelated : ∀ x, Leads (.ofModules twoPrograms) "first" x →
      ¬ Leads (.ofModules twoPrograms) "second" x := by
    intro x hfirst hsecond
    have hdisjoint : ∀ x ∈ (ofModules twoPrograms .standard ["first"]).states.keys,
        x ∉ (ofModules twoPrograms .standard ["second"]).states.keys := by decide +kernel
    exact hdisjoint x (mem_keys_of_leads .standard (by decide +kernel) hfirst)
      (mem_keys_of_leads .standard (by decide +kernel) hsecond)
  refine ⟨hunrelated, ?_, by decide +kernel⟩
  refine unrelated_modules_do_not_interfere twoPrograms .standard ["first"] ["second"] fun a ha b hb => ?_
  rw [mem_singleton.1 ha, mem_singleton.1 hb]
  exact hunrelated

end Project

end FlowTyping
