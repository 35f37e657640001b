/-
How far a project is settled after modules have been added to it.

The shared graph is sound afterwards, whatever modules are added in whatever order.  So working
everything out once more changes nothing exactly if the nodes that read more than they are told
about are in step: calls, attributes of modules, writes to attributes, and classes.
-/
import FlowTyping.Proofs.Project.Tidy

namespace FlowTyping.Project

/-- **A project is settled as far as its nodes are in step.**  After any modules have been added in
any order, every node whose rule has only watched reads is in step.  Working everything out once
more grows no set and leaves all sets, rules and tables as they are exactly if the other nodes are
in step too: calls, attributes of modules, writes to attributes, and classes. -/
theorem repropagate_ofModules (modules : Table String SourceText) (config : Config)
    (names : List String) :
    let p := ofModules modules config names
    (∀ id r, p.graph.rule? id = some r → p.graph.IsValue r → p.graph.InStep id r) ∧
    ((p.repropagate.1 = 0 ∧ Graph.Same p.graph p.repropagate.2.graph) ↔
      ∀ id r, p.graph.rule? id = some r → ¬ p.graph.IsValue r → p.graph.InStep id r) := by
  have htidy := (tidy_ofModules modules config names).1
  intro p
  have hp : p.Fits := htidy.fits
  refine ⟨fun id r hr hvalue => hp.sound.inStep hr hvalue, ?_⟩
  refine (Graph.repropagate_same_iff hp.sound).trans ⟨fun h id r hr _ => h id r hr, ?_⟩
  intro h id r hr
  by_cases hvalue : p.graph.IsValue r
  · exact hp.sound.inStep hr hvalue
  · exact h id r hr hvalue

/-- An attribute of a package is read before the module of that name is added. -/
def lateSubmodule : Table String SourceText :=
  ⟨[("pkg", ⟨"", some []⟩), ("pkg.sub", ⟨"x = 1\n", some [.assign 0 [.name 0 "x"] (.constant 4 .int)]⟩),
    ("main", ⟨"import pkg\ny = pkg.sub\n", some [.importModules 0 [⟨"pkg", none⟩],
      .assign 11 [.name 11 "y"] (.attribute 15 (.name 15 "pkg") "sub")]⟩)]⟩

/-- Nobody tells the attribute about the module, so sets grow when everything is worked out once
more. -/
theorem repropagate_grows_lateSubmodule :
    (ofModules lateSubmodule .standard ["main", "pkg.sub"]).repropagate.1 = 3 := by
  decide +kernel

end FlowTyping.Project
