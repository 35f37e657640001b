/-
The search for a base among the bases of a class.

A class steps to the classes in the sets of its base nodes.  The search for a base finds exactly
what such steps lead to, in any graph: classes may have themselves among their bases, and a node may
hold several classes.
-/
import FlowTyping.Graph.Rule
import FlowTyping.Proofs.Search

namespace FlowTyping.Graph

open List Relation

variable {g : Graph} {c p derived base : ClassId}

/-- A class has another one, or itself, in the set of one of its base nodes. -/
def HasBase (g : Graph) (c p : ClassId) : Prop := ∃ b ∈ g.bases c, .classObject p ∈ g.types b

theorem mem_parents : p ∈ g.parents c ↔ g.HasBase c p := by
  simp only [parents, mem_flatMap, mem_filterMap]
  refine exists_congr fun b => and_congr_right fun _ => ⟨?_, fun h => ⟨.classObject p, h, rfl⟩⟩
  rintro ⟨t, ht, hp⟩
  cases t with
  | classObject q =>
    cases hp
    exact ht
  | _ => cases hp

theorem hasBase_eq (g : Graph) : g.HasBase = fun c p => p ∈ g.parents c := by
  funext c p
  exact propext mem_parents.symm

theorem successors_parents (g : Graph) (c : ClassId) :
    Search.successors ((List.range g.classes.size).map fun i => (g.parents ⟨i⟩).map (·.index)) c.index =
      (g.parents c).map (·.index) := by
  rw [Search.successors, List.getElem?_map]
  by_cases hc : c.index < g.classes.size
  · rw [List.getElem?_range hc]
    rfl
  · have hnone : g.class? c = none := Array.getElem?_eq_none (le_of_not_gt hc)
    rw [List.getElem?_eq_none (by simpa using hc), parents, bases, hnone]
    rfl

theorem isSubclass_iff : g.isSubclass derived base = true ↔ ReflTransGen g.HasBase derived base := by
  rw [isSubclass, Search.reaches_iff, hasBase_eq]
  exact Search.reaches_index_iff (fun _ _ h => congrArg ClassId.mk h) (successors_parents g)

/-- **A class is a subclass of the classes that its bases lead to**, itself included.  So the
relation is reflexive and transitive, and it only grows with the bases and their sets. -/
theorem isSubclass_is_reachability (g : Graph) :
    (∀ derived base, g.isSubclass derived base = true ↔ ReflTransGen g.HasBase derived base) ∧
      (∀ c, g.isSubclass c c = true) ∧
      (∀ a b c, g.isSubclass a b = true → g.isSubclass b c = true → g.isSubclass a c = true) ∧
      ∀ g' : Graph, (∀ c, g.bases c ⊆ g'.bases c) → (∀ id, ∀ t ∈ g.types id, t ∈ g'.types id) →
        ∀ derived base, g.isSubclass derived base = true → g'.isSubclass derived base = true := by
  refine ⟨fun _ _ => isSubclass_iff, fun c => isSubclass_iff.2 .refl, fun a b c hab hbc => ?_, ?_⟩
  · exact isSubclass_iff.2 ((isSubclass_iff.1 hab).trans (isSubclass_iff.1 hbc))
  · intro g' hbases htypes derived base h
    refine isSubclass_iff.2 ((isSubclass_iff.1 h).lift id ?_)
    rintro c p ⟨b, hb, hp⟩
    exact ⟨b, hbases c hb, htypes b _ hp⟩

end FlowTyping.Graph
