/-
Paths through a flow graph.

`Arrives flow b items` says that some path from the entry leads to the start of the block `b`, and
that the blocks on it hold these items, one after the other.  A block is listed as reachable exactly
if control arrives at it (`mem_reachable_iff`).
-/
import FlowTyping.Flow.Basic
import FlowTyping.Proofs.Search

namespace FlowTyping.Flow

open List Relation

variable {flow : Flow} {a b : BlockId}

/-- Some path from the entry leads to a block, past some items. -/
inductive Arrives (flow : Flow) : BlockId → List Item → Prop where
  | entry : Arrives flow flow.entry []
  | step {a b : BlockId} {items : List Item} (h : Arrives flow a items) (hexit : b ∈ flow.exits a) :
      Arrives flow b (items ++ flow.items a)

/-- Some path leads from one block to another. -/
abbrev Leads (flow : Flow) : BlockId → BlockId → Prop := ReflTransGen fun a b => b ∈ flow.exits a

theorem successors_eq (flow : Flow) (b : BlockId) :
    Search.successors (successors flow.blocks) b.index = (flow.exits b).map (·.index) := by
  rw [Search.successors, successors, List.getElem?_map, Array.getElem?_toList, exits]
  rcases flow.blocks[b.index]? with - | block <;> rfl

theorem reaches_iff_leads : Search.Reaches (successors flow.blocks) a.index b.index ↔ flow.Leads a b :=
  Search.reaches_index_iff (fun _ _ h => congrArg BlockId.mk h) (successors_eq flow)

theorem mem_reachable_iff_leads : b ∈ flow.reachable ↔ flow.Leads flow.entry b := by
  rw [← reaches_iff_leads, ← Search.mem_preorder_iff, reachable, mem_map]
  constructor
  · rintro ⟨i, hi, rfl⟩
    exact hi
  · exact fun h => ⟨b.index, h, rfl⟩

/-- **A block is reachable exactly if control arrives at it.** -/
theorem mem_reachable_iff : b ∈ flow.reachable ↔ ∃ items, flow.Arrives b items := by
  rw [mem_reachable_iff_leads]
  constructor
  · intro h
    induction h with
    | refl => exact ⟨[], .entry⟩
    | tail _ hexit ih =>
      obtain ⟨items, harrives⟩ := ih
      exact ⟨_, harrives.step hexit⟩
  · rintro ⟨items, h⟩
    induction h with
    | entry => exact .refl
    | step _ hexit ih => exact ih.tail hexit

theorem nodup_reachable (flow : Flow) : flow.reachable.Nodup :=
  (Search.nodup_preorder _ _).map fun _ _ h => BlockId.mk.inj h

theorem depthFirst_reachable (flow : Flow) : Search.DepthFirst flow.exits [] [flow.entry] flow.reachable := by
  refine (Search.depthFirst_preorderFrom (successors flow.blocks) [] [flow.entry.index]).map
    (f := BlockId.mk) (fun _ _ h => BlockId.mk.inj h) fun i => ?_
  rw [successors_eq flow ⟨i⟩, List.map_map]
  exact (List.map_id _).symm

/-- **The reachable blocks are listed in depth-first order**: each block that control can come to
once and no other block, in the one order in which the search by recursion visits them. -/
theorem reachable_is_depth_first (flow : Flow) :
    flow.reachable.Nodup ∧ (∀ b, b ∈ flow.reachable ↔ flow.Leads flow.entry b) ∧
      ∀ order, Search.DepthFirst flow.exits [] [flow.entry] order ↔ order = flow.reachable := by
  have hsearch := depthFirst_reachable flow
  refine ⟨nodup_reachable flow, fun b => mem_reachable_iff_leads, fun order => ⟨hsearch.unique, ?_⟩⟩
  rintro rfl
  exact hsearch

theorem index_lt_of_mem_exits (h : b ∈ flow.exits a) : a.index < flow.blocks.size := by
  rw [exits] at h
  by_contra hge
  rw [Array.getElem?_eq_none (le_of_not_gt hge)] at h
  cases h

theorem mem_predecessors (hb : b.index < flow.blocks.size) :
    a ∈ flow.predecessors[b.index]?.getD [] ↔ b ∈ flow.exits a := by
  rw [predecessors, List.getElem?_map, List.getElem?_range hb, Option.map_some, Option.getD_some,
    mem_filter, decide_eq_true_eq]
  refine and_iff_right_of_imp fun h => ?_
  exact mem_map.2 ⟨a.index, mem_range.2 (index_lt_of_mem_exits h), rfl⟩

end FlowTyping.Flow
