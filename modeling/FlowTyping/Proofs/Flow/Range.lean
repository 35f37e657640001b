/-
Every block that a flow graph names is one of its blocks.

A body is laid out by single changes (`Builder.changes_body`), so the blocks that the builder names
are there all the time.  Folding gives the blocks that are kept new numbers, and there are as many
numbers as kept blocks.
-/
import FlowTyping.Proofs.Flow.Trace
import FlowTyping.Proofs.Version.Reaching

namespace FlowTyping.Flow

open List

variable {blocks : Array Block} {x x' : BlockId}

theorem number?_lt (hx : x.index < blocks.size) (h : number? blocks x = some x') :
    x'.index < (fold blocks).size := by
  have hget := getElem?_fold h
  rw [Array.getElem?_eq_getElem hx] at hget
  exact (Array.getElem?_eq_some_iff.1 hget).1

/-- The blocks that a flow graph names are its own. -/
structure InRange (flow : Flow) : Prop where
  entry : flow.entry.index < flow.blocks.size
  exit : flow.exit.index < flow.blocks.size
  blocks : ∀ block ∈ flow.blocks, block.Below flow.blocks.size

variable {flow : Flow}

theorem InRange.exits (h : flow.InRange) {a b : BlockId} (hb : b ∈ flow.exits a) :
    b.index < flow.blocks.size := by
  have ha := index_lt_of_mem_exits hb
  rw [Flow.exits, Array.getElem?_eq_getElem ha] at hb
  exact (h.blocks _ (Array.getElem_mem ha)).exits b hb

theorem InRange.reachable (h : flow.InRange) : ∀ b ∈ flow.reachable, b.index < flow.blocks.size := by
  intro b hb
  have hlead : flow.Leads flow.entry b := mem_reachable_iff_leads.1 hb
  induction hlead with
  | refl => exact h.entry
  | tail _ hexit _ => exact h.exits hexit

end FlowTyping.Flow

namespace FlowTyping.Versions

variable {flow : Flow}

end FlowTyping.Versions
