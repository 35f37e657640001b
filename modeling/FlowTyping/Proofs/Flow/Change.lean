/-
Laying out by single changes.

A builder is laid out by adding blocks, changing blocks, going on in another block, entering and
leaving regions, and noting what else there is to know of the body (`Change`).  A change works on a
block that is there, and it names none that is not.  So after each single change all blocks that the
builder names are there: the current block, the exits of blocks and the blocks of the regions around
(`Change.inRange`), and no block was missed (`Change.strays`).
-/
import Mathlib
import FlowTyping.Flow.Builder

namespace FlowTyping.Flow

open List

/-- The blocks that a region names. -/
def Frame.blocks : Frame → List BlockId
  | .loop header after => [header, after]
  | .guarded handlers => handlers
  | .cleanup entry pending => entry :: pending

/-- The blocks that a block names are among the first `n`. -/
structure Block.Below (n : Nat) (block : Block) : Prop where
  exits : ∀ id ∈ block.exits, id.index < n
  next : ∀ id, block.next = some id → id.index < n

namespace Builder

variable {b b' : Builder}

/-- The blocks that a builder names exist, and so does the last block. -/
structure InRange (b : Builder) : Prop where
  current : b.current.index < b.blocks.size
  last : last.index < b.blocks.size
  blocks : ∀ block ∈ b.blocks, block.Below b.blocks.size
  frames : ∀ frame ∈ b.frames, ∀ id ∈ frame.blocks, id.index < b.blocks.size

/-- The single changes of a builder. -/
inductive Change (b : Builder) : Builder → Prop
  | addBlock (isLoopHeader : Bool) (line : Nat) : Change b (b.addBlock isLoopHeader line).2
  | modifyBlock {id : BlockId} {f : Block → Block} (hid : id.index < b.blocks.size)
    (hf : ∀ block : Block, block.Below b.blocks.size → (f block).Below b.blocks.size) : Change b (b.modifyBlock id f)
  | moveTo {id : BlockId} (hid : id.index < b.blocks.size) : Change b (b.moveTo id)
  | withFrames {frames : List Frame} (h : ∀ frame ∈ frames, ∀ id ∈ frame.blocks, id.index < b.blocks.size) :
    Change b { b with frames := frames }
  | note (misplaced : List Misplaced) (nextLoop : Nat) :
    Change b { b with misplaced := misplaced, nextLoop := nextLoop }

/-- One builder comes about from another by single changes. -/
def Changes : Builder → Builder → Prop := Relation.ReflTransGen Change

theorem inRange_start (inFunction : Bool) : (start inFunction).InRange where
  current := Nat.zero_lt_two
  last := Nat.one_lt_two
  blocks block hblock := by
    have hempty : block = emptyBlock false 0 := by simpa [start] using hblock
    rw [hempty]
    exact ⟨fun _ hid => absurd hid not_mem_nil, fun _ hid => nomatch hid⟩
  frames _ hframe := absurd hframe not_mem_nil

/-- **After a single change all blocks that the builder names are there**, if they were before. -/
theorem Change.inRange (h : b.Change b') (hb : b.InRange) : b'.InRange := by
  obtain ⟨hcurrent, hlast, hblocks, hframes⟩ := hb
  cases h with
  | addBlock isLoopHeader line =>
    have hle : b.blocks.size ≤ (b.addBlock isLoopHeader line).2.blocks.size := by simp [Builder.addBlock]
    refine ⟨hcurrent.trans_le hle, hlast.trans_le hle, fun block hblock => ?_,
      fun frame hframe id hid => (hframes frame hframe id hid).trans_le hle⟩
    rcases Array.mem_push.1 hblock with hblock | rfl
    · obtain ⟨hexits, hnext⟩ := hblocks block hblock
      exact ⟨fun id hid => (hexits id hid).trans_le hle, fun id hid => (hnext id hid).trans_le hle⟩
    · exact ⟨fun _ hid => absurd hid not_mem_nil, fun _ hid => nomatch hid⟩
  | @modifyBlock id f hid hf =>
    have hsize : (b.modifyBlock id f).blocks.size = b.blocks.size := Array.size_modify
    refine ⟨hsize ▸ hcurrent, hsize ▸ hlast, fun block hblock => hsize ▸ ?_, hsize ▸ hframes⟩
    obtain ⟨i, hi⟩ := Array.mem_iff_getElem?.1 hblock
    replace hi : (b.blocks.modify id.index f)[i]? = some block := hi
    rw [Array.getElem?_modify] at hi
    split at hi
    · obtain ⟨old, hold, rfl⟩ := Option.map_eq_some_iff.1 hi
      exact hf old (hblocks old (Array.mem_of_getElem? hold))
    · exact hblocks block (Array.mem_of_getElem? hi)
  | moveTo hid => exact ⟨hid, hlast, hblocks, hframes⟩
  | withFrames hframes' => exact ⟨hcurrent, hlast, hblocks, hframes'⟩
  | note misplaced nextLoop => exact ⟨hcurrent, hlast, hblocks, hframes⟩

/-- No change is one of a block that is not there. -/
theorem Change.strays (h : b.Change b') : b'.strays = b.strays := by
  cases h with
  | modifyBlock hid hf =>
    show b.strays + (bif _ then 0 else 1) = b.strays
    rw [decide_eq_true hid]
    rfl
  | _ => rfl

/-- **However a body is laid out by single changes**, all blocks that the builder names are there,
and no block has been missed. -/
theorem Changes.inRange {inFunction : Bool} (h : Changes (start inFunction) b) : b.InRange ∧ b.strays = 0 := by
  induction h with
  | refl => exact ⟨inRange_start inFunction, rfl⟩
  | tail _ hchange ih => exact ⟨hchange.inRange ih.1, hchange.strays.trans ih.2⟩

end Builder

end FlowTyping.Flow
