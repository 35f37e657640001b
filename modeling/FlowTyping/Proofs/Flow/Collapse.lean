/-
Folding keeps the graph of a body.

Layouts close no circle outside of loop headers (`Builder.Orderly`), so from every block the chain
of blocks that can be dropped ends within the number of steps that `folded?` follows it.  Hence
every edge and every successor finds its block, and an edge between two blocks that are kept stands
for a path past blocks that can be dropped (`mem_exits_fold_iff_through`).
-/
import FlowTyping.Proofs.Flow.Protected
import FlowTyping.Proofs.Flow.Range

namespace FlowTyping.Flow

open List

variable {blocks : Array Block} {x x' y y' e target : BlockId} {block : Block} {n : Nat}

/-! ### Paths past blocks that can be dropped -/

/-- A path from one block to another; all blocks between them can be dropped. -/
inductive Through (blocks : Array Block) : BlockId → BlockId → Prop where
  | edge {x y : BlockId} (hexit : y ∈ (chartOf blocks).exits x) : Through blocks x y
  | step {x y z : BlockId} (hexit : y ∈ (chartOf blocks).exits x) (hdrop : isKept blocks y = false)
      (hrest : Through blocks y z) : Through blocks x z

/-- To follow a block that can be dropped is to take the path that there is from it. -/
theorem exists_follow_eq_iff (hy : isKept blocks y = true) :
    (∃ n, follow blocks n x = y) ↔ x = y ∨ isKept blocks x = false ∧ Through blocks x y := by
  constructor
  · rintro ⟨n, hn⟩
    induction n generalizing x with
    | zero => exact .inl hn
    | succ n ih =>
      cases hx : isKept blocks x with
      | true => exact .inl ((follow_of_isKept hx (n + 1)).symm.trans hn)
      | false =>
        obtain ⟨target, htarget⟩ := isKept_eq_false_iff.1 hx
        rw [follow_succ_of_passes htarget] at hn
        have hexit : target ∈ (chartOf blocks).exits x := by
          rw [exits_of_passes htarget]
          exact mem_singleton_self target
        rcases ih hn with rfl | ⟨hdrop, hpath⟩
        · exact .inr ⟨rfl, .edge hexit⟩
        · exact .inr ⟨rfl, .step hexit hdrop hpath⟩
  · rintro (rfl | ⟨hx, hpath⟩)
    · exact ⟨0, rfl⟩
    · induction hpath with
      | edge hexit =>
        obtain ⟨target, htarget⟩ := isKept_eq_false_iff.1 hx
        rw [exits_of_passes htarget, mem_singleton] at hexit
        exact ⟨1, hexit ▸ follow_succ_of_passes htarget 0⟩
      | step hexit hdrop _ ih =>
        obtain ⟨target, htarget⟩ := isKept_eq_false_iff.1 hx
        rw [exits_of_passes htarget, mem_singleton] at hexit
        obtain ⟨n, hn⟩ := ih hy hdrop
        exact ⟨n + 1, (follow_succ_of_passes htarget n).trans (hexit ▸ hn)⟩

/-- An edge of the folded blocks is a path past blocks that can be dropped. -/
theorem mem_exits_fold_iff_through (hx : number? blocks x = some x') (hy : number? blocks y = some y') :
    y' ∈ (chartOf (fold blocks)).exits x' ↔ Through blocks x y := by
  have hkept : isKept blocks y = true := (number?_eq_some_iff.1 hy).1
  rw [mem_exits_chartOf_fold hx]
  constructor
  · rintro ⟨z, hexit, hfolded⟩
    have hfollow : follow blocks (blocks.size + 1) z = y := number?_inj hfolded hy
    rcases (exists_follow_eq_iff hkept).1 ⟨_, hfollow⟩ with rfl | ⟨hdrop, hpath⟩
    · exact .edge hexit
    · exact .step hexit hdrop hpath
  · have hfolded : ∀ z, (∃ n, follow blocks n z = y) → folded? blocks z = some y' := by
      rintro z ⟨n, rfl⟩
      rw [folded?, follow_eq_of_isKept hkept]
      exact hy
    intro hpath
    cases hpath with
    | edge hexit => exact ⟨y, hexit, hfolded y ⟨0, rfl⟩⟩
    | @step _ z _ hexit hdrop hrest =>
      exact ⟨z, hexit, hfolded z ((exists_follow_eq_iff hkept).2 (.inr ⟨hdrop, hrest⟩))⟩

/-! ### The blocks that are kept -/

/-- The new number of the block that stands for a block. -/
def stand (blocks : Array Block) (x : BlockId) : BlockId := place blocks (follow blocks (blocks.size + 1) x)

section

variable (hends : ∀ x, isKept blocks (follow blocks (blocks.size + 1) x) = true)
include hends

theorem folded?_eq_stand : folded? blocks = fun x => some (stand blocks x) := by
  funext x
  exact if_pos (hends x)

theorem exits_foldBlock :
    e ∈ (foldBlock blocks block).exits ↔ ∃ y ∈ block.exits, stand blocks y = e := by
  show e ∈ firsts (block.exits.filterMap (folded? blocks)) ↔ _
  rw [mem_firsts, folded?_eq_stand hends, mem_filterMap]
  simp

theorem next_foldBlock : (foldBlock blocks block).next = block.next.map (stand blocks) := by
  show block.next.bind (folded? blocks) = _
  rw [folded?_eq_stand hends]
  cases block.next <;> rfl

end

theorem lt_size_fold_iff (x' : BlockId) :
    x'.index < (fold blocks).size ↔ ∃ x : BlockId, x.index < blocks.size ∧ number? blocks x = some x' := by
  constructor
  · intro hlt
    set kept := blocks.toList.zipIdx.filter fun p => isKept blocks ⟨p.2⟩ with hkept
    have hsize : (fold blocks).size = kept.length := by
      rw [fold, List.size_toArray, length_map]
    have hlt' : x'.index < kept.length := hsize ▸ hlt
    obtain ⟨⟨block, i⟩, hp⟩ : ∃ p, kept[x'.index]? = some p := ⟨_, List.getElem?_eq_getElem hlt'⟩
    obtain ⟨hmem, hi⟩ := mem_filter.1 (hkept ▸ List.mem_of_getElem? hp)
    have hblock : blocks[i]? = some block := by
      rw [← Array.getElem?_toList]
      exact mk_mem_zipIdx_iff_getElem?.1 hmem
    -- the block is also found under its number, and it is there only once
    have hplace : kept[(List.range i).countP fun j => isKept blocks ⟨j⟩]? = some (block, i) := by
      rw [hkept, getElem?_filter_zipIdx blocks.toList (fun j => isKept blocks ⟨j⟩) hi, Array.getElem?_toList, hblock]
      rfl
    have hnodup : kept.Nodup := by
      refine Nodup.filter _ (Nodup.of_map Prod.snd ?_)
      rw [zipIdx_map_snd]
      exact nodup_range'
    have hindex : x'.index = (List.range i).countP fun j => isKept blocks ⟨j⟩ :=
      (List.getElem?_inj hlt' hnodup).1 (hp.trans hplace.symm)
    exact ⟨⟨i⟩, (Array.getElem?_eq_some_iff.1 hblock).1, number?_eq_some_iff.2 ⟨hi, hindex.symm⟩⟩
  · rintro ⟨x, hlt, hx⟩
    exact number?_lt hlt hx

/-! ### Bodies -/

/-- `flow` is the graph of `blocks` without the blocks that can be dropped; its edges pass over
them. -/
structure Folds (blocks : Array Block) (flow : Flow) : Prop where
  /-- The chain of blocks that can be dropped ends within the limit, from every block. -/
  ends : ∀ x, isKept blocks (follow blocks (blocks.size + 1) x) = true
  /-- The blocks of the graph are those that are kept. -/
  numbers : ∀ x' : BlockId, x'.index < flow.blocks.size ↔
    ∃ x : BlockId, x.index < blocks.size ∧ number? blocks x = some x'
  entry : number? blocks (follow blocks (blocks.size + 1) first) = some flow.entry
  exit : number? blocks last = some flow.exit
  /-- A block that is kept has its items and marks still, and all its edges and its successor. -/
  kept : ∀ x x' block, blocks[x.index]? = some block → number? blocks x = some x' →
    ∃ block', flow.blocks[x'.index]? = some block' ∧ block'.items = block.items ∧
      block'.definiteExit = block.definiteExit ∧ block'.isLoopHeader = block.isLoopHeader ∧
      (∀ e ∈ block.exits, ∃ e' ∈ block'.exits, folded? blocks e = some e') ∧
      ∀ e, block.next = some e → ∃ e', block'.next = some e' ∧ folded? blocks e = some e'
  edges : ∀ x y x' y', number? blocks x = some x' → number? blocks y = some y' →
    (y' ∈ flow.exits x' ↔ Through blocks x y)
  nexts : ∀ block ∈ flow.blocks, (∀ e, block.next = some e → e ∈ block.exits) ∧
    (block.definiteExit = true → block.next = none)
  last : flow.items flow.exit = [] ∧ flow.exits flow.exit = []

/-- What is known of the successors of blocks holds of the folded blocks as well. -/
theorem nexts_fold {b : Builder} (hb : b.Orderly)
    (hends : ∀ x, isKept b.blocks (follow b.blocks (b.blocks.size + 1) x) = true) (hblock : block ∈ fold b.blocks) :
    (∀ e, block.next = some e → e ∈ block.exits) ∧ (block.definiteExit = true → block.next = none) := by
  obtain ⟨i, hi, hget⟩ := Array.mem_iff_getElem.1 hblock
  obtain ⟨x, hlt, hx⟩ := (lt_size_fold_iff ⟨i⟩).1 hi
  have hold := getElem?_fold hx
  have hold' : b.blocks[x.index]? = some b.blocks[x.index] := Array.getElem?_eq_getElem hlt
  rw [hold', Array.getElem?_eq_getElem hi, hget] at hold
  set old := b.blocks[x.index] with hset
  have hfold : block = foldBlock b.blocks old := Option.some.inj hold
  have hnext : b.nextAt x = old.next := by rw [Builder.nextAt, hold']; rfl
  have hexits : b.exitsAt x = old.exits := by rw [Builder.exitsAt, hold']; rfl
  have hdefinite : b.isDefinite x = old.definiteExit := by rw [Builder.isDefinite, hold']
  rw [hfold, next_foldBlock hends]
  refine ⟨fun e he => ?_, fun hjump => ?_⟩
  · obtain ⟨y, hy, rfl⟩ := Option.map_eq_some_iff.1 he
    exact (exits_foldBlock hends).2 ⟨y, hexits ▸ hb.nexts x y (hnext.trans hy), rfl⟩
  · rw [← hnext, hb.closed x (hdefinite.trans hjump)]
    rfl

theorem folds_finish (fn : Bool) (ss : List Stmt) :
    Folds (laidBlocks fn ss) (finish (Builder.body ss (.start fn))) := by
  obtain ⟨K, hcomplete⟩ := Builder.exists_complete fn ss
  have hends := isKept_follow_laidBlocks fn ss
  obtain ⟨y', hy'⟩ := number?_last (laidBlocks fn ss)
  have hexit : (finish (Builder.body ss (.start fn))).exit = y' := by
    show (number? (laidBlocks fn ss) Flow.last).getD ⟨0⟩ = y'
    rw [hy']
    rfl
  have hexits : ∀ z, (finish (Builder.body ss (.start fn))).exits z = (chartOf (fold (laidBlocks fn ss))).exits z :=
    fun z => congrArg (fun G : Chart => G.exits z) (chart_eq (finish (Builder.body ss (.start fn))))
  have hwaiting : (chartOf (laidBlocks fn ss)).exits Flow.last = [] := congrArg Prod.fst hcomplete.links
  refine ⟨hends, lt_size_fold_iff, ?_, hexit ▸ hy', ?_, ?_, fun block => nexts_fold hcomplete.orderly hends, ?_, ?_⟩
  · show _ = some ((folded? (laidBlocks fn ss) first).getD ⟨0⟩)
    rw [folded?_eq_stand hends]
    exact if_pos (hends first)
  · intro x x' block hblock hx
    have hfold := getElem?_fold hx
    rw [hblock] at hfold
    refine ⟨foldBlock (laidBlocks fn ss) block, hfold, rfl, rfl, rfl, fun e he => ?_, fun e he => ?_⟩
    · exact ⟨_, (exits_foldBlock hends).2 ⟨e, he, rfl⟩, congrFun (folded?_eq_stand hends) e⟩
    · refine ⟨_, ?_, congrFun (folded?_eq_stand hends) e⟩
      rw [next_foldBlock hends, he]
      rfl
  · intro x y x' z' hx hz
    rw [hexits]
    exact mem_exits_fold_iff_through hx hz
  · rw [hexit, items_of_number? hy']
    exact hcomplete.items
  · rw [hexit, hexits]
    refine eq_nil_iff_forall_not_mem.2 fun z hz => ?_
    obtain ⟨y, hy, -⟩ := (mem_exits_chartOf_fold hy').1 hz
    exact absurd (hwaiting ▸ hy) not_mem_nil

/-- **Folding keeps the graph**: the flow graph of a body is the graph of its blocks without those
that can be dropped.  No chain of them is longer than the limit, so no edge and no successor is
lost. -/
theorem folds_ofBody (body : Body) : Folds (laidBlocks (body.kind = .function) (laidOut body)) (ofBody body) := by
  obtain ⟨path, kind, params, ss⟩ := body
  cases kind with
  | module => exact folds_finish false ss
  | function => exact folds_finish true ss
  | classBody => exact folds_finish false (constructorsFirst ss)

end FlowTyping.Flow
