/-
What the single steps of a layout do to a builder.

There are steps of three kinds.  One puts something aside: new blocks, items, the number of a loop,
a misplaced jump (`Stays`).  One adds edges to the current block (`Leads`).  One goes on in another
block (`Goes`).  For each kind it is said once what changes and what does not, in terms of what
there is to see of a block.  The regions around matter only as far as they say where jumps and
exceptions may lead (`jumpEnds`, `handlersAround`).
-/
import FlowTyping.Proofs.Flow.Change

namespace FlowTyping.Flow

open List

/-! ### The items of a statement -/

mutual

/-- The number of `for` loops in a statement, nested functions and classes left out. -/
def loopsOf : Stmt → Nat
  | .forLoop _ _ _ body orelse => 1 + loopsOfAll body + loopsOfAll orelse
  | .whileLoop _ _ body orelse => loopsOfAll body + loopsOfAll orelse
  | .ifThen _ _ body orelse => loopsOfAll body + loopsOfAll orelse
  | .withBlock _ _ body => loopsOfAll body
  | .tryBlock _ body handlers orelse finalbody =>
    loopsOfAll body + loopsOfAll orelse + loopsOfHandlers handlers + loopsOfAll finalbody
  | _ => 0

def loopsOfAll : List Stmt → Nat
  | [] => 0
  | s :: ss => loopsOf s + loopsOfAll ss

def loopsOfHandlers : List (Handler Stmt) → Nat
  | [] => 0
  | ⟨_, _, _, body⟩ :: hs => loopsOfAll body + loopsOfHandlers hs

end

mutual

/-- The items that a statement of a body is laid out as; its `for` loops are numbered from `n` on.
-/
def itemsOf (inFunction : Bool) : Nat → Stmt → List Item
  | _, .functionDef line fn => [⟨line, .functionDef fn⟩]
  | _, .classDef line cls => [⟨line, .classDef cls⟩]
  | _, .ret line value => if inFunction then [⟨line, .ret value⟩] else []
  | n, .ifThen line test body orelse =>
    ⟨line, .test test⟩ :: itemsOfAll inFunction n body ++
      itemsOfAll inFunction (n + loopsOfAll body) orelse
  | n, .whileLoop line test body orelse =>
    ⟨line, .test test⟩ :: itemsOfAll inFunction n body ++
      itemsOfAll inFunction (n + loopsOfAll body) orelse
  | n, .forLoop line target iter body orelse =>
    ⟨line, .forIter ⟨n⟩ iter⟩ :: ⟨line, .forTarget ⟨n⟩ target⟩ ::
      itemsOfAll inFunction (n + 1) body ++ itemsOfAll inFunction (n + 1 + loopsOfAll body) orelse
  | n, .withBlock line items body =>
    items.map (fun item => ⟨line, .withEnter item⟩) ++ itemsOfAll inFunction n body
  | n, .tryBlock _ body handlers orelse finalbody =>
    itemsOfAll inFunction n body ++ itemsOfAll inFunction (n + loopsOfAll body) orelse ++
      itemsOfHandlers inFunction (n + loopsOfAll body + loopsOfAll orelse) handlers ++
      itemsOfAll inFunction (n + loopsOfAll body + loopsOfAll orelse + loopsOfHandlers handlers)
        finalbody
  | _, .pass _ => []
  | _, .break _ => []
  | _, .continue _ => []
  | _, .raise line exc cause => [⟨line, .simple (.raise line exc cause)⟩]
  | _, .delete line targets => [⟨line, .simple (.delete line targets)⟩]
  | _, .assign line targets value => [⟨line, .simple (.assign line targets value)⟩]
  | _, .augAssign line target op value => [⟨line, .simple (.augAssign line target op value)⟩]
  | _, .annAssign line target value => [⟨line, .simple (.annAssign line target value)⟩]
  | _, .assert line test message => [⟨line, .simple (.assert line test message)⟩]
  | _, .importModules line aliases => [⟨line, .simple (.importModules line aliases)⟩]
  | _, .importFrom line module aliases level =>
    [⟨line, .simple (.importFrom line module aliases level)⟩]
  | _, .global line names => [⟨line, .simple (.global line names)⟩]
  | _, .nonlocal line names => [⟨line, .simple (.nonlocal line names)⟩]
  | _, .expr line value => [⟨line, .simple (.expr line value)⟩]

def itemsOfAll (inFunction : Bool) : Nat → List Stmt → List Item
  | _, [] => []
  | n, s :: ss => itemsOf inFunction n s ++ itemsOfAll inFunction (n + loopsOf s) ss

def itemsOfHandlers (inFunction : Bool) : Nat → List (Handler Stmt) → List Item
  | _, [] => []
  | n, ⟨line, type, name, body⟩ :: hs =>
    ⟨line, .handler ⟨line, type, name, body⟩⟩ :: itemsOfAll inFunction n body ++
      itemsOfHandlers inFunction (n + loopsOfAll body) hs

end

namespace Builder

variable {b b' b'' : Builder} {id x y e t : BlockId} {f : Block → Block} {frames : List Frame}
  {targets : List BlockId} {line : Nat} {action : Action} {items : List Item} {jump : Jump}

/-! ### Views -/

/-- A block; one that does not stand yet is empty. -/
def blockAt (b : Builder) (id : BlockId) : Block := b.blocks[id.index]?.getD (emptyBlock false 0)

def itemsAt (b : Builder) (id : BlockId) : List Item := (b.blocks[id.index]?.map (·.items)).getD []

def exitsAt (b : Builder) (id : BlockId) : List BlockId := (b.blocks[id.index]?.map (·.exits)).getD []

/-- The block on which a block goes on without a jump. -/
def nextAt (b : Builder) (id : BlockId) : Option BlockId := (b.blocks[id.index]?.map (·.next)).getD none

def headerAt (b : Builder) (id : BlockId) : Bool := (b.blocks[id.index]?.map (·.isLoopHeader)).getD false

/-- The edges of a block, where it goes on, and whether it is closed. -/
def linksAt (b : Builder) (id : BlockId) : List BlockId × Option BlockId × Bool :=
  (b.exitsAt id, b.nextAt id, b.isDefinite id)

def allItems (b : Builder) : List Item := b.blocks.toList.flatMap (·.items)

theorem itemsAt_eq (b : Builder) (id : BlockId) : b.itemsAt id = (b.blockAt id).items := by
  rw [itemsAt, blockAt]
  rcases b.blocks[id.index]? with - | block <;> rfl

theorem headerAt_eq (b : Builder) (id : BlockId) : b.headerAt id = (b.blockAt id).isLoopHeader := by
  rw [headerAt, blockAt]
  rcases b.blocks[id.index]? with - | block <;> rfl

theorem linksAt_eq (b : Builder) (id : BlockId) :
    b.linksAt id = ((b.blockAt id).exits, (b.blockAt id).next, (b.blockAt id).definiteExit) := by
  rw [linksAt, exitsAt, nextAt, isDefinite, blockAt]
  rcases b.blocks[id.index]? with - | block <;> rfl

theorem exitsAt_eq (b : Builder) (id : BlockId) : b.exitsAt id = (b.blockAt id).exits :=
  congrArg Prod.fst (b.linksAt_eq id)

theorem nextAt_eq (b : Builder) (id : BlockId) : b.nextAt id = (b.blockAt id).next :=
  congrArg (·.2.1) (b.linksAt_eq id)

theorem isDefinite_eq (b : Builder) (id : BlockId) : b.isDefinite id = (b.blockAt id).definiteExit :=
  congrArg (·.2.2) (b.linksAt_eq id)

theorem blockAt_of_size_le (h : b.blocks.size ≤ id.index) : b.blockAt id = emptyBlock false 0 := by
  rw [blockAt, Array.getElem?_eq_none h]
  rfl

theorem blockAt_size (b : Builder) : b.blockAt ⟨b.blocks.size⟩ = emptyBlock false 0 :=
  blockAt_of_size_le (le_refl b.blocks.size)

theorem lt_of_headerAt (h : b.headerAt x = true) : x.index < b.blocks.size := by
  by_contra hle
  rw [headerAt_eq, blockAt_of_size_le (Nat.le_of_not_lt hle)] at h
  cases h

theorem ne_of_index_lt (h : x.index < y.index) : y ≠ x :=
  fun heq => absurd h (heq ▸ lt_irrefl _)

/-! ### Changing a block -/

theorem size_modifyBlock (f : Block → Block) : (b.modifyBlock id f).blocks.size = b.blocks.size :=
  Array.size_modify

theorem blockAt_modifyBlock_of_ne (h : x ≠ id) : (b.modifyBlock id f).blockAt x = b.blockAt x := by
  have hindex : id.index ≠ x.index := fun heq => h (congrArg BlockId.mk heq.symm)
  show (b.blocks.modify id.index f)[x.index]?.getD _ = _
  rw [Array.getElem?_modify, if_neg hindex]
  rfl

theorem blockAt_modifyBlock_self (h : id.index < b.blocks.size) :
    (b.modifyBlock id f).blockAt id = f (b.blockAt id) := by
  show (b.blocks.modify id.index f)[id.index]?.getD _ = _
  rw [Array.getElem?_modify, if_pos rfl, blockAt, Array.getElem?_eq_getElem h]
  rfl

theorem view_modifyBlock {α : Type} (view : Block → α) (hf : ∀ block, view (f block) = view block)
    (x : BlockId) : view ((b.modifyBlock id f).blockAt x) = view (b.blockAt x) := by
  by_cases hx : x = id
  · subst hx
    by_cases hlt : x.index < b.blocks.size
    · rw [blockAt_modifyBlock_self hlt, hf]
    · have hle := Nat.le_of_not_lt hlt
      rw [blockAt_of_size_le hle, blockAt_of_size_le (by rwa [size_modifyBlock])]
  · rw [blockAt_modifyBlock_of_ne hx]

theorem size_addBlock (isLoopHeader : Bool) (line : Nat) :
    (b.addBlock isLoopHeader line).2.blocks.size = b.blocks.size + 1 := Array.size_push _

theorem blockAt_addBlock_of_ne (h : x ≠ ⟨b.blocks.size⟩) (isLoopHeader : Bool) (line : Nat) :
    (b.addBlock isLoopHeader line).2.blockAt x = b.blockAt x := by
  have hindex : x.index ≠ b.blocks.size := fun heq => h (congrArg BlockId.mk heq)
  show (b.blocks.push _)[x.index]?.getD _ = _
  rw [Array.getElem?_push, if_neg hindex]
  rfl

theorem blockAt_addBlock_self (isLoopHeader : Bool) (line : Nat) :
    (b.addBlock isLoopHeader line).2.blockAt ⟨b.blocks.size⟩ = emptyBlock isLoopHeader line := by
  show (b.blocks.push _)[b.blocks.size]?.getD _ = _
  rw [Array.getElem?_push, if_pos rfl]
  rfl

theorem flatMap_modify (h : ∀ block, (f block).items = block.items ++ items)
    (blocks : List Block) {i : Nat} (hi : i < blocks.length) :
    ((blocks.modify i f).flatMap (·.items)).Perm (blocks.flatMap (·.items) ++ items) := by
  induction blocks generalizing i with
  | nil => exact absurd hi (Nat.not_lt_zero i)
  | cons block blocks ih =>
    cases i with
    | zero =>
      rw [modify_zero_cons, flatMap_cons, flatMap_cons, h, append_assoc, append_assoc]
      exact List.Perm.append_left _ perm_append_comm
    | succ i =>
      rw [modify_succ_cons, flatMap_cons, flatMap_cons, append_assoc]
      exact (ih (Nat.lt_of_succ_lt_succ hi)).append_left _

theorem allItems_modifyBlock (h : ∀ block, (f block).items = block.items ++ items)
    (hid : id.index < b.blocks.size) : (b.modifyBlock id f).allItems.Perm (b.allItems ++ items) := by
  show ((b.blocks.modify id.index f).toList.flatMap (·.items)).Perm _
  rw [Array.toList_modify]
  exact flatMap_modify h b.blocks.toList hid

theorem allItems_eq (b : Builder) : b.allItems = (List.range b.blocks.size).flatMap fun i => b.itemsAt ⟨i⟩ := by
  have hblocks : b.blocks.toList = (List.range b.blocks.size).map fun i => b.blockAt ⟨i⟩ := by
    refine List.ext_getElem (by simp) fun i hi hi' => ?_
    have hlt : i < b.blocks.size := by simpa using hi
    rw [getElem_map, getElem_range, blockAt, Array.getElem?_eq_getElem hlt]
    rfl
  rw [allItems, hblocks, flatMap_map]
  exact flatMap_congr fun i _ => (b.itemsAt_eq ⟨i⟩).symm

theorem allItems_congr (hsize : b.blocks.size ≤ b'.blocks.size)
    (h : ∀ x, b'.itemsAt x = b.itemsAt x) : b'.allItems = b.allItems := by
  obtain ⟨n, hn⟩ := Nat.exists_eq_add_of_le hsize
  have hnone : ((List.range n).map (b.blocks.size + ·)).flatMap (fun i => b.itemsAt ⟨i⟩) = [] := by
    simp only [flatMap_eq_nil_iff, mem_map]
    rintro _ ⟨i, -, rfl⟩
    rw [itemsAt_eq, blockAt_of_size_le (Nat.le_add_right _ _)]
    rfl
  rw [allItems_eq, allItems_eq, hn, List.range_add, flatMap_append]
  simp only [h, hnone, append_nil]

/-! ### Frames -/

/-- A frame without the jumps that pass through it. -/
def shape : Frame → Frame
  | .cleanup entry _ => .cleanup entry []
  | frame => frame

/-- The same regions are around two builders. -/
def FramesKept (b b' : Builder) : Prop := b'.frames.map shape = b.frames.map shape

theorem shape_thread (jump : Jump) (target : BlockId) (frames : List Frame) :
    (thread jump target frames).map shape = frames.map shape := by
  induction frames with
  | nil => rfl
  | cons frame frames ih =>
    cases frame with
    | loop header after =>
      rw [thread]
      split
      · rw [map_cons, map_cons, ih]
      · rfl
    | guarded handlers => rw [thread, map_cons, map_cons, ih]
    | cleanup entry pending =>
      rw [thread, map_cons, map_cons, ih]
      rfl

theorem FramesKept.leave {frame : Frame}
    (h : b'.frames.map shape = frame :: b.frames.map shape) : FramesKept b b'.leave := by
  show (b'.frames.tail).map shape = _
  rw [map_tail, h]
  rfl

/-- Where jumps may lead: to loops, to clean-ups and to the end. -/
def jumpEnds : List Frame → List BlockId
  | [] => [last]
  | .loop header after :: frames => header :: after :: jumpEnds frames
  | .guarded _ :: frames => jumpEnds frames
  | .cleanup entry _ :: frames => entry :: jumpEnds frames

/-- The blocks of all handlers around. -/
def handlersAround : List Frame → List BlockId
  | [] => []
  | .guarded handlers :: frames => handlers ++ handlersAround frames
  | _ :: frames => handlersAround frames

/-- The jumps that pass through a clean-up go on outside of it. -/
def Threaded : List Frame → Prop
  | [] => True
  | .cleanup _ pending :: frames => (∀ e ∈ pending, e ∈ jumpEnds frames) ∧ Threaded frames
  | _ :: frames => Threaded frames

/-- What does not depend on the jumps through clean-ups is the same with the same regions around. -/
theorem FramesKept.eq {α : Type} {view : List Frame → α} (hview : ∀ frames, view (frames.map shape) = view frames)
    (h : FramesKept b b') : view b'.frames = view b.frames := by
  rw [← hview, h, hview]

theorem jumpEnds_shape (frames : List Frame) : jumpEnds (frames.map shape) = jumpEnds frames := by
  induction frames with
  | nil => rfl
  | cons frame frames ih => cases frame <;> simp [shape, jumpEnds, ih]

theorem handlersAround_shape (frames : List Frame) :
    handlersAround (frames.map shape) = handlersAround frames := by
  induction frames with
  | nil => rfl
  | cons frame frames ih => cases frame <;> simp [shape, handlersAround, ih]

theorem raiseTargets_shape (frames : List Frame) : raiseTargets (frames.map shape) = raiseTargets frames := by
  induction frames with
  | nil => rfl
  | cons frame frames ih => cases frame <;> simp [shape, raiseTargets, ih]

theorem target?_shape (jump : Jump) (frames : List Frame) :
    target? jump (frames.map shape) = target? jump frames := by
  induction frames with
  | nil => rfl
  | cons frame frames ih => cases frame <;> cases jump <;> simp [shape, target?, ih]

theorem mem_raiseTargets (h : t ∈ raiseTargets frames) : t ∈ handlersAround frames ∨ t ∈ jumpEnds frames := by
  induction frames with
  | nil => cases h
  | cons frame frames ih =>
    cases frame with
    | loop header after =>
      exact (ih h).imp_right fun ht => mem_cons_of_mem _ (mem_cons_of_mem _ ht)
    | guarded handlers =>
      rcases mem_append.1 h with ht | ht
      · exact .inl (mem_append_left _ ht)
      · exact (ih ht).imp_left (mem_append_right _)
    | cleanup entry pending =>
      rw [raiseTargets, mem_singleton] at h
      exact .inr (h ▸ mem_cons_self)

theorem mem_jumpEnds_of_target (h : target? jump frames = some t) : t ∈ jumpEnds frames := by
  induction frames with
  | nil =>
    rw [target?] at h
    split at h
    · cases h
      exact mem_cons_self
    · cases h
  | cons frame frames ih =>
    cases frame with
    | loop header after =>
      cases jump with
      | «break» =>
        cases h
        exact mem_cons_of_mem _ mem_cons_self
      | «continue» =>
        cases h
        exact mem_cons_self
      | ret => exact mem_cons_of_mem _ (mem_cons_of_mem _ (ih h))
    | guarded handlers => exact ih h
    | cleanup entry pending => exact mem_cons_of_mem _ (ih h)

theorem mem_jumpEnds_of_cleanup (h : e ∈ cleanups jump frames) : e ∈ jumpEnds frames := by
  induction frames with
  | nil => cases h
  | cons frame frames ih =>
    cases frame with
    | loop header after =>
      rw [cleanups] at h
      split at h
      · exact mem_cons_of_mem _ (mem_cons_of_mem _ (ih h))
      · cases h
    | guarded handlers => exact ih h
    | cleanup entry pending =>
      rcases mem_cons.1 h with rfl | he
      · exact mem_cons_self
      · exact mem_cons_of_mem _ (ih he)

/-- A jump goes to a clean-up first, if it passes any. -/
theorem mem_jumpEnds_of_jump (h : target? jump frames = some t) :
    (cleanups jump frames).headD t ∈ jumpEnds frames := by
  rcases hclean : cleanups jump frames with - | ⟨e, es⟩
  · exact mem_jumpEnds_of_target h
  · exact mem_jumpEnds_of_cleanup (hclean ▸ mem_cons_self)

theorem Threaded.thread (h : Threaded frames) (ht : target? jump frames = some t) :
    Threaded (thread jump t frames) := by
  induction frames with
  | nil => trivial
  | cons frame frames ih =>
    cases frame with
    | loop header after =>
      rw [Builder.thread]
      split
      · next hret =>
        subst hret
        exact ih h ht
      · exact h
    | guarded handlers => exact ih h ht
    | cleanup entry pending =>
      refine ⟨fun e he => ?_, ih h.2 ht⟩
      -- threading the jump further out changes no region
      rw [← jumpEnds_shape, shape_thread, jumpEnds_shape]
      split at he
      · exact h.1 e he
      · rcases mem_append.1 he with he | he
        · exact h.1 e he
        · rw [mem_singleton.1 he]
          exact mem_jumpEnds_of_jump ht

theorem Threaded.pending (h : Threaded frames) (he : e ∈ pendingTargets frames) :
    e ∈ jumpEnds frames.tail := by
  cases frames with
  | nil => cases he
  | cons frame frames =>
    cases frame with
    | loop header after | guarded handlers => cases he
    | cleanup entry pending => exact h.1 e he

/-- The blocks that regions name are those to which jumps and exceptions may lead. -/
theorem Threaded.blocks_lt {n : Nat} (h : Threaded frames) (hends : ∀ e ∈ jumpEnds frames, e.index < n)
    (haround : ∀ t ∈ handlersAround frames, t.index < n) :
    ∀ frame ∈ frames, ∀ id ∈ frame.blocks, id.index < n := by
  induction frames with
  | nil => exact forall_mem_nil _
  | cons frame frames ih =>
    cases frame with
    | loop header after =>
      rw [jumpEnds, forall_mem_cons, forall_mem_cons] at hends
      refine forall_mem_cons.2 ⟨?_, ih h hends.2.2 haround⟩
      exact forall_mem_cons.2 ⟨hends.1, forall_mem_singleton.2 hends.2.1⟩
    | guarded handlers =>
      rw [handlersAround, forall_mem_append] at haround
      exact forall_mem_cons.2 ⟨haround.1, ih h hends haround.2⟩
    | cleanup entry pending =>
      rw [jumpEnds, forall_mem_cons] at hends
      refine forall_mem_cons.2 ⟨?_, ih h.2 hends.2 haround⟩
      exact forall_mem_cons.2 ⟨hends.1, fun e he => hends.2 e (h.1 e he)⟩

def inLoop (frames : List Frame) : Bool := (target? .break frames).isSome

theorem inLoop_of_kept (h : FramesKept b b') : inLoop b'.frames = inLoop b.frames :=
  h.eq fun frames => by rw [inLoop, target?_shape, ← inLoop]

theorem inLoop_eq_continue (frames : List Frame) : inLoop frames = (target? .continue frames).isSome := by
  induction frames with
  | nil => rfl
  | cons frame frames ih =>
    cases frame with
    | loop header after => rfl
    | _ => exact ih

theorem target?_ret_isSome (frames : List Frame) : (target? .ret frames).isSome = true := by
  induction frames with
  | nil => rfl
  | cons frame frames ih => cases frame <;> exact ih

theorem linksAt_modifyBlock
    (hf : ∀ block, ((f block).exits, (f block).next, (f block).definiteExit) =
      (block.exits, block.next, block.definiteExit)) (x : BlockId) :
    (b.modifyBlock id f).linksAt x = b.linksAt x := by
  rw [linksAt_eq, linksAt_eq]
  exact view_modifyBlock (fun block => (block.exits, block.next, block.definiteExit)) hf x

theorem headerAt_modifyBlock (hf : ∀ block, (f block).isLoopHeader = block.isLoopHeader)
    (x : BlockId) : (b.modifyBlock id f).headerAt x = b.headerAt x := by
  rw [headerAt_eq, headerAt_eq]
  exact view_modifyBlock _ hf x

theorem itemsAt_modifyBlock (hf : ∀ block, (f block).items = block.items) (x : BlockId) :
    (b.modifyBlock id f).itemsAt x = b.itemsAt x := by
  rw [itemsAt_eq, itemsAt_eq]
  exact view_modifyBlock _ hf x

theorem isDefinite_modifyBlock (hf : ∀ block, (f block).definiteExit = block.definiteExit)
    (x : BlockId) : (b.modifyBlock id f).isDefinite x = b.isDefinite x := by
  rw [isDefinite_eq, isDefinite_eq]
  exact view_modifyBlock _ hf x

/-! ### Putting something aside -/

/-- What a builder knows besides its blocks and regions: whether the body is that of a function, the
number of the next `for` loop, and the misplaced jumps. -/
def context (b : Builder) : Bool × Nat × List Misplaced := (b.inFunction, b.nextLoop, b.misplaced)

/-- What is put into a builder. -/
structure Gain where
  items : List Item
  /-- The number of `for` loops. -/
  loops : Nat
  misplaced : List Misplaced

/-- The context after something was put into a builder. -/
def Gain.after (g : Gain) (context : Bool × Nat × List Misplaced) : Bool × Nat × List Misplaced :=
  (context.1, context.2.1 + g.loops, context.2.2 ++ g.misplaced)

/-- One gain behind another. -/
def Gain.andThen (g g' : Gain) : Gain := ⟨g.items ++ g'.items, g.loops + g'.loops, g.misplaced ++ g'.misplaced⟩

def Gain.nothing : Gain := ⟨[], 0, []⟩

/-- The current block, the edges and the regions stay; items are put at the end of the current block
or into new blocks. -/
structure Stays (b b' : Builder) (g : Gain) : Prop where
  changes : Changes b b'
  current : b'.current = b.current
  frames : b'.frames = b.frames
  context : b'.context = g.after b.context
  size : b.blocks.size ≤ b'.blocks.size
  isPrefix : ∀ x, b.itemsAt x <+: b'.itemsAt x
  items : ∀ x, x ≠ b.current → x.index < b.blocks.size → b'.itemsAt x = b.itemsAt x
  perm : b'.allItems.Perm (b.allItems ++ g.items)
  links : ∀ x, b'.linksAt x = b.linksAt x
  headers : ∀ x, x.index < b.blocks.size → b'.headerAt x = b.headerAt x

section

variable {g : Gain} (h : Stays b b' g)
include h

theorem Stays.exits (x : BlockId) : b'.exitsAt x = b.exitsAt x := congrArg Prod.fst (h.links x)

theorem Stays.nexts (x : BlockId) : b'.nextAt x = b.nextAt x := congrArg (·.2.1) (h.links x)

theorem Stays.definite (x : BlockId) : b'.isDefinite x = b.isDefinite x := congrArg (·.2.2) (h.links x)

end

variable {g : Gain}

theorem Stays.trans {g' : Gain} (h : Stays b b' g) (h' : Stays b' b'' g') : Stays b b'' (g.andThen g') where
  changes := h.changes.trans h'.changes
  current := h'.current.trans h.current
  frames := h'.frames.trans h.frames
  context := by
    rw [h'.context, h.context]
    simp [Gain.after, Gain.andThen, add_assoc]
  size := h.size.trans h'.size
  isPrefix x := (h.isPrefix x).trans (h'.isPrefix x)
  items x hx hlt := (h'.items x (h.current ▸ hx) (hlt.trans_le h.size)).trans (h.items x hx hlt)
  perm := (h'.perm.trans (h.perm.append_right _)).trans (by rw [append_assoc]; exact .refl _)
  links x := (h'.links x).trans (h.links x)
  headers x hx := (h'.headers x (hx.trans_le h.size)).trans (h.headers x hx)

theorem stays_of_blocks (hchanges : Changes b b') (hblocks : b'.blocks = b.blocks) (hcurrent : b'.current = b.current)
    (hframes : b'.frames = b.frames) (hcontext : b'.context = g.after b.context)
    (hitems : g.items = []) : Stays b b' g := by
  have hsame : ∀ x, b'.blockAt x = b.blockAt x := fun x => by rw [blockAt, hblocks, blockAt]
  refine ⟨hchanges, hcurrent, hframes, hcontext, hblocks ▸ le_rfl, fun x => ?_, fun x _ _ => ?_, ?_, fun x => ?_, fun x _ => ?_⟩
  · rw [itemsAt_eq, itemsAt_eq, hsame]
  · rw [itemsAt_eq, itemsAt_eq, hsame]
  · rw [hitems, append_nil, allItems, hblocks, allItems]
  · rw [linksAt_eq, linksAt_eq, hsame]
  · rw [headerAt_eq, headerAt_eq, hsame]

theorem stays_put (h : b.current.index < b.blocks.size) (line : Nat) (action : Action) :
    Stays b (b.put line action) ⟨[⟨line, action⟩], 0, []⟩ where
  changes := .single (.modifyBlock h fun _ hblock => ⟨hblock.exits, hblock.next⟩)
  current := rfl
  frames := rfl
  context := by simp [context, Gain.after, put, modifyBlock]
  size := le_of_eq (size_modifyBlock _).symm
  isPrefix x := by
    rw [itemsAt_eq, itemsAt_eq]
    by_cases hx : x = b.current
    · subst hx
      rw [put, blockAt_modifyBlock_self h]
      exact prefix_append _ _
    · rw [put, blockAt_modifyBlock_of_ne hx]
  items x hx _ := by rw [itemsAt_eq, put, blockAt_modifyBlock_of_ne hx, ← itemsAt_eq]
  perm := allItems_modifyBlock (fun _ => rfl) h
  links x := by
    rw [put, linksAt_modifyBlock]
    exact fun _ => rfl
  headers x _ := by
    rw [put, headerAt_modifyBlock]
    exact fun _ => rfl

theorem itemsAt_put_self (h : b.current.index < b.blocks.size) (line : Nat) (action : Action) :
    (b.put line action).itemsAt b.current = b.itemsAt b.current ++ [⟨line, action⟩] := by
  rw [itemsAt_eq, put, blockAt_modifyBlock_self h, itemsAt_eq]

theorem stays_added {start : List Item} {isLoopHeader : Bool} (hchanges : Changes b b')
    (hsize : b'.blocks.size = b.blocks.size + 1)
    (hothers : ∀ x, x ≠ ⟨b.blocks.size⟩ → b'.blockAt x = b.blockAt x)
    (hnew : b'.blockAt ⟨b.blocks.size⟩ = { emptyBlock isLoopHeader line with items := start })
    (hcurrent : b'.current = b.current) (hframes : b'.frames = b.frames)
    (hcontext : b'.context = b.context) : Stays b b' ⟨start, 0, []⟩ := by
  have hlt : ∀ {x : BlockId}, x.index < b.blocks.size → x ≠ ⟨b.blocks.size⟩ := fun h => (ne_of_index_lt h).symm
  refine ⟨hchanges, hcurrent, hframes, hcontext.trans (by simp [Gain.after]), by omega, fun x => ?_, fun x _ hx => ?_, ?_,
    fun x => ?_, fun x hx => ?_⟩
  · rw [itemsAt_eq, itemsAt_eq]
    by_cases hx : x = ⟨b.blocks.size⟩
    · rw [hx, blockAt_size]
      exact nil_prefix
    · rw [hothers x hx]
  · rw [itemsAt_eq, itemsAt_eq, hothers x (hlt hx)]
  · rw [allItems_eq, allItems_eq, hsize, List.range_succ, flatMap_append]
    have hsame : (List.range b.blocks.size).flatMap (fun i => b'.itemsAt ⟨i⟩) =
        (List.range b.blocks.size).flatMap fun i => b.itemsAt ⟨i⟩ :=
      flatMap_congr fun i hi => by rw [itemsAt_eq, itemsAt_eq, hothers ⟨i⟩ (hlt (List.mem_range.1 hi))]
    rw [hsame, flatMap_singleton, itemsAt_eq, hnew]
  · rw [linksAt_eq, linksAt_eq]
    by_cases hx : x = ⟨b.blocks.size⟩
    · rw [hx, blockAt_size, hnew]
      rfl
    · rw [hothers x hx]
  · rw [headerAt_eq, headerAt_eq, hothers x (hlt hx)]

theorem stays_addBlock (isLoopHeader : Bool) (line : Nat) : Stays b (b.addBlock isLoopHeader line).2 .nothing :=
  stays_added (.single (.addBlock isLoopHeader line)) (size_addBlock isLoopHeader line)
    (fun _ hx => blockAt_addBlock_of_ne hx isLoopHeader line)
    (blockAt_addBlock_self isLoopHeader line) rfl rfl rfl

/-- A new block that starts with some items. -/
def addStarted (b : Builder) (line : Nat) (start : List Item) : Builder :=
  (b.addBlock false line).2.modifyBlock ⟨b.blocks.size⟩ fun block =>
    { block with items := block.items ++ start }

theorem changes_addStarted (line : Nat) (start : List Item) : Changes b (b.addStarted line start) := by
  refine Relation.ReflTransGen.tail (.single (.addBlock false line)) (.modifyBlock ?_ ?_)
  · rw [size_addBlock]
    exact Nat.lt_succ_self _
  · exact fun _ hblock => ⟨hblock.exits, hblock.next⟩

theorem size_addStarted (line : Nat) (start : List Item) :
    (b.addStarted line start).blocks.size = b.blocks.size + 1 := by
  rw [addStarted, size_modifyBlock, size_addBlock]

theorem blockAt_addStarted_self (line : Nat) (start : List Item) :
    (b.addStarted line start).blockAt ⟨b.blocks.size⟩ = { emptyBlock false line with items := start } := by
  have hlt : (⟨b.blocks.size⟩ : BlockId).index < (b.addBlock false line).2.blocks.size := by
    rw [size_addBlock]
    exact Nat.lt_succ_self _
  rw [addStarted, blockAt_modifyBlock_self hlt, blockAt_addBlock_self]
  rfl

theorem blockAt_addStarted_of_ne (h : x ≠ ⟨b.blocks.size⟩) (line : Nat) (start : List Item) :
    (b.addStarted line start).blockAt x = b.blockAt x :=
  (blockAt_modifyBlock_of_ne h).trans (blockAt_addBlock_of_ne h false line)

theorem stays_addStarted (line : Nat) (start : List Item) : Stays b (b.addStarted line start) ⟨start, 0, []⟩ :=
  stays_added (changes_addStarted line start) (size_addStarted line start)
    (fun _ hx => blockAt_addStarted_of_ne hx line start)
    (blockAt_addStarted_self line start) rfl rfl rfl

theorem addStarted_nil (b : Builder) (line : Nat) : b.addStarted line [] = (b.addBlock false line).2 := by
  have hsame : ∀ block : Block, { block with items := block.items ++ [] } = block := fun block => by
    rw [append_nil]
  have hblocks : (b.addStarted line []).blocks = (b.addBlock false line).2.blocks := by
    refine Array.ext_getElem? fun i => ?_
    show ((b.addBlock false line).2.blocks.modify _ _)[i]? = _
    rw [Array.getElem?_modify]
    split
    · rcases (b.addBlock false line).2.blocks[i]? with - | block
      · rfl
      · exact congrArg some (hsame block)
    · rfl
  have hstrays : (b.addStarted line []).strays = b.strays := by
    show b.strays + (bif b.blocks.size < (b.blocks.push _).size then 0 else 1) = b.strays
    rw [Array.size_push, decide_eq_true (Nat.lt_succ_self _)]
    rfl
  exact congrArg₂ (fun blocks strays => { b with blocks := blocks, strays := strays }) hblocks hstrays

/-! ### Adding edges -/

/-- The current block gets edges to `targets`, and it may go on to one of them. -/
structure Leads (b b' : Builder) (targets : List BlockId) (onto : Option BlockId) : Prop where
  changes : (∀ e, e ∈ targets ∨ onto = some e → e.index < b.blocks.size) → Changes b b'
  current : b'.current = b.current
  frames : FramesKept b b'
  threaded : Threaded b.frames → Threaded b'.frames
  context : b'.context = b.context
  size : b'.blocks.size = b.blocks.size
  items : ∀ x, b'.itemsAt x = b.itemsAt x
  headers : ∀ x, b'.headerAt x = b.headerAt x
  definite : ∀ x, b'.isDefinite x = b.isDefinite x
  others : ∀ x, x ≠ b.current → b'.linksAt x = b.linksAt x
  self : ∀ e, e ∈ b'.exitsAt b.current ↔ e ∈ b.exitsAt b.current ∨ e ∈ targets
  next : b'.nextAt b.current = (onto <|> b.nextAt b.current)

section

variable {onto : Option BlockId} (h : Leads b b' targets onto) (hx : x ≠ b.current)
include h hx

theorem Leads.exits_of_ne : b'.exitsAt x = b.exitsAt x := congrArg Prod.fst (h.others x hx)

theorem Leads.next_of_ne : b'.nextAt x = b.nextAt x := congrArg (·.2.1) (h.others x hx)

end

theorem Leads.refl (b : Builder) : Leads b b [] none :=
  ⟨fun _ => .refl, rfl, rfl, fun h => h, rfl, rfl, fun _ => rfl, fun _ => rfl, fun _ => rfl, fun _ _ => rfl, fun _ => by simp, by simp⟩

theorem Leads.trans {targets' : List BlockId} {onto onto' : Option BlockId} (h : Leads b b' targets onto)
    (h' : Leads b' b'' targets' onto') (honto : ∀ e, onto = some e → e ∈ targets) :
    Leads b b'' (targets ++ targets') (onto' <|> onto) where
  changes hlt := by
    refine (h.changes fun e he => hlt e (.inl (mem_append_left _ (he.elim id (honto e))))).trans (h'.changes fun e he => ?_)
    rw [h.size]
    rcases he with he | rfl
    · exact hlt e (.inl (mem_append_right _ he))
    · exact hlt e (.inr rfl)
  current := h'.current.trans h.current
  frames := h'.frames.trans h.frames
  threaded ht := h'.threaded (h.threaded ht)
  context := h'.context.trans h.context
  size := h'.size.trans h.size
  items x := (h'.items x).trans (h.items x)
  headers x := (h'.headers x).trans (h.headers x)
  definite x := (h'.definite x).trans (h.definite x)
  others x hx := (h'.others x (h.current ▸ hx)).trans (h.others x hx)
  self e := by
    have hself := h'.self e
    rw [h.current, h.self] at hself
    rw [hself, mem_append, or_assoc]
  next := by
    have hnext := h'.next
    rw [h.current, h.next] at hnext
    rw [hnext]
    cases onto' <;> rfl

theorem leads_edge (h : b.current.index < b.blocks.size) (target : BlockId) :
    Leads b (b.edge b.current target) [target] none where
  changes hlt := by
    refine .single (.modifyBlock h fun block hblock => ?_)
    split
    · exact hblock
    · exact ⟨forall_mem_append.2 ⟨hblock.exits, fun e he => hlt e (.inl he)⟩, hblock.next⟩
  current := rfl
  frames := rfl
  threaded ht := ht
  context := rfl
  size := size_modifyBlock _
  items := itemsAt_modifyBlock fun block => by split <;> rfl
  headers := headerAt_modifyBlock fun block => by split <;> rfl
  definite := isDefinite_modifyBlock fun block => by split <;> rfl
  others x hx := by rw [linksAt_eq, linksAt_eq, edge, blockAt_modifyBlock_of_ne hx]
  self e := by
    rw [exitsAt_eq, exitsAt_eq, edge, blockAt_modifyBlock_self h]
    split
    · next hold =>
      constructor
      · exact .inl
      · rintro (he | he)
        · exact he
        · exact mem_singleton.1 he ▸ hold
    · exact mem_append
  next := by
    rw [nextAt_eq, nextAt_eq]
    exact view_modifyBlock (·.next) (fun block => by split <;> rfl) b.current

theorem leads_edges (h : b.current.index < b.blocks.size) (targets : List BlockId) :
    Leads b (b.edges b.current targets) targets none := by
  induction targets generalizing b with
  | nil => exact .refl b
  | cons target targets ih =>
    have hedge := leads_edge h target
    exact hedge.trans (ih (hedge.size ▸ h)) fun _ he => nomatch he

theorem leads_fallTo (h : b.current.index < b.blocks.size) (hopen : b.isDefinite b.current = false)
    (target : BlockId) : Leads b (b.fallTo target) [target] (some target) := by
  have hedge := leads_edge h target
  have hlt : b.current.index < (b.edge b.current target).blocks.size := hedge.size ▸ h
  rw [fallTo, hopen]
  set b₁ := b.edge b.current target with hb₁
  have hcurrent : b₁.current = b.current := rfl
  have hgoes : Leads b₁ (b₁.modifyBlock b.current fun block => { block with next := some target })
      [] (some target) := by
    refine ⟨fun hlt' => .single (.modifyBlock hlt fun _ hblock => ⟨hblock.exits, fun e he => hlt' e (.inr he)⟩),
      rfl, rfl, fun ht => ht, rfl, size_modifyBlock _, fun x => ?_, fun x => ?_, fun x => ?_, fun x hx => ?_,
      fun e => ?_, ?_⟩
    · rw [itemsAt_modifyBlock]
      exact fun _ => rfl
    · rw [headerAt_modifyBlock]
      exact fun _ => rfl
    · rw [isDefinite_modifyBlock]
      exact fun _ => rfl
    · rw [linksAt_eq, linksAt_eq, blockAt_modifyBlock_of_ne (hcurrent ▸ hx)]
    · rw [hcurrent, exitsAt_eq, exitsAt_eq, blockAt_modifyBlock_self hlt]
      simp
    · rw [hcurrent, nextAt_eq, blockAt_modifyBlock_self hlt]
      rfl
  exact hedge.trans hgoes fun _ he => nomatch he

/-! ### Going on in another block -/

/-- Another block becomes the current one, from which nothing leads on yet; the one before may be
closed. -/
structure Goes (b b' : Builder) : Prop where
  changes : Changes b b'
  frames : b'.frames = b.frames
  context : b'.context = b.context
  size : b.blocks.size ≤ b'.blocks.size
  items : ∀ x, b'.itemsAt x = b.itemsAt x
  headers : ∀ x, b'.headerAt x = b.headerAt x
  exits : ∀ x, b'.exitsAt x = b.exitsAt x
  nexts : ∀ x, b'.nextAt x = b.nextAt x
  definite : ∀ x, x ≠ b.current → b'.isDefinite x = b.isDefinite x
  lt : b'.current.index < b'.blocks.size
  ne : b'.current ≠ b.current
  fresh : b.linksAt b'.current = ([], none, false)

theorem goes_moveTo (hlt : x.index < b.blocks.size) (hne : x ≠ b.current)
    (hfresh : b.linksAt x = ([], none, false)) : Goes b (b.moveTo x) :=
  ⟨.single (.moveTo hlt), rfl, rfl, le_rfl, fun _ => rfl, fun _ => rfl, fun _ => rfl, fun _ => rfl, fun _ _ => rfl, hlt, hne, hfresh⟩

theorem current_terminate (line : Nat) : (b.terminate line).current = ⟨b.blocks.size⟩ :=
  congrArg BlockId.mk (size_modifyBlock _)

theorem size_terminate (line : Nat) : (b.terminate line).blocks.size = b.blocks.size + 1 :=
  (size_addBlock false line).trans (congrArg (· + 1) (size_modifyBlock _))

theorem goes_terminate (h : b.current.index < b.blocks.size) (line : Nat) : Goes b (b.terminate line) := by
  have hcurrent := current_terminate (b := b) line
  set b₁ := b.modifyBlock b.current fun block => { block with definiteExit := true } with hb₁
  have hstays : Stays b₁ (b₁.addBlock false line).2 .nothing := stays_addBlock false line
  -- a new block is as empty as one that does not stand yet
  have hadd : ∀ x, (b.terminate line).itemsAt x = b₁.itemsAt x ∧ (b.terminate line).headerAt x = b₁.headerAt x := by
    intro x
    by_cases hx : x = ⟨b₁.blocks.size⟩
    · have hnew : (b.terminate line).blockAt x = emptyBlock false line := hx ▸ blockAt_addBlock_self false line
      rw [itemsAt_eq, itemsAt_eq, headerAt_eq, headerAt_eq, hnew, hx, blockAt_size]
      exact ⟨rfl, rfl⟩
    · have hold : (b.terminate line).blockAt x = b₁.blockAt x := blockAt_addBlock_of_ne hx false line
      rw [itemsAt_eq, itemsAt_eq, headerAt_eq, headerAt_eq, hold]
      exact ⟨rfl, rfl⟩
  have hchanges : Changes b (b.terminate line) := by
    have hclosed : Changes b b₁ := .single (.modifyBlock h fun _ hblock => ⟨hblock.exits, hblock.next⟩)
    refine (hclosed.tail (.addBlock false line)).tail (.moveTo ?_)
    exact (Nat.lt_succ_self _).trans_eq (size_addBlock false line).symm
  refine ⟨hchanges, rfl, rfl, by rw [size_terminate]; exact Nat.le_succ _, fun x => ?_, fun x => ?_, fun x => ?_, fun x => ?_,
    fun x hx => ?_, ?_, ?_, ?_⟩
  · rw [(hadd x).1, hb₁, itemsAt_modifyBlock]
    exact fun _ => rfl
  · rw [(hadd x).2, hb₁, headerAt_modifyBlock]
    exact fun _ => rfl
  · refine (hstays.exits x).trans ?_
    rw [exitsAt_eq, exitsAt_eq, hb₁]
    refine view_modifyBlock (·.exits) ?_ x
    exact fun _ => rfl
  · refine (hstays.nexts x).trans ?_
    rw [nextAt_eq, nextAt_eq, hb₁]
    refine view_modifyBlock (·.next) ?_ x
    exact fun _ => rfl
  · refine (hstays.definite x).trans ?_
    rw [isDefinite_eq, isDefinite_eq, hb₁, blockAt_modifyBlock_of_ne hx]
  · rw [hcurrent, size_terminate]
    exact Nat.lt_succ_self _
  · rw [hcurrent]
    exact ne_of_index_lt h
  · rw [hcurrent, linksAt_eq, blockAt_size]
    rfl

end Builder

end FlowTyping.Flow
