/-
Laying out a statement is a run.

For each way of combining layouts there is one lemma that says so, and the recursion over statements
puts them together (`lays_stmt`).  What is laid out is read off the statement (`effectOf`): its
items, the number of its `for` loops, its misplaced jumps, how the stretches of a region around go
on, and the regions of the statement itself.
-/
import FlowTyping.Proofs.Flow.Run

namespace FlowTyping.Flow

open List

/-! ### The jumps of a statement -/

/-- A jump statement, and whether it is inside the body of a loop of its scope. -/
structure JumpSite where
  jump : Jump
  line : Nat
  inLoop : Bool
deriving DecidableEq, Repr

mutual

/-- The jump statements of a statement, those of nested functions and classes left out.  The `else`
clause of a loop is not inside the loop. -/
def jumpsOf (looping : Bool) : Stmt → List JumpSite
  | .ret line _ => [⟨.ret, line, looping⟩]
  | .break line => [⟨.break, line, looping⟩]
  | .continue line => [⟨.continue, line, looping⟩]
  | .ifThen _ _ body orelse => jumpsOfAll looping body ++ jumpsOfAll looping orelse
  | .whileLoop _ _ body orelse => jumpsOfAll true body ++ jumpsOfAll looping orelse
  | .forLoop _ _ _ body orelse => jumpsOfAll true body ++ jumpsOfAll looping orelse
  | .withBlock _ _ body => jumpsOfAll looping body
  | .tryBlock _ body handlers orelse finalbody =>
    jumpsOfAll looping body ++ jumpsOfAll looping orelse ++ jumpsOfHandlers looping handlers ++
      jumpsOfAll looping finalbody
  | _ => []

def jumpsOfAll (looping : Bool) : List Stmt → List JumpSite
  | [] => []
  | s :: ss => jumpsOf looping s ++ jumpsOfAll looping ss

def jumpsOfHandlers (looping : Bool) : List (Handler Stmt) → List JumpSite
  | [] => []
  | ⟨_, _, _, body⟩ :: hs => jumpsOfAll looping body ++ jumpsOfHandlers looping hs

end

/-- A `return` has its place in a function, the other jumps in the body of a loop. -/
def JumpSite.isPlaced (inFunction : Bool) (site : JumpSite) : Bool :=
  if site.jump = .ret then inFunction else site.inLoop

/-- The jumps that are out of place. -/
def misplacedAmong (inFunction : Bool) (sites : List JumpSite) : List Misplaced :=
  (sites.filter fun site => !site.isPlaced inFunction).map fun site => ⟨site.jump, site.line⟩

@[simp]
theorem misplacedAmong_append (inFunction : Bool) (sites sites' : List JumpSite) :
    misplacedAmong inFunction (sites ++ sites') =
      misplacedAmong inFunction sites ++ misplacedAmong inFunction sites' := by
  simp [misplacedAmong]

namespace Builder

open Stretch

variable {b b' b₁ : Builder} {e t header after entry join : BlockId} {W T T' T₁ : List Ready}
  {K ids : List BlockId} {targets : List BlockId} {onto : Option BlockId} {fn looping : Bool}
  {E E' : Effect} {n : Nat} {layout layout' : Builder → Builder}
  {orelse : Option (Builder → Builder)} {S S' S₂ : Nat → Effect} {hs : List (Handler Stmt)}
  {r : Ready}

/-! ### Two ways on -/

/-- Two ways on from the block `source`: to a clause that starts in the block `first`, and past it
or to the clause `orelse`.  The clause knows where it all goes on. -/
def fork (b : Builder) (line : Nat) (source first : BlockId) (target : BlockId → BlockId)
    (clause : BlockId → Builder → Builder) (orelse : Option (Builder → Builder)) : Builder :=
  let (after, b) := b.addBlock false line
  match orelse with
  | none =>
    let b := (b.edge source first).edge source after
    ((clause after (b.moveTo first)).fallTo (target after)).moveTo after
  | some orelse =>
    let (second, b) := b.addBlock false line
    let b := (b.edge source first).edge source second
    let b := (clause after (b.moveTo first)).fallTo (target after)
    ((orelse (b.moveTo second)).fallTo after).moveTo after

/-- Two ways on from the current block; the first clause starts in a new block, with some items. -/
def forkHere (b : Builder) (line : Nat) (start : List Item) (target : BlockId → BlockId)
    (clause : BlockId → Builder → Builder) (orelse : Option (Builder → Builder)) : Builder :=
  (b.addStarted line start).fork line b.current ⟨b.blocks.size⟩ target clause orelse

theorem branch_eq (b : Builder) (line : Nat) (layout : Builder → Builder)
    (orelse : Option (Builder → Builder)) :
    b.branch line layout orelse = b.forkHere line [] (fun after => after) (fun _ => layout) orelse := by
  rw [forkHere, addStarted_nil]
  cases orelse <;> rfl

theorem leave_fallTo (b : Builder) (target : BlockId) : (b.fallTo target).leave = b.leave.fallTo target := by
  have hdefinite : b.leave.isDefinite b.leave.current = b.isDefinite b.current := rfl
  rw [fallTo, fallTo, hdefinite]
  split <;> rfl

theorem frames_fallTo (b : Builder) (target : BlockId) : (b.fallTo target).frames = b.frames := by
  rw [fallTo]
  split <;> rfl

/-- A layout in a loop, which is left behind it. -/
def inLoopOf (header : BlockId) (layout : Builder → Builder) (after : BlockId) (b : Builder) : Builder :=
  (layout (b.enter (.loop header after))).leave

/-- A loop whose header is the current block; its body starts with some items. -/
def loopHere (b : Builder) (line : Nat) (start : List Item) (layout : Builder → Builder)
    (orelse : Option (Builder → Builder)) : Builder :=
  b.forkHere line start (fun _ => b.current) (inLoopOf b.current layout) orelse

theorem loop_eq (b : Builder) (line : Nat) (header bodyBlock : BlockId) (layout : Builder → Builder)
    (orelse : Option (Builder → Builder)) :
    b.loop line header bodyBlock layout orelse =
      b.fork line header bodyBlock (fun _ => header) (inLoopOf header layout) orelse := by
  cases orelse <;> simp only [loop, fork, leave_fallTo] <;> rfl

/-- Control falls into a new block, the current one from now on. -/
def intoNew (b : Builder) (isLoopHeader : Bool) (line : Nat) : Builder :=
  ((b.addBlock isLoopHeader line).2.fallTo ⟨b.blocks.size⟩).moveTo ⟨b.blocks.size⟩

theorem whileLoop_eq (b : Builder) (line : Nat) (test : Expr) (layout : Builder → Builder)
    (orelse : Option (Builder → Builder)) :
    b.whileLoop line test layout orelse =
      ((b.intoNew true line).put line (.test test)).loopHere line [] layout orelse := by
  rw [loopHere, forkHere, addStarted_nil, ← loop_eq]
  rfl

/-- A `for` loop takes its number. -/
def takeLoop (b : Builder) : Builder := { b with nextLoop := b.nextLoop + 1 }

/-- A loop starts in its header, whatever block was the current one. -/
theorem forLoop_eq (b : Builder) (line : Nat) (target iter : Expr) (layout : Builder → Builder)
    (orelse : Option (Builder → Builder)) :
    b.forLoop line target iter layout orelse =
      ((b.takeLoop.putGuarded line (.forIter ⟨b.nextLoop⟩ iter)).intoNew true line).loopHere line
        [⟨line, .forTarget ⟨b.nextLoop⟩ target⟩] layout orelse := by
  rw [loopHere, forkHere, ← loop_eq]
  cases orelse <;> rfl

/-! ### Parts of runs -/

/-- Where something is laid out: in what kind of body, in a loop or not, and with `for` loops
numbered from `n` on. -/
structure Within (fn looping : Bool) (n : Nat) (b : Builder) : Prop where
  inFunction : b.inFunction = fn
  looping : inLoop b.frames = looping
  nextLoop : b.nextLoop = n

/-- A part of a run, whatever the handlers so far. -/
def Part (fn looping : Bool) (W : List Ready) (n : Nat) (T : List Ready) (b : Builder) (E : Effect)
    (T' : List Ready) (b' : Builder) : Prop :=
  ∀ ⦃K⦄, Good W T K b → Within fn looping n b → ∃ K', Runs fn W T K b E T' K' b'

/-- A layout runs wherever it is used. -/
def Lays (fn looping : Bool) (layout : Builder → Builder) (S : Nat → Effect) : Prop :=
  ∀ W n b, Part fn looping W n [] b (S n) [] (layout b)

theorem Laid.within {g : Gain} (h : Laid T b g T' b') (hb : Within fn looping n b) :
    Within fn looping (n + g.loops) b' where
  inFunction := h.inFunction.trans hb.inFunction
  looping := (inLoop_of_kept h.frames).trans hb.looping
  nextLoop := (congrArg (·.2.1) h.context).trans (congrArg (· + g.loops) hb.nextLoop)

theorem Runs.congr {K' : List BlockId} (h : Runs fn W T K b E T' K' b') (hE : E = E') : Runs fn W T K b E' T' K' b' :=
  hE ▸ h

theorem Part.trans {n' : Nat} (h : Part fn looping W n T b E T₁ b₁) (hn : n + E.gain.loops = n')
    (h' : Kept b b₁ → Part fn looping W n' T₁ b₁ E' T' b') : Part fn looping W n T b (E.andThen E') T' b' := by
  intro K hb hw
  obtain ⟨K₁, hrun⟩ := h hb hw
  obtain ⟨K', hrun'⟩ := h' hrun.laid.toKept (hrun.good hb) (hn ▸ hrun.laid.within hw)
  exact ⟨K', hrun.trans hrun'⟩

theorem Part.congr (h : Part fn looping W n T b E T' b') (hE : E = E') : Part fn looping W n T b E' T' b' := hE ▸ h

/-- A part of a run while blocks wait for something else. -/
theorem Part.aside {T₀ : List Ready} (h : Part fn looping (T₀ ++ W) n T b E T' b') :
    Part fn looping W n (T ++ T₀) b E (T' ++ T₀) b' := by
  intro K hb hw
  obtain ⟨K', hrun⟩ := h (hb.shift (append_assoc _ _ _) (hb.anchored.imp (fun _ => mem_append_right _) (.refl b))) hw
  exact ⟨K', hrun.aside⟩

theorem Lays.comp (h : Lays fn looping layout S) (h' : Lays fn looping layout' S') :
    Lays fn looping (fun b => layout' (layout b)) (fun n => (S n).andThen (S' (n + (S n).gain.loops))) :=
  fun W n b => (h W n b).trans rfl fun _ => h' W _ _

theorem Lays.congr (h : Lays fn looping layout S) (hS : ∀ n, S n = S' n) : Lays fn looping layout S' :=
  (funext hS : S = S') ▸ h

/-! ### Steps -/

/-- Nothing is laid out. -/
def Effect.none : Effect := ⟨.nothing, fun st => st, []⟩

/-- One item more, which does to the stretches what `f` does. -/
def Effect.put (i : Item) (f : List Stretch → List Stretch) : Effect := ⟨⟨[i], 0, []⟩, f, []⟩

/-- An item in the current block. -/
abbrev Effect.noted (i : Item) : Effect := .put i (note i)

/-- An item in a block of its own. -/
abbrev Effect.lone (i : Item) : Effect := .put i (alone [i])

theorem Runs.of_blocks {loops : Nat} {misplaced : List Misplaced} (hchanges : Changes b b')
    (hblocks : b'.blocks = b.blocks) (hcurrent : b'.current = b.current) (hframes : b'.frames = b.frames)
    (hcontext : b'.context = (⟨[], loops, misplaced⟩ : Gain).after b.context) :
    Runs fn W T K b ⟨⟨[], loops, misplaced⟩, fun st => st, []⟩ T K b' :=
  .rests (stays_of_blocks hchanges hblocks hcurrent hframes hcontext rfl)
    (show ∀ i ∈ ([] : List Item), _ from forall_mem_nil _)

theorem Lays.pass (fn looping : Bool) : Lays fn looping (fun b => b) fun _ => .none := by
  intro W n b K _ _
  exact ⟨K, .of_blocks .refl rfl rfl rfl (by simp [Gain.after])⟩

theorem part_put (line : Nat) (action : Action) :
    Part fn looping W n T b (.noted ⟨line, action⟩) T (b.put line action) := by
  intro K hb _
  have hmem : ∀ i ∈ [(⟨line, action⟩ : Item)], i ∈ (b.put line action).itemsAt b.current := fun i hi => by
    rw [itemsAt_put_self hb.lt]
    exact mem_append_right _ hi
  exact ⟨K, .rests (stays_put hb.lt line action) hmem⟩

/-- One new block waits for its turn with the items that it starts with. -/
theorem Stays.adds {start : List Item} (hs : Stays b b' ⟨start, 0, []⟩)
    (hsize : b'.blocks.size = b.blocks.size + 1) (hitems : b'.itemsAt ⟨b.blocks.size⟩ = start) :
    Adds b b' ⟨start, 0, []⟩ [⟨⟨b.blocks.size⟩, start, false⟩] where
  toStays := hs
  nodup := nodup_singleton _
  new r hr := by
    rw [mem_singleton.1 hr, hsize]
    exact ⟨le_rfl, Nat.lt_succ_self _, hitems⟩
  plain r hr hcatches := by
    rw [mem_singleton.1 hr] at hcatches
    cases hcatches

theorem adds_addBlock (isLoopHeader : Bool) (line : Nat) :
    Adds b (b.addBlock isLoopHeader line).2 .nothing [.empty ⟨b.blocks.size⟩] :=
  (stays_addBlock isLoopHeader line).adds (size_addBlock ..) (by rw [itemsAt_eq, blockAt_addBlock_self]; rfl)

theorem part_addBlock (isLoopHeader : Bool) (line : Nat) :
    Part fn looping W n T b .none (.empty ⟨b.blocks.size⟩ :: T) (b.addBlock isLoopHeader line).2 :=
  fun K _ _ => ⟨K, .adds (adds_addBlock isLoopHeader line) fun _ hr => mem_singleton.1 hr ▸ rfl⟩

theorem part_addStarted (line : Nat) (start : List Item) :
    Part fn looping W n T b ⟨⟨start, 0, []⟩, fun st => st, []⟩
      (⟨⟨b.blocks.size⟩, start, false⟩ :: T) (b.addStarted line start) := by
  have ha := (stays_addStarted (b := b) line start).adds (size_addStarted ..)
    (by rw [itemsAt_eq, blockAt_addStarted_self])
  exact fun K _ _ => ⟨K, .adds ha fun _ hr => mem_singleton.1 hr ▸ rfl⟩

theorem Good.departs_moveTo (hb : Good W T K b) (hl : Leads b b₁ targets onto)
    (hstands : ∀ e ∈ targets, Stands (T ++ W) b e) (honto : ∀ e, onto = some e → e ∈ targets)
    (hne : targets ≠ []) (hT : T.Perm (r :: T')) : Departs W T b (b₁.moveTo r.id) T' := by
  obtain ⟨hlt, hcurrent, -, hlinks, -⟩ := hb.ready r (mem_append_left _ (hT.mem_iff.2 mem_cons_self))
  refine ⟨⟨b₁, targets, onto, hl, goes_moveTo (hl.size ▸ hlt) (hl.current ▸ hcurrent) ?_, hstands,
    fun e he => ⟨honto e he, ?_⟩, .inl hne⟩, .inl ⟨r, rfl, hT⟩⟩
  · exact (hl.others _ hcurrent).trans hlinks
  · exact (hl.definite _).trans hb.isOpen

theorem Good.departs_fallTo (hb : Good W T K b) (hstands : Stands (T ++ W) b e)
    (hT : T.Perm (r :: T')) : Departs W T b ((b.fallTo e).moveTo r.id) T' := by
  refine hb.departs_moveTo (leads_fallTo hb.lt hb.isOpen e)
    (fun e' he => mem_singleton.1 he ▸ hstands) (fun e' he => ?_) (cons_ne_nil _ _) hT
  cases he
  exact mem_singleton_self _

theorem part_fallTo (hstands : Stands (T ++ W) b e) (hT : T.Perm (r :: T')) :
    Part fn looping W n T b .move T' ((b.fallTo e).moveTo r.id) :=
  fun K hb _ => ⟨K, .departs (hb.departs_fallTo hstands hT)⟩

theorem stands_head (r : Ready) (hr : r.catches = false) (W : List Ready) (b : Builder) : Stands (r :: W) b r.id :=
  .inl ⟨r, mem_cons_self, rfl, hr⟩

theorem part_intoNew (isLoopHeader : Bool) (line : Nat) :
    Part fn looping W n T b .move T (b.intoNew isLoopHeader line) :=
  (part_addBlock isLoopHeader line).trans rfl fun _ => part_fallTo (stands_head _ rfl _ _) (.refl _)

theorem headerAt_intoNew (hb : Good W T K b) (line : Nat) :
    (b.intoNew true line).headerAt (b.intoNew true line).current = true := by
  have hadded := hb.stays (stays_addBlock true line)
  refine ((leads_fallTo hadded.lt hadded.isOpen ⟨b.blocks.size⟩).headers ⟨b.blocks.size⟩).trans ?_
  rw [headerAt_eq, blockAt_addBlock_self]
  rfl

/-! ### Items and jumps -/

theorem lays_put (fn looping : Bool) (line : Nat) (action : Action) :
    Lays fn looping (·.put line action) fun _ => .noted ⟨line, action⟩ :=
  fun _ _ _ => part_put line action

/-- An item that may raise is in a block that leads to all handlers. -/
theorem run_putGuarded (hb : Good W T K b) (hw : Within fn looping n b) (line : Nat)
    (action : Action) : ∃ b' K', b.putGuarded line action = b' ∧
      Runs fn W T K b (.lone ⟨line, action⟩) T K' b' ∧
      b'.itemsAt b'.current ≠ [] ∧ ∀ t ∈ raiseTargets b'.frames, t ∈ b'.exitsAt b'.current := by
  have hitem : ∀ {b₁ : Builder}, b₁.current.index < b₁.blocks.size →
      (b₁.put line action).itemsAt (b₁.put line action).current ≠ [] := fun {b₁} hlt => by
    rw [show (b₁.put line action).itemsAt (b₁.put line action).current = _ from itemsAt_put_self hlt line action]
    exact concat_ne_nil _ _
  by_cases hnone : raiseTargets b.frames = []
  -- outside of protected regions the item goes into the current block
  · obtain ⟨K', hrun⟩ := part_put line action hb hw
    refine ⟨b.put line action, K', by simp [putGuarded, hnone], hrun.restate (.inl hnone), hitem hb.lt, fun t ht => ?_⟩
    rw [show raiseTargets (b.put line action).frames = [] from hnone] at ht
    cases ht
  · obtain ⟨K₁, hnew⟩ := part_intoNew false line hb hw
    obtain ⟨K', hput⟩ := part_put line action (hnew.good hb) (hnew.laid.within hw)
    have hrun := hnew.trans hput
    have hl := leads_edges (hrun.good hb).lt (raiseTargets ((b.intoNew false line).put line action).frames)
    have htargets := hrun.laid.frames.eq raiseTargets_shape
    refine ⟨_, K', ?_, hrun.trans (.shields hl), ?_, fun t ht => ?_⟩
    · rw [htargets]
      simp [putGuarded, hnone]
      rfl
    · rw [hl.current, hl.items]
      exact hitem (hnew.good hb).lt
    · rw [hl.current]
      exact (hl.self t).2 (.inr (hl.frames.eq raiseTargets_shape ▸ ht))

theorem lays_putGuarded (fn looping : Bool) (line : Nat) (action : Action) :
    Lays fn looping (·.putGuarded line action) fun _ => .lone ⟨line, action⟩ := by
  intro W n b K hb hw
  obtain ⟨b', K', rfl, hrun, -⟩ := run_putGuarded hb hw line action
  exact ⟨K', hrun⟩

/-- After a jump the current block is a new one. -/
theorem Good.departs_terminate (hb : Good W T K b) (hl : Leads b b₁ targets none)
    (hstands : ∀ e ∈ targets, Stands (T ++ W) b e)
    (hdone : targets ≠ [] ∨ b.itemsAt b.current ≠ [] ∧ ∀ t ∈ raiseTargets b.frames, t ∈ b.exitsAt b.current)
    (line : Nat) : Departs W T b (b₁.terminate line) T := by
  have hlt : b₁.current.index < b₁.blocks.size := by
    rw [hl.current, hl.size]
    exact hb.lt
  refine ⟨⟨b₁, targets, none, hl, goes_terminate hlt line, hstands, fun _ he => ?_, hdone⟩, .inr ⟨rfl, ?_⟩⟩
  · exact absurd he.symm (Option.some_ne_none _)
  rw [current_terminate, ← hl.size]

theorem leads_jump (hb : Good W T K b) {jump : Jump} {target : BlockId} (ht : target? jump b.frames = some target) :
    Leads b { b.edge b.current ((cleanups jump b.frames).headD target) with frames := thread jump target b.frames }
      [(cleanups jump b.frames).headD target] none := by
  have hedge := leads_edge hb.lt ((cleanups jump b.frames).headD target)
  -- the jump is threaded through regions whose blocks are there
  have hframes : ∀ frame ∈ thread jump target b.frames, ∀ id ∈ frame.blocks, id.index < b.blocks.size := by
    refine (hb.threaded.thread ht).blocks_lt (fun e he => ?_) fun t ht => ?_
    · rw [← jumpEnds_shape, shape_thread, jumpEnds_shape] at he
      exact (hb.stands (hb.ends he)).1
    · rw [← handlersAround_shape, shape_thread, handlersAround_shape] at ht
      exact (hb.ready _ (mem_append_right T (hb.anchored.around t ht))).lt
  exact { hedge with
    changes := fun hlt => (hedge.changes hlt).tail (.withFrames (hedge.size ▸ hframes))
    frames := shape_thread jump target b.frames
    threaded := fun h => h.thread ht }

/-- A jump has somewhere to go where the site says so. -/
theorem lays_jump {jump : Jump} (line : Nat) (hplaced : ∀ frames, inLoop frames = looping →
      (target? jump frames).isSome = JumpSite.isPlaced fn ⟨jump, line, looping⟩) :
    Lays fn looping (·.jump jump line) fun _ => ⟨⟨[], 0, misplacedAmong fn [⟨jump, line, looping⟩]⟩,
      fun st => if JumpSite.isPlaced fn ⟨jump, line, looping⟩ then next st else st, []⟩ := by
  intro W n b K hb hw
  have hsome := hplaced b.frames hw.looping
  show ∃ K', Runs fn W [] K b _ [] K' (b.jump jump line)
  rw [Builder.jump]
  cases htarget : target? jump b.frames with
  | none =>
    have hnot : JumpSite.isPlaced fn ⟨jump, line, looping⟩ = false := hsome.symm.trans (by rw [htarget]; rfl)
    simp only [hnot, misplacedAmong, filter_cons, Bool.not_false]
    exact ⟨K, .of_blocks (.single (.note _ b.nextLoop)) rfl rfl rfl (by simp [Gain.after, context])⟩
  | some target =>
    have hplace : JumpSite.isPlaced fn ⟨jump, line, looping⟩ = true := hsome.symm.trans (by rw [htarget]; rfl)
    simp only [hplace, misplacedAmong, filter_cons, Bool.not_true]
    refine ⟨K, .departs (hb.departs_terminate (leads_jump hb htarget) (fun e he => ?_) (.inl (cons_ne_nil _ _)) line)⟩
    rw [mem_singleton.1 he]
    exact hb.ends (mem_jumpEnds_of_jump htarget)

theorem lays_raise (fn looping : Bool) (line : Nat) (action : Action) :
    Lays fn looping (fun b => (b.putGuarded line action).terminate line) fun _ =>
      .put ⟨line, action⟩ fun st => next (alone [⟨line, action⟩] st) := by
  intro W n b K hb hw
  obtain ⟨b', K', heq, hrun, hdone⟩ := run_putGuarded hb hw line action
  refine ⟨K', ?_⟩
  show Runs fn W [] K b _ [] K' ((b.putGuarded line action).terminate line)
  rw [heq]
  exact hrun.trans (.departs ((hrun.good hb).departs_terminate (.refl b') (forall_mem_nil _) (.inr hdone) line))

/-! ### Branches and loops -/

/-- A clause runs wherever it is used; one that is missing does nothing. -/
def LaysOption (fn looping : Bool) (layout : Option (Builder → Builder)) (S : Nat → Effect) : Prop :=
  match layout with
  | none => ∀ n, S n = .none
  | some layout => Lays fn looping layout S

/-- Two ways, the first of which starts with some items. -/
def Effect.fork (start : List Item) (E E' : Effect) : Effect :=
  ⟨⟨start ++ (E.gain.items ++ E'.gain.items), E.gain.loops + E'.gain.loops, E.gain.misplaced ++ E'.gain.misplaced⟩,
    fun st => next (E'.stretch (next (E.stretch (noteAll start (next st))))), E.regions ++ E'.regions⟩

section Clauses

variable {first second last : Ready} {clause clause' : Builder → Builder} {target : BlockId}

theorem part_ways (hT : T.Perm (first :: T')) (hfirst : first.catches = false)
    (hsecond : second ∈ T' ∧ second.catches = false) :
    Part fn looping W n T b ⟨.nothing, fun st => noteAll first.items (next st), []⟩ T'
      (((b.edge b.current first.id).edge b.current second.id).moveTo first.id) := by
  intro K hb _
  have hmem := hT.mem_iff.2 (mem_cons_self : first ∈ first :: T')
  have hl := leads_edges hb.lt [first.id, second.id]
  have hd := hb.departs_moveTo hl (fun e he => ?_) (fun _ he => absurd he.symm (Option.some_ne_none _)) (cons_ne_nil _ _) hT
  · have hitems : ∀ i ∈ first.items, i ∈ (b.edges b.current [first.id, second.id]).itemsAt first.id := fun i hi => by
      rwa [hl.items, (hb.ready first (mem_append_left _ hmem)).items]
    refine ⟨K, (Runs.departs hd).trans (.rests (g := .nothing) (stays_of_blocks .refl rfl rfl rfl ?_ rfl) hitems)⟩
    simp [Gain.after, Gain.nothing]
  · rcases mem_cons.1 he with rfl | he
    · exact .inl ⟨first, mem_append_left _ hmem, rfl, hfirst⟩
    · rw [mem_singleton.1 he]
      exact .inl ⟨second, mem_append_left _ (hT.mem_iff.2 (mem_cons_of_mem _ hsecond.1)), rfl, hsecond.2⟩

theorem part_clause (hfirst : first.catches = false) (hlast : last.catches = false)
    (h : ∀ b₁, Kept b b₁ → Part fn looping W n [last] b₁ E [last] (clause b₁))
    (htarget : ∀ b₁, Kept b b₁ → Stands (last :: W) b₁ target) :
    Part fn looping W n [last, first] b
      ⟨E.gain, fun st => next (next (E.stretch (noteAll first.items (next st)))), E.regions⟩ []
      (((clause (((b.edge b.current first.id).edge b.current last.id).moveTo first.id)).fallTo target).moveTo
        last.id) := by
  have hend : ∀ b₁, Kept b b₁ →
      Part fn looping W (n + E.gain.loops) [last] b₁ ⟨.nothing, fun st => next (next st), []⟩ []
        ((b₁.fallTo target).moveTo last.id) := fun b₁ hk K hb _ =>
    ⟨K, (Runs.departs (hb.departs_fallTo (htarget b₁ hk) (.refl _))).restate (.inr fun st => ⟨st, rfl, rfl⟩)⟩
  refine ((part_ways (.swap _ _ _) hfirst ⟨mem_singleton_self _, hlast⟩).trans rfl fun hk =>
    (h _ hk).trans rfl fun hk' => hend _ (hk.trans hk')).congr ?_
  simp [Effect.andThen]

theorem swap_ends {α : Type} (a b c : α) : [a, b, c].Perm [c, b, a] := reverse_perm [c, b, a]

theorem part_clauses (hfirst : first.catches = false) (hsecond : second.catches = false) (hlast : last.catches = false)
    (h : ∀ W b₁, Kept b b₁ → Part fn looping W n [last] b₁ E [last] (clause b₁))
    (htarget : ∀ W b₁, Kept b b₁ → Stands (last :: W) b₁ target)
    (h' : ∀ W b₁, Part fn looping W (n + E.gain.loops) [] b₁ E' [] (clause' b₁)) :
    Part fn looping W n [second, last, first] b ⟨E.gain.andThen E'.gain,
        fun st => next (E'.stretch (next (E.stretch (noteAll first.items (next st))))), E.regions ++ E'.regions⟩ []
      (((clause' (((clause (((b.edge b.current first.id).edge b.current second.id).moveTo first.id)).fallTo
        target).moveTo second.id)).fallTo last.id).moveTo last.id) := by
  refine ((part_ways (swap_ends second last first) hfirst
      ⟨mem_cons_of_mem _ (mem_singleton_self _), hsecond⟩).trans rfl fun hk =>
      (h ([second] ++ W) _ hk).aside.trans rfl fun hk' =>
      (part_fallTo (r := second) ?_ (.swap _ _ _)).trans rfl fun _ =>
      (h' ([last] ++ W) _).aside.trans rfl fun _ => part_fallTo (stands_head last hlast _ _) (.refl _)).congr ?_
  · exact htarget _ _ (hk.trans hk')
  · simp [Effect.andThen]

end Clauses

theorem part_forkHere {clause : BlockId → Builder → Builder} {target : BlockId → BlockId}
    (line : Nat) (start : List Item) (h : ∀ W after b₁, Kept b b₁ →
      Part fn looping W n [.empty after] b₁ (S n) [.empty after] (clause after b₁))
    (htarget : ∀ W after b₁, Kept b b₁ → Stands (.empty after :: W) b₁ (target after))
    (h' : LaysOption fn looping orelse S') :
    Part fn looping W n [] b (.fork start (S n) (S' (n + (S n).gain.loops))) []
      (b.forkHere line start target clause orelse) := by
  cases orelse with
  | none =>
    refine ((part_addStarted line start).trans rfl fun hk => (part_addBlock false line).trans rfl fun hk' =>
      part_clause rfl rfl (fun b₁ hk₁ => h W _ b₁ ((hk.trans hk').trans hk₁))
        fun b₁ hk₁ => htarget W _ b₁ ((hk.trans hk').trans hk₁)).congr ?_
    simp [h' _, Effect.fork, Effect.andThen, Effect.none, Gain.andThen, Gain.nothing]
  | some orelse =>
    refine ((part_addStarted line start).trans rfl fun hk => (part_addBlock false line).trans rfl fun hk' =>
      (part_addBlock false line).trans rfl fun hk₂ => part_clauses rfl rfl rfl
        (fun W b₁ hk₁ => h W _ b₁ (((hk.trans hk').trans hk₂).trans hk₁))
        (fun W b₁ hk₁ => htarget W _ b₁ (((hk.trans hk').trans hk₂).trans hk₁)) fun W b₁ => h' W _ b₁).congr ?_
    simp [Effect.fork, Effect.andThen, Effect.none, Gain.andThen, Gain.nothing]

theorem lays_branch (h : Lays fn looping layout S) (h' : LaysOption fn looping orelse S') (line : Nat) :
    Lays fn looping (fun b => b.branch line layout orelse) fun n => .fork [] (S n) (S' (n + (S n).gain.loops)) := by
  simp only [branch_eq]
  exact fun W n b => part_forkHere line [] (fun W after b₁ _ => (h _ n b₁).aside (T := []))
    (fun W after b₁ _ => stands_head _ rfl W b₁) h'

theorem Lays.inLoop (h : Lays fn true layout S) (hheader : b.headerAt header = true) :
    Part fn looping W n [.empty after] b (S n) [.empty after] (inLoopOf header layout after b) := by
  have hinner : Part fn looping ([.empty after] ++ W) n [] b (S n) [] (inLoopOf header layout after b) := by
    intro K hb hw
    have hafter := stands_head (.empty after) rfl W b
    obtain ⟨K', hrun⟩ := h _ n _ (hb.enterLoop hafter hheader) ⟨hw.inFunction, rfl, hw.nextLoop⟩
    exact ⟨K', hrun.loop hafter hheader⟩
  exact hinner.aside

theorem part_takeLoop : Part fn looping W n T b ⟨⟨[], 1, []⟩, fun st => st, []⟩ T b.takeLoop := by
  intro K _ _
  exact ⟨K, .of_blocks (.single (.note b.misplaced _)) rfl rfl rfl (by simp [Gain.after, context, takeLoop])⟩

section Loops

variable (h : Lays fn true layout S) (h' : LaysOption fn looping orelse S')
include h h'

theorem part_loopHere (hheader : b.headerAt b.current = true) (line : Nat) (start : List Item) :
    Part fn looping W n [] b (.fork start (S n) (S' (n + (S n).gain.loops))) []
      (b.loopHere line start layout orelse) :=
  part_forkHere line start (fun _ _ _ hk => h.inLoop (hk.headers _ hheader))
    (fun _ _ _ hk => .inr (hk.headers _ hheader)) h'

/-- A loop with a new header, into which something is put first. -/
theorem part_loop (put : Builder → Builder)
    (hput : ∀ b₁ : Builder, (put b₁).current = b₁.current ∧ Part fn looping W n [] b₁ E [] (put b₁))
    (hloops : E.gain.loops = 0) (line : Nat) (start : List Item) :
    Part fn looping W n [] b (.andThen .move (E.andThen (.fork start (S n) (S' (n + (S n).gain.loops)))))
      [] ((put (b.intoNew true line)).loopHere line start layout orelse) := by
  intro K hb
  have hheader := headerAt_intoNew hb line
  refine ((part_intoNew true line).trans rfl fun _ => (hput _).2.trans (congrArg (n + ·) hloops) fun hk =>
    part_loopHere h h' ?_ line start) hb
  rw [(hput _).1]
  exact hk.headers _ hheader

theorem lays_whileLoop (line : Nat) (test : Expr) :
    Lays fn looping (fun b => b.whileLoop line test layout orelse) fun n =>
      .andThen .move ((Effect.noted ⟨line, .test test⟩).andThen
        (.fork [] (S n) (S' (n + (S n).gain.loops)))) := by
  simp only [whileLoop_eq]
  exact fun W n b => part_loop h h' (·.put line (.test test)) (fun _ => ⟨rfl, part_put line _⟩) rfl line []

theorem lays_forLoop (line : Nat) (target iter : Expr) :
    Lays fn looping (fun b => b.forLoop line target iter layout orelse) fun n =>
      .andThen ⟨⟨[], 1, []⟩, fun st => st, []⟩
        ((Effect.lone ⟨line, .forIter ⟨n⟩ iter⟩).andThen
          (.andThen .move (Effect.none.andThen
            (.fork [⟨line, .forTarget ⟨n⟩ target⟩] (S (n + 1)) (S' (n + 1 + (S (n + 1)).gain.loops)))))) := by
  intro W n b K hb hw
  have hloop : ∀ b : Builder, Part fn looping W (n + 1) [] b _ []
      ((b.intoNew true line).loopHere line [⟨line, .forTarget ⟨n⟩ target⟩] layout orelse) := fun b =>
    part_loop h h' (fun b => b) (fun b₁ => ⟨rfl, Lays.pass fn looping W _ b₁⟩) rfl line _
  simp only [forLoop_eq, hw.nextLoop]
  exact (part_takeLoop.trans rfl fun _ => (lays_putGuarded fn looping line _ W _ _).trans rfl fun _ => hloop _) hb hw

end Loops

/-! ### Handlers and clean-ups -/

theorem adds_addBlocks (hlt : b.current.index < b.blocks.size) (lines : List Nat) :
    Adds b (b.addBlocks lines).2 .nothing (catchers (b.addBlocks lines).1) ∧
      (b.addBlocks lines).1.length = lines.length := by
  induction lines generalizing b with
  | nil =>
    refine ⟨⟨stays_of_blocks .refl rfl rfl rfl ?_ rfl, nodup_nil, forall_mem_nil _, forall_mem_nil _⟩, rfl⟩
    simp [Gain.after, Gain.nothing, addBlocks]
  | cons line lines ih =>
    have hfirst : Stays b (b.addBlock false line).2 .nothing := stays_addBlock false line
    have hsize : (b.addBlock false line).2.blocks.size = b.blocks.size + 1 := size_addBlock false line
    obtain ⟨hrest, hlength⟩ := ih (b := (b.addBlock false line).2) (hlt.trans_le hfirst.size)
    have hnew : b.blocks.size < (b.addBlock false line).2.blocks.size := hsize ▸ Nat.lt_succ_self _
    have hblock : (b.addBlock false line).2.blockAt ⟨b.blocks.size⟩ = emptyBlock false line :=
      blockAt_addBlock_self false line
    set b₁ := (b.addBlock false line).2 with hb₁
    have hall : Stays b (b₁.addBlocks lines).2 .nothing := hfirst.trans hrest.toStays
    have hitems : (b₁.addBlocks lines).2.itemsAt ⟨b.blocks.size⟩ = [] := by
      rw [hrest.items ⟨b.blocks.size⟩ (ne_of_index_lt hlt) hnew, itemsAt_eq, hblock]
      rfl
    have hheader : (b₁.addBlocks lines).2.headerAt ⟨b.blocks.size⟩ = false := by
      rw [hrest.headers ⟨b.blocks.size⟩ hnew, headerAt_eq, hblock]
      rfl
    refine ⟨⟨hall, nodup_cons.2 ⟨fun hmem => ?_, hrest.nodup⟩, fun r hr => ?_, fun r hr _ => ?_⟩,
      congrArg (· + 1) hlength⟩
    · obtain ⟨r, hr, heq⟩ := mem_map.1 hmem
      have hle := (hrest.new r hr).1
      rw [heq, hsize] at hle
      exact absurd hle (Nat.not_succ_le_self _)
    · rcases mem_cons.1 hr with rfl | hr
      · exact ⟨le_rfl, hnew.trans_le hrest.size, hitems⟩
      · obtain ⟨hle, hrest⟩ := hrest.new r hr
        exact ⟨hnew.le.trans hle, hrest⟩
    · rcases mem_cons.1 hr with rfl | hr
      · exact hheader
      · obtain ⟨id, -, rfl⟩ := mem_map.1 hr
        exact hrest.plain _ hr rfl

/-- Handlers are laid out in the blocks that wait for them; each of them goes on to `join`. -/
def LaysHandlers (fn looping : Bool) (layout : BlockId → List BlockId → Builder → Builder)
    (hs : List (Handler Stmt)) (S : Nat → Effect) : Prop :=
  ∀ ⦃W K n b ids join⦄, ids.length = hs.length → Stands W b join → Good W (catchers ids) K b → Within fn looping n b →
    ∃ b' K', layout join ids (b.fallTo join) = b'.fallTo join ∧
      Runs fn W (catchers ids) K b (S n) [] K' b' ∧ Start b' ids hs

theorem LaysHandlers.congr {handlers : BlockId → List BlockId → Builder → Builder}
    (h : LaysHandlers fn looping handlers hs S) (hS : ∀ n, S n = S' n) : LaysHandlers fn looping handlers hs S' :=
  (funext hS : S = S') ▸ h

theorem laysHandlers_nil (fn looping : Bool) : LaysHandlers fn looping (fun _ _ b => b) [] fun _ => .none := by
  intro W K n b ids join hlength _ hb hw
  cases length_eq_zero_iff.1 hlength
  obtain ⟨K', hrun⟩ := Lays.pass fn looping W n b hb hw
  exact ⟨b, K', rfl, hrun, .nil⟩

theorem LaysHandlers.cons {h : Handler Stmt}
    {handlers layouts : BlockId → List BlockId → Builder → Builder}
    (hrest : LaysHandlers fn looping handlers hs S') (hbody : Lays fn looping layout S)
    (hlayouts : ∀ join id ids b, layouts join (id :: ids) b =
      handlers join ids ((layout ((b.moveTo id).put h.line (.handler h))).fallTo join)) :
    LaysHandlers fn looping layouts (h :: hs) fun n =>
      (Effect.andThen .move ((Effect.noted ⟨h.line, .handler h⟩).andThen (S n))).andThen
        (S' (n + (S n).gain.loops)) := by
  intro W K n b ids join hlength hjoin hb hw
  cases ids with
  | nil => cases hlength
  | cons id ids =>
    -- the block of the handler is empty so far
    have hempty : ((b.fallTo join).moveTo id).itemsAt id = [] :=
      ((leads_fallTo hb.lt hb.isOpen join).items id).trans (hb.ready ⟨id, [], true⟩ mem_cons_self).items
    obtain ⟨K₁, hmove⟩ := part_fallTo (r := ⟨id, [], true⟩)
      (hjoin.imp (fun _ => mem_append_right _) fun _ hx => hx) (.refl _) hb hw
    set b₁ := (b.fallTo join).moveTo id with hb₁
    have hgood₁ := hmove.good hb
    have hhead : (b₁.put h.line (.handler h)).itemsAt id = [⟨h.line, .handler h⟩] := by
      rw [show (b₁.put h.line (.handler h)).itemsAt id = _ from itemsAt_put_self hgood₁.lt _ _]
      exact congrArg (· ++ [_]) hempty
    obtain ⟨K₂, hput⟩ := part_put h.line (.handler h) hgood₁ (hmove.laid.within hw)
    obtain ⟨K₃, hclause⟩ := (hbody _ _ _).aside (T := []) (hput.good hgood₁) (hput.laid.within (hmove.laid.within hw))
    have hall := hmove.trans (hput.trans hclause)
    obtain ⟨b', K', heq, hrun, hstart⟩ := hrest (Nat.succ.inj hlength)
      (hjoin.imp (fun _ hr => hr) hall.laid.headers) (hall.good hb) (hall.laid.within hw)
    refine ⟨b', K', (hlayouts join id ids _).trans heq, (hall.trans hrun).congr ?_, .cons ?_ hstart⟩
    · simp [Effect.andThen, Effect.put, Gain.andThen, Gain.nothing]
    · obtain ⟨rest, hrest⟩ := (hclause.laid.isPrefix id).trans (hrun.laid.isPrefix id)
      rw [← hrest, hhead]
      rfl

/-- A protected body, its `else` clause and its handlers. -/
def Effect.guard (own : List Region) (E E' E₂ : Effect) : Effect :=
  ⟨E.gain.andThen (E'.gain.andThen E₂.gain), fun st => E₂.stretch (E'.stretch (E.stretch (shield st))),
    own ++ (E.regions ++ (E'.regions ++ E₂.regions))⟩

/-- What is laid out of a `try` before its `finally` clause. -/
def guarded (own : Nat → List Region) (S S' S₂ : Nat → Effect) (n : Nat) : Effect :=
  .guard (own n) (S n) (S' (n + (S n).gain.loops))
    (S₂ (n + (S n).gain.loops + (S' (n + (S n).gain.loops)).gain.loops))

/-- What comes before a clean-up.  Whatever its stretches are, the clean-up starts a new one. -/
def Effect.cleanup (E : Effect) : Effect := ⟨E.gain, next, E.regions⟩

/-- The start of a region whose handlers have the blocks `ids`. -/
def protect (b : Builder) (ids : List BlockId) : Builder :=
  (b.enter (.guarded ids)).edges b.current (raiseTargets (b.enter (.guarded ids)).frames)

/-- After a `finally` clause control goes on after the statement, or where the jumps go on that
passed it. -/
theorem Good.departs_resume {pending : List BlockId} (hb : Good W [.empty after] K b)
    (hpending : ∀ e ∈ pending, e ∈ jumpEnds b.frames) :
    Departs W [.empty after] b
      ((if b.isDefinite b.current then b else (b.fallTo after).edges b.current pending).moveTo after) [] := by
  rw [hb.isOpen]
  have hfall := leads_fallTo hb.lt hb.isOpen after
  have hedges := @leads_edges (b.fallTo after) (by rw [hfall.current, hfall.size]; exact hb.lt) pending
  rw [hfall.current] at hedges
  have hafter : ∀ e, some after = some e → e ∈ [after] := fun e he => mem_singleton.2 (Option.some.inj he).symm
  refine hb.departs_moveTo (r := .empty after) (hfall.trans hedges hafter)
    (fun e he => ?_) (fun e he => ?_) (cons_ne_nil _ _) (.refl _)
  · rcases mem_cons.1 he with rfl | he
    · exact stands_head _ rfl _ _
    · exact hb.ends (hpending e he)
  · cases he
    exact mem_cons_self

section Try

variable {orelse : Builder → Builder} {handlers : BlockId → List BlockId → Builder → Builder} {hs : List (Handler Stmt)}

theorem run_guard {own : Nat → List Region} (h : Lays fn looping layout S) (h' : Lays fn looping orelse S')
    (h₂ : LaysHandlers fn looping handlers hs S₂) (hb : Good W [] K b) (hw : Within fn looping n b)
    (hjoin : Stands W b join)
    (hown : ∀ r ∈ own n, r.handlers = hs ∧ hs ≠ [] ∧ r.stretches fn = (S n).stretch (shield (next []))) :
    ∃ b' K', b.guard join (hs.map (·.line)) layout orelse (handlers join) = b'.fallTo join ∧
      Runs fn W [] K b (guarded own S S' S₂ n) [] K' b' ∧
      ∀ t ∈ raiseTargets b.frames, t ∈ b'.exitsAt b.current := by
  obtain ⟨ha, hlength⟩ := adds_addBlocks hb.lt (hs.map (·.line))
  have hguard : b.guard join (hs.map (·.line)) layout orelse (handlers join) =
      handlers join (b.addBlocks (hs.map (·.line))).1 ((orelse (layout ((b.addBlocks (hs.map (·.line))).2.protect
        (b.addBlocks (hs.map (·.line))).1)).leave).fallTo join) := rfl
  set ids := (b.addBlocks (hs.map (·.line))).1 with hids
  set b₁ := (b.addBlocks (hs.map (·.line))).2 with hb₁
  have hlaid₁ := ha.laid_catchers
  have hgood₁ := hb.addCatchers ha
  have hinner := hgood₁.enterGuarded rfl
  have hw₁ := hlaid₁.within hw
  -- the current block gets the edges to the handlers, then comes the body
  have hl : Leads (b₁.enter (.guarded ids)) (b₁.protect ids) (raiseTargets (b₁.enter (.guarded ids)).frames) none :=
    leads_edges hinner.lt _
  obtain ⟨K₁, hbody⟩ := h _ n (b₁.protect ids) (hinner.shields hl)
    ((hl.laid (T := [])).within ⟨hw₁.inFunction, hw₁.looping, hw₁.nextLoop⟩)
  have hprotected : Runs fn (catchers ids ++ W) [] (ids ++ K) (b₁.enter (.guarded ids))
      ⟨(S n).gain, fun st => (S n).stretch (shield st), (S n).regions⟩ [] K₁ (layout (b₁.protect ids)) :=
    ((Runs.shields hl).trans hbody).congr (by simp [Effect.andThen])
  have hlaid₂ := hprotected.laid.leave rfl
  have hgood₂ : Good W (catchers ids) K₁ (layout (b₁.protect ids)).leave :=
    (hprotected.good hinner).leave hgood₁.anchored hlaid₂.toKept rfl
  obtain ⟨K₂, horelse⟩ := (h' _ _ _).aside (T := []) hgood₂ (hlaid₂.within hw₁)
  -- the handlers, in the blocks that wait for them
  have hkept := (hlaid₁.toKept.trans hlaid₂.toKept).trans horelse.laid.toKept
  obtain ⟨b', K', heq, hhandlers, hstart⟩ := h₂ (hlength.trans (length_map _))
    (hjoin.imp (fun _ hr => hr) hkept.headers) (horelse.good hgood₂) (horelse.laid.within (hlaid₂.within hw₁))
  refine ⟨b', K', hguard.trans heq, (Runs.protect ha hprotected (horelse.trans hhandlers) fun r hr => ?_).congr rfl,
    fun t ht => ?_⟩
  · obtain ⟨rfl, hne, hstretches⟩ := hown r hr
    refine ⟨fun hnil => hne (length_eq_zero_iff.1 ?_), hstart, hstretches⟩
    rw [← hstart.length_eq, hnil]
    rfl
  · refine hhandlers.laid.exits _ t (horelse.laid.exits _ t (hbody.laid.exits _ t ?_))
    have hself := (hl.self t).2 (.inr (mem_append_right ids (ha.frames.symm ▸ ht)))
    rwa [show (b₁.enter (.guarded ids)).current = b.current from ha.current] at hself

variable {own : Nat → List Region} {finalbody : Builder → Builder} {S₃ : Nat → Effect}
  (h : Lays fn looping layout S) (h' : Lays fn looping orelse S') (h₂ : LaysHandlers fn looping handlers hs S₂)
  (hown : ∀ n, ∀ r ∈ own n, r.handlers = hs ∧ hs ≠ [] ∧ r.stretches fn = (S n).stretch (shield (next [])))

include h h' h₂ hown

theorem lays_tryExcept (line : Nat) :
    Lays fn looping (fun b => b.tryBlock line (hs.map (·.line)) layout orelse handlers none) fun n =>
      (guarded own S S' S₂ n).andThen .move := by
  have hguard : ∀ W n b after, Part fn looping W n [.empty after] b
      ((guarded own S S' S₂ n).andThen .move) []
      ((b.guard after (hs.map (·.line)) layout orelse (handlers after)).moveTo after) := by
    intro W n b after K hb hw
    have hinner : Good ([.empty after] ++ W) [] K b :=
      hb.shift rfl (hb.anchored.imp (fun _ => mem_append_right _) (.refl b))
    obtain ⟨b', K', heq, hrun, -⟩ := run_guard h h' h₂ hinner hw (stands_head (.empty after) rfl W b) (hown n)
    have hall := hrun.aside (T := [])
    rw [heq]
    exact ⟨K', hall.trans (.departs ((hall.good hb).departs_fallTo (stands_head _ rfl _ _) (.refl _)))⟩
  intro W n b
  exact ((part_addBlock false line).trans rfl fun _ => hguard W n _ _).congr (by simp [Effect.andThen, Effect.none])

theorem lays_tryFinally (h₃ : Lays fn looping finalbody S₃) (line : Nat) :
    Lays fn looping (fun b => b.tryBlock line (hs.map (·.line)) layout orelse handlers (some finalbody)) fun n =>
      ((guarded own S S' S₂ n).cleanup.andThen (S₃ (n + (guarded own S S' S₂ n).gain.loops))).andThen .move := by
  have hguard : ∀ W n b entry after, Part fn looping W n [.empty entry, .empty after] b
      (((guarded own S S' S₂ n).cleanup.andThen (S₃ (n + (guarded own S S' S₂ n).gain.loops))).andThen .move) []
      (let b₁ := (b.enter (.cleanup entry [])).guard entry (hs.map (·.line)) layout orelse (handlers entry)
        let b₂ := finalbody (b₁.leave.moveTo entry)
        (if b₂.isDefinite b₂.current then b₂ else (b₂.fallTo after).edges b₂.current (pendingTargets b₁.frames)).moveTo
          after) := by
    intro W n b entry after K hb hw
    have hb₀ : Good ([.empty after] ++ W) [.empty entry] K b :=
      hb.shift rfl (hb.anchored.imp (fun _ => mem_append_right _) (.refl b))
    have hinner := hb₀.enterCleanup rfl
    obtain ⟨b₁, K₁, heq, hrun, hraise⟩ := run_guard h h' h₂ hinner { hw with }
      (stands_head (.empty entry) rfl _ _) (hown n)
    have hlaid := hrun.laid.leave rfl
    have hgood : Good _ [.empty entry] K₁ b₁.leave := (hrun.good hinner).leave hb₀.anchored hlaid.toKept rfl
    have hclean := (Runs.cleanup hrun (hraise entry (mem_singleton_self _))
      (hgood.departs_fallTo (stands_head _ rfl _ _) (.refl _))).aside
    obtain ⟨K₂, hfinal⟩ := (h₃ _ _ _).aside (T := []) (hclean.good hb) (hclean.laid.within hw)
    have hall := hclean.trans hfinal
    simp only [heq, leave_fallTo, frames_fallTo]
    refine ⟨K₂, hall.trans (.departs ((hall.good hb).departs_resume fun e he => ?_))⟩
    rw [hall.laid.frames.eq jumpEnds_shape, ← hlaid.frames.eq jumpEnds_shape]
    exact (hrun.good hinner).threaded.pending he
  intro W n b
  exact ((part_addBlock false line).trans rfl fun _ => (part_addBlock false line).trans rfl fun _ =>
    hguard W n _ _ _).congr (by simp [Effect.andThen, Effect.none])

end Try

/-! ### Statements -/

/-- What laying out a statement brings about. -/
def effectOf (fn looping : Bool) (n : Nat) (s : Stmt) : Effect :=
  ⟨⟨itemsOf fn n s, loopsOf s, misplacedAmong fn (jumpsOf looping s)⟩, stretchesOf fn looping n s,
    regionsOf looping n s⟩

def effectOfAll (fn looping : Bool) (n : Nat) (ss : List Stmt) : Effect :=
  ⟨⟨itemsOfAll fn n ss, loopsOfAll ss, misplacedAmong fn (jumpsOfAll looping ss)⟩,
    stretchesOfAll fn looping n ss, regionsOfAll looping n ss⟩

def effectOfHandlers (fn looping : Bool) (n : Nat) (hs : List (Handler Stmt)) : Effect :=
  ⟨⟨itemsOfHandlers fn n hs, loopsOfHandlers hs, misplacedAmong fn (jumpsOfHandlers looping hs)⟩,
    stretchesOfHandlers fn looping n hs, regionsOfHandlers looping n hs⟩

theorem laysOption_body {ss : List Stmt} (h : Lays fn looping (body ss) (effectOfAll fn looping · ss)) :
    LaysOption fn looping (if ss.isEmpty then none else some (body ss)) (effectOfAll fn looping · ss) := by
  cases ss with
  | nil => exact fun _ => rfl
  | cons s ss => exact h

theorem lays_withItems (fn looping : Bool) (line : Nat) (items : List (WithItem Expr)) :
    Lays fn looping (fun b => items.foldl (fun b item => b.putGuarded line (.withEnter item)) b) fun _ =>
      ⟨⟨items.map fun item => ⟨line, .withEnter item⟩, 0, []⟩,
        alone (items.map fun item => ⟨line, .withEnter item⟩), []⟩ := by
  induction items with
  | nil => exact .pass fn looping
  | cons item items ih => exact ((lays_putGuarded fn looping line (.withEnter item)).comp ih).congr fun _ => rfl

theorem lays_ret (fn looping : Bool) (line : Nat) (value : Option Expr) :
    Lays fn looping (stmt (.ret line value)) (effectOf fn looping · (.ret line value)) := by
  intro W n b K hb hw
  rw [stmt]
  cases fn with
  | true =>
    rw [if_pos hw.inFunction]
    exact ((lays_putGuarded true looping line (.ret value)).comp
      (lays_jump line fun frames _ => target?_ret_isSome frames)) W n b hb hw
  | false =>
    rw [if_neg (hw.inFunction ▸ Bool.false_ne_true)]
    refine ⟨K, .of_blocks (.single (.note _ b.nextLoop)) rfl rfl rfl ?_⟩
    simp [Gain.after, context, jumpsOf, misplacedAmong, JumpSite.isPlaced, loopsOf]

theorem own_region (fn looping : Bool) (hs : List (Handler Stmt)) (ss : List Stmt) (n : Nat)
    (r : Region) (hr : r ∈ if hs.isEmpty then [] else [(⟨hs, looping, n, ss⟩ : Region)]) :
    r.handlers = hs ∧ hs ≠ [] ∧ r.stretches fn = (effectOfAll fn looping n ss).stretch (shield (next [])) := by
  cases hs with
  | nil => cases hr
  | cons h hs =>
    cases mem_singleton.1 hr
    exact ⟨rfl, cons_ne_nil _ _, rfl⟩

attribute [local simp] effectOf effectOfAll effectOfHandlers guarded Effect.andThen Effect.put Effect.fork Effect.none
  Effect.guard Effect.cleanup Gain.andThen Gain.nothing noteAll itemsOf itemsOfAll itemsOfHandlers loopsOf loopsOfAll loopsOfHandlers
  jumpsOf jumpsOfAll jumpsOfHandlers stretchesOf stretchesOfAll stretchesOfHandlers regionsOf regionsOfAll regionsOfHandlers

section Effects

variable (fn looping : Bool) (n line : Nat) (test target iter : Expr) (ss ss' : List Stmt) (hs : List (Handler Stmt))

theorem effectOf_ifThen : (Effect.noted ⟨line, .test test⟩).andThen
      (.fork [] (effectOfAll fn looping n ss) (effectOfAll fn looping (n + loopsOfAll ss) ss')) =
    effectOf fn looping n (.ifThen line test ss ss') := by
  simp

theorem effectOf_whileLoop : .andThen .move
    ((Effect.noted ⟨line, .test test⟩).andThen
      (.fork [] (effectOfAll fn true n ss) (effectOfAll fn looping (n + loopsOfAll ss) ss'))) =
    effectOf fn looping n (.whileLoop line test ss ss') := by
  simp

theorem effectOf_forLoop : .andThen ⟨⟨[], 1, []⟩, fun st => st, []⟩
      ((Effect.lone ⟨line, .forIter ⟨n⟩ iter⟩).andThen
        (.andThen .move (Effect.none.andThen (.fork [⟨line, .forTarget ⟨n⟩ target⟩]
          (effectOfAll fn true (n + 1) ss) (effectOfAll fn looping (n + 1 + loopsOfAll ss) ss'))))) =
    effectOf fn looping n (.forLoop line target iter ss ss') := by
  simp [add_assoc]

/-- What a `try` brings about before its `finally` clause. -/
def guardedOf (fn looping : Bool) (ss ss' : List Stmt) (hs : List (Handler Stmt)) (n : Nat) : Effect :=
  guarded (fun n => if hs.isEmpty then [] else [⟨hs, looping, n, ss⟩]) (effectOfAll fn looping · ss)
    (effectOfAll fn looping · ss') (effectOfHandlers fn looping · hs) n

theorem effectOf_tryExcept : (guardedOf fn looping ss ss' hs n).andThen .move =
    effectOf fn looping n (.tryBlock line ss hs ss' []) := by
  simp [guardedOf, add_assoc]

theorem effectOf_tryFinally (s : Stmt) (fs : List Stmt) :
    ((guardedOf fn looping ss ss' hs n).cleanup.andThen
      (effectOfAll fn looping (n + (guardedOf fn looping ss ss' hs n).gain.loops) (s :: fs))).andThen .move =
    effectOf fn looping n (.tryBlock line ss hs ss' (s :: fs)) := by
  simp [guardedOf, add_assoc]

theorem effectOfHandlers_cons (type : Option Expr) (name : Option Binder) :
    (Effect.andThen .move ((Effect.noted ⟨line, .handler ⟨line, type, name, ss⟩⟩).andThen
      (effectOfAll fn looping n ss))).andThen
        (effectOfHandlers fn looping (n + loopsOfAll ss) hs) =
    effectOfHandlers fn looping n (⟨line, type, name, ss⟩ :: hs) := by
  simp

end Effects

mutual

/-- **Laying out a statement** is a run. -/
theorem lays_stmt (fn looping : Bool) (s : Stmt) : Lays fn looping (stmt s) (effectOf fn looping · s) := by
  cases s with
  | ret line value => exact lays_ret fn looping line value
  | raise line exc cause => exact lays_raise fn looping line (.simple (.raise line exc cause))
  | «break» line => exact lays_jump line fun _ hloop => hloop
  | «continue» line => exact lays_jump line fun frames hloop => (inLoop_eq_continue frames).symm.trans hloop
  | pass line => exact .pass fn looping
  | ifThen line test thenBody elseBody =>
    exact ((lays_put fn looping line (.test test)).comp (lays_branch (lays_body fn looping thenBody)
      (laysOption_body (lays_body fn looping elseBody)) line)).congr fun n => effectOf_ifThen fn looping n line test _ _
  | whileLoop line test loopBody elseBody =>
    exact (lays_whileLoop (lays_body fn true loopBody) (laysOption_body (lays_body fn looping elseBody)) line
      test).congr fun n => effectOf_whileLoop fn looping n line test _ _
  | forLoop line target iter loopBody elseBody =>
    exact (lays_forLoop (lays_body fn true loopBody) (laysOption_body (lays_body fn looping elseBody)) line target
      iter).congr fun n => effectOf_forLoop fn looping n line target iter _ _
  | withBlock line items withBody =>
    refine ((lays_withItems fn looping line items).comp (lays_body fn looping withBody)).congr fun n => ?_
    simp
  | tryBlock line tryBody hs elseBody finalBody =>
    have hown := own_region fn looping hs tryBody
    cases finalBody with
    | nil =>
      exact (lays_tryExcept (lays_body fn looping tryBody) (lays_body fn looping elseBody)
        (lays_handlers fn looping hs) hown line).congr fun n => effectOf_tryExcept fn looping n line _ _ hs
    | cons s ss =>
      exact (lays_tryFinally (lays_body fn looping tryBody) (lays_body fn looping elseBody)
        (lays_handlers fn looping hs) hown (lays_body fn looping (s :: ss)) line).congr
        fun n => effectOf_tryFinally fn looping n line _ _ hs s ss
  | _ => exact lays_putGuarded fn looping _ _

theorem lays_body (fn looping : Bool) (ss : List Stmt) : Lays fn looping (body ss) (effectOfAll fn looping · ss) := by
  cases ss with
  | nil => exact .pass fn looping
  | cons s ss =>
    refine ((lays_stmt fn looping s).comp (lays_body fn looping ss)).congr fun n => ?_
    simp

theorem lays_handlers (fn looping : Bool) (hs : List (Handler Stmt)) :
    LaysHandlers fn looping (handlers hs) hs (effectOfHandlers fn looping · hs) := by
  cases hs with
  | nil => exact laysHandlers_nil fn looping
  | cons hd hs =>
    obtain ⟨line, type, name, handlerBody⟩ := hd
    have heq : ∀ join id ids b, handlers (⟨line, type, name, handlerBody⟩ :: hs) join
        (id :: ids) b = handlers hs join ids
          ((body handlerBody ((b.moveTo id).put line (.handler ⟨line, type, name, handlerBody⟩))).fallTo join) :=
      fun _ _ _ _ => by rw [handlers]
    exact ((lays_handlers fn looping hs).cons (h := ⟨line, type, name, handlerBody⟩) (lays_body fn looping handlerBody)
      heq).congr fun n => effectOfHandlers_cons fn looping n line handlerBody hs type name

end

/-! ### Whole bodies -/

/-- The last block waits from the start on. -/
def ending : Ready := ⟨Flow.last, [], false⟩

theorem good_start (fn : Bool) : Good [ending] [] [] (start fn) := by
  have hblock : ∀ x, (start fn).blockAt x = emptyBlock false 0 := by
    rintro ⟨_ | _ | i⟩ <;> rfl
  have hexits : ∀ x, (start fn).exitsAt x = [] := fun x => by
    rw [exitsAt_eq, hblock]
    rfl
  have hnext : ∀ x, (start fn).nextAt x = none := fun x => by
    rw [nextAt_eq, hblock]
    rfl
  refine ⟨.refl, Nat.two_pos, rfl, rfl, nodup_singleton _, fun r hr => ?_, forall_mem_nil _,
    ⟨fun e he => ?_, forall_mem_nil _⟩, trivial, ⟨fun x e he => ?_, fun x e he => ?_,
      fun x _ => hnext x, ⟨fun x => ⟨x, fun y hy => ?_⟩⟩⟩, forall_mem_nil _⟩
  · rw [mem_singleton.1 hr]
    exact ⟨Nat.one_lt_two, ne_of_index_lt Nat.zero_lt_one, rfl, rfl, by simp [ending]⟩
  · rw [mem_singleton.1 he]
    exact stands_head ending rfl [] _
  · rw [hexits] at he
    cases he
  · rw [hnext] at he
    cases he
  · obtain ⟨-, hy⟩ := hy
    rw [hexits] at hy
    cases hy

/-- **Laying out a body** is a run. -/
theorem run_body (fn : Bool) (ss : List Stmt) :
    ∃ K, Runs fn [ending] [] [] (start fn) (effectOfAll fn false 0 ss) [] K (body ss (start fn)) :=
  lays_body fn false ss [ending] 0 (start fn) (good_start fn) ⟨rfl, rfl, rfl⟩

/-- What holds of the blocks once the last edge is there. -/
structure Complete (K : List BlockId) (b : Builder) : Prop where
  orderly : Orderly b
  lt : Flow.last.index < b.blocks.size
  items : b.itemsAt Flow.last = []
  links : b.linksAt Flow.last = ([], none, false)
  firm : ∀ t ∈ K, ∀ x, b.itemsAt x = [] → b.exitsAt x ≠ [t]

theorem Good.complete (hb : Good [ending] [] K b) : Complete K (b.fallTo Flow.last) := by
  have hl := leads_fallTo hb.lt hb.isOpen Flow.last
  have hw := hb.ready ending (mem_singleton_self _)
  have hstands := hb.stands (stands_head ending rfl [] b)
  refine ⟨hb.orderly.leads hl hb.isOpen (fun e he => ?_) (fun e he => ?_), hl.size ▸ hw.lt,
    (hl.items _).trans hw.items, (hl.others _ hw.ne).trans hw.links, fun t ht x hitems hexits => ?_⟩
  · rw [mem_singleton.1 he]
    exact ⟨hstands.1, hstands.2.1⟩
  · cases he
    exact mem_singleton_self _
  · by_cases hx : x = b.current
    · have hmem := (hl.self Flow.last).2 (.inr (mem_singleton_self _))
      rw [← hx, hexits, mem_singleton] at hmem
      subst hmem
      exact hstands.2.2 ht
    · exact hb.firm t ht x hx (hl.items x ▸ hitems) (hl.exits_of_ne hx ▸ hexits)

theorem exists_complete (fn : Bool) (ss : List Stmt) : ∃ K, Complete K ((body ss (start fn)).fallTo Flow.last) := by
  obtain ⟨K, hrun⟩ := run_body fn ss
  exact ⟨K, (hrun.good (good_start fn)).complete⟩

theorem laid_body (fn : Bool) (ss : List Stmt) :
    Laid [] (start fn) (effectOfAll fn false 0 ss).gain [] ((body ss (start fn)).fallTo Flow.last) := by
  obtain ⟨K, hrun⟩ := run_body fn ss
  have hgood := hrun.good (good_start fn)
  have hall := hrun.laid.trans (leads_fallTo hgood.lt hgood.isOpen Flow.last).laid
  rwa [Gain.andThen_nothing] at hall

end Builder

end FlowTyping.Flow
