/-
The blocks of a body without `try` behave as its executions say.

While statements are laid out, only the current block and new blocks change (`Lays`), and no edge
leaves the current block before its statement is complete (`Live`).  So once a statement stands,
whatever chart has its blocks (`Agrees`), its walks from where the statement starts are the
executions of the statement.  `LaysOut` says so for one layout, and `Simulates` for all places where
the statement may stand.  Each way of combining layouts has one lemma, which takes its argument
about walks from the lemma of the same name about `Behaves`.
-/
import FlowTyping.Proofs.Flow.Execution
import FlowTyping.Proofs.Flow.Layout

namespace FlowTyping.Flow

open List

namespace Traces

variable {E F : Traces} {xs ys : List Item} {o : Outcome}

@[simp]
theorem after_only (xs ys : List Item) (o : Outcome) : after xs (only ys o) = only (xs ++ ys) o := by
  funext zs o'
  apply propext
  constructor
  · rintro ⟨us, ⟨rfl, rfl⟩, rfl⟩
    exact ⟨rfl, rfl⟩
  · rintro ⟨rfl, rfl⟩
    exact ⟨ys, ⟨rfl, rfl⟩, rfl⟩

@[simp]
theorem after_nil (E : Traces) : after [] E = E := by
  funext xs o
  apply propext
  constructor
  · rintro ⟨ys, hE, rfl⟩
    exact hE
  · intro hE
    exact ⟨xs, hE, rfl⟩

@[simp]
theorem seq_only (xs : List Item) (F : Traces) : seq (only xs .normal) F = after xs F := by
  funext zs o
  apply propext
  constructor
  · rintro (⟨us, vs, ⟨rfl, -⟩, hF, rfl⟩ | ⟨⟨-, rfl⟩, ho⟩)
    · exact ⟨vs, hF, rfl⟩
    · exact absurd rfl ho
  · rintro ⟨vs, hF, rfl⟩
    exact .inl ⟨xs, vs, ⟨rfl, rfl⟩, hF, rfl⟩

end Traces

namespace Builder

variable {b b' b'' b₁ : Builder} {x after target : BlockId} {head : List Item}
  {orelse : Option (Builder → Builder)} {ss : List Stmt} {W R : List Ready} {g g' : Gain}
  {K : List BlockId}

/-! ### The current block -/

/-- All regions around are loops. -/
inductive OnlyLoops : List Frame → Prop
  | nil : OnlyLoops []
  | loop {frames : List Frame} (header after : BlockId) (h : OnlyLoops frames) :
    OnlyLoops (.loop header after :: frames)

/-- A jump is noted where it passes a `finally` clause, and never at a loop. -/
theorem OnlyLoops.eq_of_shape {frames frames' : List Frame} (h : OnlyLoops frames)
    (hshape : frames'.map shape = frames.map shape) : frames' = frames := by
  induction h generalizing frames' with
  | nil => exact map_eq_nil_iff.1 hshape
  | loop header after _ ih =>
    obtain ⟨f, fs, rfl, hf, hfs⟩ := map_eq_cons_iff.1 hshape
    cases f with
    | loop => rw [ih hfs, show Frame.loop _ _ = .loop header after from hf]
    | guarded handlers | cleanup entry pending => cases hf

theorem FramesKept.frames_eq (h : FramesKept b b') (hb : OnlyLoops b.frames) : b'.frames = b.frames :=
  hb.eq_of_shape h

/-- Nothing leads away from the current block yet, and all regions around it are loops. -/
structure Live (W : List Ready) (b : Builder) : Prop where
  good : ∃ K, Good W [] K b
  ending : ending ∈ W
  exits : b.exitsAt b.current = []
  frames : OnlyLoops b.frames

theorem Live.lt (hb : b.Live W) : b.current.index < b.blocks.size := by
  obtain ⟨K, hgood⟩ := hb.good
  exact hgood.lt

theorem Live.ne_last (hb : b.Live W) : b.current ≠ last := by
  obtain ⟨K, hgood⟩ := hb.good
  exact (hgood.ready _ hb.ending).ne.symm

/-- What a layout does where the regions around are loops. -/
structure Lay (W : List Ready) (b : Builder) (g : Gain) (b' : Builder) : Prop extends Laid [] b g [] b' where
  good : ∃ K, Good W [] K b'

theorem Live.part {looping : Bool} {n : Nat} {E : Effect} {fn : Bool} (hb : b.Live W)
    (h : Part fn looping W n [] b E [] b') (hw : Within fn looping n b) : Lay W b E.gain b' := by
  obtain ⟨K, hgood⟩ := hb.good
  obtain ⟨K', hrun⟩ := h hgood hw
  exact ⟨hrun.laid, K', hrun.good hgood⟩

theorem Laid.others (h : Laid [] b g [] b') (hx : x.index < b.blocks.size) (hne : x ≠ b.current) :
    x ≠ b'.current ∧ b'.itemsAt x = b.itemsAt x ∧ b'.exitsAt x = b.exitsAt x := by
  obtain ⟨⟨-, hne', -⟩, hitems, hlinks⟩ := h.aside x ⟨hx, hne, forall_mem_nil _⟩
  exact ⟨hne', hitems, congrArg Prod.fst hlinks⟩

/-- The layout goes on in the same block, or in a new one. -/
theorem Laid.region (h : Laid [] b g [] b') : b'.current = b.current ∨ b.blocks.size ≤ b'.current.index := by
  by_contra hnot
  rw [not_or, not_le] at hnot
  exact (h.others hnot.2 hnot.1).1 rfl

theorem Laid.nextLoop (h : Laid [] b g [] b') : b'.nextLoop = b.nextLoop + g.loops := congrArg (·.2.1) h.context

theorem Lay.lt (h : Lay W b g b') : b'.current.index < b'.blocks.size := by
  obtain ⟨K, hgood⟩ := h.good
  exact hgood.lt

/-- The place where the next item goes. -/
def here (b : Builder) : Position := ⟨b.current, (b.itemsAt b.current).length⟩

/-- A chart has a block as it stands in a builder. -/
def Has (G : Chart) (b : Builder) (x : BlockId) : Prop :=
  G.items x = b.itemsAt x ∧ ∀ e, e ∈ G.exits x ↔ e ∈ b.exitsAt x

/-- A chart that has the blocks that were laid out between two builders.  Of the current block it
has the items so far. -/
structure Agrees (G : Chart) (b b' : Builder) : Prop where
  settled : ∀ x : BlockId, x = b.current ∨ b.blocks.size ≤ x.index → x.index < b'.blocks.size →
    x ≠ b'.current → Has G b' x
  isPrefix : b'.itemsAt b'.current <+: G.items b'.current

/-- Where control goes with each outcome, in some regions. -/
def dests (frames : List Frame) (q : Position) : Outcome → Option Position
  | .normal => some q
  | .broke => (target? .break frames).map startOf
  | .continued => (target? .continue frames).map startOf
  | .returned => some (startOf last)
  | .halted => none

theorem dests_of_ne_normal (frames : List Frame) (q q' : Position) (o : Outcome)
    (ho : o ≠ .normal) : dests frames q o = dests frames q' o := by
  cases o with
  | normal => exact absurd rfl ho
  | _ => rfl

/-- Some executions have been laid out between two builders. -/
structure LaysOut (b b' : Builder) (T : Traces) (frames : List Frame) : Prop where
  exits : b'.exitsAt b'.current = []
  behaves : ∀ G, Agrees G b b' → Behaves G b.here T (dests frames b'.here)

/-- A function lays out some executions wherever it is used. -/
structure Simulates (fn : Bool) (layout : Builder → Builder) (E : Bool → Nat → Traces)
    (loops : Nat) : Prop where
  lays : ∃ S : Bool → Nat → Effect, (∀ l n, (S l n).gain.loops = loops) ∧ ∀ l, Lays fn l layout (S l)
  out : ∀ W b, Live W b → b.inFunction = fn → LaysOut b (layout b) (E (!b.frames.isEmpty) b.nextLoop) b.frames

variable {fn : Bool} {layout layout' : Builder → Builder} {E E' : Bool → Nat → Traces}
  {loops loops' : Nat} {T T' : Traces} {frames : List Frame} {G : Chart}

theorem Simulates.lay (h : Simulates fn layout E loops) (hb : b.Live W) (hfn : b.inFunction = fn) :
    ∃ g : Gain, g.loops = loops ∧ Lay W b g (layout b) := by
  obtain ⟨S, hloops, hl⟩ := h.lays
  exact ⟨_, hloops _ _, hb.part (hl _ W _ b) ⟨hfn, rfl, rfl⟩⟩

theorem Has.congr (h : Has G b x) (hitems : b.itemsAt x = b'.itemsAt x)
    (hexits : b.exitsAt x = b'.exitsAt x) : Has G b' x := by
  rw [Has, ← hitems, ← hexits]
  exact h

/-- A layout goes on from a block that nothing leads away from. -/
theorem Live.lay (hb : b.Live W) (h : Lay W b g b') (hexits : b'.exitsAt b'.current = []) :
    b'.Live W ∧ b'.frames = b.frames := by
  have hframes := h.frames.frames_eq hb.frames
  exact ⟨⟨h.good, hb.ending, hexits, hframes ▸ hb.frames⟩, hframes⟩

/-! ### One after the other -/

theorem Agrees.fst (h : Lay W b g b') (h' : Lay W b' g' b'') (hG : Agrees G b b'') : Agrees G b b' := by
  refine ⟨fun x hregion hx hxb => ?_, ?_⟩
  · obtain ⟨hne, hitems, hexits⟩ := h'.others hx hxb
    exact (hG.settled x hregion (hx.trans_le h'.size) hne).congr hitems hexits
  · -- the second layout either goes on in this block or has left it for good
    refine (h'.isPrefix b'.current).trans ?_
    rcases h'.region with heq | hle
    · exact heq ▸ hG.isPrefix
    · rw [(hG.settled b'.current h.region (h.lt.trans_le h'.size) (ne_of_index_lt (h.lt.trans_le hle)).symm).1]

theorem Agrees.snd (h : Lay W b g b') (hG : Agrees G b b'') : Agrees G b' b'' := by
  refine ⟨fun x hregion => hG.settled x ?_, hG.isPrefix⟩
  rcases hregion with rfl | hle
  · exact h.region
  · exact .inr (h.size.trans hle)

theorem LaysOut.comp (h : LaysOut b b' T frames) (hlay : Lay W b g b') (h' : LaysOut b' b'' T' frames)
    (hlay' : Lay W b' g' b'') : LaysOut b b'' (.seq T T') frames := by
  refine ⟨h'.exits, fun G hG => ?_⟩
  exact (h.behaves G (hG.fst hlay hlay')).seq rfl (h'.behaves G (hG.snd hlay)) (dests_of_ne_normal frames _ _)

theorem Simulates.comp (h : Simulates fn layout E loops) (h' : Simulates fn layout' E' loops') :
    Simulates fn (fun b => layout' (layout b)) (fun l n => .seq (E l n) (E' l (n + loops)))
      (loops + loops') := by
  obtain ⟨S, hloops, hl⟩ := h.lays
  obtain ⟨S', hloops', hl'⟩ := h'.lays
  refine ⟨⟨_, fun l n => ?_, fun l => (hl l).comp (hl' l)⟩, fun W b hb hfn => ?_⟩
  · rw [← hloops l n, ← hloops' l]
    rfl
  · obtain ⟨g, rfl, hlay⟩ := h.lay hb hfn
    have hfirst := h.out W b hb hfn
    obtain ⟨hlive, hframes⟩ := hb.lay hlay hfirst.exits
    have hfn' := hlay.inFunction.trans hfn
    obtain ⟨g', rfl, hlay'⟩ := h'.lay hlive hfn'
    have hsecond := h'.out W (layout b) hlive hfn'
    rw [hframes, hlay.nextLoop] at hsecond
    exact hfirst.comp hlay hsecond hlay'

theorem Simulates.congr (h : Simulates fn layout E loops) (hE : ∀ l n, E l n = E' l n)
    (hloops : loops = loops') : Simulates fn layout E' loops' := by
  have heq : E = E' := funext fun l => funext fun n => hE l n
  exact heq ▸ hloops ▸ h

/-- What is laid out is the same in and outside of loops. -/
theorem Simulates.of_lays {S : Nat → Effect} (hloops : ∀ n, (S n).gain.loops = loops)
    (hl : ∀ l, Lays fn l layout S)
    (hout : ∀ W b, Live W b → b.inFunction = fn → LaysOut b (layout b) (E (!b.frames.isEmpty) b.nextLoop) b.frames) :
    Simulates fn layout E loops :=
  ⟨⟨fun _ => S, fun _ => hloops, hl⟩, hout⟩

theorem simulates_pass (fn : Bool) : Simulates fn (fun b => b) (fun _ _ => .only [] .normal) 0 :=
  .of_lays (fun _ => rfl) (fun l => .pass fn l) fun _ _ hb _ => ⟨hb.exits, fun _ _ => .here rfl⟩

/-- Executions of what follows may be cut off before it starts. -/
theorem Simulates.cut (h : Simulates fn layout E loops) :
    Simulates fn layout (fun l n => .cut (E l n)) loops :=
  ⟨h.lays, fun W b hb hfn => ⟨(h.out W b hb hfn).exits, fun G hG => ((h.out W b hb hfn).behaves G hG).cut rfl⟩⟩

/-! ### Items -/

theorem simulates_put (fn : Bool) (line : Nat) (action : Action) :
    Simulates fn (·.put line action) (fun _ _ => .only [⟨line, action⟩] .normal) 0 := by
  refine .of_lays (fun _ => rfl) (fun l => lays_put fn l line action) fun W b hb _ => ?_
  have hitems := itemsAt_put_self hb.lt line action
  refine ⟨((stays_put hb.lt line action).exits b.current).trans hb.exits, fun G hG => ?_⟩
  have hpre : b.itemsAt b.current ++ [⟨line, action⟩] <+: G.items b.current := by
    rw [← hitems]
    exact hG.isPrefix
  -- the next item goes one place further
  have hpos : (b.put line action).here = ⟨b.current, (b.itemsAt b.current).length + 1⟩ := by
    show Position.mk b.current ((b.put line action).itemsAt b.current).length = _
    rw [hitems, length_append]
    rfl
  have hafter := Behaves.after (E := .only [] .normal)
    (d := dests b.frames (b.put line action).here) hb.ne_last hpre (.here (by rw [hpos]; rfl))
  rw [Traces.after_only] at hafter
  exact hafter

theorem raiseTargets_loops (h : OnlyLoops frames) : raiseTargets frames = [] := by
  induction h with
  | nil => rfl
  | loop _ _ _ ih => exact ih

theorem putGuarded_eq (h : OnlyLoops b.frames) (line : Nat) (action : Action) :
    b.putGuarded line action = b.put line action := by
  rw [putGuarded, raiseTargets_loops h]
  rfl

theorem simulates_putGuarded (fn : Bool) (line : Nat) (action : Action) :
    Simulates fn (·.putGuarded line action) (fun _ _ => .only [⟨line, action⟩] .normal) 0 := by
  refine .of_lays (fun _ => rfl) (fun l => lays_putGuarded fn l line action) fun W b hb hfn => ?_
  show LaysOut b (b.putGuarded line action) _ _
  rw [putGuarded_eq hb.frames]
  exact (simulates_put fn line action).out W b hb hfn

theorem simulates_withItems (fn : Bool) (line : Nat) (items : List (WithItem Expr)) :
    Simulates fn (fun b => items.foldl (fun b item => b.putGuarded line (.withEnter item)) b)
      (fun _ _ => .only (items.map fun item => ⟨line, .withEnter item⟩) .normal) 0 := by
  induction items with
  | nil => exact simulates_pass fn
  | cons item items ih =>
    have hcomp := (simulates_putGuarded fn line (.withEnter item)).comp ih
    exact hcomp.congr (fun l n => by simp) rfl

/-! ### Jumps -/

/-- What a chart has of a block that has been closed. -/
theorem Agrees.closed (hG : Agrees G b b') (hg : Goes b₁ b') (hcurrent : b₁.current = b.current)
    (hlt : b.current.index < b₁.blocks.size) : Has G b₁ b.current :=
  (hG.settled b.current (.inl rfl) (hlt.trans_le hg.size) (hcurrent ▸ hg.ne.symm)).congr (hg.items _) (hg.exits _)

theorem Goes.exits_nil (hg : Goes b b') : b'.exitsAt b'.current = [] := (hg.exits _).trans (congrArg Prod.fst hg.fresh)

theorem simulates_raise (fn : Bool) (line : Nat) (action : Action) :
    Simulates fn (fun b => (b.putGuarded line action).terminate line)
      (fun _ _ => .only [⟨line, action⟩] .halted) 0 := by
  refine .of_lays (fun _ => rfl) (fun l => lays_raise fn l line action) fun W b hb hfn => ?_
  have hput := simulates_putGuarded fn line action
  obtain ⟨g, -, hlay⟩ := hput.lay hb hfn
  have hout := hput.out W b hb hfn
  obtain ⟨hlive, hframes⟩ := hb.lay hlay hout.exits
  have heq : b.putGuarded line action = b.put line action := putGuarded_eq hb.frames line action
  show LaysOut b ((b.putGuarded line action).terminate line) _ _
  have hgoes := goes_terminate hlive.lt line
  have hdone : (b.putGuarded line action).itemsAt (b.putGuarded line action).current ≠ [] := by
    rw [heq, show (b.put line action).itemsAt (b.put line action).current = _ from itemsAt_put_self hb.lt line action]
    exact concat_ne_nil _ _
  have hstop : LaysOut (b.putGuarded line action) ((b.putGuarded line action).terminate line)
    (.only [] .halted) b.frames := by
    refine ⟨hgoes.exits_nil, fun G hG => ?_⟩
    obtain ⟨hitems, hexits⟩ := hG.closed hgoes rfl hlive.lt
    refine .stuck hlive.ne_last (by rw [hitems]) (fun e he => ?_) rfl
    rw [hexits, hlive.exits] at he
    cases he
  have hlay' : Lay W (b.putGuarded line action) .nothing ((b.putGuarded line action).terminate line) := by
    obtain ⟨K, hgood⟩ := hlive.good
    have hd := hgood.departs_terminate (.refl _) (forall_mem_nil _) (.inr ⟨hdone, fun t ht => ?_⟩) line
    · exact ⟨hd.laid, K, hgood.departs hd⟩
    · rw [raiseTargets_loops hlive.frames] at ht
      cases ht
  have hall := hout.comp hlay hstop hlay'
  rw [Traces.seq_only, Traces.after_only] at hall
  exact hall

theorem cleanups_loops (jump : Jump) (h : OnlyLoops frames) : cleanups jump frames = [] := by
  induction h with
  | nil => rfl
  | loop _ _ _ ih =>
    rw [cleanups]
    split
    · exact ih
    · rfl

theorem thread_loops (jump : Jump) (target : BlockId) (h : OnlyLoops frames) :
    thread jump target frames = frames := by
  induction h with
  | nil => rfl
  | loop _ _ _ ih =>
    rw [thread]
    split
    · rw [ih]
    · rfl

theorem jump_eq {jump : Jump} (hb : b.Live W)
    (ht : target? jump b.frames = some target) (line : Nat) :
    b.jump jump line = (b.edge b.current target).terminate line := by
  have hthread : { b.edge b.current target with
      frames := thread jump target (b.edge b.current target).frames } = b.edge b.current target := by
    show { b.edge b.current target with frames := thread jump target b.frames } = _
    rw [thread_loops jump target hb.frames]
    rfl
  rw [Builder.jump, ht]
  simp only [cleanups_loops jump hb.frames, headD_nil]
  rw [hthread]

theorem laysOut_jump (jump : Jump) (o : Outcome) (line : Nat) (hb : b.Live W)
    (ht : target? jump b.frames = some target) (ho : ∀ q, dests b.frames q o = some (startOf target)) :
    LaysOut b (b.jump jump line) (.only [] o) b.frames := by
  have hedge := leads_edge hb.lt target
  have hlt : b.current.index < (b.edge b.current target).blocks.size := hedge.size ▸ hb.lt
  have hgoes := @goes_terminate (b.edge b.current target) hlt line
  rw [jump_eq hb ht]
  refine ⟨hgoes.exits_nil, fun G hG => ?_⟩
  obtain ⟨hitems, hexits⟩ := hG.closed hgoes rfl hlt
  refine .jump hb.ne_last (by rw [hitems, hedge.items]) (fun e => ?_) (.here (ho _))
  rw [hexits, hedge.self, hb.exits]
  exact or_iff_right not_mem_nil

/-- A jump that has nowhere to go. -/
theorem laysOut_misplaced {misplaced : List Misplaced} (hb : b.Live W)
    (h : b' = { b with misplaced }) : LaysOut b b' (.only [] .normal) b.frames := by
  subst h
  exact ⟨hb.exits, fun _ _ => .here rfl⟩

/-- The innermost loop is where a `break` and a `continue` go. -/
theorem target?_loops (h : OnlyLoops frames) :
    frames = [] ∨ ∃ header after rest, frames = .loop header after :: rest := by
  cases h with
  | nil => exact .inl rfl
  | loop header after _ => exact .inr ⟨header, after, _, rfl⟩

/-- Inside of a loop the jump goes where the outcome does; outside it is out of place. -/
theorem simulates_loopJump {fn : Bool} {jump : Jump} {o : Outcome} {line : Nat} {S : Bool → Nat → Effect}
    (hl : ∀ l, Lays fn l (·.jump jump line) (S l)) (hloops : ∀ l n, (S l n).gain.loops = 0)
    (hnone : target? jump [] = none)
    (hloop : ∀ header after rest, ∃ target, target? jump (.loop header after :: rest) = some target ∧
      ∀ q, dests (.loop header after :: rest) q o = some (startOf target)) :
    Simulates fn (·.jump jump line) (fun l _ => .only [] (if l then o else .normal)) 0 := by
  refine ⟨⟨S, hloops, hl⟩, fun W b hb _ => ?_⟩
  rcases target?_loops hb.frames with hframes | ⟨header, after, rest, hframes⟩
  · have hmisplaced : b.jump jump line = { b with misplaced := b.misplaced ++ [⟨jump, line⟩] } := by
      simp only [Builder.jump, hframes, hnone]
    simpa [hframes] using laysOut_misplaced hb hmisplaced
  · obtain ⟨target, htarget, ho⟩ := hloop header after rest
    rw [← hframes] at htarget ho
    simpa [hframes] using laysOut_jump jump o line hb htarget ho

theorem target?_ret (h : OnlyLoops frames) : target? .ret frames = some last := by
  induction h with
  | nil => rfl
  | loop _ _ _ ih => exact ih

theorem simulates_return (line : Nat) : Simulates true (·.jump .ret line) (fun _ _ => .only [] .returned) 0 :=
  ⟨⟨_, fun _ _ => rfl, fun _ => lays_jump line fun frames _ => target?_ret_isSome frames⟩, fun _ _ hb _ =>
    laysOut_jump .ret .returned line hb (target?_ret hb.frames) fun _ => rfl⟩

/-! ### Clauses -/

/-- A clause that has been laid out from the block `x` on and leads to `target`. -/
structure Clause (b : Builder) (x : BlockId) (b' : Builder) (T : Traces) (inner : List Frame)
    (target : BlockId) (g : Gain) : Prop extends Laid [] (b.moveTo x) g [] b' where
  behaves : ∀ G : Chart, (∀ y : BlockId, y = x ∨ b.blocks.size ≤ y.index → y.index < b'.blocks.size →
    Has G b' y) → Behaves G ⟨x, (b.itemsAt x).length⟩ T (dests inner (startOf target))

theorem LaysOut.clause (h : LaysOut (b.moveTo x) b' T frames) (hb : (b.moveTo x).Live W)
    (hlay : Lay W (b.moveTo x) g b') (target : BlockId) : Clause b x (b'.fallTo target) T frames target g := by
  obtain ⟨hlive, hframes⟩ := hb.lay hlay h.exits
  obtain ⟨K, hgood⟩ := hlay.good
  have hl := leads_fallTo hgood.lt hgood.isOpen target
  have hlaid := hlay.toLaid.trans hl.laid
  rw [Gain.andThen_nothing] at hlaid
  refine ⟨hlaid, fun G hG => ?_⟩
  -- with the edge to `target` the current block is final as well
  rw [hl.size] at hG
  obtain ⟨hitems, hexits⟩ := hG b'.current hlay.region hlay.lt
  have hagrees : Agrees G (b.moveTo x) b' :=
    ⟨fun y hregion hy hne => (hG y hregion hy).congr (hl.items y) (hl.exits_of_ne hne), by rw [hitems, hl.items]⟩
  refine (h.behaves G hagrees).andJump rfl hlive.ne_last (by rw [hitems, hl.items])
    (fun e => ?_) rfl (dests_of_ne_normal frames _ _)
  rw [hexits, hl.self, hlive.exits]
  exact or_iff_right not_mem_nil

/-- A clause lays out some executions; one that is missing is passed. -/
def SimulatesOption (fn : Bool) (layout : Option (Builder → Builder)) (E : Bool → Nat → Traces)
    (loops : Nat) : Prop :=
  match layout with
  | none => (∀ l n, E l n = .cut (.only [] .normal)) ∧ loops = 0
  | some layout => Simulates fn layout E loops

theorem SimulatesOption.lays (h : SimulatesOption fn orelse E loops) :
    ∃ S : Bool → Nat → Effect, (∀ l n, (S l n).gain.loops = loops) ∧ ∀ l, LaysOption fn l orelse (S l) := by
  cases orelse with
  | none => exact ⟨fun _ _ => .none, fun _ _ => h.2.symm, fun _ _ => rfl⟩
  | some layout => exact Simulates.lays h

/-! ### Two ways on -/

/-- Two edges lead on from the current block of `b`, to a block that starts with some items and to
`next`. -/
structure Ways (b b' : Builder) (start : List Item) (next : BlockId) : Prop where
  items : b'.itemsAt b.current = b.itemsAt b.current
  exits : ∀ e, e ∈ b'.exitsAt b.current ↔ e ∈ [⟨b.blocks.size⟩, next]
  first : b'.itemsAt ⟨b.blocks.size⟩ = start
  fresh : b'.exitsAt ⟨b.blocks.size⟩ = []

theorem ways_edges {start : List Item} {R' : List Ready} {r : Ready} (hb : b.Live W)
    (h : Good W R K b₁) (hR : R.Perm (⟨⟨b.blocks.size⟩, start, false⟩ :: R')) (hr : r ∈ R' ∧ r.catches = false)
    (hcurrent : b₁.current = b.current) (hblock : b₁.blockAt b.current = b.blockAt b.current) :
    ∃ K', Good W R' K' (((b₁.edge b.current ⟨b.blocks.size⟩).edge b.current r.id).moveTo ⟨b.blocks.size⟩) ∧
      Kept b₁ (((b₁.edge b.current ⟨b.blocks.size⟩).edge b.current r.id).moveTo ⟨b.blocks.size⟩) ∧
      Ways b ((b₁.edge b.current ⟨b.blocks.size⟩).edge b.current r.id) start r.id := by
  have hl := leads_edges h.lt [⟨b.blocks.size⟩, r.id]
  have hw := h.ready _ (mem_append_left _ (hR.mem_iff.2 mem_cons_self))
  obtain ⟨K', hrun⟩ := part_ways hR rfl hr h ⟨rfl, rfl, rfl⟩
  rw [hcurrent] at hl hrun
  refine ⟨K', hrun.good h, hrun.laid.toKept, (hl.items _).trans ?_, fun e => ?_,
    (hl.items _).trans hw.items, (hl.exits_of_ne hw.ne).trans (congrArg Prod.fst hw.links)⟩
  · rw [itemsAt_eq, hblock, ← itemsAt_eq]
  · have hself := hl.self e
    rw [hcurrent, exitsAt_eq b₁, hblock, ← exitsAt_eq, hb.exits] at hself
    exact hself.trans (or_iff_right not_mem_nil)

/-- A chart has two ways on from the current block of `b`: a clause from a block that starts with
some items, and another one from `next`. -/
structure Forked (G : Chart) (b : Builder) (start : List Item) (next : BlockId) (T T' : Traces)
    (inner : List Frame) (target after : BlockId) : Prop where
  items : G.items b.current = b.itemsAt b.current
  exits : ∀ e, e ∈ G.exits b.current ↔ e ∈ [⟨b.blocks.size⟩, next]
  isPrefix : start <+: G.items ⟨b.blocks.size⟩
  clause : Behaves G ⟨⟨b.blocks.size⟩, start.length⟩ T (dests inner (startOf target))
  orelse : Behaves G (startOf next) T' (dests b.frames (startOf after))

/-- What is laid out after the first clause does not touch its blocks. -/
theorem Clause.forked {b₂ b₄ : Builder} {start : List Item} {next : BlockId} (hb : b.Live W)
    (hways : Ways b b₂ start next) (h : Clause b₂ ⟨b.blocks.size⟩ b₄ T frames target g)
    (hG : Agrees G b b') (hsize : b₄.blocks.size ≤ b'.blocks.size)
    (hkeep : ∀ y : BlockId, y.index < b₄.blocks.size → y ≠ next →
      b'.itemsAt y = b₄.itemsAt y ∧ b'.exitsAt y = b₄.exitsAt y)
    (hnext : b.blocks.size < next.index ∧ next.index < b₂.blocks.size)
    (hafter : b.blocks.size < after.index ∧ after.index < b₂.blocks.size) (hcurrent : b'.current = after)
    (horelse : Behaves G (startOf next) T' (dests b.frames (startOf after))) :
    Forked G b start next T T' frames target after := by
  have hlt := hb.lt
  have hfirst := hnext.1.trans hnext.2
  have hsize₂ : b₂.blocks.size ≤ b₄.blocks.size := h.size
  -- the blocks of the chart that are none of the second clause
  have hhas : ∀ y : BlockId, y = b.current ∨ b.blocks.size ≤ y.index → y.index < b₄.blocks.size →
      y ≠ next → y ≠ after → Has G b₄ y := fun y hregion hy hne hne' =>
    (hG.settled y hregion (hy.trans_le hsize) (hcurrent ▸ hne')).congr (hkeep y hy hne).1 (hkeep y hy hne).2
  obtain ⟨hitems, hexits⟩ := hhas b.current (.inl rfl) ((hlt.trans hfirst).trans_le hsize₂)
    (ne_of_index_lt (hlt.trans hnext.1)).symm (ne_of_index_lt (hlt.trans hafter.1)).symm
  obtain ⟨-, hitems₂, hexits₂⟩ := h.others (hlt.trans hfirst) (ne_of_index_lt hlt).symm
  have hclause := h.behaves G fun y hregion hy => by
    rcases hregion with rfl | hle
    · exact hhas _ (.inr (le_rfl)) hy (ne_of_index_lt hnext.1).symm (ne_of_index_lt hafter.1).symm
    · exact hhas y (.inr (hfirst.le.trans hle)) hy (ne_of_index_lt (hnext.2.trans_le hle))
        (ne_of_index_lt (hafter.2.trans_le hle))
  rw [hways.first] at hclause
  refine ⟨hitems.trans (hitems₂.trans hways.items), fun e => ?_, ?_, hclause, horelse⟩
  · rw [hexits, hexits₂]
    exact hways.exits e
  · rw [(hhas ⟨b.blocks.size⟩ (.inr (le_rfl)) (hfirst.trans_le hsize₂) (ne_of_index_lt hnext.1).symm
      (ne_of_index_lt hafter.1).symm).1, ← hways.first]
    exact h.isPrefix _

/-- Where a clause starts while blocks wait for something else. -/
theorem live_aside (h : Good W R K b) (hW : ending ∈ W)
    (hexits : b.exitsAt b.current = []) (hframes : OnlyLoops b.frames) : b.Live (R ++ W) :=
  ⟨⟨K, h.shift rfl (h.anchored.imp (fun _ => mem_append_right _) (.refl b))⟩, mem_append_right _ hW, hexits, hframes⟩

/-- A clause lays out some executions wherever it starts, if the block `after` waits. -/
def LaysClause (b : Builder) (clause : Builder → Builder) (T : Traces) (frames : List Frame)
    (after : BlockId) (loops : Nat) : Prop :=
  ∀ W b₁, Live W b₁ → .empty after ∈ W → Kept b b₁ → b₁.nextLoop = b.nextLoop →
    ∃ g : Gain, g.loops = loops ∧ Lay W b₁ g (clause b₁) ∧ LaysOut b₁ (clause b₁) T frames

section Fork

variable {b₁ : Builder} {start : List Item} {K : List BlockId} {clause : Builder → Builder}
  {after second target : BlockId}
  (hb : b.Live W) (hcurrent : b₁.current = b.current) (hblock : b₁.blockAt b.current = b.blockAt b.current)
  (hkept : Kept b b₁) (hframes : b₁.frames = b.frames) (hloop : b₁.nextLoop = b.nextLoop)
  (hafter : b.blocks.size < after.index) (h : LaysClause b clause T frames after loops)
include hb hcurrent hblock hkept hframes hloop hafter h

/-- The second way leads straight to where it all goes on. -/
theorem forked_past (h₁ : Good W [.empty after, ⟨⟨b.blocks.size⟩, start, false⟩] K b₁)
    (hb' : b' = ((clause (((b₁.edge b.current ⟨b.blocks.size⟩).edge b.current after).moveTo ⟨b.blocks.size⟩)).fallTo
      target).moveTo after) :
    b'.itemsAt after = [] ∧ b'.exitsAt after = [] ∧
      ∀ G, Agrees G b b' → Forked G b start after T (.cut (.only [] .normal)) frames target after := by
  obtain ⟨K₂, hgood, hkept₂, hways⟩ := ways_edges (r := .empty after) hb h₁ (.swap _ _ _)
    ⟨mem_singleton_self _, rfl⟩ hcurrent hblock
  set b₂ := (b₁.edge b.current ⟨b.blocks.size⟩).edge b.current after with hb₂
  have hlive := live_aside hgood hb.ending hways.fresh (hframes ▸ hb.frames)
  obtain ⟨g, rfl, hlay, hout⟩ := h _ _ hlive mem_cons_self (hkept.trans hkept₂) hloop
  have hfirst := hout.clause hlive hlay target
  have hw := hgood.ready (.empty after) mem_cons_self
  obtain ⟨-, hitems, hexits⟩ := hfirst.others hw.lt hw.ne
  subst hb'
  exact ⟨hitems.trans hw.items, hexits.trans (congrArg Prod.fst hw.links), fun G hG => hfirst.forked hb hways hG le_rfl
    (fun _ _ _ => ⟨rfl, rfl⟩) ⟨hafter, hw.lt⟩ ⟨hafter, hw.lt⟩ rfl ((Behaves.here rfl).cut rfl)⟩

/-- The second way has a clause of its own. -/
theorem forked_else {orelse : Builder → Builder} (hsecond : b.blocks.size < second.index)
    (htarget : ∀ W b₁, .empty after ∈ W → Kept b b₁ → Stands W b₁ target)
    (h' : Simulates fn orelse E' loops') (hfn : b.inFunction = fn)
    (h₁ : Good W [.empty second, .empty after, ⟨⟨b.blocks.size⟩, start, false⟩] K b₁)
    (hb' : b' = ((orelse (((clause (((b₁.edge b.current ⟨b.blocks.size⟩).edge b.current second).moveTo
      ⟨b.blocks.size⟩)).fallTo target).moveTo second)).fallTo after).moveTo after) :
    b'.itemsAt after = [] ∧ b'.exitsAt after = [] ∧ ∀ G, Agrees G b b' →
      Forked G b start second T (E' (!b.frames.isEmpty) (b.nextLoop + loops)) frames target after := by
  obtain ⟨K₂, hgood, hkept₂, hways⟩ := ways_edges (r := .empty second) hb h₁
    (swap_ends _ _ _)
    ⟨mem_cons_of_mem _ (mem_singleton_self _), rfl⟩ hcurrent hblock
  set b₂ := (b₁.edge b.current ⟨b.blocks.size⟩).edge b.current second with hb₂
  have hlive := live_aside hgood hb.ending hways.fresh (hframes ▸ hb.frames)
  obtain ⟨g, rfl, hlay, hout⟩ := h _ _ hlive mem_cons_self (hkept.trans hkept₂) hloop
  have hfirst := hout.clause hlive hlay target
  have hw := hgood.ready (.empty second) (mem_cons_of_mem _ mem_cons_self)
  obtain ⟨-, hitems, hexits⟩ := hfirst.others hw.lt hw.ne
  -- the first clause leaves the blocks for what follows as they are
  obtain ⟨K₃, hgood₃⟩ := hlay.good
  have hback : Good W [.empty after, .empty second] K₃ (clause (b₂.moveTo ⟨b.blocks.size⟩)) :=
    hgood₃.shift rfl (hgood.anchored.kept hlay.toKept)
  have hgood₄ := hback.departs (hback.departs_fallTo (r := .empty second)
    (htarget _ _ mem_cons_self ((hkept.trans hkept₂).trans hlay.toKept)) (.swap _ _ _))
  set b₄ := (clause (b₂.moveTo ⟨b.blocks.size⟩)).fallTo target with hb₄
  have hsize₄ : b₂.blocks.size ≤ b₄.blocks.size := hfirst.size
  have hframes₄ : (b₄.moveTo second).frames = b.frames :=
    (hfirst.frames.frames_eq (hframes ▸ hb.frames)).trans hframes
  have hloop₄ : (b₄.moveTo second).nextLoop = b.nextLoop + g.loops :=
    hfirst.nextLoop.trans (congrArg (· + g.loops) hloop)
  have hfn₄ : (b₄.moveTo second).inFunction = fn := hfirst.inFunction.trans ((hkept.trans hkept₂).inFunction.trans hfn)
  have hlive₄ := live_aside hgood₄ hb.ending (hexits.trans (congrArg Prod.fst hw.links)) (hframes₄ ▸ hb.frames)
  obtain ⟨g', -, hlay'⟩ := h'.lay hlive₄ hfn₄
  have hnext := (h'.out _ _ hlive₄ hfn₄).clause hlive₄ hlay' after
  have hw' := hgood₄.ready (.empty after) mem_cons_self
  have hlast := hgood.ready (.empty after) mem_cons_self
  obtain ⟨-, hitems', hexits'⟩ := hnext.others hw'.lt hw'.ne
  rw [hframes₄, hloop₄] at hnext
  subst hb'
  refine ⟨hitems'.trans hw'.items, hexits'.trans (congrArg Prod.fst hw'.links), fun G hG => hfirst.forked hb hways hG
    hnext.size (fun y hy hys => (hnext.others hy hys).2) ⟨hsecond, hw.lt⟩ ⟨hafter, hlast.lt⟩ rfl ?_⟩
  have hbehaves := hnext.behaves G fun y hregion hy => by
    rcases hregion with rfl | hle
    · exact hG.settled y (.inr hsecond.le) hy hw'.ne.symm
    · have hstart : b.blocks.size ≤ y.index := ((hafter.trans hlast.lt).le.trans hsize₄).trans hle
      exact hG.settled y (.inr hstart) hy (ne_of_index_lt (hw'.lt.trans_le hle))
  rwa [hitems.trans hw.items] at hbehaves

end Fork

/-- Two ways on from the current block: they meet in an empty block, and whatever chart has the
blocks of both has both ways. -/
theorem forked_forkHere (clause : BlockId → Builder → Builder) (line : Nat) (start : List Item)
    (hb : b.Live W) (hfn : b.inFunction = fn) (target : BlockId → BlockId)
    (hafter : after = ⟨(b.addStarted line start).blocks.size⟩) (h : LaysClause b (clause after) T frames after loops)
    (htarget : ∀ W b₁, .empty after ∈ W → Kept b b₁ → Stands W b₁ (target after))
    (h' : SimulatesOption fn orelse E' loops') :
    (b.forkHere line start target clause orelse).current = after ∧
      (b.forkHere line start target clause orelse).itemsAt after = [] ∧
      (b.forkHere line start target clause orelse).exitsAt after = [] ∧
      ∀ G, Agrees G b (b.forkHere line start target clause orelse) → ∃ next, Forked G b start next T
        (E' (!b.frames.isEmpty) (b.nextLoop + loops)) frames (target after) after := by
  have hindex : b.blocks.size < after.index := by
    rw [hafter, size_addStarted]
    exact Nat.lt_succ_self _
  obtain ⟨K, hgood⟩ := hb.good
  obtain ⟨K₀, hrun₀⟩ := part_addStarted line start hgood ⟨hfn, rfl, rfl⟩
  obtain ⟨K₁, hrun₁⟩ := part_addBlock false line (hrun₀.good hgood) (hrun₀.laid.within ⟨hfn, rfl, rfl⟩)
  have hrun := hrun₀.trans hrun₁
  have hcurrent : ((b.addStarted line start).addBlock false line).2.current = b.current := rfl
  have hblock := (@blockAt_addBlock_of_ne (b.addStarted line start) b.current
    (hafter ▸ (ne_of_index_lt (hb.lt.trans hindex)).symm) false line).trans
    (blockAt_addStarted_of_ne (ne_of_index_lt hb.lt).symm line start)
  have hlt : after.index < ((b.addStarted line start).addBlock false line).2.blocks.size := by
    rw [hafter, size_addBlock]
    exact Nat.lt_succ_self _
  subst hafter
  cases orelse with
  | none =>
    obtain ⟨hE', rfl⟩ := h'
    rw [hE']
    obtain ⟨hitems, hexits, hforked⟩ := forked_past hb hcurrent hblock hrun.laid.toKept rfl rfl hindex h
      (hrun.good hgood) rfl
    exact ⟨rfl, hitems, hexits, fun G hG => ⟨_, hforked G hG⟩⟩
  | some orelse =>
    obtain ⟨K₂, hrun₂⟩ := part_addBlock false line (hrun.good hgood) (hrun.laid.within ⟨hfn, rfl, rfl⟩)
    have hblock₂ := (@blockAt_addBlock_of_ne ((b.addStarted line start).addBlock false line).2 b.current
      (ne_of_index_lt ((hb.lt.trans hindex).trans hlt)).symm false line).trans hblock
    have hcurrent₂ : (((b.addStarted line start).addBlock false line).2.addBlock false line).2.current = b.current :=
      rfl
    obtain ⟨hitems, hexits, hforked⟩ := forked_else hb hcurrent₂ hblock₂ (hrun.trans hrun₂).laid.toKept rfl rfl hindex h
      (hindex.trans hlt) htarget h' hfn ((hrun.trans hrun₂).good hgood) rfl
    exact ⟨rfl, hitems, hexits, fun G hG => ⟨_, hforked G hG⟩⟩

theorem LaysOut.of_empty (hcurrent : b'.current = after) (hitems : b'.itemsAt after = [])
    (hexits : b'.exitsAt after = [])
    (h : ∀ G, Agrees G b b' → Behaves G b.here T (dests frames (startOf after))) : LaysOut b b' T frames := by
  have hhere : b'.here = startOf after := by
    rw [here, hcurrent, hitems]
    rfl
  exact ⟨hcurrent ▸ hexits, fun G hG => hhere ▸ h G hG⟩

/-! ### Branches and loops -/

theorem Simulates.inLoop {header : BlockId} (h : Simulates fn layout E loops) (hb : b.Live W)
    (hfn : b.inFunction = fn) (hafter : .empty after ∈ W) (hheader : b.headerAt header = true) :
    ∃ g : Gain, g.loops = loops ∧ Lay W b g (inLoopOf header layout after b) ∧
      LaysOut b (inLoopOf header layout after b) (E true b.nextLoop) (.loop header after :: b.frames) := by
  obtain ⟨K, hgood⟩ := hb.good
  have hlive : (b.enter (.loop header after)).Live W :=
    ⟨⟨K, hgood.enterLoop (.inl ⟨_, hafter, rfl, rfl⟩) hheader⟩, hb.ending, hb.exits, .loop header after hb.frames⟩
  have hout := h.out W _ hlive hfn
  obtain ⟨g, hg, hlay⟩ := h.lay hlive hfn
  obtain ⟨K', hgood'⟩ := hlay.good
  have hlaid := hlay.toLaid.leave rfl
  exact ⟨g, hg, ⟨hlaid, K', hgood'.leave hgood.anchored hlaid.toKept rfl⟩, hout.exits,
    fun G hG => hout.behaves G ⟨hG.settled, hG.isPrefix⟩⟩

theorem leads_intoNew (hb : b.Live W) (isLoopHeader : Bool) (line : Nat) :
    Leads (b.addBlock isLoopHeader line).2 ((b.addBlock isLoopHeader line).2.fallTo ⟨b.blocks.size⟩)
      [⟨b.blocks.size⟩] (some ⟨b.blocks.size⟩) := by
  obtain ⟨K, hgood⟩ := hb.good
  have hadded := hgood.stays (stays_addBlock isLoopHeader line)
  exact leads_fallTo hadded.lt hadded.isOpen _

theorem empty_intoNew (hb : b.Live W) (isLoopHeader : Bool) (line : Nat) :
    (b.intoNew isLoopHeader line).itemsAt ⟨b.blocks.size⟩ = [] ∧
      (b.intoNew isLoopHeader line).exitsAt ⟨b.blocks.size⟩ = [] := by
  have hl := leads_intoNew hb isLoopHeader line
  have hne : (⟨b.blocks.size⟩ : BlockId) ≠ (b.addBlock isLoopHeader line).2.current := ne_of_index_lt hb.lt
  refine ⟨(hl.items _).trans ?_, (hl.exits_of_ne hne).trans ?_⟩
  · rw [itemsAt_eq, blockAt_addBlock_self]
    rfl
  · rw [exitsAt_eq, blockAt_addBlock_self]
    rfl

theorem simulates_intoNew (fn isLoopHeader : Bool) (line : Nat) :
    Simulates fn (·.intoNew isLoopHeader line) (fun _ _ => .only [] .normal) 0 := by
  refine .of_lays (fun _ => rfl) (fun l _ _ _ => part_intoNew isLoopHeader line) fun W b hb hfn => ?_
  have hl := leads_intoNew hb isLoopHeader line
  have hlt : b.current.index < ((b.addBlock isLoopHeader line).2.fallTo ⟨b.blocks.size⟩).blocks.size := by
    rw [hl.size, size_addBlock]
    exact Nat.lt_succ_of_lt hb.lt
  have hblock := @blockAt_addBlock_of_ne b b.current (ne_of_index_lt hb.lt).symm isLoopHeader line
  refine .of_empty rfl (empty_intoNew hb isLoopHeader line).1 (empty_intoNew hb isLoopHeader line).2 fun G hG => ?_
  obtain ⟨hitems, hexits⟩ := hG.settled b.current (.inl rfl) hlt (ne_of_index_lt hb.lt).symm
  refine .jump hb.ne_last ?_ (fun e => ?_) (.here rfl)
  · rw [hitems, show (b.intoNew isLoopHeader line).itemsAt b.current = _ from hl.items b.current,
      itemsAt_eq, itemsAt_eq, hblock]
  · rw [hexits]
    have hnone : (b.addBlock isLoopHeader line).2.exitsAt b.current = [] := by
      rw [exitsAt_eq, hblock, ← exitsAt_eq, hb.exits]
    exact (hl.self e).trans (or_iff_right (hnone ▸ not_mem_nil))

theorem simulates_takeLoop (fn : Bool) : Simulates fn takeLoop (fun _ _ => .only [] .normal) 1 :=
  .of_lays (fun _ => rfl) (fun _ _ _ _ => part_takeLoop) fun _ _ hb _ => ⟨hb.exits, fun _ _ => .here rfl⟩

section

variable (h : Simulates fn layout E loops) (h' : SimulatesOption fn orelse E' loops')
include h h'

theorem simulates_branch (line : Nat) :
    Simulates fn (fun b => b.branch line layout orelse)
      (fun l n => .either (E l n) (E' l (n + loops))) (loops + loops') := by
  obtain ⟨S, hloops, hl⟩ := h.lays
  obtain ⟨S', hloops', hl'⟩ := h'.lays
  refine ⟨⟨_, fun l n => ?_, fun l => lays_branch (hl l) (hl' l) line⟩, fun W b hb hfn => ?_⟩
  · exact congrArg₂ (· + ·) (hloops l n) (hloops' l _)
  have hclause : ∀ after, LaysClause b layout (E (!b.frames.isEmpty) b.nextLoop) b.frames after loops := by
    intro after W₁ b₁ hb₁ _ hk hloop
    obtain ⟨g, hg, hlay⟩ := h.lay hb₁ (hk.inFunction.trans hfn)
    refine ⟨g, hg, hlay, ?_⟩
    rw [← hloop, ← hk.frames.frames_eq hb.frames]
    exact h.out W₁ b₁ hb₁ (hk.inFunction.trans hfn)
  obtain ⟨hcurrent, hitems, hexits, hforked⟩ := forked_forkHere (fun _ => layout) line [] hb hfn
    (fun after => after) rfl (hclause _) (fun W₁ b₁ hafter _ => .inl ⟨_, hafter, rfl, rfl⟩) h'
  show LaysOut b (b.branch line layout orelse) _ _
  rw [branch_eq]
  refine .of_empty hcurrent hitems hexits fun G hG => ?_
  obtain ⟨next, hfork⟩ := hforked G hG
  exact .fork hb.ne_last (by rw [hfork.items]) hfork.exits hfork.clause hfork.orelse

/-- A loop whose header is the current block, into which some items are put first. -/
theorem laysOut_loop {put : Builder → Builder}
    (hput : Simulates fn put (fun _ _ => .only head .normal) 0) (hcurrent : (put b).current = b.current)
    (hitems : (put b).itemsAt b.current = b.itemsAt b.current ++ head)
    (hb : b.Live W) (hfn : b.inFunction = fn) (hempty : b.itemsAt b.current = [])
    (hheader : b.headerAt b.current = true) (line : Nat) (start : List Item) :
    LaysOut b ((put b).loopHere line start layout orelse) (.rounds head start (E true b.nextLoop)
      (E' (!b.frames.isEmpty) (b.nextLoop + loops))) b.frames := by
  obtain ⟨g, hg, hlay⟩ := hput.lay hb hfn
  obtain ⟨hlive, hframes⟩ := hb.lay hlay (hput.out W b hb hfn).exits
  have hloop : (put b).nextLoop = b.nextLoop := hlay.nextLoop.trans (congrArg (b.nextLoop + ·) hg)
  have hfn' := hlay.inFunction.trans hfn
  have hheader' : (put b).headerAt (put b).current = true := hcurrent.symm ▸ hlay.headers _ hheader
  -- the body stands in one more region, from which its jumps lead to the header and past the loop
  obtain ⟨after, hafter⟩ : ∃ x : BlockId, x = ⟨((put b).addStarted line start).blocks.size⟩ := ⟨_, rfl⟩
  have hclause : LaysClause (put b) (inLoopOf (put b).current layout after) (E true b.nextLoop)
      (.loop (put b).current after :: b.frames) after loops := by
    intro W₂ b₂ hb₂ hmem hk hloop₂
    rw [← hframes, ← hk.frames.frames_eq hlive.frames, ← hloop, ← hloop₂]
    exact h.inLoop hb₂ (hk.inFunction.trans hfn') hmem (hk.headers _ hheader')
  obtain ⟨hend, hitems', hexits', hforked⟩ := forked_forkHere (inLoopOf (put b).current layout) line start hlive hfn'
    (fun _ => (put b).current) hafter hclause (fun _ _ _ hk => .inr (hk.headers _ hheader')) h'
  refine .of_empty hend hitems' hexits' fun G hG => ?_
  obtain ⟨next, hfork⟩ := hforked G (hG.snd hlay)
  rw [hframes, hloop] at hfork
  have hhead : G.items (put b).current = head := by rw [hfork.items, hcurrent, hitems, hempty, nil_append]
  have hhere : b.here = startOf (put b).current := by
    rw [here, hempty, hcurrent]
    rfl
  have hlast := (hlive.good.choose_spec.ready _ hlive.ending).lt
  have hbehaves := Behaves.loop hlive.ne_last (ne_of_index_lt hlast) hfork.exits hfork.isPrefix
    hfork.clause hfork.orelse rfl rfl rfl rfl rfl rfl
  rw [hhere]
  rw [hhead] at hbehaves
  exact hframes ▸ hbehaves

theorem simulates_loop {put : Builder → Builder}
    (hput : Simulates fn put (fun _ _ => .only head .normal) 0) (hcurrent : ∀ b, (put b).current = b.current)
    (hitems : ∀ W b, Live W b → (put b).itemsAt b.current = b.itemsAt b.current ++ head)
    (line : Nat) (start : List Item) :
    Simulates fn (fun b => (put (b.intoNew true line)).loopHere line start layout orelse)
      (fun l n => .rounds head start (E true n) (E' l (n + loops))) (loops + loops') := by
  obtain ⟨S, hloops, hl⟩ := h.lays
  obtain ⟨S', hloops', hl'⟩ := h'.lays
  obtain ⟨S₀, hloops₀, hl₀⟩ := hput.lays
  refine ⟨⟨_, fun l n => ?_, fun l W n b => part_loop (hl true) (hl' l) put
    (fun b₁ => ⟨hcurrent b₁, hl₀ l W n b₁⟩) (hloops₀ l n) line start⟩, fun W b hb hfn => ?_⟩
  · simp [Effect.andThen, Gain.andThen, Gain.nothing, Effect.fork, hloops, hloops', hloops₀]
  have hnew := simulates_intoNew fn true line
  obtain ⟨g, hg, hlay⟩ := hnew.lay hb hfn
  have hout := hnew.out W b hb hfn
  obtain ⟨hlive, hframes⟩ := hb.lay hlay hout.exits
  have hfn' := hlay.inFunction.trans hfn
  obtain ⟨K, hgood⟩ := hb.good
  have hheader := headerAt_intoNew hgood line
  have hloop := laysOut_loop h h' hput (hcurrent _) (hitems _ _ hlive) hlive hfn'
    (empty_intoNew hb true line).1 hheader line start
  have hrest := hlive.part ((hl₀ _ W _ _).trans rfl fun hk => part_loopHere (hl true) (hl' _)
    ((congrArg _ (hcurrent _)).trans (hk.headers _ hheader)) line start) ⟨hfn', rfl, rfl⟩
  rw [hframes, hlay.nextLoop, hg] at hloop
  have hall := hout.comp hlay hloop hrest
  rw [Traces.seq_only, Traces.after_nil] at hall
  exact hall

theorem simulates_whileLoop (line : Nat) (test : Expr) :
    Simulates fn (fun b => b.whileLoop line test layout orelse)
      (fun l n => .rounds [⟨line, .test test⟩] [] (E true n) (E' l (n + loops))) (loops + loops') := by
  simp only [whileLoop_eq]
  exact simulates_loop h h' (simulates_put fn line (.test test)) (fun _ => rfl)
    (fun _ _ hb => itemsAt_put_self hb.lt line (.test test)) line []

theorem simulates_forLoop (line : Nat) (target iter : Expr) :
    Simulates fn (fun b => b.forLoop line target iter layout orelse)
      (fun l n => .after [⟨line, .forIter ⟨n⟩ iter⟩]
        (.rounds [] [⟨line, .forTarget ⟨n⟩ target⟩] (E true (n + 1)) (E' l (n + 1 + loops))))
      (1 + loops + loops') := by
  obtain ⟨S, hloops, hl⟩ := h.lays
  obtain ⟨S', hloops', hl'⟩ := h'.lays
  have hall : ∀ i, Simulates fn _ _ (1 + loops + loops') := fun i => ((simulates_takeLoop fn).comp
    ((simulates_putGuarded fn line (.forIter ⟨i⟩ iter)).comp
      (simulates_loop h h' (simulates_pass fn) (fun _ => rfl) (fun _ _ _ => (append_nil _).symm) line
        [⟨line, .forTarget ⟨i⟩ target⟩]))).congr (fun _ _ => rfl) (by omega)
  refine ⟨⟨_, fun l n => ?_, fun l => lays_forLoop (hl true) (hl' l) line target iter⟩, fun W b hb hfn => ?_⟩
  · simp [Effect.andThen, Gain.andThen, Gain.nothing, Effect.fork, Effect.put, Effect.none, hloops, hloops', add_assoc]
  have hout := (hall b.nextLoop).out W b hb hfn
  simp only [Traces.seq_only, Traces.after_nil, add_zero] at hout
  show LaysOut b (b.forLoop line target iter layout orelse) _ _
  rw [forLoop_eq]
  exact hout

end

/-! ### Statements -/

/-- Outside of a function a `return` has nowhere to go. -/
theorem simulates_ret (fn : Bool) (line : Nat) (value : Option Expr) :
    Simulates fn (stmt (.ret line value)) (fun l n => Executes fn l n (.ret line value)) 0 := by
  cases fn with
  | true =>
    have hret := (simulates_putGuarded true line (.ret value)).comp (simulates_return line)
    refine ⟨⟨_, fun _ _ => rfl, fun l => lays_stmt true l (.ret line value)⟩, fun W b hb hfn => ?_⟩
    have hout := hret.out W b hb hfn
    rw [Traces.seq_only, Traces.after_only] at hout
    rw [stmt, if_pos hfn]
    exact hout
  | false =>
    refine ⟨⟨_, fun _ _ => rfl, fun l => lays_stmt false l (.ret line value)⟩, fun W b hb hfn => ?_⟩
    rw [stmt, if_neg (by rw [hfn]; exact Bool.false_ne_true)]
    exact laysOut_misplaced hb rfl

theorem simulatesOption_body
    (h : Simulates fn (body ss) (fun l n => ExecutesAll fn l n ss) (loopsOfAll ss)) :
    SimulatesOption fn (if ss.isEmpty then none else some (body ss))
      (fun l n => ExecutesAll fn l n ss) (loopsOfAll ss) := by
  cases ss with
  | nil => exact ⟨fun _ _ => rfl, rfl⟩
  | cons s ss => exact h

mutual

/-- **Laying out a statement** without `try` gives blocks whose walks are its executions. -/
theorem simulates_stmt (fn : Bool) (s : Stmt) (hs : TryFree s) :
    Simulates fn (stmt s) (fun l n => Executes fn l n s) (loopsOf s) := by
  cases s with
  | ret line value => exact simulates_ret fn line value
  | raise line exc cause => exact simulates_raise fn line (.simple (.raise line exc cause))
  | «break» line =>
    exact simulates_loopJump (fun l => lays_stmt fn l (.break line)) (fun _ _ => rfl) rfl
      fun _ after _ => ⟨after, rfl, fun _ => rfl⟩
  | «continue» line =>
    exact simulates_loopJump (fun l => lays_stmt fn l (.continue line)) (fun _ _ => rfl) rfl
      fun header _ _ => ⟨header, rfl, fun _ => rfl⟩
  | pass line => exact simulates_pass fn
  | ifThen line test thenBody elseBody =>
    have hbranch := simulates_branch (simulates_body fn thenBody hs.1)
      (simulatesOption_body (simulates_body fn elseBody hs.2)) line
    exact ((simulates_put fn line (.test test)).comp hbranch).congr
      (fun l n => by simp [Executes]) (zero_add _)
  | whileLoop line test loopBody elseBody =>
    exact simulates_whileLoop (simulates_body fn loopBody hs.1)
      (simulatesOption_body (simulates_body fn elseBody hs.2)) line test
  | forLoop line target iter loopBody elseBody =>
    exact simulates_forLoop (simulates_body fn loopBody hs.1)
      (simulatesOption_body (simulates_body fn elseBody hs.2)) line target iter
  | withBlock line items withBody =>
    exact ((simulates_withItems fn line items).comp (simulates_body fn withBody hs)).congr
      (fun l n => by simp [Executes]) (zero_add _)
  | tryBlock line tryBody hs elseBody finalBody => exact hs.elim
  | _ => exact simulates_putGuarded fn _ _

theorem simulates_body (fn : Bool) (ss : List Stmt) (hss : TryFreeAll ss) :
    Simulates fn (body ss) (fun l n => ExecutesAll fn l n ss) (loopsOfAll ss) := by
  cases ss with
  | nil => exact (simulates_pass fn).cut
  | cons s ss => exact ((simulates_stmt fn s hss.1).comp (simulates_body fn ss hss.2)).cut

end

/-! ### Whole bodies -/

/-- The blocks that stand, as a chart. -/
def chart (b : Builder) : Chart := ⟨b.itemsAt, b.exitsAt⟩

theorem live_start (fn : Bool) : (start fn).Live [ending] :=
  ⟨⟨[], good_start fn⟩, mem_singleton_self _, rfl, .nil⟩

/-- The blocks of a body behave as its executions say. -/
theorem behaves_body (fn : Bool) (hss : TryFreeAll ss) :
    Behaves ((body ss (start fn)).fallTo last).chart (startOf first) (ExecutesAll fn false 0 ss)
      (dests [] (startOf last)) := by
  have hlive : ((start fn).moveTo first).Live [ending] := live_start fn
  have hbody := simulates_body fn ss hss
  obtain ⟨g, -, hlay⟩ := hbody.lay hlive rfl
  exact ((hbody.out _ _ hlive rfl).clause hlive hlay last).behaves _ fun _ _ _ => ⟨rfl, fun _ => .rfl⟩

/-- **The walks through the blocks of a body** from the first block to the last one are its complete
executions. -/
theorem walk_body_iff (fn : Bool) (hss : TryFreeAll ss) (xs : List Item) :
    (∃ n, Walk ((body ss (start fn)).fallTo last).chart n (startOf first) xs (startOf last)) ↔
      Completes fn ss xs := by
  have hbehaves := behaves_body fn hss
  obtain ⟨K, hcomplete⟩ := exists_complete fn ss
  set b := (body ss (start fn)).fallTo last with hb
  -- a walk that has come to the last block is over
  have hstop : ∀ {n zs}, Walk b.chart n (startOf last) zs (startOf last) → zs = [] := by
    intro n zs hw
    generalize hp : startOf last = p at hw
    cases hw with
    | stay => rfl
    | item hi _ =>
      cases hp
      change (b.itemsAt last)[0]? = _ at hi
      rw [hcomplete.items] at hi
      cases hi
    | exit _ hc _ =>
      cases hp
      change _ ∈ b.exitsAt last at hc
      rw [show b.exitsAt last = [] from congrArg Prod.fst hcomplete.links] at hc
      cases hc
  constructor
  · rintro ⟨n, hw⟩
    obtain ⟨ys, zs, o, q, m, hE, hq, rfl, -, hw⟩ := hbehaves.only n xs hw
    cases o with
    | normal =>
      cases hq
      rw [hstop hw, append_nil]
      exact .inl hE
    | returned =>
      cases hq
      rw [hstop hw, append_nil]
      exact .inr hE
    | broke | continued | halted => cases hq
  · rintro (hE | hE)
    · obtain ⟨n, q, hw, hq⟩ := hbehaves.runs xs _ hE
      exact ⟨n, hq _ rfl ▸ hw⟩
    · obtain ⟨n, q, hw, hq⟩ := hbehaves.runs xs _ hE
      exact ⟨n, hq _ rfl ▸ hw⟩

end Builder

end FlowTyping.Flow
