/-
Layouts as runs.

A run goes on from one builder to another in single steps, with loops, protected regions and
clean-ups entered and left on the way.  Beside the builder stand the blocks that wait for something
to be laid out in them, those of the regions around (`W`) and those of the statement at hand (`T`),
and the blocks of all handlers so far (`K`).  An edge goes to a block that waits or back to the
header of a loop around.

`Good` is the invariant: every circle of edges passes through the header of a loop, a block that
goes on to another one leads there, a block that jumps away goes on nowhere, and no empty block
leads to a handler only.  A run keeps the invariant (`Runs.good`), and blocks that it does not work
on stay as they are (`Runs.laid`).
-/
import FlowTyping.Proofs.Flow.Stretch

namespace FlowTyping.Flow.Builder

open List

variable {b b' b₁ : Builder} {x y e t : BlockId} {frames : List Frame}
  {targets K K' ids : List BlockId} {onto : Option BlockId} {g : Gain}
  {header after entry : BlockId} {frame : Frame}

/-! ### Circles -/

/-- An edge from a block that is no loop header. -/
def Onward (b : Builder) (x y : BlockId) : Prop := b.headerAt x = false ∧ y ∈ b.exitsAt x

/-- Every circle passes through a loop header, a block goes on to one of its exits, and a block that
jumps away goes on nowhere. -/
structure Orderly (b : Builder) : Prop where
  exits : ∀ x e, e ∈ b.exitsAt x → e.index < b.blocks.size
  nexts : ∀ x e, b.nextAt x = some e → e ∈ b.exitsAt x
  closed : ∀ x, b.isDefinite x = true → b.nextAt x = none
  onward : WellFounded fun y x => b.Onward x y

theorem Orderly.of_links (h : Orderly b) (hsize : b.blocks.size ≤ b'.blocks.size)
    (hexits : ∀ x, b'.exitsAt x = b.exitsAt x) (hnexts : ∀ x, b'.nextAt x = b.nextAt x)
    (hclosed : ∀ x, b'.isDefinite x = true → b.nextAt x = none)
    (hheaders : ∀ x, b.headerAt x = true → b'.headerAt x = true) : Orderly b' where
  exits x e he := (h.exits x e (hexits x ▸ he)).trans_le hsize
  nexts x e he := by
    rw [hexits]
    exact h.nexts x e (hnexts x ▸ he)
  closed x hx := (hnexts x).trans (hclosed x hx)
  onward := by
    refine Subrelation.wf (fun {y x} hxy => ?_) h.onward
    refine ⟨Bool.eq_false_iff.2 fun htrue => ?_, hexits x ▸ hxy.2⟩
    exact Bool.eq_false_iff.1 hxy.1 (hheaders x htrue)

/-- New edges close no circle if they go to blocks from which nothing leads on, or to loop headers.
-/
theorem Orderly.leads (h : Orderly b) (hl : Leads b b' targets onto) (hopen : b.isDefinite b.current = false)
    (hto : ∀ e ∈ targets, e.index < b.blocks.size ∧ (b.headerAt e = true ∨ e ≠ b.current ∧ b.exitsAt e = []))
    (honto : ∀ e, onto = some e → e ∈ targets) : Orderly b' := by
  have hold : ∀ x e, e ∈ b'.exitsAt x → e ∈ b.exitsAt x ∨ e ∈ targets := by
    intro x e he
    by_cases hx : x = b.current
    · subst hx
      exact (hl.self e).1 he
    · exact .inl (hl.exits_of_ne hx ▸ he)
  refine ⟨fun x e he => ?_, fun x e he => ?_, fun x hx => ?_, ⟨fun x => ?_⟩⟩
  · rw [hl.size]
    exact (hold x e he).elim (h.exits x e) fun he => (hto e he).1
  · by_cases hx : x = b.current
    · subst hx
      rw [hl.next] at he
      refine (hl.self e).2 ?_
      cases onto with
      | none => exact .inl (h.nexts _ e he)
      | some target => exact .inr (honto e he)
    · rw [hl.exits_of_ne hx]
      exact h.nexts x e (hl.next_of_ne hx ▸ he)
  · rw [hl.definite] at hx
    have hne : x ≠ b.current := by
      rintro rfl
      rw [hopen] at hx
      cases hx
    exact (hl.next_of_ne hne).trans (h.closed x hx)
  · induction h.onward.apply x with
    | intro x _ ih =>
      constructor
      rintro y ⟨hheader, hy⟩
      rw [hl.headers] at hheader
      rcases hold x y hy with hy | hy
      · exact ih y ⟨hheader, hy⟩
      -- nothing leads on from a block to which a new edge goes
      · refine ⟨y, fun z hz => ?_⟩
        obtain ⟨hnot, hz⟩ := hz
        rw [hl.headers] at hnot
        rcases (hto y hy).2 with htrue | ⟨hne, hnone⟩
        · rw [htrue] at hnot
          cases hnot
        · rw [hl.exits_of_ne hne, hnone] at hz
          cases hz

/-! ### Blocks that wait -/

/-- A block that waits: what it holds already, and whether it is for a handler. -/
structure Ready where
  id : BlockId
  items : List Item
  catches : Bool

/-- An empty block, for no handler. -/
abbrev Ready.empty (id : BlockId) : Ready := ⟨id, [], false⟩

/-- Empty blocks for handlers. -/
def catchers (ids : List BlockId) : List Ready := ids.map fun id => ⟨id, [], true⟩

/-- A block waits with what it holds already, and nothing leads on from it. -/
structure Waits (K : List BlockId) (b : Builder) (r : Ready) : Prop where
  lt : r.id.index < b.blocks.size
  ne : r.id ≠ b.current
  items : b.itemsAt r.id = r.items
  links : b.linksAt r.id = ([], none, false)
  catches : r.id ∈ K ↔ r.catches = true

/-- A block to which an edge may go: one that waits, or a loop header. -/
def Stands (W : List Ready) (b : Builder) (e : BlockId) : Prop :=
  (∃ r ∈ W, r.id = e ∧ r.catches = false) ∨ b.headerAt e = true

/-- Where jumps and exceptions may go, blocks stand. -/
structure Anchored (W : List Ready) (b : Builder) : Prop where
  ends : ∀ e ∈ jumpEnds b.frames, Stands W b e
  around : ∀ t ∈ handlersAround b.frames, ⟨t, [], true⟩ ∈ W

/-- The regions around, the loop headers and the kind of body stay. -/
structure Kept (b b' : Builder) : Prop where
  frames : FramesKept b b'
  size : b.blocks.size ≤ b'.blocks.size
  headers : ∀ x, b.headerAt x = true → b'.headerAt x = true
  inFunction : b'.inFunction = b.inFunction

variable {W W' T T' : List Ready}

theorem Kept.refl (b : Builder) : Kept b b := ⟨rfl, le_rfl, fun _ hx => hx, rfl⟩

theorem Kept.trans {b'' : Builder} (h : Kept b b') (h' : Kept b' b'') : Kept b b'' :=
  ⟨h'.frames.trans h.frames, h.size.trans h'.size, fun x hx => h'.headers x (h.headers x hx),
    h'.inFunction.trans h.inFunction⟩

theorem Stays.kept (hs : Stays b b' g) : Kept b b' :=
  ⟨congrArg (map shape) hs.frames, hs.size, fun x hx => (hs.headers x (lt_of_headerAt hx)).trans hx,
    congrArg Prod.fst hs.context⟩

theorem Leads.kept (hl : Leads b b' targets onto) : Kept b b' :=
  ⟨hl.frames, le_of_eq hl.size.symm, fun x hx => (hl.headers x).trans hx, congrArg Prod.fst hl.context⟩

theorem Goes.kept (hg : Goes b b') : Kept b b' :=
  ⟨congrArg (map shape) hg.frames, hg.size, fun x hx => (hg.headers x).trans hx, congrArg Prod.fst hg.context⟩

theorem Kept.leave (hframe : shape frame = frame) (h : Kept (b.enter frame) b') : Kept b b'.leave := by
  have hframes : b'.frames.map shape = frame :: b.frames.map shape := by
    rw [h.frames]
    exact congrArg (· :: _) hframe
  exact ⟨.leave hframes, h.size, h.headers, h.inFunction⟩

theorem Stands.imp (h : Stands W b e) (hW : ∀ r ∈ W, r ∈ W')
    (hk : ∀ x, b.headerAt x = true → b'.headerAt x = true) : Stands W' b' e := by
  rcases h with ⟨r, hr, heq⟩ | he
  · exact .inl ⟨r, hW r hr, heq⟩
  · exact .inr (hk e he)

theorem Anchored.imp (h : Anchored W b) (hW : ∀ r ∈ W, r ∈ W') (hk : Kept b b') : Anchored W' b' where
  ends e he := (h.ends e (hk.frames.eq jumpEnds_shape ▸ he)).imp hW hk.headers
  around t ht := hW _ (h.around t (hk.frames.eq handlersAround_shape ▸ ht))

theorem Anchored.kept (h : Anchored W b) (hk : Kept b b') : Anchored W b' := h.imp (fun _ hr => hr) hk

/-- What holds of a builder beside which stand the blocks that wait and the blocks `K` of its
handlers. -/
structure Good (W T : List Ready) (K : List BlockId) (b : Builder) : Prop where
  changes : Changes (start b.inFunction) b
  lt : b.current.index < b.blocks.size
  isOpen : b.isDefinite b.current = false
  idle : b.nextAt b.current = none
  nodup : ((T ++ W).map Ready.id).Nodup
  ready : ∀ r ∈ T ++ W, Waits K b r
  catchers : ∀ t ∈ K, t.index < b.blocks.size ∧ b.headerAt t = false
  anchored : Anchored W b
  threaded : Threaded b.frames
  orderly : Orderly b
  /-- An empty block that has been left does not lead to a handler only. -/
  firm : ∀ t ∈ K, ∀ x, x ≠ b.current → b.itemsAt x = [] → b.exitsAt x ≠ [t]

/-- New blocks are there that wait. -/
structure Adds (b b' : Builder) (g : Gain) (rs : List Ready) : Prop extends Stays b b' g where
  nodup : (rs.map Ready.id).Nodup
  new : ∀ r ∈ rs, b.blocks.size ≤ r.id.index ∧ r.id.index < b'.blocks.size ∧ b'.itemsAt r.id = r.items
  plain : ∀ r ∈ rs, r.catches = true → b'.headerAt r.id = false

/-- The current block is left for another one.  It leads somewhere, unless it raises. -/
structure Departs (W T : List Ready) (b b' : Builder) (T' : List Ready) : Prop where
  leads : ∃ b₁ targets onto, Leads b b₁ targets onto ∧ Goes b₁ b' ∧ (∀ e ∈ targets, Stands (T ++ W) b e) ∧
    (∀ e, onto = some e → e ∈ targets ∧ b'.isDefinite b.current = false) ∧
    (targets ≠ [] ∨ b.itemsAt b.current ≠ [] ∧ ∀ t ∈ raiseTargets b.frames, t ∈ b.exitsAt b.current)
  goes : (∃ r, r.id = b'.current ∧ T.Perm (r :: T')) ∨ T' = T ∧ b.blocks.size ≤ b'.current.index

variable {rs : List Ready}

namespace Good

section

variable (h : Good W T K b)
include h

theorem stands (he : Stands (T ++ W) b e) :
    e.index < b.blocks.size ∧ (b.headerAt e = true ∨ e ≠ b.current ∧ b.exitsAt e = []) ∧ e ∉ K := by
  rcases he with ⟨r, hr, rfl, hcatches⟩ | he
  · have hw := h.ready r hr
    refine ⟨hw.lt, .inr ⟨hw.ne, congrArg Prod.fst hw.links⟩, fun hK => ?_⟩
    exact Bool.false_ne_true (hcatches.symm.trans (hw.catches.1 hK))
  · refine ⟨lt_of_headerAt he, .inl he, fun hK => ?_⟩
    rw [(h.catchers e hK).2] at he
    cases he

theorem ends (he : e ∈ jumpEnds b.frames) : Stands (T ++ W) b e :=
  (h.anchored.ends e he).imp (fun _ => mem_append_right T) fun _ hx => hx

theorem raises (ht : t ∈ raiseTargets b.frames) :
    t.index < b.blocks.size ∧ (b.headerAt t = true ∨ t ≠ b.current ∧ b.exitsAt t = []) := by
  rcases mem_raiseTargets ht with ht | ht
  · have hw := h.ready _ (mem_append_right T (h.anchored.around t ht))
    exact ⟨hw.lt, .inr ⟨hw.ne, congrArg Prod.fst hw.links⟩⟩
  · have hstands := h.stands (h.ends ht)
    exact ⟨hstands.1, hstands.2.1⟩

theorem not_mem (hx : b.blocks.size ≤ x.index) : x ∉ K :=
  fun hmem => absurd (h.catchers x hmem).1 (Nat.not_lt_of_le hx)

/-! #### Steps -/

theorem stays (hs : Stays b b' g) : Good W T K b' := by
  refine ⟨hs.kept.inFunction ▸ h.changes.trans hs.changes, ?_, ?_, ?_, h.nodup, fun r hr => ?_,
    fun t ht => ?_, h.anchored.kept hs.kept, hs.frames ▸ h.threaded, ?_, fun t ht x hx hitems => ?_⟩
  · rw [hs.current]
    exact h.lt.trans_le hs.size
  · rw [hs.current, hs.definite]
    exact h.isOpen
  · rw [hs.current, hs.nexts]
    exact h.idle
  · obtain ⟨hlt, hne, hitems, hlinks, hcatches⟩ := h.ready r hr
    exact ⟨hlt.trans_le hs.size, hs.current ▸ hne, (hs.items r.id hne hlt).trans hitems,
      (hs.links r.id).trans hlinks, hcatches⟩
  · obtain ⟨hlt, hheader⟩ := h.catchers t ht
    exact ⟨hlt.trans_le hs.size, (hs.headers t hlt).trans hheader⟩
  · refine h.orderly.of_links hs.size hs.exits hs.nexts (fun x hx => ?_) hs.kept.headers
    exact h.orderly.closed x ((hs.definite x).symm.trans hx)
  · rw [hs.exits]
    exact h.firm t ht x (hs.current ▸ hx) (prefix_nil.1 (hitems ▸ hs.isPrefix x))

theorem adds (ha : Adds b b' g rs)
    (hK : ∀ t, t ∈ K' ↔ t ∈ K ∨ ∃ r ∈ rs, r.id = t ∧ r.catches = true) : Good W (rs ++ T) K' b' := by
  have hs := ha.toStays
  have hgood := h.stays hs
  -- a new block is none of those that stood
  have hold : ∀ x : BlockId, x.index < b.blocks.size → ∀ r ∈ rs, r.id ≠ x := fun x hx r hr =>
    ne_of_index_lt (hx.trans_le (ha.new r hr).1)
  have hnew : ∀ r ∈ rs, Waits K' b' r := fun r hr => by
    obtain ⟨hle, hlt, hitems⟩ := ha.new r hr
    refine ⟨hlt, hs.current ▸ hold _ h.lt r hr, hitems, ?_, ?_⟩
    · rw [hs.links, linksAt_eq, blockAt_of_size_le hle]
      rfl
    · rw [hK]
      refine ⟨?_, fun hcatches => .inr ⟨r, hr, rfl, hcatches⟩⟩
      rintro (hmem | ⟨r', hr', heq, hcatches⟩)
      · exact absurd hmem (h.not_mem hle)
      · rwa [← inj_on_of_nodup_map ha.nodup hr' hr heq]
  refine { hgood with
    nodup := ?_
    ready := fun r hr => ?_
    catchers := fun t ht => ?_
    firm := fun t ht x hx hitems => ?_ }
  · rw [append_assoc, map_append, nodup_append']
    refine ⟨ha.nodup, h.nodup, fun x hx hx' => ?_⟩
    obtain ⟨r, hr, rfl⟩ := mem_map.1 hx
    obtain ⟨r', hr', heq⟩ := mem_map.1 hx'
    exact hold r'.id (h.ready r' hr').lt r hr heq.symm
  · rw [append_assoc] at hr
    rcases mem_append.1 hr with hr | hr
    · exact hnew r hr
    · obtain ⟨hlt, hne, hitems, hlinks, hcatches⟩ := hgood.ready r hr
      refine ⟨hlt, hne, hitems, hlinks, (hK r.id).trans (Iff.trans (or_iff_left ?_) hcatches)⟩
      rintro ⟨r', hr', heq, -⟩
      exact hold r.id (h.ready r hr).lt r' hr' heq
  · rcases (hK t).1 ht with ht | ⟨r, hr, rfl, hcatches⟩
    · exact hgood.catchers t ht
    · exact ⟨(ha.new r hr).2.1, ha.plain r hr hcatches⟩
  · rcases (hK t).1 ht with ht | ⟨r, hr, rfl, -⟩
    · exact hgood.firm t ht x hx hitems
    -- no edge leads to a block that did not stand
    · intro heq
      have hlt := h.orderly.exits x r.id (hs.exits x ▸ heq ▸ mem_singleton_self _)
      exact absurd hlt (Nat.not_lt_of_le (ha.new r hr).1)

theorem addCatchers (ha : Adds b b' g (Builder.catchers ids)) : Good W (Builder.catchers ids ++ T) (ids ++ K) b' := by
  refine h.adds ha fun t => ?_
  rw [mem_append, or_comm]
  refine or_congr_right ⟨fun ht => ⟨_, mem_map_of_mem ht, rfl, rfl⟩, ?_⟩
  rintro ⟨r, hr, rfl, -⟩
  obtain ⟨id, hid, rfl⟩ := mem_map.1 hr
  exact hid

/-- The current block gets edges to all blocks in which an exception may land. -/
theorem shields (hl : Leads b b' (raiseTargets b.frames) none) : Good W T K b' := by
  have hchanges : Changes b b' := hl.changes fun e he => (h.raises (he.resolve_right nofun)).1
  refine ⟨hl.kept.inFunction ▸ h.changes.trans hchanges, ?_, ?_, ?_, h.nodup, fun r hr => ?_,
    fun t ht => ?_, h.anchored.kept hl.kept, hl.threaded h.threaded, ?_, fun t ht x hx hitems => ?_⟩
  · rw [hl.current, hl.size]
    exact h.lt
  · rw [hl.current, hl.definite]
    exact h.isOpen
  · rw [hl.current, hl.next]
    exact h.idle
  · obtain ⟨hlt, hne, hitems, hlinks, hcatches⟩ := h.ready r hr
    exact ⟨hl.size ▸ hlt, hl.current ▸ hne, (hl.items r.id).trans hitems, (hl.others r.id hne).trans hlinks, hcatches⟩
  · rw [hl.size, hl.headers]
    exact h.catchers t ht
  · exact h.orderly.leads hl h.isOpen (fun e he => h.raises he) fun _ he => absurd he.symm (Option.some_ne_none _)
  · rw [hl.current] at hx
    rw [hl.exits_of_ne hx]
    exact h.firm t ht x hx (hl.items x ▸ hitems)

theorem departs (hd : Departs W T b b' T') : Good W T' K b' := by
  obtain ⟨b₁, targets, onto, hl, hg, hstands, honto, hdone⟩ := hd.leads
  -- the block in which it goes on is none of those that wait on
  have hsub : ∀ r ∈ T' ++ W, r ∈ T ++ W ∧ r.id ≠ b'.current := by
    rcases hd.goes with ⟨r', hr', hperm⟩ | ⟨rfl, hnew⟩
    · intro r hr
      have hall := hperm.append_right W
      refine ⟨hall.mem_iff.2 (mem_cons_of_mem _ hr), fun heq => ?_⟩
      have hnodup := (hall.map Ready.id).nodup_iff.1 h.nodup
      exact (nodup_cons.1 hnodup).1 (hr'.trans heq.symm ▸ mem_map_of_mem hr)
    · exact fun r hr => ⟨hr, fun heq => absurd (heq ▸ (h.ready r hr).lt) (Nat.not_lt_of_le hnew)⟩
  have hnodup : ((T' ++ W).map Ready.id).Nodup := by
    rcases hd.goes with ⟨r', -, hperm⟩ | ⟨rfl, -⟩
    · exact (nodup_cons.1 (((hperm.append_right W).map Ready.id).nodup_iff.1 h.nodup)).2
    · exact h.nodup
  have hne : b'.current ≠ b.current := hl.current ▸ hg.ne
  have hdefinite : ∀ x, x ≠ b.current → b'.isDefinite x = b.isDefinite x := fun x hx =>
    (hg.definite x (hl.current.symm ▸ hx)).trans (hl.definite x)
  have hlinks : ∀ x, x ≠ b.current → b'.linksAt x = b.linksAt x := fun x hx => by
    rw [linksAt, hg.exits, hg.nexts, hl.exits_of_ne hx, hl.next_of_ne hx, hdefinite x hx]
    rfl
  have hfresh : b'.linksAt b'.current = ([], none, false) := by
    rw [hlinks _ hne, ← hl.others _ hne]
    exact hg.fresh
  have hlt : ∀ e, e ∈ targets ∨ onto = some e → e.index < b.blocks.size := fun e he =>
    (h.stands (hstands e (he.elim id fun he => (honto e he).1))).1
  have hchanges : Changes b b' := (hl.changes hlt).trans hg.changes
  refine ⟨(hl.kept.trans hg.kept).inFunction ▸ h.changes.trans hchanges, hg.lt, congrArg (·.2.2) hfresh,
    congrArg (·.2.1) hfresh, hnodup, fun r hr => ?_, fun t ht => ?_, h.anchored.kept (hl.kept.trans hg.kept),
    hg.frames ▸ hl.threaded h.threaded, ?_, fun t ht x hx hitems => ?_⟩
  · obtain ⟨hr, hne'⟩ := hsub r hr
    obtain ⟨hlt, hcurrent, hitems, hfresh', hcatches⟩ := h.ready r hr
    exact ⟨(hl.size ▸ hlt).trans_le hg.size, hne', (hg.items _).trans ((hl.items _).trans hitems),
      (hlinks _ hcurrent).trans hfresh', hcatches⟩
  · rw [hg.headers, hl.headers]
    exact ⟨(hl.size ▸ (h.catchers t ht).1).trans_le hg.size, (h.catchers t ht).2⟩
  · have horderly := h.orderly.leads hl h.isOpen
      (fun e he => ⟨(h.stands (hstands e he)).1, (h.stands (hstands e he)).2.1⟩) fun e he => (honto e he).1
    refine horderly.of_links hg.size hg.exits hg.nexts (fun x hx => ?_) fun x hx => (hg.headers x).trans hx
    by_cases hcurrent : x = b.current
    -- the block that is left is closed only if it goes on nowhere
    · subst hcurrent
      rw [hl.next]
      cases onto with
      | none => exact h.idle
      | some target => cases ((honto target rfl).2).symm.trans hx
    · exact horderly.closed x ((hl.definite x).trans ((hdefinite x hcurrent).symm.trans hx))
  · rw [hg.items, hl.items] at hitems
    rw [hg.exits]
    intro heq
    by_cases hcurrent : x = b.current
    · subst hcurrent
      rcases hdone with hdone | ⟨hdone, -⟩
      · obtain ⟨e, he⟩ := exists_mem_of_ne_nil _ hdone
        have hmem := (hl.self e).2 (.inr he)
        rw [heq, mem_singleton] at hmem
        exact (h.stands (hstands e he)).2.2 (hmem ▸ ht)
      · exact hdone hitems
    · exact h.firm t ht x hcurrent hitems (hl.exits_of_ne hcurrent ▸ heq)

/-! #### Regions -/

theorem inFrames {frames : List Frame} (hlists : T ++ W = T' ++ W') (ha : Anchored W' { b with frames := frames })
    (ht : Threaded frames) : Good W' T' K { b with frames := frames } := by
  have hready : ∀ r ∈ T' ++ W', Waits K { b with frames := frames } r := fun r hr => by
    exact { h.ready r (hlists ▸ hr) with }
  have hends : ∀ e ∈ jumpEnds frames, e.index < b.blocks.size := fun e he => by
    rcases ha.ends e he with ⟨r, hr, rfl, -⟩ | he
    · exact (hready r (mem_append_right _ hr)).lt
    · exact lt_of_headerAt he
  have hframes := ht.blocks_lt hends fun t ht => (hready _ (mem_append_right _ (ha.around t ht))).lt
  exact { h with
    changes := h.changes.tail (.withFrames hframes), nodup := hlists ▸ h.nodup, ready := hready, anchored := ha
    threaded := ht, orderly := { h.orderly with } }

theorem shift (hlists : T ++ W = T' ++ W') (ha : Anchored W' b) : Good W' T' K b :=
  h.inFrames hlists ha h.threaded

theorem enterLoop (hafter : Stands W b after) (hheader : b.headerAt header = true) :
    Good W T K (b.enter (.loop header after)) := by
  refine h.inFrames rfl ⟨fun e he => ?_, h.anchored.around⟩ h.threaded
  rcases mem_cons.1 he with rfl | he
  · exact .inr hheader
  · rcases mem_cons.1 he with rfl | he
    · exact hafter
    · exact h.anchored.ends e he

theorem enterGuarded (hT : T = Builder.catchers ids ++ []) :
    Good (Builder.catchers ids ++ W) [] K (b.enter (.guarded ids)) := by
  refine h.inFrames (by rw [hT, append_nil]; rfl) ⟨fun e he => ?_, fun t ht => ?_⟩ h.threaded
  · exact (h.anchored.ends e he).imp (fun _ => mem_append_right _) fun _ hx => hx
  · rcases mem_append.1 ht with ht | ht
    · exact mem_append_left _ (mem_map_of_mem ht)
    · exact mem_append_right _ (h.anchored.around t ht)

theorem enterCleanup (hT : T = [.empty entry]) : Good (T ++ W) [] K (b.enter (.cleanup entry [])) := by
  refine h.inFrames (show T ++ W = [] ++ (T ++ W) from rfl)
    ⟨fun e he => ?_, fun t ht => mem_append_right _ (h.anchored.around t ht)⟩ ⟨forall_mem_nil _, h.threaded⟩
  rcases mem_cons.1 he with rfl | he
  · exact .inl ⟨_, mem_append_left _ (hT ▸ mem_singleton_self _), rfl, rfl⟩
  · exact (h.anchored.ends e he).imp (fun _ => mem_append_right _) fun _ hx => hx

end

theorem leave (ha : Anchored W b) (hk : Kept b b'.leave) (h : Good W' T' K b')
    (hlists : T' ++ W' = T ++ W) : Good W T K b'.leave := by
  refine h.inFrames hlists (ha.kept hk) ?_
  obtain ⟨blocks, current, frames, misplaced, inFunction, nextLoop⟩ := b'
  cases frames with
  | nil => exact h.threaded
  | cons frame frames =>
    cases frame with
    | loop header after | guarded handlers => exact h.threaded
    | cleanup entry pending => exact h.threaded.2

end Good

/-! ### Runs -/

open Stretch

/-- What a run brings about: what is put into the builder, how the stretches of a region around go
on, and the regions that are laid out. -/
structure Effect where
  gain : Gain
  stretch : List Stretch → List Stretch
  regions : List Region

/-- Going on in another block. -/
abbrev Effect.move : Effect := ⟨.nothing, next, []⟩

/-- One effect behind another. -/
def Effect.andThen (E E' : Effect) : Effect :=
  ⟨E.gain.andThen E'.gain, fun st => E'.stretch (E.stretch st), E.regions ++ E'.regions⟩

/-- Items are in the current block. -/
def noteAll (items : List Item) (st : List Stretch) : List Stretch := items.foldl (fun st i => note i st) st

/-- Each block starts with its handler. -/
def Start (b : Builder) (ids : List BlockId) (hs : List (Handler Stmt)) : Prop :=
  Forall₂ (fun id h => (b.itemsAt id).head? = some ⟨h.line, .handler h⟩) ids hs

/-- A run from one builder to another. -/
inductive Runs (fn : Bool) : List Ready → List Ready → List BlockId → Builder → Effect →
    List Ready → List BlockId → Builder → Prop
  | trans {W T T₁ T' : List Ready} {K K₁ K' : List BlockId} {b b₁ b' : Builder} {E E' : Effect}
    (h : Runs fn W T K b E T₁ K₁ b₁) (h' : Runs fn W T₁ K₁ b₁ E' T' K' b') : Runs fn W T K b (E.andThen E') T' K' b'
  | rests {W T : List Ready} {K : List BlockId} {b b' : Builder} {g : Gain} {items : List Item} (hs : Stays b b' g)
    (hitems : ∀ i ∈ items, i ∈ b'.itemsAt b'.current) : Runs fn W T K b ⟨g, noteAll items, []⟩ T K b'
  | adds {W T rs : List Ready} {K : List BlockId} {b b' : Builder} {g : Gain} (ha : Adds b b' g rs)
    (hrs : ∀ r ∈ rs, r.catches = false) : Runs fn W T K b ⟨g, fun st => st, []⟩ (rs ++ T) K b'
  | shields {W T : List Ready} {K : List BlockId} {b b' : Builder}
    (hl : Leads b b' (raiseTargets b.frames) none) : Runs fn W T K b ⟨.nothing, shield, []⟩ T K b'
  | departs {W T T' : List Ready} {K : List BlockId} {b b' : Builder} (hd : Departs W T b b' T') :
    Runs fn W T K b .move T' K b'
  /-- Stretches do not matter outside of protected regions, and an empty one never does. -/
  | restate {W T T' : List Ready} {K K' : List BlockId} {b b' : Builder} {E : Effect}
    {f : List Stretch → List Stretch} (h : Runs fn W T K b E T' K' b')
    (hf : raiseTargets b.frames = [] ∨ ∀ st, ∃ st', E.stretch st = next st' ∧ f st = next (next st')) :
    Runs fn W T K b ⟨E.gain, f, E.regions⟩ T' K' b'
  | loop {W : List Ready} {K K' : List BlockId} {b b' : Builder} {E : Effect}
    {header after : BlockId} (hafter : Stands W b after) (hheader : b.headerAt header = true)
    (h : Runs fn W [] K (b.enter (.loop header after)) E [] K' b') : Runs fn W [] K b E [] K' b'.leave
  /-- A protected body, and what follows up to the last handler. -/
  | protect {W T : List Ready} {K K₁ K' ids : List BlockId} {b b₁ b₂ b' : Builder} {E E' : Effect}
    {own : List Region} (ha : Adds b b₁ .nothing (catchers ids))
    (hbody : Runs fn (catchers ids ++ W) [] (ids ++ K) (b₁.enter (.guarded ids)) E [] K₁ b₂)
    (hrest : Runs fn W (catchers ids) K₁ b₂.leave E' T K' b')
    (hown : ∀ r ∈ own, ids ≠ [] ∧ Start b' ids r.handlers ∧ r.stretches fn = E.stretch (next [])) :
    Runs fn W [] K b ⟨E.gain.andThen E'.gain, fun st => E'.stretch (E.stretch st), own ++ (E.regions ++ E'.regions)⟩
      T K' b'
  /-- What a clean-up follows. -/
  | cleanup {W : List Ready} {K K' : List BlockId} {b b₁ b' : Builder} {E : Effect} {entry : BlockId}
    (h : Runs fn ([.empty entry] ++ W) [] K (b.enter (.cleanup entry [])) E [] K' b₁)
    (hraise : entry ∈ b₁.exitsAt b.current) (hd : Departs W [.empty entry] b₁.leave b' []) :
    Runs fn W [.empty entry] K b ⟨E.gain, next, E.regions⟩ [] K' b'
  /-- Blocks that wait for something else. -/
  | aside {W T T' T₀ : List Ready} {K K' : List BlockId} {b b' : Builder} {E : Effect}
    (h : Runs fn (T₀ ++ W) T K b E T' K' b') : Runs fn W (T ++ T₀) K b E (T' ++ T₀) K' b'

/-- A block that stands and is not worked on. -/
def Aside (T : List Ready) (b : Builder) (x : BlockId) : Prop :=
  x.index < b.blocks.size ∧ x ≠ b.current ∧ ∀ r ∈ T, r.id ≠ x

/-- What a run does to the blocks. -/
structure Laid (T : List Ready) (b : Builder) (g : Gain) (T' : List Ready) (b' : Builder) : Prop extends Kept b b' where
  context : b'.context = g.after b.context
  perm : b'.allItems.Perm (b.allItems ++ g.items)
  isPrefix : ∀ x, b.itemsAt x <+: b'.itemsAt x
  exits : ∀ x e, e ∈ b.exitsAt x → e ∈ b'.exitsAt x
  aside : ∀ x, Aside T b x → Aside T' b' x ∧ b'.itemsAt x = b.itemsAt x ∧ b'.linksAt x = b.linksAt x

@[simp]
theorem Gain.nothing_andThen (g : Gain) : Gain.nothing.andThen g = g := by
  simp [Gain.andThen, Gain.nothing]

@[simp]
theorem Gain.andThen_nothing (g : Gain) : g.andThen .nothing = g := by
  simp [Gain.andThen, Gain.nothing]

namespace Laid

variable {g' : Gain} {b'' : Builder} {T'' T₀ : List Ready}

theorem trans (h : Laid T b g T' b') (h' : Laid T' b' g' T'' b'') : Laid T b (g.andThen g') T'' b'' where
  toKept := h.toKept.trans h'.toKept
  context := by
    rw [h'.context, h.context]
    simp [Gain.after, Gain.andThen, add_assoc]
  perm := (h'.perm.trans (h.perm.append_right _)).trans (by rw [append_assoc]; exact .refl _)
  isPrefix x := (h.isPrefix x).trans (h'.isPrefix x)
  exits x e he := h'.exits x e (h.exits x e he)
  aside x hx := by
    obtain ⟨hx, hitems, hlinks⟩ := h.aside x hx
    obtain ⟨hx, hitems', hlinks'⟩ := h'.aside x hx
    exact ⟨hx, hitems'.trans hitems, hlinks'.trans hlinks⟩

theorem leave (hframe : shape frame = frame) (h : Laid T (b.enter frame) g T' b') :
    Laid T b g T' b'.leave :=
  { h with toKept := h.toKept.leave hframe }

theorem beside (h : Laid T b g T' b') : Laid (T ++ T₀) b g (T' ++ T₀) b' :=
  { h with
    aside := fun x hx => by
      obtain ⟨hlt, hne, hT⟩ := hx
      obtain ⟨⟨hlt', hne', hT'⟩, hsame⟩ := h.aside x ⟨hlt, hne, fun r hr => hT r (mem_append_left _ hr)⟩
      refine ⟨⟨hlt', hne', fun r hr => ?_⟩, hsame⟩
      rcases mem_append.1 hr with hr | hr
      · exact hT' r hr
      · exact hT r (mem_append_right _ hr) }

end Laid

theorem Stays.laid (hs : Stays b b' g) (hrs : ∀ r ∈ rs, b.blocks.size ≤ r.id.index) :
    Laid T b g (rs ++ T) b' where
  toKept := hs.kept
  context := hs.context
  perm := hs.perm
  isPrefix := hs.isPrefix
  exits x e he := hs.exits x ▸ he
  aside x hx := by
    obtain ⟨hlt, hne, hT⟩ := hx
    refine ⟨⟨hlt.trans_le hs.size, hs.current ▸ hne, fun r hr => ?_⟩, hs.items x hne hlt, hs.links x⟩
    rcases mem_append.1 hr with hr | hr
    · exact ne_of_index_lt (hlt.trans_le (hrs r hr))
    · exact hT r hr

theorem Adds.laid_catchers (ha : Adds b b' g (catchers ids)) : Laid [] b g (catchers ids) b' :=
  append_nil (catchers ids) ▸ ha.laid fun r hr => (ha.new r hr).1

theorem Leads.laid (hl : Leads b b' targets onto) : Laid T b .nothing T b' where
  toKept := hl.kept
  context := hl.context.trans (by simp [Gain.after, Gain.nothing])
  perm := by
    rw [allItems_congr (le_of_eq hl.size.symm) hl.items]
    exact .of_eq (append_nil _).symm
  isPrefix x := by rw [hl.items]
  exits x e he := by
    by_cases hx : x = b.current
    · subst hx
      exact (hl.self e).2 (.inl he)
    · rwa [hl.exits_of_ne hx]
  aside x hx := ⟨⟨hl.size ▸ hx.1, hl.current ▸ hx.2.1, hx.2.2⟩, hl.items x, hl.others x hx.2.1⟩

theorem Departs.laid (hd : Departs W T b b' T') : Laid T b .nothing T' b' := by
  obtain ⟨b₁, targets, onto, hl, hg, -⟩ := hd.leads
  have hlaid : Laid T b .nothing T b₁ := hl.laid
  refine ⟨hl.kept.trans hg.kept, hg.context.trans hlaid.context, ?_, fun x => ?_, fun x e he => ?_, fun x hx => ?_⟩
  · rw [allItems_congr hg.size hg.items]
    exact hlaid.perm
  · rw [hg.items]
    exact hlaid.isPrefix x
  · rw [hg.exits]
    exact hlaid.exits x e he
  · obtain ⟨⟨hlt, hne, hT⟩, hitems, hlinks⟩ := hlaid.aside x hx
    refine ⟨⟨hlt.trans_le hg.size, ?_⟩, (hg.items x).trans hitems, ?_⟩
    · rcases hd.goes with ⟨r, hr, hperm⟩ | ⟨rfl, hle⟩
      · refine ⟨hr ▸ (hT r (hperm.mem_iff.2 mem_cons_self)).symm, fun r' hr' => ?_⟩
        exact hT r' (hperm.mem_iff.2 (mem_cons_of_mem _ hr'))
      · exact ⟨(ne_of_index_lt (hx.1.trans_le hle)).symm, hT⟩
    · rw [← hlinks, linksAt, hg.exits, hg.nexts, hg.definite x hne]
      rfl

variable {fn : Bool} {E : Effect}

theorem Runs.laid (h : Runs fn W T K b E T' K' b') : Laid T b E.gain T' b' := by
  induction h with
  | trans _ _ ih ih' => exact ih.trans ih'
  | rests hs => exact hs.laid (show ∀ r ∈ ([] : List Ready), _ from forall_mem_nil _)
  | adds ha => exact ha.laid fun r hr => (ha.new r hr).1
  | shields hl => exact hl.laid
  | departs hd => exact hd.laid
  | restate _ _ ih => exact ih
  | loop _ _ _ ih => exact ih.leave rfl
  | protect ha _ _ _ ihbody ihrest =>
    have hall := ha.laid_catchers.trans ((ihbody.leave rfl).beside.trans ihrest)
    rwa [Gain.nothing_andThen] at hall
  | cleanup _ _ hd ih =>
    have hall := (ih.leave rfl).beside.trans hd.laid
    rwa [Gain.andThen_nothing] at hall
  | aside _ ih => exact ih.beside

/-- **Runs keep the invariant.** -/
theorem Runs.good (h : Runs fn W T K b E T' K' b') (hb : Good W T K b) : Good W T' K' b' := by
  induction h with
  | trans _ _ ih ih' => exact ih' (ih hb)
  | rests hs => exact hb.stays hs
  | adds ha hrs =>
    refine hb.adds ha fun t => ⟨.inl, ?_⟩
    rintro (ht | ⟨r, hr, -, hcatches⟩)
    · exact ht
    · cases (hrs r hr).symm.trans hcatches
  | shields hl => exact hb.shields hl
  | departs hd => exact hb.departs hd
  | restate _ _ ih => exact ih hb
  | loop hafter hheader h ih => exact (ih (hb.enterLoop hafter hheader)).leave hb.anchored (h.laid.leave rfl).toKept rfl
  | @protect W T K K₁ K' ids b b₁ b₂ b' E E' own ha hbody hrest _ ihbody ihrest =>
    have hadded := hb.addCatchers ha
    have hinner := ihbody (hadded.enterGuarded rfl)
    exact ihrest (hinner.leave hadded.anchored (hbody.laid.leave rfl).toKept rfl)
  | cleanup h _ hd ih =>
    exact ((ih (hb.enterCleanup rfl)).leave hb.anchored (h.laid.leave rfl).toKept rfl).departs hd
  | aside h ih =>
    have hshift := hb.shift (append_assoc _ _ _) (hb.anchored.imp (fun _ => mem_append_right _) (.refl _))
    exact (ih hshift).shift (append_assoc _ _ _).symm (hb.anchored.kept h.laid.toKept)

end FlowTyping.Flow.Builder
