/-
What a run does to the edges that lead to handlers.

Only an item that may raise and the start of a protected region add edges to handlers, and only to
those around them.  Of a handler that is around, the stretches so far say which blocks lead to it
(`Spans`); after its protected body it gets no more edges.  A clean-up takes all exceptions of its
`try`, so the handlers further out see only the clean-up itself.
-/
import FlowTyping.Proofs.Flow.Layout

namespace FlowTyping.Flow.Builder

open List Stretch

variable {b b' b₁ b'' : Builder} {x y e t : BlockId} {W T T' T'' : List Ready}
  {K K' K'' H ids targets : List BlockId} {onto : Option BlockId} {fn : Bool} {g g' : Gain}
  {E E' : Effect} {st : List Stretch} {s : Stretch}

/-! ### Handlers and stretches -/

/-- A block has the items of a stretch, and it leads to the handlers `H` or not as the stretch
says. -/
def Holds (H : List BlockId) (b : Builder) (x : BlockId) (s : Stretch) : Prop :=
  (∀ i ∈ s.items, i ∈ b.itemsAt x) ∧ ∀ t ∈ H, (t ∈ b.exitsAt x ↔ s.caught = true)

/-- A block that has been left has the items of a stretch. -/
def Away (H : List BlockId) (b : Builder) (x : BlockId) (s : Stretch) : Prop :=
  x ≠ b.current ∧ b.exitsAt x ≠ [] ∧ Holds H b x s

/-- The first stretch is in the current block, the others are in blocks that have been left. -/
def Spans (H : List BlockId) (b : Builder) : List Stretch → Prop
  | [] => False
  | s :: st => Holds H b b.current s ∧ Spread (Away H b) st

/-- The handlers of a region start the blocks `ids`, and its stretches are spread over blocks. -/
structure Shown (fn : Bool) (b : Builder) (r : Region) (ids : List BlockId) : Prop where
  nodup : ids.Nodup
  heads : Start b ids r.handlers
  stretches : Spread (Holds ids b) (r.stretches fn)

theorem Holds.mono (h : Holds H b x s) (hitems : b.itemsAt x <+: b'.itemsAt x)
    (hexits : ∀ t ∈ H, (t ∈ b'.exitsAt x ↔ t ∈ b.exitsAt x)) : Holds H b' x s :=
  ⟨fun i hi => hitems.subset (h.1 i hi), fun t ht => (hexits t ht).trans (h.2 t ht)⟩

theorem Spans.spread (h : Spans H b st) : Spread (Holds H b) st := by
  cases st with
  | nil => exact h.elim
  | cons s st => exact h.2.cons (fun _ _ hy => ⟨hy.1, hy.2.2⟩) h.1

/-- What a run does: it may add handlers, and it goes on with the stretches. -/
structure Advances (fn : Bool) (K : List BlockId) (b : Builder) (E : Effect) (K' : List BlockId)
    (b' : Builder) : Prop where
  sub : ∀ t ∈ K, t ∈ K'
  /-- A handler that cannot catch anything here gets no edges. -/
  neutral : ∀ t ∈ K, t ∉ raiseTargets b.frames → ∀ x, t ∈ b'.exitsAt x → t ∈ b.exitsAt x
  spans : ∀ H, H ≠ [] → (∀ t ∈ H, t ∈ K ∧ t ∈ raiseTargets b.frames) →
    ∀ st, Spans H b st → Spans H b' (E.stretch st)
  shown : ∀ r ∈ E.regions, ∃ ids, (∀ t ∈ ids, t ∈ K' ∧ b.blocks.size ≤ t.index) ∧ Shown fn b' r ids

section

variable (h : Advances fn K b E K' b') (hl : Laid T b g T' b')
include h hl

/-- Handlers that are around no more get no edges. -/
theorem Advances.holds (hids : ∀ t ∈ ids, t ∈ K ∧ t ∉ raiseTargets b.frames)
    (hs : Holds ids b x s) : Holds ids b' x s :=
  hs.mono (hl.isPrefix x) fun t ht => ⟨h.neutral t (hids t ht).1 (hids t ht).2 x, hl.exits x t⟩

theorem Advances.keep {r : Region} (hids : ∀ t ∈ ids, t ∈ K ∧ t ∉ raiseTargets b.frames)
    (hr : Shown fn b r ids) : Shown fn b' r ids where
  nodup := hr.nodup
  heads := hr.heads.imp fun id h hhead => by
    obtain ⟨rest, hrest⟩ := hl.isPrefix id
    rw [← hrest, head?_append, hhead]
    rfl
  stretches := hr.stretches.imp fun _ _ => h.holds hl hids

end

theorem Good.not_raised (hb : Good W T K b) (ht : b.blocks.size ≤ t.index) : t ∉ raiseTargets b.frames :=
  fun hmem => absurd (hb.raises hmem).1 (Nat.not_lt_of_le ht)

theorem Advances.trans (hb : Good W T K b) (h : Advances fn K b E K' b') (hl : Laid T b g T' b')
    (h' : Advances fn K' b' E' K'' b'') (hl' : Laid T' b' g' T'' b'') : Advances fn K b (E.andThen E') K'' b'' := by
  have htargets : raiseTargets b'.frames = raiseTargets b.frames := hl.frames.eq raiseTargets_shape
  refine ⟨fun t ht => h'.sub t (h.sub t ht), fun t ht hnot x he => ?_, fun H hne hH st hst => ?_, fun r hr => ?_⟩
  · exact h.neutral t ht hnot x (h'.neutral t (h.sub t ht) (htargets ▸ hnot) x he)
  · refine h'.spans H hne (fun t ht => ?_) _ (h.spans H hne hH st hst)
    exact ⟨h.sub t (hH t ht).1, htargets ▸ (hH t ht).2⟩
  · rcases mem_append.1 hr with hr | hr
    -- the handlers of an inner region are new, so they are not around for what follows
    · obtain ⟨ids, hids, hshown⟩ := h.shown r hr
      refine ⟨ids, fun t ht => ⟨h'.sub t (hids t ht).1, (hids t ht).2⟩, h'.keep hl' (fun t ht => ?_) hshown⟩
      exact ⟨(hids t ht).1, htargets ▸ hb.not_raised (hids t ht).2⟩
    · obtain ⟨ids, hids, hshown⟩ := h'.shown r hr
      exact ⟨ids, fun t ht => ⟨(hids t ht).1, hl.size.trans (hids t ht).2⟩, hshown⟩

/-! ### Steps -/

theorem Stays.spans (hs : Stays b b' g) (hst : Spans H b st) : Spans H b' st := by
  cases st with
  | nil => exact hst
  | cons s st =>
    have hexits : ∀ x, ∀ t ∈ H, (t ∈ b'.exitsAt x ↔ t ∈ b.exitsAt x) := fun x t _ => by rw [hs.exits]
    refine ⟨?_, hst.2.imp fun x s' hx => ?_⟩
    · rw [hs.current]
      exact hst.1.mono (hs.isPrefix _) (hexits _)
    · exact ⟨hs.current ▸ hx.1, hs.exits x ▸ hx.2.1, hx.2.2.mono (hs.isPrefix x) (hexits x)⟩

theorem Spans.noteAll {items : List Item} (h : Spans H b st)
    (hitems : ∀ i ∈ items, i ∈ b.itemsAt b.current) : Spans H b (noteAll items st) := by
  induction items generalizing st with
  | nil => exact h
  | cons i items ih =>
    have hnote : Spans H b (note i st) := by
      cases st with
      | nil => exact h
      | cons s st =>
        refine ⟨⟨fun j hj => ?_, h.1.2⟩, h.2⟩
        rcases mem_append.1 hj with hj | hj
        · exact h.1.1 j hj
        · exact mem_singleton.1 hj ▸ hitems i mem_cons_self
    exact ih hnote fun j hj => hitems j (mem_cons_of_mem _ hj)

theorem Stays.advances (hs : Stays b b' g) {f : List Stretch → List Stretch}
    (hf : ∀ H st, Spans H b' st → Spans H b' (f st)) : Advances fn K b ⟨g, f, []⟩ K b' where
  sub _ ht := ht
  neutral _ _ _ x he := hs.exits x ▸ he
  spans H _ _ st hst := hf H st (hs.spans hst)
  shown := forall_mem_nil _

/-- Blocks that have been left are the same after the current block got edges. -/
theorem Leads.away (hl : Leads b b' targets onto) (hs : Away H b x s) : Away H b' x s := by
  obtain ⟨hx, hleft, hholds⟩ := hs
  have hexits := hl.exits_of_ne hx
  refine ⟨hl.current ▸ hx, hexits ▸ hleft, hholds.mono ?_ fun t _ => by rw [hexits]⟩
  rw [hl.items]

theorem Leads.advances (hl : Leads b b' (raiseTargets b.frames) none) :
    Advances fn K b ⟨.nothing, shield, []⟩ K b' where
  sub _ ht := ht
  neutral t _ hnot x he := by
    by_cases hx : x = b.current
    · subst hx
      exact ((hl.self t).1 he).resolve_right hnot
    · exact hl.exits_of_ne hx ▸ he
  spans H _ hH st hst := by
    cases st with
    | nil => exact hst.elim
    | cons s st =>
      refine ⟨⟨fun i hi => ?_, fun t ht => ?_⟩, hst.2.imp fun _ _ => hl.away⟩
      · rw [hl.current, hl.items]
        exact hst.1.1 i hi
      · rw [hl.current]
        exact iff_of_true ((hl.self t).2 (.inr (hH t ht).2)) rfl
  shown := forall_mem_nil _

theorem Departs.mem_exits (hd : Departs W T b b' T') (hb : Good W T K b) (ht : t ∈ K) :
    t ∈ b'.exitsAt x ↔ t ∈ b.exitsAt x := by
  obtain ⟨b₁, targets, onto, hl, hg, hstands, -⟩ := hd.leads
  rw [hg.exits]
  by_cases hx : x = b.current
  · subst hx
    rw [hl.self]
    exact or_iff_left fun hmem => (hb.stands (hstands t hmem)).2.2 ht
  · rw [hl.exits_of_ne hx]

theorem Departs.fresh (hd : Departs W T b b' T') : b'.exitsAt b'.current = [] ∧ b'.current ≠ b.current := by
  obtain ⟨b₁, targets, onto, hl, hg, -⟩ := hd.leads
  exact ⟨(hg.exits _).trans (congrArg Prod.fst hg.fresh), hl.current ▸ hg.ne⟩

theorem Departs.advances (hd : Departs W T b b' T') (hb : Good W T K b) :
    Advances fn K b .move K b' := by
  have hkeep := fun {x t} => hd.mem_exits (x := x) (t := t) hb
  have hlaid := hd.laid
  obtain ⟨hfresh, hne⟩ := hd.fresh
  refine ⟨fun _ ht => ht, fun t ht _ x he => (hkeep ht).1 he, fun H hH hcaught st hst => ?_, forall_mem_nil _⟩
  have hholds : ∀ {x s'}, Holds H b x s' → Holds H b' x s' := fun {x s'} hs =>
    hs.mono (hlaid.isPrefix x) fun t ht => hkeep (hcaught t ht).1
  cases st with
  | nil => exact hst.elim
  | cons s st =>
    -- the block that is left leads somewhere, so it is not the new one
    have hleft : b'.exitsAt b.current ≠ [] := by
      obtain ⟨b₁, targets, onto, hl, hg, -, -, hdone⟩ := hd.leads
      rw [hg.exits]
      rcases hdone with hdone | ⟨-, hall⟩
      · obtain ⟨e, he⟩ := exists_mem_of_ne_nil _ hdone
        exact ne_nil_of_mem ((hl.self e).2 (.inr he))
      · obtain ⟨t, ht⟩ := exists_mem_of_ne_nil H hH
        exact ne_nil_of_mem ((hl.self t).2 (.inl (hall t (hcaught t ht).2)))
    refine ⟨⟨forall_mem_nil _, fun t _ => ?_⟩, hst.2.cons (fun y s' hy => ⟨hy.1, ?_⟩)
      ⟨hne.symm, hleft, hholds hst.1⟩⟩
    · rw [hfresh]
      simp
    · obtain ⟨e, he⟩ := exists_mem_of_ne_nil _ hy.2.1
      have he' := hlaid.exits y e he
      exact ⟨fun heq => absurd (hfresh ▸ heq ▸ he') not_mem_nil, ne_nil_of_mem he', hholds hy.2.2⟩

/-! ### Regions -/

theorem Advances.leaveGuarded (hb : Good W T K b) (ha : Adds b b₁ .nothing (catchers ids))
    (h : Advances fn (ids ++ K) (b₁.enter (.guarded ids)) E K' b') : Advances fn K b E K' b'.leave where
  sub t ht := h.sub t (mem_append_right _ ht)
  neutral t ht hnot x he := by
    rw [← ha.exits]
    refine h.neutral t (mem_append_right _ ht) (fun hmem => ?_) x he
    rcases mem_append.1 hmem with hmem | hmem
    · exact hb.not_mem (ha.new ⟨t, [], true⟩ (mem_map_of_mem hmem)).1 ht
    · exact hnot (ha.frames ▸ hmem)
  spans H hne hH st hst := by
    refine h.spans H hne (fun t ht => ⟨mem_append_right _ (hH t ht).1, ?_⟩) st (ha.spans hst)
    exact mem_append_right _ (ha.frames.symm ▸ (hH t ht).2)
  shown r hr := by
    obtain ⟨ids', hids', hshown⟩ := h.shown r hr
    exact ⟨ids', fun t ht => ⟨(hids' t ht).1, ha.size.trans (hids' t ht).2⟩, { hshown with }⟩

/-- Nothing leads to new handlers when their region starts. -/
theorem Advances.stretches (hb : Good W T K b) (ha : Adds b b₁ .nothing (catchers ids))
    (h : Advances fn (ids ++ K) (b₁.enter (.guarded ids)) E K' b') (hne : ids ≠ []) :
    Spread (Holds ids b'.leave) (E.stretch (next [])) := by
  have hstart : Spans ids (b₁.enter (.guarded ids)) (next []) := by
    refine ⟨⟨forall_mem_nil _, fun t ht => ?_⟩, [], nodup_nil, .nil⟩
    refine iff_of_false (fun hmem => ?_) Bool.false_ne_true
    have hlt := hb.orderly.exits _ t (ha.exits _ ▸ hmem)
    exact absurd hlt (Nat.not_lt_of_le (ha.new ⟨t, [], true⟩ (mem_map_of_mem ht)).1)
  exact (h.spans ids hne (fun t ht => ⟨mem_append_left _ ht, mem_append_left _ ht⟩) _ hstart).spread

/-- A clean-up is where all exceptions go; the handlers around do not get them. -/
theorem Advances.cleanUp (hb : Good W [.empty e] K b) (h : Advances fn K (b.enter (.cleanup e [])) E K' b₁)
    (hl : Laid [] (b.enter (.cleanup e [])) g [] b₁) (hgood : Good W [.empty e] K' b₁.leave)
    (hraise : e ∈ b₁.exitsAt b.current) (hd : Departs W [.empty e] b₁.leave b' []) :
    Advances fn K b ⟨g, next, E.regions⟩ K' b' := by
  have hentry : e ∉ K := (hb.stands (stands_head (.empty e) rfl W b)).2.2
  have hlaid := hd.laid
  obtain ⟨hfresh, -⟩ := hd.fresh
  have hkeep : ∀ x, ∀ t ∈ K, (t ∈ b'.exitsAt x ↔ t ∈ b.exitsAt x) := fun x t ht => by
    rw [hd.mem_exits hgood (h.sub t ht)]
    refine ⟨h.neutral t ht (fun hmem => ?_) x, hl.exits x t⟩
    exact hentry (mem_singleton.1 hmem ▸ ht)
  have hgrown : ∀ x, b.itemsAt x <+: b'.itemsAt x := fun x => (hl.isPrefix x).trans (hlaid.isPrefix x)
  have hsub : ∀ x t, t ∈ b.exitsAt x → t ∈ b'.exitsAt x := fun x t ht => hlaid.exits x t (hl.exits x t ht)
  refine ⟨h.sub, fun t ht _ x he => (hkeep x t ht).1 he, fun H _ hH st hst => ?_, fun r hr => ?_⟩
  · have hholds : ∀ {x s}, Holds H b x s → Holds H b' x s := fun {x s} hs =>
      hs.mono (hgrown x) fun t ht => hkeep x t (hH t ht).1
    have haway : ∀ {x t}, t ∈ b'.exitsAt x → x ≠ b'.current := fun ht heq => absurd (hfresh ▸ heq ▸ ht) not_mem_nil
    cases st with
    | nil => exact hst.elim
    | cons s st =>
      refine ⟨⟨forall_mem_nil _, fun t _ => ?_⟩, hst.2.cons (fun y s' hy => ⟨hy.1, ?_⟩) ?_⟩
      · rw [hfresh]
        simp
      · obtain ⟨t, ht⟩ := exists_mem_of_ne_nil _ hy.2.1
        exact ⟨haway (hsub y t ht), ne_nil_of_mem (hsub y t ht), hholds hy.2.2⟩
      · have hmem := hlaid.exits b.current e hraise
        exact ⟨haway hmem, ne_nil_of_mem hmem, hholds hst.1⟩
  · obtain ⟨ids, hids, hshown⟩ := h.shown r hr
    have hout : ∀ t ∈ ids, t ∈ K' ∧ t ∉ raiseTargets b₁.leave.frames := fun t ht => by
      refine ⟨(hids t ht).1, ?_⟩
      rw [(hl.leave rfl).frames.eq raiseTargets_shape]
      exact hb.not_raised (hids t ht).2
    refine ⟨ids, hids, (hd.advances hgood).keep hlaid hout { hshown with }⟩

/-- **What a run does to the edges to handlers.** -/
theorem Runs.advances (h : Runs fn W T K b E T' K' b') (hb : Good W T K b) : Advances fn K b E K' b' := by
  induction h with
  | trans h h' ih ih' => exact (ih hb).trans hb h.laid (ih' (h.good hb)) h'.laid
  | rests hs hitems => exact hs.advances fun _ _ hst => hst.noteAll hitems
  | adds ha => exact ha.advances fun _ _ hst => hst
  | shields hl => exact hl.advances
  | departs hd => exact hd.advances hb
  | @restate _ _ _ _ _ _ b' _ f _ hf ih =>
    refine ⟨(ih hb).sub, (ih hb).neutral, fun H hne hH st hst => ?_, (ih hb).shown⟩
    rcases hf with hnone | hf
    · obtain ⟨t, ht⟩ := exists_mem_of_ne_nil H hne
      exact absurd (hnone ▸ (hH t ht).2) not_mem_nil
    · obtain ⟨st', heq, heq'⟩ := hf st
      have hspans := (ih hb).spans H hne hH st hst
      rw [heq] at hspans
      show Spans H b' (f st)
      rw [heq']
      exact hspans
  | loop hafter hheader _ ih =>
    have hin := ih (hb.enterLoop hafter hheader)
    refine { hin with shown := fun r hr => ?_ }
    obtain ⟨ids, hids, hshown⟩ := hin.shown r hr
    exact ⟨ids, hids, { hshown with }⟩
  | @protect W T K K₁ K' ids b b₁ b₂ b' E E' own ha hbody hrest hown ihbody ihrest =>
    have hadded := hb.addCatchers ha
    have hin := ihbody (hadded.enterGuarded rfl)
    have hlaid := hbody.laid.leave rfl
    have hgood : Good W (catchers ids) K₁ b₂.leave :=
      (hbody.good (hadded.enterGuarded rfl)).leave hadded.anchored hlaid.toKept rfl
    have hrest' := ihrest hgood
    have hall := (hin.leaveGuarded hb ha).trans hb (ha.laid_catchers.trans hlaid.beside) hrest' hrest.laid
    refine { hall with shown := fun r hr => (mem_append.1 hr).elim (fun hr => ?_) (hall.shown r) }
    -- what follows the body does not concern its handlers any more
    obtain ⟨hne, hstart, hstretches⟩ := hown r hr
    have hnew : ∀ t ∈ ids, b.blocks.size ≤ t.index := fun t ht => (ha.new ⟨t, [], true⟩ (mem_map_of_mem ht)).1
    have hout : ∀ t ∈ ids, t ∈ K₁ ∧ t ∉ raiseTargets b₂.leave.frames := fun t ht => by
      refine ⟨hin.sub t (mem_append_left _ ht), ?_⟩
      rw [hlaid.frames.eq raiseTargets_shape, ha.frames]
      exact hb.not_raised (hnew t ht)
    refine ⟨ids, fun t ht => ⟨hrest'.sub t (hout t ht).1, hnew t ht⟩, ?_, hstart, ?_⟩
    · have hnodup := ha.nodup
      rwa [catchers, map_map, show Ready.id ∘ (fun id => (⟨id, [], true⟩ : Ready)) = id from rfl, map_id] at hnodup
    · rw [hstretches]
      exact (hin.stretches hb ha hne).imp fun _ _ => hrest'.holds hrest.laid hout
  | cleanup h hraise hd ih =>
    have hinner := hb.enterCleanup rfl
    have hgood := (h.good hinner).leave hb.anchored (h.laid.leave rfl).toKept rfl
    exact (ih hinner).cleanUp hb h.laid hgood hraise hd
  | aside _ ih =>
    exact ih (hb.shift (append_assoc _ _ _) (hb.anchored.imp (fun _ => mem_append_right _) (.refl _)))

end FlowTyping.Flow.Builder
