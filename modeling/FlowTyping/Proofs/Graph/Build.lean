/-
Every operation on a graph leaves it valid and settled, and takes nothing back.

A graph is sound if it is valid, all value nodes are quiet, and nobody waits except for shared
constants, which have nothing to work out.  An operation changes a rule, a set or a table and
schedules or tells those whom it concerns; propagation then makes the graph sound again
(`propagate_sound`).  A later graph has all that an earlier one has (`Later`), so whoever has been
given a number can go on using it.  For each operation one lemma says both (`Reached`).
-/
import FlowTyping.Proofs.Graph.Termination

namespace FlowTyping.Graph

open List

variable {g g' : Graph} {D E : NodeId → Prop} {id input node : NodeId} {info : ClassInfo}
  {c : ClassId} {modules : Array ModuleInfo} {t : Ty} {r rule : Rule} {types : TypeSet}
  {values : List Incoming} {bases : List NodeId}

/-! ### Sound graphs -/

def Settled (g : Graph) : Prop := ∀ id r, g.rule? id = some r → g.IsValue r → g.Quiet id r

/-- A valid graph that has come to rest. -/
structure Sound (g : Graph) : Prop where
  valid : g.Valid
  settled : g.Settled
  idle : ∀ id ∈ g.worklist, ∃ t, (t, id) ∈ g.constants

theorem Settled.covered (h : g.Settled) : g.Covered nobody nobody :=
  fun id r hr hvalue => .inr (.inr (.inr (h id r hr hvalue)))

theorem Covered.settled (h : g.Covered nobody nobody) (hw : g.worklist = []) : g.Settled := by
  intro id r hr hvalue
  rcases h id r hr hvalue with hE | hwait | ⟨d, hd, -⟩ | hquiet
  · exact absurd hE not_false
  · rw [hw] at hwait
    exact absurd hwait not_mem_nil
  · exact absurd hd not_false
  · exact hquiet

/-! ### Later graphs -/

/-- Nothing in the first graph is taken back in the second, which may have more of everything. -/
structure Later (g g' : Graph) : Prop where
  size : g.nodes.size ≤ g'.nodes.size
  types : ∀ id t, t ∈ g.types id → t ∈ g'.types id
  dependents : ∀ id d, d ∈ g.dependents id → d ∈ g'.dependents id
  rules : ∀ id r, g.rule? id = some r → ∃ r', g'.rule? id = some r' ∧ r.Extends r'
  lines : ∀ id, g.HasNode id → g'.line id = g.line id
  classes : ∀ c info, g.class? c = some info → ∃ info', g'.class? c = some info' ∧ info.Kept info'
  functions : ∀ f info, g.function? f = some info → g'.function? f = some info
  modules : ∀ m info, g.module? m = some info → ∃ info', g'.module? m = some info' ∧ info.Kept info'
  unboundAsNone : g'.unboundAsNone = g.unboundAsNone

theorem size_le_of_getElem? {α β : Type} {xs : Array α} {ys : Array β}
    (h : ∀ (i : Nat) a, xs[i]? = some a → ∃ b, ys[i]? = some b) : xs.size ≤ ys.size := by
  by_contra hlt
  obtain ⟨b, hb⟩ := h ys.size _ (Array.getElem?_eq_getElem (lt_of_not_ge hlt))
  exact lt_irrefl _ (Array.getElem?_eq_some_iff.1 hb).1

namespace Later

theorem of_extends (h : Extends g g') : Later g g' := by
  refine ⟨h.size, h.types, h.dependents, h.rules, h.lines, fun c info hc => ?_, fun f info hf => ?_,
    fun m info hm => ⟨info, ?_, .refl info⟩, h.unboundAsNone⟩
  · obtain ⟨info', hc', hext⟩ := h.classes c info hc
    exact ⟨info', hc', hext.kept⟩
  · rw [function?, h.functions]
    exact hf
  · rw [module?, h.modules]
    exact hm

theorem refl (g : Graph) : Later g g := of_extends (.refl g)

theorem trans {g'' : Graph} (h : Later g g') (h' : Later g' g'') : Later g g'' := by
  refine ⟨le_trans h.size h'.size, fun id t ht => h'.types id t (h.types id t ht),
    fun id d hd => h'.dependents id d (h.dependents id d hd), fun id r hr => ?_, fun id hid => ?_,
    fun c info hc => ?_, fun f info hf => h'.functions f info (h.functions f info hf),
    fun m info hm => ?_, h'.unboundAsNone.trans h.unboundAsNone⟩
  · obtain ⟨r', hr', hext⟩ := h.rules id r hr
    obtain ⟨r'', hr'', hext'⟩ := h'.rules id r' hr'
    exact ⟨r'', hr'', hext.trans hext'⟩
  · exact (h'.lines id (lt_of_lt_of_le hid h.size)).trans (h.lines id hid)
  · obtain ⟨info', hc', hkept⟩ := h.classes c info hc
    obtain ⟨info'', hc'', hkept'⟩ := h'.classes c info' hc'
    exact ⟨info'', hc'', hkept.trans hkept'⟩
  · obtain ⟨info', hm', hkept⟩ := h.modules m info hm
    obtain ⟨info'', hm'', hkept'⟩ := h'.modules m info' hm'
    exact ⟨info'', hm'', hkept.trans hkept'⟩

theorem of_classes {classes : Array ClassInfo} (h : ∀ c info, g.class? c = some info →
      ∃ info', classes[c.index]? = some info' ∧ info.Kept info') : Later g { g with classes } := by
  refine ⟨le_rfl, fun _ _ ht => ht, fun _ _ hd => hd, fun _ r hr => ⟨r, hr, .refl r⟩,
    fun _ _ => rfl, h, fun _ _ hf => hf, fun m info hm => ⟨info, hm, .refl info⟩, rfl⟩

theorem modifyClass {f : ClassInfo → ClassInfo} (hf : ∀ info : ClassInfo, info.Kept (f info)) :
    Later g (g.modifyClass c f) := by
  apply of_classes
  intro d info hd
  have hclass := class?_modifyClass g c d f
  rw [hd] at hclass
  split at hclass
  · exact ⟨f info, hclass, hf info⟩
  · exact ⟨info, hclass, (ClassInfo.Extends.refl info).kept⟩

theorem of_modules (h : ∀ (m : ModuleId) (info : ModuleInfo), g.module? m = some info →
      ∃ info', modules[m.index]? = some info' ∧ info.Kept info') : Later g { g with modules } := by
  refine ⟨le_rfl, fun _ _ ht => ht, fun _ _ hd => hd, fun _ r hr => ⟨r, hr, .refl r⟩,
    fun _ _ => rfl, fun c info hc => ⟨info, hc, (ClassInfo.Extends.refl info).kept⟩,
    fun _ _ hf => hf, h, rfl⟩

theorem hasNode {id : NodeId} (h : Later g g') (hid : g.HasNode id) : g'.HasNode id :=
  lt_of_lt_of_le hid h.size

theorem classCount (h : Later g g') : g.classes.size ≤ g'.classes.size :=
  size_le_of_getElem? fun i info hc => (h.classes ⟨i⟩ info hc).imp fun _ => And.left

theorem functionCount (h : Later g g') : g.functions.size ≤ g'.functions.size :=
  size_le_of_getElem? fun i info hf => ⟨info, h.functions ⟨i⟩ info hf⟩

theorem moduleCount (h : Later g g') : g.modules.size ≤ g'.modules.size :=
  size_le_of_getElem? fun i info hm => (h.modules ⟨i⟩ info hm).imp fun _ => And.left

theorem hasType (h : Later g g') (ht : g.HasType t) : g'.HasType t :=
  ht.mono h.classCount h.functionCount h.moduleCount

end Later

/-- A sound graph in which nothing of another one is taken back. -/
structure Reached (g g' : Graph) : Prop where
  sound : g'.Sound
  later : Later g g'

theorem Sound.reached (h : g.Sound) : Reached g g := ⟨h, .refl g⟩

/-! ### Propagation -/

theorem sound_empty (unboundAsNone : Bool) : (Graph.empty unboundAsNone).Sound := by
  refine ⟨valid_empty unboundAsNone, fun id r hr => ?_, fun id hid => ?_⟩
  · have hnode := hasNode_of_rule? hr
    simp [HasNode, Graph.empty] at hnode
  · cases hid

theorem drain_extends (fuel : Nat) (hv : g.Valid) : Extends g (drain fuel g) := by
  refine (drain_induction (P := fun k => k.Valid ∧ Extends g k) (fun k id rest hw hk => ?_) fuel
    ⟨hv, .refl g⟩).2
  exact ⟨hk.1.turn hw, hk.2.trans (turn_extends hk.1 hw)⟩

/-- **Propagation settles a graph** in which everything out of step waits. -/
theorem propagate_sound (hv : g.Valid) (h : g.Covered nobody nobody) : g.propagate.Sound := by
  obtain ⟨hv', h'⟩ := drain_covered g.budget hv h
  have hempty := propagate_worklist hv
  refine ⟨hv', h'.settled hempty, fun id hid => ?_⟩
  rw [hempty] at hid
  cases hid

theorem Later.propagate (h : Later g g') (hv : g'.Valid) : Later g g'.propagate :=
  h.trans (.of_extends (drain_extends _ hv))

/-- What an operation has made of a graph when waiting nodes are still to be worked out: nothing is
taken back, and whatever is out of step waits. -/
structure Prepared (g g' : Graph) : Prop where
  valid : g'.Valid
  covered : g'.Covered nobody nobody
  later : Later g g'

theorem Prepared.reached (h : Prepared g g') : Reached g g'.propagate :=
  ⟨propagate_sound h.valid h.covered, h.later.propagate h.valid⟩

/-- An operation that announces all its changes. -/
theorem Sound.prepared (h : g.Sound) (hv : g'.Valid) (hframe : Frame g g' nobody)
    (hlater : Later g g') : Prepared g g' :=
  ⟨hv, h.settled.covered.frame h.valid hframe, hlater⟩

/-- A node stays quiet as long as all that it reads stays. -/
theorem Quiet.of_agree (h : g.Quiet id r) (hv : g.Valid) (hvalue : g.IsValue r)
    (hagree : Agree g g' (g.Reads r)) (hdep : ∀ b d, d ∈ g.dependents b → d ∈ g'.dependents b)
    (hgrows : ∀ b t, t ∈ g.types b → t ∈ g'.types b) : g'.Quiet id r := by
  intro f hf
  rw [find?_agree hv.types hvalue hagree] at hf
  obtain ⟨hwatch, htypes⟩ := h f hf
  exact ⟨fun w hw => hdep w id (hwatch w hw), fun t ht => hgrows id t (htypes t ht)⟩

/-! ### Nodes -/

theorem Sound.prepared_push (h : g.Sound) (line : Nat) (hs : ∀ s ∈ rule.sources, g.HasNode s)
    (hvalue : ∀ object attr value, rule = .write object attr value → g.HasNode value)
    (hmembers : ∀ c, rule ≠ .members c) : Prepared g (g.push rule line).2 :=
  h.prepared (h.valid.push line hs hvalue hmembers) (.push g rule line)
    (.of_extends (.push g rule line))

theorem Sound.prepared_connect (h : g.Sound) (hin : g.HasNode input) (id : NodeId) :
    Prepared g (g.connect id input) := by
  have hmoves : Moves nobody g (g.connect id input) := moves_connect hin id
  exact ⟨hmoves.valid h.valid, h.settled.covered.moves h.valid hmoves, .of_extends hmoves.extends⟩

theorem Frame.putTypes (g : Graph) (id : NodeId) (types : TypeSet) :
    Frame g (g.putTypes id types) (fun d => D d ∨ d = id) := by
  refine .of_classes (.putTypes g id types) rfl (fun _ h => h) (fun b q hq => .inr ?_) (fun b => ?_)
  · rw [rule?_putTypes] at hq
    exact hq
  · by_cases hb : b = id
    · exact .inr (.inl (.inr hb))
    · exact .inl (types_putTypes_of_ne hb)

/-- The graph with types put into a node, whose dependents wait if the set has grown. -/
def withTypes (g : Graph) (id : NodeId) (types : TypeSet) : Graph :=
  if types.isSubset (g.types id) then g else (g.putTypes id types).touch id

theorem seed_eq (g : Graph) (id : NodeId) (types : TypeSet) :
    g.seed id types = (g.withTypes id types).propagate := by
  rw [Graph.seed, withTypes]
  split <;> rfl

theorem Sound.prepared_withTypes (h : g.Sound) (id : NodeId)
    (hT : ∀ t ∈ types, g.HasType t) : Prepared g (g.withTypes id types) := by
  rw [withTypes]
  split
  · exact ⟨h.valid, h.settled.covered, .refl g⟩
  · refine h.prepared ((h.valid.putTypes id hT).touch id) (Frame.putTypes g id types).pay ?_
    exact .of_extends ((Extends.putTypes g id types).trans (.touch _ id))

theorem Valid.withConstant (h : g.Valid) (hid : g.HasNode id) :
    { g with constants := (t, id) :: g.constants }.Valid := by
  refine { h with
    classes := fun c info hc => { h.classes c info hc with }, modules := fun m info hm => { h.modules m info hm with }
    constants := fun e he => ?_ }
  rcases mem_cons.1 he with rfl | he
  · exact hid
  · exact h.constants e he

/-- The graph with a new node, which has one type and which nobody knows. -/
def withNode (g : Graph) (rule : Rule) (line : Nat) (t : Ty) : Graph :=
  (g.push rule line).2.putTypes g.next (.single t)

def withConstant (g : Graph) (t : Ty) : Graph :=
  { g.withNode (.plain []) 0 t with constants := (t, g.next) :: (g.push (.plain []) 0).2.constants }

theorem hasNode_add (g : Graph) (rule : Rule) (line : Nat) (hv : (g.push rule line).2.Valid) :
    (g.add rule line).2.HasNode (g.add rule line).1 := by
  have hext := drain_extends (g.push rule line).2.budget hv
  exact hext.hasNode (g.hasNode_push_next rule line)

theorem Quiet.not_reads_next (h : g.Quiet id r) (hv : g.Valid)
    (hr : g.rule? id = some r) : ¬ g.Reads r g.next := fun hreads =>
  g.not_hasNode_next (hasNode_of_mem_dependents (h.hears hv hr hreads))

section

variable {rule : Rule} {line : Nat} {t u : Ty}

theorem mem_types_withNode :
    u ∈ (g.withNode rule line t).types b ↔ u ∈ g.types b ∨ (b = g.next ∧ u = t) := by
  rw [withNode, mem_types_putTypes, types_push, TypeSet.mem_single]
  exact or_congr_right ⟨fun hb => hb.2, fun hb => ⟨hasNode_push_next g _ line, hb⟩⟩

theorem types_withNode_of_ne (hb : b ≠ g.next) : (g.withNode rule line t).types b = g.types b :=
  TypeSet.ext fun _ => mem_types_withNode.trans (or_iff_left fun h => hb h.1)

variable (g rule line t)

theorem types_withNode_next : (g.withNode rule line t).types g.next = .single t := by
  ext u
  rw [mem_types_withNode, types_of_not_hasNode g.not_hasNode_next]
  simp

theorem rule?_withNode (b : NodeId) :
    (g.withNode rule line t).rule? b = if b = g.next then some rule else g.rule? b := by
  rw [withNode, rule?_putTypes, rule?_push]

theorem Extends.withNode : Extends g (g.withNode rule line t) :=
  (Extends.push g rule line).trans (.putTypes _ g.next (.single t))

theorem Frame.withNode : Frame g (g.withNode rule line t) D := by
  refine .of_classes (.withNode g rule line t) (classes_push g rule line) (fun b hb => ?_) (fun b r hr => ?_) fun b => ?_
  · exact mem_worklist_push.2 (.inl hb)
  · rw [rule?_withNode] at hr
    split at hr
    · next hb => exact .inl (mem_worklist_push.2 (.inr hb))
    · exact .inr hr
  · by_cases hb : b = g.next
    · -- nobody has heard of the new node
      refine .inr (.inr fun d hd => ?_)
      exact absurd (hb ▸ hasNode_of_mem_dependents hd) g.not_hasNode_next
    · exact .inl (types_withNode_of_ne hb)

theorem classes_withConstant : (g.withConstant t).classes = g.classes := classes_push g (.plain []) 0

theorem constants_withConstant : (g.withConstant t).constants = (t, g.next) :: g.constants :=
  congrArg _ (Extends.push g (.plain []) 0).constants

theorem rule?_withConstant (b : NodeId) :
    (g.withConstant t).rule? b = if b = g.next then some (.plain []) else g.rule? b :=
  rule?_withNode g (.plain []) 0 t b

theorem types_withConstant_next : (g.withConstant t).types g.next = .single t := types_withNode_next g (.plain []) 0 t

variable {g t}

theorem mem_types_withConstant : u ∈ (g.withConstant t).types b ↔ u ∈ g.types b ∨ (b = g.next ∧ u = t) :=
  mem_types_withNode

theorem types_withConstant_of_ne (hb : b ≠ g.next) : (g.withConstant t).types b = g.types b := types_withNode_of_ne hb

end

theorem Later.withConstant (g : Graph) (t : Ty) : Later g (g.withConstant t) :=
  { Later.of_extends (.withNode g (.plain []) 0 t) with }

theorem Frame.withConstant (g : Graph) (t : Ty) : Frame g (g.withConstant t) D :=
  { Frame.withNode g (.plain []) 0 t with }

theorem Sound.withConstant (h : g.Sound) (hT : g.HasType t) : (g.withConstant t).Sound := by
  have hpush : (g.push (.plain []) 0).2.Valid :=
    h.valid.push 0 (fun s hs => absurd hs not_mem_nil) (fun _ _ _ he => by cases he)
      (fun _ he => by cases he)
  have hnext := hasNode_push_next g (.plain []) 0
  have hput : ((g.push (.plain []) 0).2.putTypes g.next (.single t)).Valid := by
    apply hpush.putTypes
    intro u hu
    rw [TypeSet.mem_single.1 hu]
    exact (Later.of_extends (.push g _ 0)).hasType hT
  refine ⟨?_, fun id r hr hvalue => ?_, fun id hid => ?_⟩
  · exact hput.withConstant ((hasNode_modifyNode _ _ _ _).2 hnext)
  · rw [rule?_withConstant] at hr
    split at hr
    · cases hr
      intro f hf
      cases hf
      exact ⟨fun w hw => absurd hw not_mem_nil, fun u hu => absurd hu (TypeSet.not_mem_empty u)⟩
    · have hgrows : ∀ b u, u ∈ g.types b → u ∈ (g.withConstant t).types b := fun _ _ hu =>
        mem_types_withConstant.2 (.inl hu)
      have hvalue' : g.IsValue r := hvalue.of_grows hgrows
      have hquiet := h.settled id r hr hvalue'
      obtain ⟨hclass, hmember, -, hany⟩ := tables_congr (classes_withConstant g t)
      refine hquiet.of_agree h.valid hvalue' ⟨fun w hw => ?_, fun c _ => ?_, fun c info _ _ => ?_,
        fun f _ => ?_, ?_⟩ (fun b d hd => ?_) hgrows
      · have hne : w ≠ g.next := by
          rintro rfl
          exact hquiet.not_reads_next h.valid hr hw
        exact types_withConstant_of_ne hne
      · rw [Graph.classNodes, Graph.classNodes, hclass]
      · rw [hmember, hany]
        exact ⟨rfl, rfl⟩
      · show (g.push (.plain []) 0).2.function? f = g.function? f
        rw [function?, function?, (Extends.push g _ 0).functions]
      · exact (Extends.push g _ 0).unboundAsNone
      · exact (Later.withConstant g t).dependents b d hd
  · have hid' : id ∈ (g.push (.plain []) 0).2.worklist := hid
    rcases mem_worklist_push.1 hid' with hid | rfl
    · obtain ⟨u, hu⟩ := h.idle id hid
      exact ⟨u, constants_withConstant g t ▸ mem_cons_of_mem _ hu⟩
    · exact ⟨t, mem_cons_self⟩

theorem constant_cases (g : Graph) (t : Ty) :
    (∃ id, (t, id) ∈ g.constants ∧ g.constant t = (id, g)) ∨
      g.constant t = (g.next, g.withConstant t) := by
  unfold constant
  split
  · next id h => exact .inl ⟨id, mem_of_lookup_eq_some h, rfl⟩
  · exact .inr rfl

theorem Sound.constant (h : g.Sound) (hT : g.HasType t) : Reached g (g.constant t).2 := by
  rcases constant_cases g t with ⟨id, -, heq⟩ | heq
  · rw [heq]
    exact h.reached
  · rw [heq]
    exact ⟨h.withConstant hT, .withConstant g t⟩

/-! ### Merges -/

/-- What a merge has after some values have been added to it. -/
structure MergeGrown (g g' : Graph) (id : NodeId) : Prop where
  valid : g'.Valid
  grown : Extends g g'
  types : g'.types = g.types
  classes : g'.classes = g.classes
  rules : ∀ b, b ≠ id → g'.rule? b = g.rule? b
  worklist : g'.worklist = g.worklist

theorem mergeGrown_addIncoming {value : Incoming} (hv : g.Valid) (id : NodeId)
    (hvalue : ∀ n, value = .value n → g.HasNode n) : MergeGrown g (addIncoming id g value) id := by
  unfold addIncoming
  split
  · next incoming hr =>
    split
    · exact ⟨hv, .refl g, rfl, rfl, fun _ _ => rfl, rfl⟩
    · have hext : Extends g (g.setRule id (.merge (incoming ++ [value]))) :=
        .setRule hr (.merge fun i hi => mem_append_left _ hi)
      have hrules : ∀ b, b ≠ id →
          (g.setRule id (.merge (incoming ++ [value]))).rule? b = g.rule? b := by
        intro b hb
        rw [rule?_setRule, if_neg hb.symm]
      cases value with
      | value source =>
        have hk : ([source].foldl (fun g s => g.subscribe id s)
            (g.setRule id (.merge (incoming ++ [.value source])))).Valid := by
          refine hv.replaceRule hr trivial trivial (fun s hs => ?_) fun s hs => ?_
          · simpa [Rule.sources, filterMap_append] using hs
          · rw [mem_singleton.1 hs]
            exact hvalue source rfl
        have hsame := Same.subscribe (g.setRule id (.merge (incoming ++ [.value source]))) id source
        refine ⟨hk, hext.trans (.subscribe _ id source), ?_, rfl, fun b hb => ?_, rfl⟩
        · exact hsame.types.trans (types_setRule g id _)
        · exact (congrFun hsame.rule? b).trans (hrules b hb)
      | unbound =>
        have hk : (([] : List NodeId).foldl (fun g s => g.subscribe id s)
            (g.setRule id (.merge (incoming ++ [.unbound])))).Valid := by
          refine hv.replaceRule hr trivial trivial (fun s hs => .inl ?_) fun s hs => absurd hs
            not_mem_nil
          simpa [Rule.sources, filterMap_append] using hs
        exact ⟨hk, hext, types_setRule g id _, rfl, hrules, rfl⟩
  · exact ⟨hv, .refl g, rfl, rfl, fun _ _ => rfl, rfl⟩

theorem mergeGrown_foldl (hv : g.Valid) (id : NodeId)
    (hvalues : ∀ n, .value n ∈ values → g.HasNode n) :
    MergeGrown g (values.foldl (addIncoming id) g) id := by
  induction values generalizing g with
  | nil => exact ⟨hv, .refl g, rfl, rfl, fun _ _ => rfl, rfl⟩
  | cons value values ih =>
    have hfirst : MergeGrown g (addIncoming id g value) id :=
      mergeGrown_addIncoming hv id fun n hn => hvalues n (hn ▸ mem_cons_self)
    have hrest := ih hfirst.valid fun n hn =>
      hfirst.grown.hasNode (hvalues n (mem_cons_of_mem _ hn))
    exact ⟨hrest.valid, hfirst.grown.trans hrest.grown, hrest.types.trans hfirst.types,
      hrest.classes.trans hfirst.classes,
      fun b hb => (hrest.rules b hb).trans (hfirst.rules b hb),
      hrest.worklist.trans hfirst.worklist⟩

theorem Frame.incoming (hv : g.Valid) (hvalues : ∀ n, .value n ∈ values → g.HasNode n) :
    Frame g ((values.foldl (addIncoming id) g).schedule id) D := by
  have hgrown := mergeGrown_foldl hv id hvalues
  generalize values.foldl (addIncoming id) g = k at hgrown ⊢
  have hsame := Same.schedule k id
  refine .of_classes (hgrown.grown.trans (.schedule k id)) (hsame.classes.trans hgrown.classes)
    (fun b hb => ?_) (fun b r hr => ?_) (fun b => .inl ?_)
  · exact mem_worklist_schedule.2 (.inl (hgrown.worklist ▸ hb))
  · by_cases hb : b = id
    · exact .inl (mem_worklist_schedule.2 (.inr hb))
    · rw [hsame.rule?, hgrown.rules b hb] at hr
      exact .inr hr
  · rw [hsame.types, hgrown.types]

theorem Sound.prepared_incoming (h : g.Sound) (hid : g.HasNode id)
    (hvalues : ∀ n, .value n ∈ values → g.HasNode n) :
    Prepared g ((values.foldl (addIncoming id) g).schedule id) := by
  have hgrown := mergeGrown_foldl h.valid id hvalues
  exact h.prepared (hgrown.valid.schedule (hgrown.grown.hasNode hid)) (.incoming h.valid hvalues)
    (.of_extends (hgrown.grown.trans (.schedule _ id)))

theorem Sound.addToMerge (h : g.Sound) (hid : g.HasNode id)
    (hvalues : ∀ n, .value n ∈ values → g.HasNode n) : Reached g (g.addToMerge id values) := by
  unfold Graph.addToMerge
  split
  · exact (h.prepared_incoming hid hvalues).reached
  · exact h.reached

/-! ### Classes -/

/-- The graph with a new class, before anything is worked out. -/
def withClass (g : Graph) (name : String) (line : Nat) : Graph :=
  { g.withNode (.members ⟨g.classes.size⟩) line (.classObject ⟨g.classes.size⟩) with
    classes := (g.push (.members ⟨g.classes.size⟩) line).2.classes.push
      ⟨name, g.next, [], .empty, false, []⟩ }

section

variable (g) (name : String) (line : Nat) {b : NodeId}

theorem rule?_withClass (b : NodeId) : (g.withClass name line).rule? b =
      if b = g.next then some (.members ⟨g.classes.size⟩) else g.rule? b :=
  rule?_withNode g _ line _ b

theorem types_withClass_of_ne (hb : b ≠ g.next) : (g.withClass name line).types b = g.types b := types_withNode_of_ne hb

theorem types_withClass_next : (g.withClass name line).types g.next = .single (.classObject ⟨g.classes.size⟩) :=
  types_withNode_next g _ line _

theorem dependents_withClass : (g.withClass name line).dependents = g.dependents := by
  show ((g.push (.members ⟨g.classes.size⟩) line).2.putTypes g.next _).dependents = _
  have hsame : (g.push (.members ⟨g.classes.size⟩) line).2.dependents =
      (g.append (.members ⟨g.classes.size⟩) line).dependents := by
    rw [push_eq, schedule_eq]
    rfl
  rw [dependents_putTypes, hsame, dependents_append]

theorem mem_worklist_withClass :
    b ∈ (g.withClass name line).worklist ↔ b ∈ g.worklist ∨ b = g.next := mem_worklist_push

theorem class?_withClass (c : ClassId) : (g.withClass name line).class? c =
      if c.index = g.classes.size then some ⟨name, g.next, [], .empty, false, []⟩
      else g.class? c := by
  show ((g.push (.members ⟨g.classes.size⟩) line).2.classes.push
    ⟨name, g.next, [], .empty, false, []⟩)[c.index]? = _
  rw [classes_push, Array.getElem?_push, class?]

theorem classes_withClass :
    (g.withClass name line).classes = g.classes.push ⟨name, g.next, [], .empty, false, []⟩ :=
  congrArg (fun cs : Array ClassInfo => cs.push ⟨name, g.next, [], .empty, false, []⟩)
    (classes_push g _ line)

theorem hasNode_withClass : (g.withClass name line).HasNode b ↔ g.HasNode b ∨ b = g.next := by
  show ((g.push (.members ⟨g.classes.size⟩) line).2.putTypes g.next _).HasNode b ↔ _
  rw [putTypes, hasNode_modifyNode, (Same.push g _ line).hasNode, hasNode_append]

end

/-- A class with its node, which nobody knows yet. -/
theorem Valid.withClass (h : g.Valid) (name : String) (line : Nat) :
    (g.withClass name line).Valid := by
  have hext := Extends.withNode g (.members ⟨g.classes.size⟩) line (.classObject ⟨g.classes.size⟩)
  have hsize : (g.withClass name line).classes.size = g.classes.size + 1 := by
    rw [classes_withClass, Array.size_push]
  have hnew : ∀ c info, g.class? c = some info → c.index ≠ g.classes.size := fun c info hc =>
    ne_of_lt (Array.getElem?_eq_some_iff.1 hc).1
  have hclasses : (g.withNode (.members ⟨g.classes.size⟩) line (.classObject ⟨g.classes.size⟩)).classes = g.classes :=
    classes_push g _ line
  have htables := h.toTablesValid.mono hclasses hext.functions hext.modules hext.constants
    (fun _ => hext.hasNode) hext.dependents
  refine ⟨⟨fun c info hc => ?_, htables.functions, fun m info hm => { htables.modules m info hm with }, htables.constants⟩,
    fun b r hr s hs => ?_, fun b object attr value hr => ?_, fun b d hd => ?_, fun b hb => ?_, ?_,
    fun b c => ?_, fun b t ht => ?_⟩
  · rw [class?_withClass] at hc
    split at hc
    · cases hc
      exact ⟨fun e he => absurd he not_mem_nil, fun p hp => absurd hp not_mem_nil,
        fun b hb => absurd hb not_mem_nil⟩
    · exact { htables.classes c info (by rwa [class?, hclasses]) with }
  · rw [rule?_withClass] at hr
    rw [dependents_withClass]
    split at hr
    · cases hr
      exact absurd hs not_mem_nil
    · exact h.heard b r hr s hs
  · rw [rule?_withClass] at hr
    split at hr
    · cases hr
    · exact hext.hasNode (h.values b object attr value hr)
  · rw [dependents_withClass] at hd
    exact hext.hasNode (h.dependents b d hd)
  · exact (hasNode_withClass g name line).2
      (((mem_worklist_withClass g name line).1 hb).imp_left (h.worklist b))
  · show (g.push (.members ⟨g.classes.size⟩) line).2.worklist.Nodup
    rw [push_eq, schedule_eq]
    exact nodup_enqueue h.nodup g.next
  · rw [rule?_withClass, class?_withClass]
    split
    · next hb =>
      -- the new node belongs to the new class and to no other
      split
      · next hc =>
        obtain ⟨i⟩ := c
        cases hc
        exact ⟨fun _ => ⟨_, rfl, hb.symm⟩, fun _ => rfl⟩
      · next hc =>
        refine ⟨fun hr => ?_, ?_⟩
        · cases hr
          exact absurd rfl hc
        · rintro ⟨info, hinfo, rfl⟩
          exact absurd (hb ▸ h.hasNode_class hinfo) g.not_hasNode_next
    · next hb =>
      split
      · next hc =>
        refine ⟨fun hr => ?_, ?_⟩
        · obtain ⟨info, hinfo, -⟩ := (h.owner b c).1 hr
          exact absurd hc (hnew c info hinfo)
        · rintro ⟨info, hinfo, rfl⟩
          cases hinfo
          exact absurd rfl hb
      · exact h.owner b c
  · by_cases hb : b = g.next
    · subst hb
      rw [types_withClass_next, TypeSet.mem_single] at ht
      rw [ht]
      show g.classes.size < _
      rw [hsize]
      exact Nat.lt_succ_self _
    · rw [types_withClass_of_ne g name line hb] at ht
      exact (h.types b t ht).mono (hsize ▸ Nat.le_succ _) (congrArg _ hext.functions).ge (congrArg _ hext.modules).ge

theorem Frame.pushClass (g : Graph) (info : ClassInfo) : Frame g { g with classes := g.classes.push info } D := by
  have hold : ∀ c : ClassId, c.index < g.classes.size →
      { g with classes := g.classes.push info }.class? c = g.class? c := by
    intro c hc
    rw [class?, Array.getElem?_push, if_neg (ne_of_lt hc), class?]
  refine ⟨fun _ hb => hb, fun _ _ hd => hd, fun _ _ ht => ht, fun _ _ hr => .inr hr,
    fun _ => .inl rfl, fun c hc => ?_, fun c info hc => .inl ⟨?_, ?_⟩, fun _ _ => rfl, rfl⟩
  · rw [Graph.classNodes, Graph.classNodes, hold c hc]
  · funext n
    rw [member?, member?, hold c (Array.getElem?_eq_some_iff.1 hc).1]
  · rw [anyBased, anyBased, hold c (Array.getElem?_eq_some_iff.1 hc).1]

theorem Frame.withClass (g : Graph) (name : String) (line : Nat) : Frame g (g.withClass name line) D :=
  (Frame.withNode g _ line _).trans (.pushClass _ _)

theorem Later.withClass (g : Graph) (name : String) (line : Nat) : Later g (g.withClass name line) := by
  have hext := Extends.withNode g (.members ⟨g.classes.size⟩) line (.classObject ⟨g.classes.size⟩)
  refine (Later.of_extends hext).trans (.of_classes fun c info hc => ⟨info, ?_, ?_⟩)
  · rw [Array.getElem?_push, if_neg]
    · exact hc
    · exact ne_of_lt (Array.getElem?_eq_some_iff.1 hc).1
  · exact (ClassInfo.Extends.refl info).kept

theorem Sound.prepared_withClass (h : g.Sound) (name : String) (line : Nat) :
    Prepared g (g.withClass name line) :=
  h.prepared (h.valid.withClass name line) (.withClass g name line) (.withClass g name line)

/-- The graph in which a class, with the given node, has other bases. -/
def withBases (g : Graph) (c : ClassId) (node : NodeId) (bases : List NodeId) : Graph :=
  ((bases.foldl (fun g base => g.subscribe node base) g).modifyClass c fun info =>
    { info with bases }).schedule node

theorem setBases_eq (hc : g.class? c = some info) (bases : List NodeId) :
    g.setBases c bases = (g.withBases c info.node bases).propagate := by
  rw [Graph.setBases, hc]
  rfl

theorem Frame.withBases (g : Graph) (c : ClassId) (node : NodeId) (bases : List NodeId) :
    Frame g (g.withBases c node bases) D := by
  rw [Graph.withBases]
  set k := bases.foldl (fun g base => g.subscribe node base) g with hk
  have hsubscribe : Frame g k D := by
    refine .of_same (Same.foldl (fun g b => Same.subscribe g node b) _ _) (fun b d hd => ?_) fun b hb => ?_
    · exact mem_dependents_foldl_subscribe.2 (.inl hd)
    · rw [hk, worklist_foldl_subscribe]
      exact hb
  have hchange : Frame k (k.modifyClass c fun info => { info with bases }) D :=
    .modifyClass (fun _ => rfl) fun _ _ => .inl ⟨rfl, rfl⟩
  refine (hsubscribe.trans hchange).trans
    (.of_same (.schedule _ _) (fun b d hd => ?_) fun b hb => ?_)
  · rw [schedule_eq]
    exact hd
  · exact mem_worklist_schedule.2 (.inl hb)

theorem Sound.prepared_withBases (h : g.Sound)
    (hc : g.class? c = some info) (hbases : ∀ b ∈ bases, g.HasNode b) :
    Prepared g (g.withBases c info.node bases) := by
  have hnode := h.valid.hasNode_class hc
  refine h.prepared ?_ (.withBases g c info.node bases) ?_
  all_goals
    rw [withBases]
    set k := bases.foldl (fun g base => g.subscribe info.node base) g with hk
  · have hsame : Same g k := Same.foldl (fun g b => Same.subscribe g info.node b) _ _
    have hkv : k.Valid := h.valid.foldl_subscribe hnode bases
    have hkc : k.class? c = some info := by
      rw [hsame.class?, hc]
    have hmv : (k.modifyClass c fun info => { info with bases }).Valid := by
      refine hkv.modifyClass (fun _ => rfl) fun info' hc' => ?_
      rw [hkc] at hc'
      cases hc'
      have hcv := hkv.classes c info hkc
      refine ⟨hcv.members, hcv.linked, fun b hb => ?_⟩
      rw [hk, mem_dependents_foldl_subscribe]
      exact .inr ⟨hbases b hb, hb, rfl⟩
    exact hmv.schedule ((hsame.hasNode _).2 hnode)
  · have hsubscribed : Extends g k := Extends.foldl (fun g b => .subscribe g info.node b) _ _
    have hmodified : Later k (k.modifyClass c fun info => { info with bases }) :=
      .modifyClass fun info =>
        ⟨rfl, rfl, fun _ m hm => ⟨m, hm, fun ho => ho⟩, fun ho => ho, fun _ hp => hp⟩
    exact ((Later.of_extends hsubscribed).trans hmodified).trans (.of_extends (.schedule _ _))

theorem Sound.setBases (h : g.Sound) (c : ClassId)
    (hbases : ∀ b ∈ bases, g.HasNode b) : Reached g (g.setBases c bases) := by
  rcases hc : g.class? c with - | info
  · rw [Graph.setBases, hc]
    exact h.reached
  · rw [setBases_eq hc]
    exact (h.prepared_withBases hc hbases).reached

/-- A member of its own joined with the member that it replaces. -/
def joinReplaced (g : Graph) (c : ClassId) (name : String) (node : NodeId) :
    Option Member → Graph
  | some member =>
    if member.node ≠ node ∧ name ≠ "__init__" then g.link c node member.node else g
  | none => g

/-- The graph with a member declared in the body of a class. -/
def withOwnMember (g : Graph) (c : ClassId) (name : String) (node : NodeId) : Graph :=
  ((g.setMember c name ⟨node, .own⟩).joinReplaced c name node (g.member? c name)).touchClass c

theorem addOwnMember_eq (g : Graph) (c : ClassId) (name : String) (node : NodeId) :
    g.addOwnMember c name node = (g.withOwnMember c name node).propagate := by
  rw [Graph.addOwnMember, withOwnMember]
  rcases g.member? c name with - | member <;> rfl

theorem moves_joinReplaced (hv : g.Valid) (hnode : g.HasNode node) (c : ClassId) (name : String) :
    Moves D (g.setMember c name ⟨node, .own⟩)
      ((g.setMember c name ⟨node, .own⟩).joinReplaced c name node (g.member? c name)) := by
  unfold joinReplaced
  split
  · next member hm =>
    split
    · exact moves_link (g := g.setMember c name ⟨node, .own⟩) hnode (hv.hasNode_member hm) c
    · exact .refl
  · exact .refl

theorem Later.setMember (c : ClassId) (name : String) :
    Later g (g.setMember c name ⟨node, .own⟩) := by
  apply modifyClass
  intro info
  refine ⟨rfl, rfl, fun n m hm => ?_, fun ho => ho, fun _ hp => hp⟩
  simp only [Table.get?_insert]
  split
  · exact ⟨_, rfl, fun _ => rfl⟩
  · exact ⟨m, hm, fun ho => ho⟩

/-- The dependents of the class are owed the new member until they are told at the end. -/
theorem Frame.withOwnMember (hv : g.Valid) (hnode : g.HasNode node) (c : ClassId)
    (name : String) : Frame g (g.withOwnMember c name node) D := by
  have hmoves := fun E => moves_joinReplaced (D := E) hv hnode c name
  rw [Graph.withOwnMember]
  generalize (g.setMember c name ⟨node, .own⟩).joinReplaced c name node (g.member? c name) = k
    at hmoves ⊢
  rcases hc : g.class? c with - | info
  · have hset : Frame g (g.setMember c name ⟨node, .own⟩) D := by
      refine .modifyClass (fun _ => rfl) fun info hinfo => ?_
      rw [hc] at hinfo
      cases hinfo
    have hnone : k.class? c = none := by
      rw [class?, Array.getElem?_eq_none_iff] at hc ⊢
      rw [(hmoves D).extends.classCount, setMember, size_modifyClass]
      exact hc
    rw [touchClass, hnone]
    exact hset.trans (hmoves D).frame
  · have hset : Frame g (g.setMember c name ⟨node, .own⟩) fun d => D d ∨ d = info.node := by
      refine .modifyClass (fun _ => rfl) fun info' hinfo => .inr ?_
      rw [hc] at hinfo
      cases hinfo
      exact .inr rfl
    have hchanged : (g.setMember c name ⟨node, .own⟩).class? c =
        some { info with members := info.members.insert name ⟨node, .own⟩ } := by
      rw [setMember, class?_modifyClass, if_pos rfl, hc]
      rfl
    obtain ⟨info', hkc, hext⟩ := (hmoves D).extends.classes c _ hchanged
    have hnode' : info'.node = info.node := hext.node
    rw [touchClass, hkc]
    exact (hnode' ▸ hset.trans (hmoves _).frame).pay

variable (h : g.Sound)
include h

theorem Sound.prepared_withOwnMember (hnode : g.HasNode node) (c : ClassId)
    (name : String) : Prepared g (g.withOwnMember c name node) := by
  have hset : (g.setMember c name ⟨node, .own⟩).Valid := h.valid.setMember hnode c name
  have hmoves := moves_joinReplaced (D := nobody) h.valid hnode c name
  refine h.prepared ((hmoves.valid hset).touchClass c) (.withOwnMember h.valid hnode c name) ?_
  exact ((Later.setMember c name).trans (.of_extends hmoves.extends)).trans
    (.of_extends (.touchClass _ c))

/-! ### Functions and modules -/

/-- A change of what functions and modules there are does not concern the value nodes. -/
theorem Sound.of_tables (hv : g'.Valid) (hnodes : g'.nodes = g.nodes)
    (hclasses : g'.classes = g.classes)
    (hfunctions : ∀ f : FunctionId, f.index < g.functions.size → g'.function? f = g.function? f)
    (hconstants : g'.constants = g.constants) (hwork : g'.worklist = g.worklist)
    (hunbound : g'.unboundAsNone = g.unboundAsNone) : g'.Sound := by
  obtain ⟨htypes, hrule, hdep⟩ := views_congr hnodes
  obtain ⟨hclass, hmember, -, hany⟩ := tables_congr hclasses
  refine ⟨hv, fun id r hr hvalue => ?_, fun id hid => ?_⟩
  · rw [hrule] at hr
    have hvalue' : g.IsValue r := hvalue.of_grows fun b t ht => htypes ▸ ht
    refine (h.settled id r hr hvalue').of_agree h.valid hvalue' ⟨fun w _ => ?_, fun c _ => ?_,
      fun c info _ _ => ?_, hfunctions, hunbound⟩ (fun b d hd => hdep ▸ hd) fun b t ht => htypes ▸ ht
    · rw [htypes]
    · rw [Graph.classNodes, Graph.classNodes, hclass]
    · rw [hmember, hany]
      exact ⟨rfl, rfl⟩
  · rw [hwork] at hid
    rw [hconstants]
    exact h.idle id hid

theorem Sound.addFunction {info : FunctionInfo} (hreturns : g.HasNode info.returns) :
    Reached g (g.addFunction info).2 := by
  have hfunction : ∀ f : FunctionId, (g.addFunction info).2.function? f =
      if f.index = g.functions.size then some info else g.function? f := fun f =>
    Array.getElem?_push
  have hsize : (g.addFunction info).2.functions.size = g.functions.size + 1 := Array.size_push _
  refine ⟨h.of_tables ?_ rfl rfl (fun f hf => ?_) rfl rfl rfl, { Later.refl g with functions := fun f info' hf => ?_ }⟩
  · have hv := h.valid
    refine { hv with
      classes := fun c info hc => { hv.classes c info hc with }, functions := fun f info' hf => ?_
      modules := fun m info hm => { hv.modules m info hm with }, types := fun b t ht => ?_ }
    · rw [hfunction] at hf
      split at hf
      · cases hf
        exact hreturns
      · exact hv.functions f info' hf
    · exact (hv.types b t ht).mono (le_rfl) (hsize ▸ Nat.le_succ _) (le_rfl)
  · rw [hfunction, if_neg (ne_of_lt hf)]
  · rw [hfunction, if_neg (ne_of_lt (Array.getElem?_eq_some_iff.1 hf).1)]
    exact hf

/-- Only what modules say about nodes and modules has to be looked at again. -/
theorem Sound.withModules (hkept : ∀ (m : ModuleId) (info : ModuleInfo), g.module? m = some info →
      ∃ info', modules[m.index]? = some info' ∧ info.Kept info')
    (hmodules : ∀ (m : ModuleId) info, modules[m.index]? = some info →
      (∀ e ∈ info.exports.entries, g.HasNode e.2) ∧
        ∀ e ∈ info.submodules.entries, e.2.index < modules.size) :
    Reached g { g with modules } := by
  have hlater : Later g { g with modules } := .of_modules hkept
  refine ⟨h.of_tables ?_ rfl rfl (fun _ _ => rfl) rfl rfl rfl, hlater⟩
  have hv := h.valid
  exact { hv with
    classes := fun c info hc => { hv.classes c info hc with }
    modules := fun m info hm => ⟨(hmodules m info hm).1, (hmodules m info hm).2⟩
    types := fun b t ht => hlater.hasType (hv.types b t ht) }

theorem Sound.addModule (name : String) : Reached g (g.addModule name).2 := by
  have hsize : (g.modules.push ⟨name, .empty, .empty⟩).size = g.modules.size + 1 :=
    Array.size_push _
  refine h.withModules (fun m info hm => ⟨info, ?_, .refl info⟩) fun m info hm => ?_
  · rw [Array.getElem?_push, if_neg]
    · exact hm
    · exact ne_of_lt (Array.getElem?_eq_some_iff.1 hm).1
  · rw [Array.getElem?_push] at hm
    split at hm
    · cases hm
      exact ⟨fun e he => absurd he not_mem_nil, fun e he => absurd he not_mem_nil⟩
    · have hmv := h.valid.modules m info hm
      exact ⟨hmv.exported, fun e he => hsize ▸ Nat.lt_succ_of_lt (hmv.submodules e he)⟩

theorem Sound.modifyModule {m : ModuleId} {f : ModuleInfo → ModuleInfo}
    (hkept : ∀ info : ModuleInfo, info.Kept (f info))
    (hf : ∀ info, g.ModuleValid info → g.ModuleValid (f info)) :
    Reached g (g.modifyModule m f) := by
  have hsize : (g.modules.modify m.index f).size = g.modules.size := Array.size_modify
  refine h.withModules (fun n info hn => ?_) fun n info hn => ?_
  · rw [Array.getElem?_modify]
    split
    · exact ⟨f info, by rw [← module?, hn]; rfl, hkept info⟩
    · exact ⟨info, hn, .refl info⟩
  · rw [Array.getElem?_modify] at hn
    rw [hsize]
    split at hn
    · obtain ⟨info', hinfo, rfl⟩ := Option.map_eq_some_iff.1 hn
      have hmv := hf info' (h.valid.modules n info' hinfo)
      exact ⟨hmv.exported, hmv.submodules⟩
    · have hmv := h.valid.modules n info hn
      exact ⟨hmv.exported, hmv.submodules⟩

theorem Sound.setExport (hnode : g.HasNode node) (m : ModuleId) (name : String) :
    Reached g (g.setExport m name node) := by
  apply h.modifyModule
  · intro info
    refine ⟨rfl, fun n old hold => ?_, fun _ _ hs => hs⟩
    simp only [Table.get?_insert]
    split
    · exact ⟨node, rfl⟩
    · exact ⟨old, hold⟩
  · refine fun info hmv => ⟨fun e he => ?_, hmv.submodules⟩
    rcases Table.mem_entries_insert he with he | rfl
    · exact hmv.exported e he
    · exact hnode

theorem Sound.addSubmodule {child : ModuleId} (hchild : child.index < g.modules.size)
    (parent : ModuleId) (name : String) : Reached g (g.addSubmodule parent name child) := by
  apply h.modifyModule
  · intro info
    refine ⟨rfl, fun _ node hn => ⟨node, hn⟩, fun n m hm => ?_⟩
    simp only [Table.insertNew]
    split
    · exact hm
    · next hfree =>
      rw [Table.get?_insert, if_neg]
      · exact hm
      · rintro rfl
        rw [Table.contains, hm] at hfree
        exact hfree rfl
  · refine fun info hmv => ⟨hmv.exported, fun e he => ?_⟩
    simp only [Table.insertNew] at he
    split at he
    · exact hmv.submodules e he
    · rcases Table.mem_entries_insert he with he | rfl
      · exact hmv.submodules e he
      · exact hchild

end FlowTyping.Graph
