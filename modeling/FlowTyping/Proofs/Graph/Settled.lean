/-
The work list covers everything that is out of step.

A node is quiet if its rule finds nothing that is not in its set already and if it hears of
everything that the finding was read off.  The invariant (`Covered`) is that every value node is
quiet or waits.  In the middle of a turn there may also be debts: a set or a table has changed and
its dependents have not been told yet.  The heart is `Covered.frame`: a step can make a quiet node
unquiet only by changing something that the node reads, and whoever reads is a dependent; so the
node falls under the debt that the step names.  Paying a debt (`Covered.touch`) puts its dependents
on the work list.
-/
import FlowTyping.Proofs.Graph.Turn
import FlowTyping.Proofs.Renaming.Rule

namespace FlowTyping.Graph

variable {g g' : Graph} {D E : NodeId → Prop} {W : NodeId → Prop} {id b : NodeId} {r : Rule}
  {rest : List NodeId} {c : ClassId}

/-! ### Steps and what they change -/

/-- A change at a node is announced if it is still to be told, or if those who heard of the node
wait. -/
def Announced (g g' : Graph) (D : NodeId → Prop) (id : NodeId) : Prop :=
  D id ∨ ∀ d ∈ g.dependents id, d ∈ g'.worklist

/-- What a step may do: it announces the nodes whose sets it changes and the classes whose tables it
changes, and it schedules the nodes whose rules it changes. -/
structure Frame (g g' : Graph) (D : NodeId → Prop) : Prop where
  worklist : ∀ id ∈ g.worklist, id ∈ g'.worklist
  dependents : ∀ id d, d ∈ g.dependents id → d ∈ g'.dependents id
  grows : ∀ id t, t ∈ g.types id → t ∈ g'.types id
  rules : ∀ id r, g'.rule? id = some r → id ∈ g'.worklist ∨ g.rule? id = some r
  types : ∀ id, g'.types id = g.types id ∨ Announced g g' D id
  classNodes : ∀ c : ClassId, c.index < g.classes.size → g'.classNodes c = g.classNodes c
  tables : ∀ c info, g.class? c = some info →
    (g'.member? c = g.member? c ∧ g'.anyBased c = g.anyBased c) ∨ Announced g g' D info.node
  functions : ∀ f : FunctionId, f.index < g.functions.size → g'.function? f = g.function? f
  unboundAsNone : g'.unboundAsNone = g.unboundAsNone

theorem Frame.of_same (hs : Same g g') (hdep : ∀ id d, d ∈ g.dependents id → d ∈ g'.dependents id)
    (hwork : ∀ id ∈ g.worklist, id ∈ g'.worklist) : Frame g g' D := by
  refine ⟨hwork, hdep, fun id t ht => ?_, fun id r hr => .inr ?_, fun id => .inl ?_,
    fun c _ => ?_, fun c info _ => .inl ⟨?_, ?_⟩, fun f _ => ?_, hs.unboundAsNone⟩
  · rw [hs.types]
    exact ht
  · rw [← hs.rule?]
    exact hr
  · rw [hs.types]
  · rw [Graph.classNodes, Graph.classNodes, hs.class?]
  · rw [hs.member?]
  · rw [hs.anyBased]
  · rw [hs.function?]

theorem Frame.of_classes (hext : Extends g g') (hclasses : g'.classes = g.classes)
    (hwork : ∀ id ∈ g.worklist, id ∈ g'.worklist)
    (hrules : ∀ id r, g'.rule? id = some r → id ∈ g'.worklist ∨ g.rule? id = some r)
    (htypes : ∀ id, g'.types id = g.types id ∨ Announced g g' D id) : Frame g g' D := by
  obtain ⟨hclass, hmember, -, hany⟩ := tables_congr hclasses
  refine ⟨hwork, hext.dependents, hext.types, hrules, htypes, fun c _ => ?_,
    fun c info _ => .inl ⟨?_, ?_⟩, fun f _ => ?_, hext.unboundAsNone⟩
  · rw [Graph.classNodes, Graph.classNodes, hclass]
  · rw [hmember]
  · rw [hany]
  · rw [function?, function?, hext.functions]

theorem Frame.modifyClass {f : ClassInfo → ClassInfo} (hnode : ∀ info, (f info).node = info.node)
    (hD : ∀ info, g.class? c = some info →
      ((f info).members = info.members ∧ (f info).anyBased = info.anyBased) ∨ D info.node) :
    Frame g (g.modifyClass c f) D := by
  refine ⟨fun _ h => h, fun _ _ h => h, fun _ _ h => h, fun _ _ h => .inr h, fun _ => .inl rfl,
    fun d _ => ?_, fun d info hd => ?_, fun _ _ => rfl, rfl⟩
  · rw [Graph.classNodes, Graph.classNodes, class?_modifyClass]
    by_cases hcd : c = d
    · rw [if_pos hcd]
      rcases g.class? d with - | info
      · rfl
      · simp only [Option.map_some, hnode]
    · rw [if_neg hcd]
  · by_cases hcd : c = d
    · subst hcd
      refine (hD info hd).imp ?_ .inl
      rintro ⟨hmembers, hany⟩
      constructor
      · funext name
        rw [member?, member?, class?_modifyClass, if_pos rfl, hd]
        simp only [Option.map_some, Option.bind_some, hmembers]
      · rw [anyBased, anyBased, class?_modifyClass, if_pos rfl, hd]
        exact hany
    · left
      have hsame : (g.modifyClass c f).class? d = g.class? d := by
        rw [class?_modifyClass, if_neg hcd]
      refine ⟨?_, ?_⟩
      · funext name
        rw [member?, member?, hsame]
      · rw [anyBased, anyBased, hsame]

theorem Frame.trans {g'' : Graph} (h : Frame g g' D) (h' : Frame g' g'' D) : Frame g g'' D := by
  have hfirst : ∀ id, Announced g g' D id → Announced g g'' D id := fun id ha =>
    ha.imp_right fun htold d hd => h'.worklist d (htold d hd)
  have hsecond : ∀ id, Announced g' g'' D id → Announced g g'' D id := fun id ha =>
    ha.imp_right fun htold d hd => htold d (h.dependents id d hd)
  have hclass : ∀ c : ClassId, c.index < g.classes.size → c.index < g'.classes.size := by
    intro c hc
    obtain ⟨info, hinfo⟩ := class?_isSome hc
    have hnodes := h.classNodes c hc
    rw [classNodes_eq hinfo, Graph.classNodes] at hnodes
    by_contra hno
    rw [class?, Array.getElem?_eq_none (le_of_not_gt hno)] at hnodes
    cases hnodes
  have hfunction : ∀ f : FunctionId, f.index < g.functions.size → f.index < g'.functions.size := by
    intro f hf
    have hsame := h.functions f hf
    rw [function?, function?, Array.getElem?_eq_getElem hf] at hsame
    exact (Array.getElem?_eq_some_iff.1 hsame).1
  refine ⟨fun id hid => h'.worklist id (h.worklist id hid),
    fun id d hd => h'.dependents id d (h.dependents id d hd),
    fun id t ht => h'.grows id t (h.grows id t ht), fun id r hr => ?_, fun id => ?_,
    fun c hc => (h'.classNodes c (hclass c hc)).trans (h.classNodes c hc), fun c info hc => ?_,
    fun f hf => (h'.functions f (hfunction f hf)).trans (h.functions f hf),
    h'.unboundAsNone.trans h.unboundAsNone⟩
  · rcases h'.rules id r hr with hw | hr
    · exact .inl hw
    · exact (h.rules id r hr).imp_left (h'.worklist id)
  · rcases h.types id with heq | ha
    · rw [← heq]
      exact (h'.types id).imp_right (hsecond id)
    · exact .inr (hfirst id ha)
  · have hlt : c.index < g.classes.size := (Array.getElem?_eq_some_iff.1 hc).1
    obtain ⟨info', hc'⟩ := class?_isSome (hclass c hlt)
    have hnode := h.classNodes c hlt
    rw [classNodes_eq hc, classNodes_eq hc', List.cons.injEq] at hnode
    rcases h.tables c info hc with ⟨hm, hopen⟩ | ha
    · rw [← hm, ← hopen, ← hnode.1]
      exact (h'.tables c info' hc').imp_right (hsecond _)
    · exact .inr (hfirst _ ha)

theorem mem_worklist_schedule : b ∈ (g.schedule id).worklist ↔ b ∈ g.worklist ∨ b = id := by
  rw [schedule_eq]
  exact mem_enqueue

theorem mem_worklist_push {rule : Rule} {line : Nat} :
    b ∈ (g.push rule line).2.worklist ↔ b ∈ g.worklist ∨ b = g.next := by
  rw [push_eq, mem_worklist_schedule, worklist_foldl_subscribe]
  rfl

theorem Frame.push (g : Graph) (rule : Rule) (line : Nat) : Frame g (g.push rule line).2 D := by
  refine .of_classes (Extends.push g _ line) (classes_push g _ line)
    (fun b hb => mem_worklist_push.2 (.inl hb)) (fun b r hr => ?_) (fun b => .inl ?_)
  · rw [rule?_push] at hr
    split at hr
    · next hb => exact .inl (mem_worklist_push.2 (.inr hb))
    · exact .inr hr
  · rw [types_push]

theorem mem_worklist_touch : b ∈ (g.touch id).worklist ↔ b ∈ g.worklist ∨ b ∈ g.dependents id := by
  rw [touch_eq]
  exact mem_foldl_enqueue

theorem Frame.touch (g : Graph) (id : NodeId) : Frame g (g.touch id) D := by
  refine .of_same (.touch g id) (fun b d hd => ?_) fun b hb => mem_worklist_touch.2 (.inl hb)
  rw [dependents_touch]
  exact hd

/-- Once the dependents of a node wait, the node needs no telling any more. -/
theorem Frame.imp {D E : NodeId → Prop} (h : Frame g g' D)
    (hD : ∀ b, Announced g g' D b → Announced g g' E b) : Frame g g' E :=
  { h with
    types := fun b => (h.types b).imp_right (hD b)
    tables := fun c info hc => (h.tables c info hc).imp_right (hD _) }

theorem Frame.pay (h : Frame g g' (fun d => D d ∨ d = id)) : Frame g (g'.touch id) D := by
  have ht : Frame g (g'.touch id) fun d => D d ∨ d = id := h.trans (.touch g' id)
  have hpaid : ∀ b, Announced g (g'.touch id) (fun d => D d ∨ d = id) b →
      Announced g (g'.touch id) D b := by
    rintro b ((hb | rfl) | htold)
    · exact .inl hb
    · exact .inr fun d hd => mem_worklist_touch.2 (.inr (h.dependents b d hd))
    · exact .inr htold
  exact ht.imp hpaid

/-- A new member of a class, whose dependents are told at once. -/
theorem Frame.newMember {info : ClassInfo} {name : String} {member : Member}
    (line : Nat) (hc : g.class? c = some info) :
    Frame g (((g.push (.plain []) line).2.setMember c name member).touchClass c) D := by
  have hclass : (g.push (.plain []) line).2.class? c = some info := by
    rw [(tables_congr (classes_push g _ line)).1, hc]
  have hframe : Frame g ((g.push (.plain []) line).2.setMember c name member)
      (fun d => D d ∨ d = info.node) := by
    refine (Frame.push g _ line).trans (.modifyClass (fun _ => rfl) fun info' hc' => .inr ?_)
    rw [hclass] at hc'
    cases hc'
    exact .inr rfl
  have hset : ((g.push (.plain []) line).2.setMember c name member).class? c =
      some { info with members := info.members.insert name member } := by
    rw [setMember, class?_modifyClass, if_pos rfl, hclass]
    rfl
  rw [touchClass, hset]
  exact hframe.pay

/-- **A move announces what it changes.** -/
theorem Move.frame (m : Move D g g') : Frame g g' D := by
  have hext := m.extends
  cases m with
  | tally a b =>
    exact .of_same .counts hext.dependents fun _ h => h
  | subscribe hd s => exact .of_same (.subscribe g _ s) hext.dependents fun _ h => h
  | @grow id types hid hT hnew hD =>
    refine .of_classes hext rfl (fun _ h => h) (fun b r hr => ?_) (fun b => ?_)
    · rw [rule?_putTypes] at hr
      exact .inr hr
    · by_cases hb : b = id
      · exact .inr (.inl (hb ▸ hD))
      · exact .inl (types_putTypes_of_ne hb)
  | @connect id input inputs hr hnew hin =>
    have hsame := (Same.subscribe (g.setRule id (.plain (inputs ++ [input]))) id input).trans
      (Same.schedule _ id)
    refine .of_classes hext hsame.classes (fun b hb => mem_worklist_schedule.2 (.inl hb))
      (fun b r hr' => ?_) (fun b => .inl ?_)
    · rw [hsame.rule?, rule?_setRule] at hr'
      split at hr'
      · next hb => exact .inl (mem_worklist_schedule.2 (.inr hb.symm))
      · exact .inr hr'
    · rw [hsame.types, types_setRule]
  | newMember line hc hnone hattr => exact Frame.newMember line hc
  | inherit hc hnode hpos hname hbetter hD | openUp hc hclosed hD =>
    refine .modifyClass (fun _ => rfl) fun info' hc' => .inr ?_
    rw [hc] at hc'
    cases hc'
    exact hD
  | link hc ha hb hnew => exact .modifyClass (fun _ => rfl) fun _ _ => .inl ⟨rfl, rfl⟩

theorem Frame.refl (g : Graph) : Frame g g D :=
  .of_same (.refl g) (fun _ _ h => h) fun _ h => h

theorem Moves.frame (m : Moves D g g') : Frame g g' D := by
  induction m with
  | refl => exact .refl g
  | tail _ hstep ih => exact ih.trans hstep.frame

/-! ### Quiet nodes -/

/-- A node with a rule is quiet if it hears of all that its finding was read off and has all types
of the finding. -/
def Quiet (g : Graph) (id : NodeId) (r : Rule) : Prop :=
  ∀ f, g.find? r = some f →
    (∀ w ∈ f.watched, id ∈ g.dependents w) ∧ ∀ t ∈ f.types, t ∈ g.types id

/-- Every value node is quiet, or it waits, or it is exempt (`E`), or a debt is owed to it (`D`). -/
def Covered (g : Graph) (E D : NodeId → Prop) : Prop :=
  ∀ id r, g.rule? id = some r → g.IsValue r →
    E id ∨ id ∈ g.worklist ∨ (∃ d, D d ∧ id ∈ g.dependents d) ∨ g.Quiet id r

/-- Whether a rule has only watched reads can only turn false while sets grow. -/
theorem IsValue.of_grows (hr : g'.IsValue r) (h : ∀ id t, t ∈ g.types id → t ∈ g'.types id) :
    g.IsValue r := by
  cases r with
  | read object attr => exact fun m hm => hr m (h object _ hm)
  | _ => exact hr

/-- What a node reads tells it. -/
theorem Quiet.hears {w : NodeId} (h : g.Quiet id r) (hv : g.Valid) (hr : g.rule? id = some r)
    (hw : g.Reads r w) : id ∈ g.dependents w := by
  rcases hw with hs | ⟨f, hf, hw⟩
  · exact hv.heard id r hr w hs
  · exact (h f hf).1 w hw

theorem Frame.agree (hf : Frame g g' D) (hW : ∀ w, W w → ¬ Announced g g' D w) : Agree g g' W := by
  refine ⟨fun w hw => ?_, hf.classNodes, fun c info hc hw => ?_, hf.functions, hf.unboundAsNone⟩
  · exact (hf.types w).resolve_right (hW w hw)
  · exact (hf.tables c info hc).resolve_right (hW _ hw)

/-- **A step cannot make a node unquiet without owing it something.** -/
theorem Covered.frame (h : g.Covered E D) (hv : g.Valid) (hf : Frame g g' D) : g'.Covered E D := by
  intro id r hr hvalue
  rcases hf.rules id r hr with hwait | hold
  · exact .inr (.inl hwait)
  have hvalue' := hvalue.of_grows hf.grows
  rcases h id r hold hvalue' with hE | hwait | ⟨d, hd, hdep⟩ | hquiet
  · exact .inl hE
  · exact .inr (.inl (hf.worklist id hwait))
  · exact .inr (.inr (.inl ⟨d, hd, hf.dependents d id hdep⟩))
  · right
    -- either something that the node reads has changed, or it finds what it found before
    by_cases hreads : ∃ w, g.Reads r w ∧ Announced g g' D w
    · obtain ⟨w, hw, hD | htold⟩ := hreads
      · exact .inr (.inl ⟨w, hD, hf.dependents w id (hquiet.hears hv hold hw)⟩)
      · exact .inl (htold id (hquiet.hears hv hold hw))
    · right; right
      have hagree : Agree g g' (g.Reads r) := hf.agree fun w hw ha => hreads ⟨w, hw, ha⟩
      intro f hfind
      rw [find?_agree hv.types hvalue' hagree] at hfind
      obtain ⟨hwatch, htypes⟩ := hquiet f hfind
      exact ⟨fun w hw => hf.dependents w id (hwatch w hw),
        fun t ht => hf.grows id t (htypes t ht)⟩

theorem Covered.moves (h : g.Covered E D) (hv : g.Valid) (m : Moves D g g') : g'.Covered E D := by
  induction m with
  | refl => exact h
  | tail hfirst hstep ih => exact ih.frame (Moves.valid hfirst hv) hstep.frame

theorem Covered.mono {D' : NodeId → Prop} (h : g.Covered E D) (hD : ∀ d, D d → D' d) :
    g.Covered E D' := by
  intro id r hr hvalue
  rcases h id r hr hvalue with hE | hwait | ⟨d, hd, hdep⟩ | hquiet
  · exact .inl hE
  · exact .inr (.inl hwait)
  · exact .inr (.inr (.inl ⟨d, hD d hd, hdep⟩))
  · exact .inr (.inr (.inr hquiet))

/-- Telling the dependents of a node pays what was owed to them. -/
theorem Covered.touch {n : NodeId} (h : g.Covered E fun d => D d ∨ d = n) (hv : g.Valid) :
    (g.touch n).Covered E D := by
  intro id r hr hvalue
  rcases h.frame hv (.touch g n) id r hr hvalue with hE | hwait | ⟨d, hd, hdep⟩ | hquiet
  · exact .inl hE
  · exact .inr (.inl hwait)
  · rcases hd with hd | rfl
    · exact .inr (.inr (.inl ⟨d, hd, hdep⟩))
    · rw [dependents_touch] at hdep
      exact .inr (.inl (mem_worklist_touch.2 (.inr hdep)))
  · exact .inr (.inr (.inr hquiet))

/-! ### Turns -/

def nobody (_ : NodeId) : Prop := False

theorem Same.mirror (hs : Same g g') : Mirror .id g g' where
  types id := by simp [hs.types]
  class? c := (congrFun hs.class? c).trans (by simp)
  function? f := (congrFun hs.function? f).trans (by simp)
  module? m := (congrFun hs.module? m).trans (by simp)
  unboundAsNone := hs.unboundAsNone

theorem Same.find? (hs : Same g g') (r : Rule) : g'.find? r = g.find? r := by
  simpa using hs.mirror.find? r

theorem IsValue.of_same (hr : g.IsValue r) (hs : Same g g') : g'.IsValue r := by
  apply hr.of_grows
  intro id t ht
  rw [← hs.types]
  exact ht

/-- An exemption ends once the node is all right. -/
theorem Covered.settle {x : NodeId} (h : g.Covered (· = x) D)
    (hx : ∀ r, g.rule? x = some r → g.IsValue r →
      x ∈ g.worklist ∨ (∃ d, D d ∧ x ∈ g.dependents d) ∨ g.Quiet x r) :
    g.Covered nobody D := by
  intro id r hr hvalue
  rcases h id r hr hvalue with rfl | hok
  · exact .inr (hx r hr hvalue)
  · exact .inr hok

/-- The head of the work list may be taken off if it is exempt from then on. -/
theorem Covered.pop (h : g.Covered nobody nobody) (hw : g.worklist = id :: rest) :
    { g with worklist := rest }.Covered (· = id) nobody := by
  intro b r hr hvalue
  have hsame : Same { g with worklist := rest } g := .counts
  have hvalue' : g.IsValue r := hvalue.of_same hsame
  rcases h b r hr hvalue' with hE | hwait | ⟨d, hd, -⟩ | hquiet
  · exact absurd hE not_false
  · rw [hw] at hwait
    rcases List.mem_cons.1 hwait with rfl | hwait
    · exact .inl rfl
    · exact .inr (.inl hwait)
  · exact absurd hd not_false
  · refine .inr (.inr (.inr fun f hf => hquiet f ?_))
    rw [← hf, hsame.find?]

/-- Taking in what was found leaves a node quiet, unless it reads its own set, which is then a
dependent of itself. -/
theorem grow_quiet {f : Finding} (hv : g.Valid) (hr : g.rule? id = some r)
    (hvalue : (g.grow id f.types).1.IsValue r) (hfind : g.find? r = some f)
    (hwatch : ∀ w ∈ f.watched, id ∈ g.dependents w) :
    ((g.grow id f.types).2 = true ∧ id ∈ (g.grow id f.types).1.dependents id) ∨
      (g.grow id f.types).1.Quiet id r := by
  unfold grow at hvalue ⊢
  split
  · next hsub =>
    right
    intro f' hf'
    change g.find? r = some f' at hf'
    rw [hfind] at hf'
    cases hf'
    exact ⟨hwatch, TypeSet.isSubset_iff.1 hsub⟩
  · next hsub =>
    rw [if_neg hsub] at hvalue
    have hgrown : (g.putTypes id f.types).IsValue r := hvalue
    have hvalue' : g.IsValue r := hgrown.of_grows (Extends.putTypes g id f.types).types
    have hdep : ∀ w, (g.putTypes id f.types).dependents w = g.dependents w := fun w => by
      rw [dependents_putTypes]
    by_cases hself : g.Reads r id
    · left
      refine ⟨rfl, ?_⟩
      show id ∈ (g.putTypes id f.types).dependents id
      rw [hdep]
      rcases hself with hsource | ⟨f', hf', hw⟩
      · exact hv.heard id r hr id hsource
      · rw [hfind] at hf'
        cases hf'
        exact hwatch id hw
    · right
      intro f' hf'
      have hagree : Agree g (g.putTypes id f.types) (g.Reads r) := by
        refine ⟨fun w hw => types_putTypes_of_ne ?_, fun _ _ => rfl, fun _ _ _ _ => ⟨rfl, rfl⟩,
          fun _ _ => rfl, rfl⟩
        rintro rfl
        exact hself hw
      change (g.putTypes id f.types).find? r = some f' at hf'
      rw [find?_agree hv.types hvalue' hagree, hfind] at hf'
      cases hf'
      refine ⟨fun w hw => ?_, fun t ht => ?_⟩
      · show id ∈ (g.putTypes id f.types).dependents w
        rw [hdep]
        exact hwatch w hw
      · exact mem_types_putTypes.2 (.inr ⟨hasNode_of_rule? hr, rfl, ht⟩)

/-- A node that finds types is all right after it has been worked out, or else it hears of itself.
-/
theorem finds_quiet (hv : g.Valid) (hr : g.rule? id = some r) (hfinds : r.Finds) :
    (g.recompute id).1.rule? id = some r ∧ ((g.recompute id).1.IsValue r →
      ((g.recompute id).2 = true ∧ id ∈ (g.recompute id).1.dependents id) ∨
        (g.recompute id).1.Quiet id r) := by
  have htick : g.tick.Valid := (moves_tick (D := nobody) g).valid hv
  rw [recompute_of_finds hr hfinds]
  rcases hf : g.tick.find? r with - | f
  · refine ⟨hr, fun _ => .inr fun f' hf' => ?_⟩
    simp only [Option.elim_none, hf] at hf'
    cases hf'
  · simp only [Option.elim_some]
    set s := f.watched.foldl (fun g source => g.subscribe id source) g.tick with hs
    have hsame : Same g.tick s := Same.foldl (fun g w => Same.subscribe g id w) _ _
    have hsv : s.Valid := htick.foldl_subscribe (hasNode_of_rule? hr) _
    have hrs : s.rule? id = some r := by
      rw [hsame.rule?]
      exact hr
    refine ⟨by rw [rule?_grow, hrs], fun hvalue => ?_⟩
    have hgrows : ∀ b t, t ∈ s.types b → t ∈ (s.grow id f.types).1.types b := by
      unfold grow
      split
      · exact fun _ _ ht => ht
      · exact (Extends.putTypes s id f.types).types
    have hvalue' : g.tick.IsValue r := (hvalue.of_grows hgrows).of_same hsame.symm
    apply grow_quiet hsv hrs hvalue
    · rw [← hf, hsame.find?]
    · intro w hw
      have hnode := htick.hasNode_watched hvalue' hf hw
      exact mem_dependents_foldl_subscribe.2 (.inr ⟨hnode, hw, rfl⟩)

/-! ### Runs -/

/-- Working out an exempt node leaves it covered, and what is left to be told concerns its
dependents. -/
theorem Covered.recompute (h : g.Covered (· = id) nobody) (hv : g.Valid) :
    (g.recompute id).1.Covered nobody fun d => (g.recompute id).2 = true ∧ d = id := by
  have hmoves := (recompute_moves hv id).2
  have hrun := (h.mono fun d hd => absurd hd not_false).moves hv hmoves
  refine hrun.settle fun r' hr' hvalue => ?_
  rcases hr : g.rule? id with - | r
  · rw [recompute_of_none hr] at hr'
    change g.rule? id = some r' at hr'
    rw [hr] at hr'
    cases hr'
  by_cases hfinds : r.Finds
  · obtain ⟨hsame, hquiet⟩ := finds_quiet hv hr hfinds
    rw [hsame] at hr'
    cases hr'
    rcases hquiet hvalue with ⟨hflag, hself⟩ | hquiet
    · exact .inr (.inl ⟨id, ⟨hflag, rfl⟩, hself⟩)
    · exact .inr (.inr hquiet)
  · -- a rule that changes tables stays and is no value rule
    obtain ⟨r'', hr'', hext⟩ := hmoves.extends.rules id r hr
    rw [hr''] at hr'
    cases hr'
    cases r with
    | write object attr value | members c =>
      cases hext
      exact absurd hvalue not_false
    | _ => exact absurd trivial hfinds

/-- **A turn keeps everything covered.** -/
theorem Covered.turn (h : g.Covered nobody nobody) (hv : g.Valid) (hw : g.worklist = id :: rest) :
    (g.turn id rest).Covered nobody nobody := by
  have hv' : { g with worklist := rest }.Valid := hv.pop hw
  have hwork := (h.pop hw).recompute hv'
  unfold Graph.turn
  simp only
  split
  · refine Covered.touch (hwork.mono fun d hd => .inr hd.2) ?_
    exact (recompute_moves hv' id).2.valid hv'
  · next hflag =>
    exact hwork.mono fun d hd => absurd hd.1 hflag

theorem Valid.turn (hv : g.Valid) (hw : g.worklist = id :: rest) : (g.turn id rest).Valid := by
  have hwork := (recompute_moves (hv.pop hw) id).2.valid (hv.pop hw)
  unfold Graph.turn
  simp only
  split
  · exact hwork.touch id
  · exact hwork

/-- What turns keep, a run keeps. -/
theorem drain_induction {P : Graph → Prop} (hturn : ∀ g id rest, g.worklist = id :: rest → P g →
      P (g.turn id rest)) (fuel : Nat) (h : P g) : P (drain fuel g) := by
  induction fuel generalizing g with
  | zero => exact h
  | succ fuel ih =>
    unfold drain
    split
    · exact h
    · next id rest hw => exact ih (hturn g id rest hw h)

theorem drain_covered (fuel : Nat) (hv : g.Valid) (h : g.Covered nobody nobody) :
    (drain fuel g).Valid ∧ (drain fuel g).Covered nobody nobody := by
  apply drain_induction (P := fun g => g.Valid ∧ g.Covered nobody nobody)
  · intro g id rest hw ⟨hv, h⟩
    exact ⟨hv.turn hw, h.turn hv hw⟩
  · exact ⟨hv, h⟩

end FlowTyping.Graph
