/-
Graphs whose numbers point to something.

`Valid` says that all that a graph mentions exists, that the work list holds each node at most once,
that the nodes with a member rule are the nodes of the classes, and that a node is a dependent of
all sources of its rule, so whoever reads a set from the start is told when it grows.  Every step of
`Graph.Change` keeps a graph valid if the numbers it is given exist.
-/
import FlowTyping.Proofs.Graph.Finding

namespace FlowTyping

open List

/-- A rule that takes in all types of its inputs; only such a rule gets more inputs later. -/
def Rule.IsFlow : Rule → Prop
  | .plain _ | .merge _ => True
  | _ => False

namespace Graph

variable {g g' : Graph} {r : Rule} {c : ClassId} {member : Member}

/-! ### Valid graphs -/

/-- What a class says about nodes: members and joined members exist, and the class is told when one
of its bases changes. -/
structure ClassValid (g : Graph) (info : ClassInfo) : Prop where
  members : ∀ e ∈ info.members.entries, g.HasNode e.2.node
  linked : ∀ p ∈ info.linked, g.HasNode p.1 ∧ g.HasNode p.2
  bases : ∀ b ∈ info.bases, info.node ∈ g.dependents b

/-- What a module says about nodes and modules exists. -/
structure ModuleValid (g : Graph) (info : ModuleInfo) : Prop where
  exported : ∀ e ∈ info.exports.entries, g.HasNode e.2
  submodules : ∀ e ∈ info.submodules.entries, e.2.index < g.modules.size

/-- What classes, functions, modules and the list of constants say about nodes. -/
structure TablesValid (g : Graph) : Prop where
  classes : ∀ c info, g.class? c = some info → g.ClassValid info
  functions : ∀ f info, g.function? f = some info → g.HasNode info.returns
  modules : ∀ m info, g.module? m = some info → g.ModuleValid info
  constants : ∀ e ∈ g.constants, g.HasNode e.2

/-- Every number in the graph points to something, and whoever reads a set is told when it grows. -/
structure Valid (g : Graph) : Prop extends TablesValid g where
  heard : ∀ id r, g.rule? id = some r → ∀ s ∈ r.sources, id ∈ g.dependents s
  values : ∀ id object attr value, g.rule? id = some (.write object attr value) → g.HasNode value
  dependents : ∀ id d, d ∈ g.dependents id → g.HasNode d
  worklist : ∀ id ∈ g.worklist, g.HasNode id
  nodup : g.worklist.Nodup
  owner : ∀ id c, g.rule? id = some (.members c) ↔ ∃ info, g.class? c = some info ∧ info.node = id
  types : g.TypesExist

/-- The tables stay valid while nodes and dependents are added. -/
theorem TablesValid.mono (h : g.TablesValid) (hclasses : g'.classes = g.classes)
    (hfunctions : g'.functions = g.functions) (hmodules : g'.modules = g.modules)
    (hconstants : g'.constants = g.constants) (hn : ∀ b, g.HasNode b → g'.HasNode b)
    (hdep : ∀ b d, d ∈ g.dependents b → d ∈ g'.dependents b) : g'.TablesValid := by
  refine ⟨fun c info hc => ?_, fun f info hf => ?_, fun m info hm => ?_, fun e he => ?_⟩
  · rw [class?, hclasses] at hc
    have hcv := h.classes c info hc
    exact ⟨fun e he => hn _ (hcv.members e he),
      fun p hp => ⟨hn _ (hcv.linked p hp).1, hn _ (hcv.linked p hp).2⟩,
      fun b hb => hdep b info.node (hcv.bases b hb)⟩
  · rw [function?, hfunctions] at hf
    exact hn _ (h.functions f info hf)
  · rw [module?, hmodules] at hm
    have hmv := h.modules m info hm
    refine ⟨fun e he => hn _ (hmv.exported e he), fun e he => ?_⟩
    rw [hmodules]
    exact hmv.submodules e he
  · rw [hconstants] at he
    exact hn _ (h.constants e he)

/-- Whether a type exists depends on the number of classes, functions and modules. -/
theorem HasType.mono {t : Ty} (h : g.HasType t) (hclasses : g.classes.size ≤ g'.classes.size)
    (hfunctions : g.functions.size ≤ g'.functions.size)
    (hmodules : g.modules.size ≤ g'.modules.size) : g'.HasType t := by
  cases t with
  | classObject c | instanceOf c => exact lt_of_lt_of_le h hclasses
  | function f | method f => exact lt_of_lt_of_le h hfunctions
  | moduleObject m => exact lt_of_lt_of_le h hmodules
  | _ => trivial

theorem Valid.hasNode_source {id s : NodeId} (h : g.Valid) (hr : g.rule? id = some r)
    (hs : s ∈ r.sources) : g.HasNode s := hasNode_of_mem_dependents (h.heard id r hr s hs)

theorem Valid.hasNode_class {info : ClassInfo} (h : g.Valid)
    (hc : g.class? c = some info) : g.HasNode info.node :=
  hasNode_of_rule? ((h.owner info.node c).2 ⟨info, hc, rfl⟩)

theorem Valid.hasNode_member {name : String} (h : g.Valid)
    (hm : g.member? c name = some member) : g.HasNode member.node := by
  obtain ⟨info, hinfo, hget⟩ := Option.bind_eq_some_iff.1 hm
  exact (h.classes c info hinfo).members _ (Table.mem_entries_of_get? hget)

theorem valid_empty (unboundAsNone : Bool) : (Graph.empty unboundAsNone).Valid := by
  have hnode : ∀ id, ¬ (Graph.empty unboundAsNone).HasNode id := fun id => by
    simp [HasNode, Graph.empty]
  have hclass : ∀ c, (Graph.empty unboundAsNone).class? c = none := fun c => by
    simp [class?, Graph.empty]
  refine ⟨⟨?_, ?_, ?_, ?_⟩, ?_, ?_, ?_, ?_, nodup_nil, ?_, ?_⟩
  · intro c info hc
    rw [hclass] at hc
    cases hc
  · intro f info hf
    simp [function?, Graph.empty] at hf
  · intro m info hm
    simp [module?, Graph.empty] at hm
  · intro e he
    cases he
  · exact fun id r hr => absurd (hasNode_of_rule? hr) (hnode id)
  · exact fun id object attr value hr => absurd (hasNode_of_rule? hr) (hnode id)
  · exact fun id d hd => absurd (hasNode_of_mem_dependents hd) (hnode id)
  · intro id hid
    cases hid
  · intro id c
    rw [hclass]
    refine ⟨fun hr => absurd (hasNode_of_rule? hr) (hnode id), ?_⟩
    rintro ⟨info, ⟨⟩, -⟩
  · exact fun id t ht => absurd (hasNode_of_mem_types ht) (hnode id)

/-! ### Steps that change no rule, set or table -/

namespace Valid

variable {dependent id w : NodeId}

variable (h : g.Valid)
include h

/-- Only the dependents and the work list have to be looked at again. -/
theorem of_same (hs : Same g g') (hmore : ∀ id d, d ∈ g.dependents id → d ∈ g'.dependents id)
    (hdep : ∀ id d, d ∈ g'.dependents id → g.HasNode d) (hwork : ∀ id ∈ g'.worklist, g.HasNode id)
    (hnodup : g'.worklist.Nodup) : g'.Valid := by
  have hn : ∀ id, g.HasNode id → g'.HasNode id := fun id => (hs.hasNode id).2
  refine ⟨h.mono hs.classes hs.functions hs.modules hs.constants hn hmore, ?_, ?_, ?_, ?_, hnodup,
    ?_, ?_⟩
  · intro id r hr s hsr
    rw [hs.rule?] at hr
    exact hmore s id (h.heard id r hr s hsr)
  · intro id object attr value hr
    rw [hs.rule?] at hr
    exact hn value (h.values id object attr value hr)
  · exact fun id d hd => hn d (hdep id d hd)
  · exact fun id hid => hn id (hwork id hid)
  · intro id c
    rw [hs.rule?, hs.class?]
    exact h.owner id c
  · intro id t ht
    rw [hs.types] at ht
    exact (h.types id t ht).mono (by rw [hs.classes]) (by rw [hs.functions]) (by rw [hs.modules])

theorem withWorklist {work : List NodeId} (hwork : ∀ id ∈ work, g.HasNode id)
    (hnodup : work.Nodup) : { g with worklist := work }.Valid :=
  h.of_same .counts (fun _ _ hd => hd) h.dependents hwork
    hnodup

theorem pop {rest : List NodeId} (hw : g.worklist = id :: rest) :
    { g with worklist := rest }.Valid := by
  have hnodup := h.nodup
  rw [hw, nodup_cons] at hnodup
  refine h.withWorklist (fun b hb => h.worklist b ?_) hnodup.2
  rw [hw]
  exact mem_cons_of_mem id hb

theorem schedule (hid : g.HasNode id) : (g.schedule id).Valid := by
  rw [schedule_eq]
  refine h.withWorklist (fun b hb => ?_) (nodup_enqueue h.nodup id)
  rcases mem_enqueue.1 hb with hb | rfl
  · exact h.worklist b hb
  · exact hid

theorem touch (id : NodeId) : (g.touch id).Valid := by
  rw [touch_eq]
  refine h.withWorklist (fun b hb => ?_) (nodup_foldl_enqueue h.nodup)
  rcases mem_foldl_enqueue.1 hb with hb | hb
  · exact h.worklist b hb
  · exact h.dependents id b hb

theorem touchClass (c : ClassId) : (g.touchClass c).Valid := by
  unfold Graph.touchClass
  split
  · exact h.touch _
  · exact h

theorem subscribe (hd : g.HasNode dependent) (source : NodeId) :
    (g.subscribe dependent source).Valid := by
  refine h.of_same (Same.subscribe g dependent source)
    (fun id d hd => mem_dependents_subscribe.2 (.inl hd)) (fun id d hm => ?_) h.worklist h.nodup
  rcases mem_dependents_subscribe.1 hm with hm | ⟨-, -, rfl⟩
  · exact h.dependents id d hm
  · exact hd

theorem foldl_subscribe (hd : g.HasNode dependent) (sources : List NodeId) :
    (sources.foldl (fun g source => g.subscribe dependent source) g).Valid := by
  induction sources generalizing g with
  | nil => exact h
  | cons s sources ih =>
    exact ih (h.subscribe hd s) (((Same.subscribe g dependent s).hasNode dependent).2 hd)

/-! ### Growing sets and rules -/

theorem putTypes {types : TypeSet} (id : NodeId) (hT : ∀ t ∈ types, g.HasType t) :
    (g.putTypes id types).Valid := by
  have hn : ∀ b, g.HasNode b → (g.putTypes id types).HasNode b := fun b =>
    (hasNode_modifyNode g id _ b).2
  have hdep := dependents_putTypes g id types
  refine ⟨h.mono rfl rfl rfl rfl hn (fun b d hd => hdep ▸ hd), ?_, ?_, ?_, ?_, h.nodup, ?_, ?_⟩
  · rw [rule?_putTypes, hdep]
    exact h.heard
  · intro b object attr value hr
    rw [rule?_putTypes] at hr
    exact hn value (h.values b object attr value hr)
  · intro b d hd
    rw [hdep] at hd
    exact hn d (h.dependents b d hd)
  · exact fun b hb => hn b (h.worklist b hb)
  · intro b c
    rw [rule?_putTypes]
    exact h.owner b c
  · intro b t ht
    rcases mem_types_putTypes.1 ht with ht | ⟨-, -, ht⟩
    · exact h.types b t ht
    · exact hT t ht

/-- One node gets a rule that is no class's, and is told about the sources that it has not heard of.
-/
theorem of_rule {k : Graph} {rule : Rule} {new : List NodeId} (hclasses : k.classes = g.classes)
    (hfunctions : k.functions = g.functions) (hmodules : k.modules = g.modules)
    (hconstants : k.constants = g.constants) (hwork : k.worklist = g.worklist) (htypes : k.types = g.types)
    (hdep : k.dependents = g.dependents) (hn : ∀ b, g.HasNode b → k.HasNode b) (hid : k.HasNode id)
    (hrule : ∀ b, k.rule? b = if b = id then some rule else g.rule? b)
    (hold : ∀ c, g.rule? id ≠ some (.members c)) (hrest : ∀ c, rule ≠ .members c)
    (hsources : ∀ s ∈ rule.sources, id ∈ g.dependents s ∨ s ∈ new) (hnew : ∀ s ∈ new, g.HasNode s)
    (hvalue : ∀ object attr value, rule = .write object attr value → g.HasNode value) :
    (new.foldl (fun g source => g.subscribe id source) k).Valid := by
  set k' := new.foldl (fun g source => g.subscribe id source) k with hk
  have hsame : Same k k' := Same.foldl (fun g s => Same.subscribe g id s) new _
  have hn' : ∀ b, g.HasNode b → k'.HasNode b := fun b hb => (hsame.hasNode b).2 (hn b hb)
  have hrule' : ∀ b, k'.rule? b = if b = id then some rule else g.rule? b := fun b => by rw [hsame.rule?, hrule]
  have hdep' : ∀ b d, d ∈ k'.dependents b ↔ d ∈ g.dependents b ∨ (k.HasNode b ∧ b ∈ new ∧ d = id) := by
    intro b d
    rw [hk, mem_dependents_foldl_subscribe, hdep]
  have hwork' : k'.worklist = g.worklist := (worklist_foldl_subscribe id new _).trans hwork
  refine ⟨h.mono (hsame.classes.trans hclasses) (hsame.functions.trans hfunctions) (hsame.modules.trans hmodules)
    (hsame.constants.trans hconstants) hn' (fun b d hd => (hdep' b d).2 (.inl hd)), ?_, ?_, ?_, ?_, ?_, ?_, ?_⟩
  · intro b q hq s hs
    rw [hrule'] at hq
    rw [hdep']
    split at hq
    · next hb =>
      cases hq
      cases hb
      exact (hsources s hs).imp_right fun hs => ⟨hn s (hnew s hs), hs, rfl⟩
    · exact .inl (h.heard b q hq s hs)
  · intro b object attr value hq
    rw [hrule'] at hq
    split at hq
    · exact hn' value (hvalue object attr value (Option.some.inj hq))
    · exact hn' value (h.values b object attr value hq)
  · intro b d hd
    rcases (hdep' b d).1 hd with hd | ⟨-, -, rfl⟩
    · exact hn' d (h.dependents b d hd)
    · exact (hsame.hasNode d).2 hid
  · intro b hb
    rw [hwork'] at hb
    exact hn' b (h.worklist b hb)
  · rw [hwork']
    exact h.nodup
  · intro b c
    rw [hrule', hsame.class?, class?, hclasses]
    split
    · next hb =>
      refine ⟨fun hq => absurd (Option.some.inj hq) (hrest c), fun hq => ?_⟩
      exact absurd (hb ▸ (h.owner b c).2 hq) (hold c)
    · exact h.owner b c
  · intro b t ht
    rw [hsame.types, htypes] at ht
    exact (h.types b t ht).mono (by rw [hsame.classes, hclasses]) (by rw [hsame.functions, hfunctions])
      (by rw [hsame.modules, hmodules])

/-- A node may trade its inputs for more inputs, and is told about the new ones. -/
theorem replaceRule {r' : Rule} {new : List NodeId} (hr : g.rule? id = some r) (hflow : r.IsFlow)
    (hflow' : r'.IsFlow) (hsources : ∀ s ∈ r'.sources, s ∈ r.sources ∨ s ∈ new)
    (hnew : ∀ s ∈ new, g.HasNode s) :
    (new.foldl (fun g source => g.subscribe id source) (g.setRule id r')).Valid := by
  have hn : ∀ b, g.HasNode b → (g.setRule id r').HasNode b := fun b => (hasNode_modifyNode g id _ b).2
  refine h.of_rule rfl rfl rfl rfl rfl (types_setRule g id r') (dependents_setRule g id r') hn
    (hn id (hasNode_of_rule? hr)) (fun b => ?_) (fun c hc => ?_) (fun c hc => ?_)
    (fun s hs => (hsources s hs).imp_left (h.heard id r hr s)) hnew fun object attr value hw => ?_
  · rw [rule?_setRule]
    by_cases hb : b = id
    · rw [if_pos hb.symm, if_pos hb, hb, hr]
      rfl
    · rw [if_neg (Ne.symm hb), if_neg hb]
  · rw [hr] at hc
    cases hc
    exact hflow
  · subst hc
    exact hflow'
  · subst hw
    exact absurd hflow' not_false

/-- A new node whose sources exist; classes get theirs together with the class. -/
theorem push {rule : Rule} (line : Nat) (hs : ∀ s ∈ rule.sources, g.HasNode s)
    (hv : ∀ object attr value, rule = .write object attr value → g.HasNode value)
    (hm : ∀ c, rule ≠ .members c) : (g.push rule line).2.Valid := by
  have hnext : (g.append rule line).HasNode g.next := hasNode_append.2 (.inr rfl)
  have hnew : ∀ c, g.rule? g.next ≠ some (.members c) := fun c hc => g.not_hasNode_next (hasNode_of_rule? hc)
  have hlinked := h.of_rule (k := g.append rule line) rfl rfl rfl rfl rfl (types_append ..) (dependents_append ..)
    (fun b hb => hasNode_append.2 (.inl hb)) hnext (rule?_append g rule line) hnew hm (fun s hs => .inr hs) hs hv
  refine hlinked.schedule ?_
  exact ((Same.foldl (fun g' s => Same.subscribe g' g.next s) _ _).hasNode _).2 hnext

/-! ### Tables of classes -/

/-- A class may change what it says about members as long as its members exist. -/
theorem modifyClass {f : ClassInfo → ClassInfo} (hnode : ∀ info, (f info).node = info.node)
    (hclass : ∀ info, g.class? c = some info → g.ClassValid (f info)) :
    (g.modifyClass c f).Valid := by
  have hget : ∀ d info', (g.modifyClass c f).class? d = some info' →
      ∃ info, g.class? d = some info ∧ info'.node = info.node ∧ g.ClassValid info' := by
    intro d info' hd
    rw [class?_modifyClass] at hd
    split at hd
    · next hcd =>
      subst hcd
      obtain ⟨info, hinfo, rfl⟩ := Option.map_eq_some_iff.1 hd
      exact ⟨info, hinfo, hnode info, hclass info hinfo⟩
    · exact ⟨info', hd, rfl, h.classes d info' hd⟩
  refine { h with
    classes := fun d info' hd => ?_, modules := fun m info hm => { h.modules m info hm with }
    owner := fun b d => ?_, types := fun b t ht => ?_ }
  · obtain ⟨-, -, -, hcv⟩ := hget d info' hd
    exact { hcv with }
  · refine (h.owner b d).trans ⟨?_, ?_⟩
    · rintro ⟨info, hd, rfl⟩
      rw [class?_modifyClass, hd]
      split
      · exact ⟨f info, rfl, hnode info⟩
      · exact ⟨info, rfl, rfl⟩
    · rintro ⟨info', hd, rfl⟩
      obtain ⟨info, hinfo, heq, -⟩ := hget d info' hd
      exact ⟨info, hinfo, heq.symm⟩
  · exact (h.types b t ht).mono (by rw [size_modifyClass]) (le_rfl) (le_rfl)

theorem setMember (hm : g.HasNode member.node) (c : ClassId) (name : String) :
    (g.setMember c name member).Valid := by
  refine h.modifyClass (fun info => rfl) fun info hinfo => ?_
  have hcv := h.classes c info hinfo
  refine ⟨fun e he => ?_, hcv.linked, hcv.bases⟩
  rcases Table.mem_entries_insert he with he | rfl
  · exact hcv.members e he
  · exact hm

theorem noteLink {a b : NodeId} (ha : g.HasNode a) (hb : g.HasNode b) (c : ClassId) :
    (g.modifyClass c fun info => { info with linked := ordered a b :: info.linked }).Valid := by
  refine h.modifyClass (fun info => rfl) fun info hinfo => ?_
  have hcv := h.classes c info hinfo
  refine ⟨hcv.members, fun p hp => ?_, hcv.bases⟩
  rcases mem_cons.1 hp with rfl | hp
  · unfold ordered
    split
    · exact ⟨ha, hb⟩
    · exact ⟨hb, ha⟩
  · exact hcv.linked p hp

theorem openClass (c : ClassId) :
    (g.modifyClass c fun info => { info with anyBased := true }).Valid := by
  refine h.modifyClass (fun info => rfl) fun info hinfo => ?_
  exact { h.classes c info hinfo with }

/-! ### What a finding watches exists -/

theorem hasNode_classNodes (hw : w ∈ g.classNodes c) : g.HasNode w := by
  unfold classNodes at hw
  split at hw
  · next info hc =>
    rw [mem_singleton.1 hw]
    exact h.hasNode_class hc
  · exact absurd hw not_mem_nil

theorem supplies : Supplies g (fun _ => True) g.HasNode where
  any := trivial
  base _ := trivial
  builtinType _ := trivial
  builtinMethod _ _ _ := trivial
  classObject _ _ := trivial
  instanceOf _ _ := trivial
  method _ _ := trivial
  submodule _ _ _ _ _ _ := trivial
  types _ _ _ := trivial
  classNodes _ _ hn := h.hasNode_classNodes hn
  members _ _ _ hm := h.hasNode_member hm
  functions := h.functions
  exports m info _ _ hm hnode := (h.modules m info hm).exported _ (Table.mem_entries_of_get? hnode)

/-- The nodes that a value rule watches exist. -/
theorem hasNode_watched {f : Finding} (hr : g.IsValue r) (hf : g.find? r = some f)
    (hw : w ∈ f.watched) : g.HasNode w := by
  refine (h.supplies.find? (fun callee args hcall => ?_) hf).watched w hw
  subst hcall
  exact absurd hr not_false

end Valid

end Graph

end FlowTyping
