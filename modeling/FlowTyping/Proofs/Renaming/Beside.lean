/-
Two graphs beside each other in a third one.

A graph that holds copies of two others, which have nothing in common but constants, and nothing
else, works like the two of them at once.  When a node of it has its turn, it is the copy of a node
of one side, and that side takes the turn as well, or it is a constant, whose turn does nothing.
What the turn does to one copy leaves the other one alone (`Beside.turn`).  The nodes of one side
keep their order on the common work list, so when it is empty both sides have come to rest where
they would have come to rest by themselves (`Beside.propagate`).

Numbers that are not in use yet are renamed so that the next numbers on both sides belong together,
and that has to be put right when only the other side grows (`Copy.relock`).  Numbers in use keep
their new number (`Renaming.Agree`).
-/
import FlowTyping.Proofs.Graph.Range
import FlowTyping.Proofs.Renaming.Copy

namespace FlowTyping

open List

variable {id : NodeId} {c : ClassId} {info : ClassInfo}

/-! ### Numbers in use -/

/-- A function up to some number, and from there on in step. -/
def lockstep (f : Nat → Nat) (n m i : Nat) : Nat := if i < n then f i else m + (i - n)

section Lockstep

variable {f : Nat → Nat} {n m : Nat} {i : Nat}

theorem lockstep_of_lt (h : i < n) : lockstep f n m i = f i := if_pos h

theorem lockstep_add (k : Nat) : lockstep f n m (n + k) = m + k := by
  rw [lockstep, if_neg (not_lt.2 (Nat.le_add_right n k)), Nat.add_sub_cancel_left]

theorem le_lockstep (h : n ≤ i) : m ≤ lockstep f n m i := by
  obtain ⟨k, rfl⟩ := Nat.exists_eq_add_of_le h
  rw [lockstep_add]
  exact Nat.le_add_right m k

/-- Beyond the number it keeps the order. -/
theorem lockstep_lt {j : Nat} (h : i < j) (hi : n ≤ i) : lockstep f n m i < lockstep f n m j := by
  obtain ⟨k, rfl⟩ := Nat.exists_eq_add_of_le hi
  obtain ⟨l, rfl⟩ := Nat.exists_eq_add_of_le (le_trans hi (le_of_lt h))
  rw [lockstep_add, lockstep_add]
  omega

theorem getElem?_lockstep {α : Type} {xs ys : Array α} {k : α → α}
    (h : ∀ i, i < xs.size → ys[f i]? = xs[i]?.map k) (i : Nat) :
    ys[lockstep f xs.size ys.size i]? = xs[i]?.map k := by
  by_cases hi : i < xs.size
  · rw [lockstep_of_lt hi, h i hi]
  · rw [Array.getElem?_eq_none (le_of_not_gt hi)]
    exact Array.getElem?_eq_none (le_lockstep (le_of_not_gt hi))

theorem lockstep_injective (hf : ∀ i j, i < n → j < n → f i = f j → i = j)
    (hm : ∀ i, i < n → f i < m) : Function.Injective (lockstep f n m) := by
  intro i j h
  unfold lockstep at h
  split at h <;> split at h
  · next hi hj => exact hf i j hi hj h
  · next hi hj =>
    have := hm i hi
    omega
  · next hi hj =>
    have := hm j hj
    omega
  · omega

theorem lockstep_strictMono (hf : ∀ i j, i < j → j < n → f i < f j) (hm : ∀ i, i < n → f i < m) :
    StrictMono (lockstep f n m) := by
  intro i j hij
  unfold lockstep
  split <;> split
  · next hj => exact hf i j hij hj
  · next hi _ =>
    have := hm i hi
    omega
  · omega
  · omega

end Lockstep

/-- Renamings that agree on all numbers that a graph uses. -/
structure Renaming.Agree (ρ ρ' : Renaming) (g : Graph) : Prop where
  nodes : ∀ i, i < g.nodes.size → ρ'.nodes i = ρ.nodes i
  classes : ∀ i, i < g.classes.size → ρ'.classes i = ρ.classes i
  functions : ∀ i, i < g.functions.size → ρ'.functions i = ρ.functions i
  modules : ∀ i, i < g.modules.size → ρ'.modules i = ρ.modules i

namespace Renaming.Agree

variable {ρ ρ' ρ'' : Renaming} {g g' : Graph}

theorem refl (ρ : Renaming) (g : Graph) : Agree ρ ρ g :=
  ⟨fun _ _ => rfl, fun _ _ => rfl, fun _ _ => rfl, fun _ _ => rfl⟩

variable (h : Agree ρ ρ' g)
include h

theorem trans (h' : Agree ρ' ρ'' g) : Agree ρ ρ'' g :=
  ⟨fun i hi => (h'.nodes i hi).trans (h.nodes i hi), fun i hi => (h'.classes i hi).trans (h.classes i hi),
    fun i hi => (h'.functions i hi).trans (h.functions i hi),
    fun i hi => (h'.modules i hi).trans (h.modules i hi)⟩

omit h in
theorem earlier (h : Agree ρ ρ' g') (hl : Graph.Later g g') : Agree ρ ρ' g :=
  ⟨fun i hi => h.nodes i (lt_of_lt_of_le hi hl.size),
    fun i hi => h.classes i (lt_of_lt_of_le hi hl.classCount),
    fun i hi => h.functions i (lt_of_lt_of_le hi hl.functionCount),
    fun i hi => h.modules i (lt_of_lt_of_le hi hl.moduleCount)⟩

theorem node (hid : g.HasNode id) : ρ'.node id = ρ.node id :=
  congrArg NodeId.mk (h.nodes _ hid)

theorem ofClass (hc : c.index < g.classes.size) :
    ρ'.ofClass c = ρ.ofClass c := congrArg ClassId.mk (h.classes _ hc)

theorem ofFunction {f : FunctionId} (hf : f.index < g.functions.size) :
    ρ'.ofFunction f = ρ.ofFunction f := congrArg FunctionId.mk (h.functions _ hf)

theorem ofModule {m : ModuleId} (hm : m.index < g.modules.size) :
    ρ'.ofModule m = ρ.ofModule m := congrArg ModuleId.mk (h.modules _ hm)

theorem map_node {ids : List NodeId} (hids : ∀ id ∈ ids, g.HasNode id) :
    ids.map ρ'.node = ids.map ρ.node :=
  map_congr_left fun id hid => h.node (hids id hid)

theorem ty {t : Ty} (ht : g.HasType t) : ρ'.ty t = ρ.ty t := by
  cases t with
  | classObject c => exact congrArg Ty.classObject (h.ofClass ht)
  | instanceOf c => exact congrArg Ty.instanceOf (h.ofClass ht)
  | function f => exact congrArg Ty.function (h.ofFunction ht)
  | method f => exact congrArg Ty.method (h.ofFunction ht)
  | moduleObject m => exact congrArg Ty.moduleObject (h.ofModule ht)
  | _ => rfl

theorem types {s : TypeSet} (hs : ∀ t ∈ s, g.HasType t) : ρ'.types s = ρ.types s := by
  ext u
  rw [mem_types, mem_types]
  constructor
  · rintro ⟨t, ht, rfl⟩
    exact ⟨t, ht, (h.ty (hs t ht)).symm⟩
  · rintro ⟨t, ht, rfl⟩
    exact ⟨t, ht, h.ty (hs t ht)⟩

theorem rule {r : Rule} (hnodes : ∀ n ∈ r.mentioned, g.HasNode n)
    (howner : ∀ c, r = .members c → c.index < g.classes.size) : ρ'.rule r = ρ.rule r := by
  cases r with
  | plain inputs => exact congrArg Rule.plain (h.map_node hnodes)
  | merge values =>
    refine congrArg Rule.merge (map_congr_left fun value hvalue => ?_)
    cases value with
    | value n => exact congrArg Incoming.value (h.node (Graph.hasNode_of_sources hnodes n hvalue))
    | unbound => rfl
  | call callee args =>
    refine congrArg₂ Rule.call (h.node (hnodes callee mem_cons_self)) ?_
    refine map_congr_left fun a ha => ?_
    have hvalue := h.node (hnodes a.value (mem_cons_of_mem _ (mem_map_of_mem ha)))
    simp only [argument, hvalue]
  | members c => exact congrArg Rule.members (h.ofClass (howner c rfl))
  | binary op left right | subscript left right | write left attr right =>
    simp only [Renaming.rule, h.node (hnodes left (by simp [Rule.mentioned, Rule.sources])),
      h.node (hnodes right (by simp [Rule.mentioned, Rule.sources]))]
  | unary op operand | read operand attr | iterate operand =>
    simp only [Renaming.rule, h.node (hnodes operand (by simp [Rule.mentioned, Rule.sources]))]

omit h in
theorem mapValues {α β : Type} {f f' : α → β} {t : Table String α}
    (h : ∀ e ∈ t.entries, f' e.2 = f e.2) : t.mapValues f' = t.mapValues f :=
  congrArg Table.mk (map_congr_left fun e he => by rw [h e he])

theorem classInfo (hi : g.ClassInRange info) : ρ'.classInfo info = ρ.classInfo info := by
  have hmembers : info.members.mapValues ρ'.member = info.members.mapValues ρ.member :=
    mapValues fun e he => by rw [member, member, h.node (hi.members e he)]
  have hlinked : info.linked.map (Prod.map ρ'.node ρ'.node) =
      info.linked.map (Prod.map ρ.node ρ.node) :=
    map_congr_left fun p hp => by
      rw [Prod.map_apply', Prod.map_apply', h.node (hi.linked p hp).1, h.node (hi.linked p hp).2]
  simp only [Renaming.classInfo, h.node hi.node, h.map_node hi.bases, hmembers, hlinked]

theorem functionInfo {info : FunctionInfo} (hreturns : g.HasNode info.returns)
    (hparams : ∀ p ∈ info.params, g.HasNode p.node) :
    ρ'.functionInfo info = ρ.functionInfo info := by
  have hparams' : info.params.map ρ'.param = info.params.map ρ.param :=
    map_congr_left fun p hp => by rw [param, param, h.node (hparams p hp)]
  simp only [Renaming.functionInfo, h.node hreturns, hparams']

theorem moduleInfo {info : ModuleInfo} (hi : g.ModuleValid info) :
    ρ'.moduleInfo info = ρ.moduleInfo info := by
  have hexports : info.exports.mapValues ρ'.node = info.exports.mapValues ρ.node :=
    mapValues fun e he => h.node (hi.exported e he)
  have hsubmodules : info.submodules.mapValues ρ'.ofModule = info.submodules.mapValues ρ.ofModule :=
    mapValues fun e he => h.ofModule (hi.submodules e he)
  simp only [Renaming.moduleInfo, hexports, hsubmodules]

end Renaming.Agree

namespace Graph

variable {ρ ρ' σ σ' : Renaming} {a a' b b' g g' h h' k : Graph} {n m : Nat}

/-! ### Renamings that agree on a graph -/

theorem NodeCopy.agree {s : Prop} {n m : Node} (hc : NodeCopy ρ s n m) (hg : g.InRange)
    (hagree : ρ.Agree ρ' g) (hn : g.node? id = some n) : NodeCopy ρ' s n m := by
  have hrule : g.rule? id = some n.rule := rule?_eq_some_iff.2 ⟨n, hn, rfl⟩
  refine ⟨?_, ?_, hc.line, fun hs => ?_⟩
  · rw [hc.rule]
    refine (hagree.rule (hg.rules id _ hrule) fun c hc' => ?_).symm
    exact hg.owners id c (hrule.trans (congrArg some hc'))
  · rw [hc.types]
    refine (hagree.types fun t ht => hg.types id t ?_).symm
    rw [types_of_node? hn]
    exact ht
  · rw [hc.dependents hs]
    refine (hagree.map_node fun d hd => hg.dependents id d ?_).symm
    rw [dependents_eq_elim, hn]
    exact hd

theorem InRange.map_class? (hg : g.InRange) (hagree : ρ.Agree ρ' g) (c : ClassId) :
    (g.class? c).map ρ'.classInfo = (g.class? c).map ρ.classInfo :=
  Option.map_congr fun info hinfo => hagree.classInfo (hg.classes c info hinfo)

theorem InRange.map_function? (hg : g.InRange) (hagree : ρ.Agree ρ' g) (f : FunctionId) :
    (g.function? f).map ρ'.functionInfo = (g.function? f).map ρ.functionInfo := by
  refine Option.map_congr fun info hinfo => ?_
  obtain ⟨hreturns, hparams⟩ := hg.functions f info hinfo
  exact hagree.functionInfo hreturns hparams

theorem InRange.map_module? (hg : g.InRange) (hagree : ρ.Agree ρ' g) (m : ModuleId) :
    (g.module? m).map ρ'.moduleInfo = (g.module? m).map ρ.moduleInfo :=
  Option.map_congr fun info hinfo => hagree.moduleInfo (hg.modules m info hinfo)

/-! ### A copy in a graph that grows elsewhere -/

/-- All that a copy has. -/
def territory (ρ : Renaming) (g : Graph) : Territory where
  nodes id := ∃ i, g.HasNode i ∧ ρ.node i = id
  live id := ∃ i, g.HasNode i ∧ ¬ g.Shared i ∧ ρ.node i = id
  ofClass d := ∃ c : ClassId, c.index < g.classes.size ∧ ρ.ofClass c = d
  ofFunction k := ∃ f : FunctionId, f.index < g.functions.size ∧ ρ.ofFunction f = k
  ofModule n := ∃ m : ModuleId, m.index < g.modules.size ∧ ρ.ofModule m = n

theorem lt_size_iff {α : Type} {xs ys : Array α} {f : α → α} {i j : Nat}
    (h : ys[j]? = xs[i]?.map f) : j < ys.size ↔ i < xs.size := by
  rw [← not_iff_not, not_lt, not_lt, ← Array.getElem?_eq_none_iff, ← Array.getElem?_eq_none_iff, h,
    Option.map_eq_none_iff]

/-- Among nodes that exist, those of the copy's own are the copies of its nodes that are no
constants. -/
theorem waiting_own {work : List NodeId} (hagree : ρ.Agree ρ' g)
    (hwork : ∀ i, ρ'.node i ∈ work → g.HasNode i) :
    waiting (g.Own ρ') work = waiting (territory ρ g).live work := by
  refine waiting_congr fun id hid => ⟨?_, ?_⟩
  · rintro ⟨i, hi, rfl⟩
    exact ⟨i, hwork i hid, hi, (hagree.node (hwork i hid)).symm⟩
  · rintro ⟨i, hin, hi, rfl⟩
    exact ⟨i, hi, hagree.node hin⟩

namespace Copy

theorem lt_classes_iff (hc : Copy ρ g h) (c : ClassId) :
    (ρ.ofClass c).index < h.classes.size ↔ c.index < g.classes.size := lt_size_iff (hc.class? c)

theorem lt_functions_iff (hc : Copy ρ g h) (f : FunctionId) :
    (ρ.ofFunction f).index < h.functions.size ↔ f.index < g.functions.size := lt_size_iff (hc.function? f)

theorem lt_modules_iff (hc : Copy ρ g h) (m : ModuleId) :
    (ρ.ofModule m).index < h.modules.size ↔ m.index < g.modules.size := lt_size_iff (hc.module? m)

/-- **A copy stays a copy when its surroundings grow.** -/
theorem relock (hc : Copy ρ g h) (hg : g.InRange) (hv : h.Valid) (hv' : h'.Valid)
    (ha : Apart (territory ρ g) h h') : ∃ ρ', ρ.Agree ρ' g ∧ Copy ρ' g h' := by
  have hnode : ∀ i, i < g.nodes.size → ρ.nodes i < h'.nodes.size := fun i hi =>
    lt_of_lt_of_le ((hc.hasNode_iff ⟨i⟩).2 hi) ha.nodeCount
  have hclass : ∀ i, i < g.classes.size → ρ.classes i < h'.classes.size := fun i hi =>
    lt_of_lt_of_le ((hc.lt_classes_iff ⟨i⟩).2 hi) ha.classCount
  have hfunction : ∀ i, i < g.functions.size → ρ.functions i < h'.functions.size := fun i hi =>
    lt_of_lt_of_le ((hc.lt_functions_iff ⟨i⟩).2 hi) ha.functionCount
  have hmodule : ∀ i, i < g.modules.size → ρ.modules i < h'.modules.size := fun i hi =>
    lt_of_lt_of_le ((hc.lt_modules_iff ⟨i⟩).2 hi) ha.moduleCount
  let ρ' : Renaming :=
    { nodes := lockstep ρ.nodes g.nodes.size h'.nodes.size
      classes := lockstep ρ.classes g.classes.size h'.classes.size
      functions := lockstep ρ.functions g.functions.size h'.functions.size
      modules := lockstep ρ.modules g.modules.size h'.modules.size
      nodes_injective := lockstep_injective (fun _ _ _ _ heq => ρ.nodes_injective heq) hnode
      classes_strictMono := lockstep_strictMono (fun _ _ hij _ => ρ.classes_strictMono hij) hclass
      functions_strictMono := lockstep_strictMono (fun _ _ hij _ => ρ.functions_strictMono hij) hfunction
      modules_strictMono := lockstep_strictMono (fun _ _ hij _ => ρ.modules_strictMono hij) hmodule }
  have hagree : ρ.Agree ρ' g :=
    ⟨fun _ => lockstep_of_lt, fun _ => lockstep_of_lt, fun _ => lockstep_of_lt, fun _ => lockstep_of_lt⟩
  -- a number that is not in use is renamed to one that is not in use
  have hfree : ∀ {id : NodeId}, ¬ g.HasNode id → ¬ h'.HasNode (ρ'.node id) := fun hid =>
    not_lt.2 (le_lockstep (le_of_not_gt hid))
  refine ⟨ρ', hagree, ?_⟩
  refine
    { nextNode := fun k => lockstep_add k
      nextClass := fun k => lockstep_add k
      nextFunction := fun k => lockstep_add k
      nextModule := fun k => lockstep_add k
      node? := fun id => ?_
      class? := fun c => getElem?_lockstep (fun i hi => ?_) c.index
      function? := fun f => getElem?_lockstep (fun i hi => ?_) f.index
      module? := fun m => getElem?_lockstep (fun i hi => ?_) m.index
      unboundAsNone := ha.unboundAsNone.trans hc.unboundAsNone
      lookup := fun t id hid => ?_
      shared := fun id => ?_
      ordered := fun i j hi hj hij => ?_
      worklist := ?_ }
  · by_cases hid : g.HasNode id
    · obtain ⟨n, hn⟩ := Graph.hasNode_iff.1 hid
      have hcopy := hc.node? id
      have hkept := ha.node? (ρ.node id) ⟨id, hid, rfl⟩
      rw [hn] at hcopy
      obtain ⟨m, hm, hcopy⟩ := optionRel_some_left hcopy
      rw [hm] at hkept
      obtain ⟨m', hm', hkept⟩ := optionRel_some_left hkept
      rw [hagree.node hid, hn, hm']
      refine .some (NodeCopy.agree ⟨?_, ?_, fun hs => ?_, fun hs => ?_⟩ hg hagree hn)
      · exact hkept.rule.trans hcopy.rule
      · exact hkept.types.trans hcopy.types
      · exact hkept.line.trans (hcopy.line hs)
      · exact (hkept.dependents ⟨id, hid, hs, rfl⟩).trans (hcopy.dependents hs)
    · rw [node?_eq_none_iff.2 hid, node?_eq_none_iff.2 (hfree hid)]
      exact .none
  · exact ((ha.class? _ ⟨⟨i⟩, hi, rfl⟩).trans (hc.class? ⟨i⟩)).trans (hg.map_class? hagree ⟨i⟩).symm
  · exact ((ha.function? _ ⟨⟨i⟩, hi, rfl⟩).trans (hc.function? ⟨i⟩)).trans (hg.map_function? hagree ⟨i⟩).symm
  · exact ((ha.module? _ ⟨⟨i⟩, hi, rfl⟩).trans (hc.module? ⟨i⟩)).trans (hg.map_module? hagree ⟨i⟩).symm
  · obtain ⟨htype, hthere⟩ := hg.constants t id (mem_of_lookup_eq_some hid)
    rw [hagree.ty htype, hagree.node hthere]
    exact ha.lookup _ _ (hc.lookup t id hid)
  · by_cases hid : g.HasNode id
    · rw [hagree.node hid, ha.shared _ ((hc.hasNode_iff id).2 hid), hc.shared]
    · constructor
      · rintro ⟨t, ht⟩
        exact absurd (hv'.constants _ ht) (hfree hid)
      · rintro ⟨t, ht⟩
        exact absurd (hg.constants t id ht).2 hid
  · by_cases hjn : g.HasNode j
    · have hin : g.HasNode i := lt_trans hij hjn
      rw [hagree.node hin, hagree.node hjn]
      exact hc.ordered i j hi hj hij
    · by_cases hin : g.HasNode i
      · have hless : (ρ'.node i).index < h'.nodes.size := by
          rw [hagree.node hin]
          exact hnode _ hin
        exact lt_of_lt_of_le hless (le_lockstep (le_of_not_gt hjn))
      · exact lockstep_lt hij (le_of_not_gt hin)
  · rw [waiting_own hagree fun i hi => not_not.1 (mt hfree (not_not.2 (hv'.worklist _ hi))), ha.worklist,
      ← waiting_own (.refl ρ g) fun i hi => (hc.hasNode_iff i).1 (hv.worklist _ hi), hc.worklist]
    exact (hagree.map_node fun id hid => hg.worklist id (mem_waiting.1 hid).1).symm

end Copy

/-! ### Turns -/

theorem Turns.append (hm : Turns m g k) (hn : Turns n k g') : ∃ l, Turns l g g' := by
  induction hm with
  | none => exact ⟨n, hn⟩
  | turn hw _ ih =>
    obtain ⟨l, hl⟩ := ih hn
    exact ⟨l + 1, .turn hw hl⟩

/-- The graph in which turns come to an end is determined by the one in which they start. -/
theorem Turns.end_unique {k' : Graph} (h : Turns m g k) (hk : k.worklist = [])
    (h' : Turns n g k') (hk' : k'.worklist = []) : k = k' := by
  induction h generalizing n with
  | none g =>
    cases h' with
    | none => rfl
    | turn hw => rw [hw] at hk; cases hk
  | turn hw _ ih =>
    cases h' with
    | none => rw [hw] at hk'; cases hk'
    | turn hw' h' =>
      rw [hw] at hw'
      cases hw'
      exact ih hk h'

theorem Turns.eq_propagate (h : Turns n g g') (hv : g.Valid) (hempty : g'.worklist = []) :
    g' = g.propagate := by
  obtain ⟨m, hm, hm', -⟩ := hv.halts
  exact h.end_unique hempty hm hm'

theorem Turns.valid (h : Turns n g g') (hv : g.Valid) : g'.Valid := by
  induction h with
  | none => exact hv
  | turn hw _ ih => exact ih (hv.turn hw)

theorem Turns.later (h : Turns n g g') (hv : g.Valid) : Later g g' := by
  induction h with
  | none g => exact .refl g
  | @turn n g g' id rest hw _ ih =>
    exact (Later.of_extends (turn_extends hv hw)).trans (ih (hv.turn hw))

/-- The turn of a constant does nothing. -/
theorem turn_of_shared (hclean : g.Clean) (hid : g.Shared id) (rest : List NodeId) :
    g.turn id rest = { g with worklist := rest, recomputations := g.recomputations + 1 } := by
  have hrule : ({ g with worklist := rest } : Graph).rule? id = some (.plain []) := hclean.rule? hid
  unfold Graph.turn
  rw [recompute_of_finds hrule trivial]
  rfl

/-- Constants at the head of the work list go by. -/
theorem turns_of_shared {before rest : List NodeId} (hclean : g.Clean)
    (hw : g.worklist = before ++ rest) (hbefore : ∀ id ∈ before, g.Shared id) :
    Turns before.length g
      { g with worklist := rest, recomputations := g.recomputations + before.length } := by
  induction before generalizing g with
  | nil =>
    have hsame : ({ g with worklist := rest, recomputations := g.recomputations + 0 } : Graph) = g := by
      rw [nil_append] at hw
      subst hw
      rfl
    rw [length_nil, hsame]
    exact .none g
  | cons id before ih =>
    have hturn := turn_of_shared hclean (hbefore id mem_cons_self) (before ++ rest)
    have hclean' := hclean.turn id (before ++ rest)
    have hbefore' : ∀ i ∈ before, (g.turn id (before ++ rest)).Shared i := by
      rw [hturn]
      exact fun i hi => hbefore i (mem_cons_of_mem id hi)
    have hrest := ih hclean' (by rw [hturn]) hbefore'
    have hw' : g.worklist = id :: (before ++ rest) := hw
    refine .turn hw' ?_
    rw [hturn] at hrest ⊢
    rw [length_cons, add_comm before.length 1, ← add_assoc]
    exact hrest

/-! ### Two copies -/

/-- A graph that holds copies of two others, which have only constants in common, and nothing else.
-/
structure Beside (ρ σ : Renaming) (a b h : Graph) : Prop where
  left : Copy ρ a h
  right : Copy σ b h
  leftValid : a.Valid
  leftClean : a.Clean
  rightValid : b.Valid
  rightClean : b.Clean
  valid : h.Valid
  clean : h.Clean
  nodes : ∀ i j, a.HasNode i → b.HasNode j → ρ.node i = σ.node j → a.Shared i ∧ b.Shared j
  ofClass : ∀ c d : ClassId, c.index < a.classes.size → d.index < b.classes.size →
    ρ.ofClass c ≠ σ.ofClass d
  ofFunction : ∀ f k : FunctionId, f.index < a.functions.size → k.index < b.functions.size →
    ρ.ofFunction f ≠ σ.ofFunction k
  ofModule : ∀ m n : ModuleId, m.index < a.modules.size → n.index < b.modules.size →
    ρ.ofModule m ≠ σ.ofModule n
  cover : ∀ id, h.HasNode id → (territory ρ a).nodes id ∨ (territory σ b).nodes id

/-- No class is kept in a constant. -/
theorem Valid.not_shared_class (hv : g.Valid) (hclean : g.Clean)
    (hc : g.class? c = some info) : ¬ g.Shared info.node := by
  intro hshared
  have howner := (hv.owner info.node c).2 ⟨info, hc, rfl⟩
  rw [hclean.rule? hshared] at howner
  cases howner

namespace Beside

variable {rest : List NodeId}

variable (hb : Beside ρ σ a b h)
include hb

theorem symm : Beside σ ρ b a h where
  left := hb.right
  right := hb.left
  leftValid := hb.rightValid
  leftClean := hb.rightClean
  rightValid := hb.leftValid
  rightClean := hb.leftClean
  valid := hb.valid
  clean := hb.clean
  nodes i j hi hj heq := (hb.nodes j i hj hi heq.symm).symm
  ofClass c d hc hd heq := hb.ofClass d c hd hc heq.symm
  ofFunction f k hf hk heq := hb.ofFunction k f hk hf heq.symm
  ofModule m n hm hn heq := hb.ofModule n m hn hm heq.symm
  cover id hid := (hb.cover id hid).symm

/-- The right copy is clear of all that the left one has. -/
theorem clear : (territory ρ a).Clear σ b := by
  -- a number that is not in use on the right is not in use at all
  have hright : ∀ {i j : NodeId}, a.HasNode i → ρ.node i = σ.node j → b.HasNode j := by
    intro i j hi heq
    rw [← hb.right.hasNode_iff, ← heq, hb.left.hasNode_iff]
    exact hi
  refine ⟨fun j hj => ?_, fun j => ?_, fun d => ?_, fun k => ?_, fun n => ?_⟩
  · rintro ⟨i, hi, heq⟩
    exact hj (hb.nodes i j hi (hright hi heq) heq).2
  · rintro ⟨i, hi, hns, heq⟩
    exact hns (hb.nodes i j hi (hright hi heq) heq).1
  · rintro ⟨c, hc, heq⟩
    refine hb.ofClass c d hc ?_ heq
    rw [← hb.right.lt_classes_iff, ← heq, hb.left.lt_classes_iff]
    exact hc
  · rintro ⟨f, hf, heq⟩
    refine hb.ofFunction f k hf ?_ heq
    rw [← hb.right.lt_functions_iff, ← heq, hb.left.lt_functions_iff]
    exact hf
  · rintro ⟨m, hm, heq⟩
    refine hb.ofModule m n hm ?_ heq
    rw [← hb.right.lt_modules_iff, ← heq, hb.left.lt_modules_iff]
    exact hm

theorem ready : Ready (territory ρ a) σ b h :=
  ⟨hb.right, hb.clear, hb.rightClean, fun _ _ hc => hb.rightValid.not_shared_class hb.rightClean hc⟩

theorem leftInRange : a.InRange := hb.leftValid.inRange hb.leftClean

/-- A step of the right copy leaves the left one where it is. -/
theorem along (hr : Ready (territory ρ a) σ b' h') (hapart : Apart (territory ρ a) h h')
    (hv : b'.Valid) (hvh : h'.Valid) (hclean : h'.Clean) :
    ∃ ρ', ρ.Agree ρ' a ∧ Beside ρ' σ a b' h' := by
  obtain ⟨ρ', hagree, hleft⟩ := hb.left.relock hb.leftInRange hb.valid hvh hapart
  have hright := hr.copy
  have hclear := hr.clear
  refine ⟨ρ', hagree,
    { hb with
      left := hleft
      right := hright
      rightValid := hv
      rightClean := hr.clean
      valid := hvh
      clean := hclean
      nodes := fun i j hi hj heq => ?_
      ofClass := fun c d hc _ heq => hclear.ofClass d ⟨c, hc, ?_⟩
      ofFunction := fun f k hf _ heq => hclear.ofFunction k ⟨f, hf, ?_⟩
      ofModule := fun m n hm _ heq => hclear.ofModule n ⟨m, hm, ?_⟩
      cover := fun id hid => ?_ }⟩
  · rw [hagree.node hi] at heq
    have hj' : b'.Shared j := by
      by_contra hns
      exact hclear.nodes j hns ⟨i, hi, heq⟩
    refine ⟨?_, hj'⟩
    by_contra hns
    exact hclear.live j ⟨i, hi, hns, heq⟩
  · rw [← hagree.ofClass hc, heq]
  · rw [← hagree.ofFunction hf, heq]
  · rw [← hagree.ofModule hm, heq]
  · by_cases hold : h.HasNode id
    · rcases hb.cover id hold with ⟨i, hi, rfl⟩ | ⟨j, hj, rfl⟩
      · exact .inl ⟨i, hi, hagree.node hi⟩
      · exact .inr ⟨j, (hright.hasNode_iff j).1 hid, rfl⟩
    · -- a new node is the copy of a new node on the right
      obtain ⟨k, hk⟩ := Nat.exists_eq_add_of_le (le_of_not_gt hold)
      have heq : σ.node ⟨b.nodes.size + k⟩ = id := by
        apply NodeId.index_inj
        rw [hk]
        exact hb.right.nextNode k
      exact .inr ⟨_, (hright.hasNode_iff _).1 (heq ▸ hid), heq⟩

/-! ### Turns on both sides -/

/-- How one side has got from one graph to another. -/
structure Moved (ρ ρ' : Renaming) (a a' : Graph) : Prop where
  agree : ρ.Agree ρ' a
  turns : ∃ n, Turns n a a'
  idle : (∀ id ∈ a.worklist, a.Shared id) → a' = a

omit hb in
theorem Moved.stays (hagree : ρ.Agree ρ' a) : Moved ρ ρ' a a := ⟨hagree, ⟨0, .none a⟩, fun _ => rfl⟩

omit hb in
theorem Moved.trans {ρ'' : Renaming} {a'' : Graph} (h : Moved ρ ρ' a a') (h' : Moved ρ' ρ'' a' a'')
    (hv : a.Valid) : Moved ρ ρ'' a a'' := by
  obtain ⟨n, hn⟩ := h.turns
  obtain ⟨m, hm⟩ := h'.turns
  refine ⟨h.agree.trans (h'.agree.earlier (hn.later hv)), hn.append hm, fun hidle => ?_⟩
  have hsame := h.idle hidle
  subst hsame
  exact h'.idle hidle

theorem turnRight {j : NodeId} (hj : ¬ b.Shared j) (hw : h.worklist = σ.node j :: rest) :
    ∃ ρ' b', Beside ρ' σ a b' (h.turn (σ.node j) rest) ∧ Moved ρ ρ' a a ∧ Moved σ σ b b' := by
  -- before the node there can only be constants on the work list of its own side
  have hwork := hb.right.worklist
  rw [hw, waiting_cons_of (Copy.own_iff.2 hj)] at hwork
  obtain ⟨i, later, hwait, hi, -⟩ := map_eq_cons_iff.1 hwork.symm
  have hij := σ.node_injective hi
  subst hij
  obtain ⟨before, after, hlist, hbefore⟩ := waiting_eq_cons hwait
  have hshared : ∀ id ∈ before, b.Shared id := fun id hid => not_not.1 (hbefore id hid)
  let b₁ : Graph :=
    { b with worklist := i :: after, recomputations := b.recomputations + before.length }
  have hturns : Turns before.length b b₁ := turns_of_shared hb.rightClean hlist hshared
  have hpop : Along (territory ρ a) σ b h { b with worklist := i :: after } h := by
    refine hb.ready.withWorklist ?_ rfl
    rw [hb.right.worklist, hlist, waiting_append_of_not hbefore]
  have hcount : Along (territory ρ a) σ b h b₁ h :=
    hpop.trans (hpop.ready.withCounts _ b.growths h.recomputations h.growths)
  have hal := hcount.trans (hcount.ready.turn hj rfl hw)
  obtain ⟨n, hn⟩ := hturns.append (.turn rfl (.none (b₁.turn i after)))
  obtain ⟨ρ', hagree, hbeside⟩ := hb.along hal.ready hal.apart (hn.valid hb.rightValid)
    (hb.valid.turn hw) (hb.clean.turn _ rest)
  refine ⟨ρ', b₁.turn i after, hbeside, .stays hagree, .refl σ b, ⟨n, hn⟩, fun hidle => ?_⟩
  exact absurd (hidle i (hlist ▸ mem_append_right _ mem_cons_self)) hj

theorem turnShared (hid : h.Shared id) (hw : h.worklist = id :: rest) :
    ∃ ρ' σ', Beside ρ' σ' a b (h.turn id rest) ∧ Moved ρ ρ' a a ∧ Moved σ σ' b b := by
  have hvalid := hb.valid.turn hw
  have hclean := hb.clean.turn id rest
  rw [turn_of_shared hb.clean hid] at hvalid hclean ⊢
  have hapart : ∀ {τ : Renaming} {g : Graph}, Copy τ g h → Apart (territory τ g) h
      { h with worklist := rest, recomputations := h.recomputations + 1 } := by
    intro τ g hc
    refine { Apart.refl (territory τ g) h with worklist := ?_ }
    rw [hw, waiting_cons_of_not]
    rintro ⟨i, -, hi, rfl⟩
    exact hi ((hc.shared i).1 hid)
  obtain ⟨ρ', hρ, hleft⟩ := hb.left.relock hb.leftInRange hb.valid hvalid (hapart hb.left)
  obtain ⟨σ', hσ, hright⟩ := hb.right.relock hb.symm.leftInRange hb.valid hvalid (hapart hb.right)
  refine ⟨ρ', σ',
    { hb with
      left := hleft
      right := hright
      valid := hvalid
      clean := hclean
      nodes := fun i j hi hj heq => ?_
      ofClass := fun c d hc hd heq => ?_
      ofFunction := fun f k hf hk heq => ?_
      ofModule := fun m n hm hn heq => ?_
      cover := fun i hi => ?_ }, .stays hρ, .stays hσ⟩
  · rw [hρ.node hi, hσ.node hj] at heq
    exact hb.nodes i j hi hj heq
  · rw [hρ.ofClass hc, hσ.ofClass hd] at heq
    exact hb.ofClass c d hc hd heq
  · rw [hρ.ofFunction hf, hσ.ofFunction hk] at heq
    exact hb.ofFunction f k hf hk heq
  · rw [hρ.ofModule hm, hσ.ofModule hn] at heq
    exact hb.ofModule m n hm hn heq
  · rcases hb.cover i hi with ⟨j, hj, rfl⟩ | ⟨j, hj, rfl⟩
    · exact .inl ⟨j, hj, hρ.node hj⟩
    · exact .inr ⟨j, hj, hσ.node hj⟩

/-- **A turn is a turn of one side, or it does nothing.** -/
theorem turn (hw : h.worklist = id :: rest) :
    ∃ ρ' σ' a' b', Beside ρ' σ' a' b' (h.turn id rest) ∧ Moved ρ ρ' a a' ∧ Moved σ σ' b b' := by
  have hthere : h.HasNode id := hb.valid.worklist id (hw ▸ mem_cons_self)
  rcases hb.cover id hthere with ⟨i, -, rfl⟩ | ⟨j, -, rfl⟩
  · by_cases hi : a.Shared i
    · obtain ⟨ρ', σ', hturn⟩ := hb.turnShared ((hb.left.shared i).2 hi) hw
      exact ⟨ρ', σ', a, b, hturn⟩
    · obtain ⟨σ', a', hbeside, hσ, hρ⟩ := hb.symm.turnRight hi hw
      exact ⟨ρ, σ', a', b, hbeside.symm, hρ, hσ⟩
  · by_cases hj : b.Shared j
    · obtain ⟨ρ', σ', hturn⟩ := hb.turnShared ((hb.right.shared j).2 hj) hw
      exact ⟨ρ', σ', a, b, hturn⟩
    · obtain ⟨ρ', b', hbeside, hρ, hσ⟩ := hb.turnRight hj hw
      exact ⟨ρ', σ, a, b', hbeside, hρ, hσ⟩

theorem turns {n : Nat} (ht : Turns n h h') :
    ∃ ρ' σ' a' b', Beside ρ' σ' a' b' h' ∧ Moved ρ ρ' a a' ∧ Moved σ σ' b b' := by
  induction ht generalizing ρ σ a b with
  | none => exact ⟨ρ, σ, a, b, hb, .stays (.refl ρ a), .stays (.refl σ b)⟩
  | turn hw _ ih =>
    obtain ⟨ρ₁, σ₁, a₁, b₁, hb₁, hρ₁, hσ₁⟩ := hb.turn hw
    obtain ⟨ρ₂, σ₂, a₂, b₂, hb₂, hρ₂, hσ₂⟩ := ih hb₁
    exact ⟨ρ₂, σ₂, a₂, b₂, hb₂, hρ₁.trans hρ₂ hb.leftValid, hσ₁.trans hσ₂ hb.rightValid⟩

/-- When nobody waits any more, only constants can be left on the list of one side. -/
theorem settleRight (hempty : h.worklist = []) :
    ∃ ρ', Beside ρ' σ a b.propagate h ∧ ρ.Agree ρ' a := by
  have hwork := hb.right.worklist
  rw [hempty, waiting_nil] at hwork
  have hshared : ∀ id ∈ b.worklist, b.Shared id := by
    intro id hid
    by_contra hns
    have hmem := mem_waiting (p := fun id => ¬ b.Shared id).2 ⟨hid, hns⟩
    rw [map_eq_nil_iff.1 hwork.symm] at hmem
    cases hmem
  have hturns := turns_of_shared hb.rightClean (append_nil _).symm hshared
  have hpop : Along (territory ρ a) σ b h { b with worklist := [] } h := by
    refine hb.ready.withWorklist ?_ rfl
    rw [hempty, waiting_nil, waiting_nil, map_nil]
  have hcount := hpop.trans (hpop.ready.withCounts (b.recomputations + b.worklist.length) b.growths
    h.recomputations h.growths)
  obtain ⟨ρ', hagree, hbeside⟩ := hb.along hcount.ready hcount.apart
    (hturns.valid hb.rightValid) hb.valid hb.clean
  have hend := hturns.eq_propagate hb.rightValid rfl
  exact ⟨ρ', hend ▸ hbeside, hagree⟩

/-- **While one side rests, the other one comes to rest as it would by itself.** -/
theorem propagateRight (hidle : ∀ id ∈ a.worklist, a.Shared id) :
    ∃ ρ' σ', Beside ρ' σ' a b.propagate h.propagate ∧ ρ.Agree ρ' a ∧ σ.Agree σ' b := by
  obtain ⟨n, hturns, hempty, -⟩ := hb.valid.halts
  obtain ⟨ρ₁, σ₁, a₁, b₁, hb₁, hρ, hσ⟩ := hb.turns hturns
  have hsame := hρ.idle hidle
  subst hsame
  obtain ⟨ρ₂, hb₂, hagree⟩ := hb₁.settleRight hempty
  obtain ⟨m, hm⟩ := hσ.turns
  obtain ⟨l, hl, hl', -⟩ := hb₁.rightValid.halts
  obtain ⟨k, hk⟩ := hm.append hl
  rw [hk.eq_propagate hb.rightValid hl'] at hb₂
  exact ⟨ρ₂, σ₁, hb₂, hρ.agree.trans hagree, hσ.agree⟩

/-- **Both sides come to rest as they would by themselves.** -/
theorem propagate :
    ∃ ρ' σ', Beside ρ' σ' a.propagate b.propagate h.propagate ∧ ρ.Agree ρ' a ∧ σ.Agree σ' b := by
  obtain ⟨n, hturns, hempty, -⟩ := hb.valid.halts
  obtain ⟨ρ₁, σ₁, a₁, b₁, hb₁, hρ, hσ⟩ := hb.turns hturns
  obtain ⟨ρ₂, hb₂, hagree⟩ := hb₁.settleRight hempty
  obtain ⟨σ₂, hb₃, hagree'⟩ := hb₂.symm.settleRight hempty
  have hend : ∀ {g g' : Graph} {τ τ' : Renaming}, Moved τ τ' g g' → g.Valid → g'.Valid →
      g'.propagate = g.propagate ∧ Later g g'.propagate := by
    intro g g' τ τ' hmoved hv hv'
    obtain ⟨m, hm⟩ := hmoved.turns
    obtain ⟨l, hl, hl', -⟩ := hv'.halts
    obtain ⟨k, hk⟩ := hm.append hl
    exact ⟨hk.eq_propagate hv hl', hk.later hv⟩
  obtain ⟨ha, -⟩ := hend hρ hb.leftValid hb₁.leftValid
  obtain ⟨hb', hlater⟩ := hend hσ hb.rightValid hb₁.rightValid
  rw [ha, hb'] at hb₃
  rw [hb'] at hlater hagree'
  obtain ⟨m, hm⟩ := hρ.turns
  exact ⟨ρ₂, σ₂, hb₃.symm, hρ.agree.trans (hagree.earlier (hm.later hb.leftValid)),
    hσ.agree.trans (hagree'.earlier hlater)⟩

end Beside

end Graph

end FlowTyping
