/-
What the single steps on a constraint graph do to what can be seen of it.

A graph is seen through a few views: the rule, the set and the dependents of each node, the tables
of classes, the functions and the modules, and the work list.  For every step of `Graph.Change`
there is one lemma for each view that it changes, and the views that it leaves alone are `simp`
lemmas; later files cite these and never open the arrays.  `schedule`, `subscribe` and `touch` leave
rules, sets and tables alone (`Same`).
-/
import Mathlib
import FlowTyping.Graph.Build

namespace FlowTyping

open List

theorem NodeId.index_inj {a b : NodeId} (h : a.index = b.index) : a = b := by
  cases a
  cases b
  cases h
  rfl

namespace Graph

variable {g g' : Graph} {id : NodeId} {a b dependent : NodeId} {ids work : List NodeId} {r : Rule}
  {t : Ty} {types : TypeSet}

/-! ### Nodes -/

def node? (g : Graph) (id : NodeId) : Option Node := g.nodes[id.index]?

def HasNode (g : Graph) (id : NodeId) : Prop := id.index < g.nodes.size

instance (g : Graph) (id : NodeId) : Decidable (g.HasNode id) :=
  inferInstanceAs (Decidable (id.index < g.nodes.size))

theorem node?_eq_none_iff : g.node? id = none ↔ ¬ g.HasNode id := by
  rw [node?, HasNode, Array.getElem?_eq_none_iff, not_lt]

theorem hasNode_iff : g.HasNode id ↔ ∃ n, g.node? id = some n := by
  rw [← Option.ne_none_iff_exists', ne_eq, node?_eq_none_iff, not_not]

theorem types_eq_elim (g : Graph) (id : NodeId) :
    g.types id = (g.node? id).elim .empty Node.types := by
  rw [types, node?]
  rcases g.nodes[id.index]? with - | n <;> rfl

theorem rule?_eq_map (g : Graph) (id : NodeId) : g.rule? id = (g.node? id).map Node.rule := by
  rw [rule?, node?]
  rcases g.nodes[id.index]? with - | n <;> rfl

theorem dependents_eq_elim (g : Graph) (id : NodeId) :
    g.dependents id = (g.node? id).elim [] Node.dependents := by
  rw [dependents, node?]
  rcases g.nodes[id.index]? with - | n <;> rfl

theorem line_eq_elim (g : Graph) (id : NodeId) : g.line id = (g.node? id).elim 0 Node.line := by
  rw [line, node?]
  rcases g.nodes[id.index]? with - | n <;> rfl

theorem types_of_node? {n : Node} (h : g.node? id = some n) : g.types id = n.types := by
  rw [types_eq_elim, h]
  rfl

theorem types_of_not_hasNode (h : ¬ g.HasNode id) : g.types id = .empty := by
  rw [types_eq_elim, node?_eq_none_iff.2 h]
  rfl

theorem dependents_of_not_hasNode (h : ¬ g.HasNode id) : g.dependents id = [] := by
  rw [dependents_eq_elim, node?_eq_none_iff.2 h]
  rfl

theorem rule?_eq_some_iff : g.rule? id = some r ↔ ∃ n, g.node? id = some n ∧ n.rule = r := by
  rw [rule?_eq_map, Option.map_eq_some_iff]

theorem hasNode_of_rule? (h : g.rule? id = some r) : g.HasNode id := by
  obtain ⟨n, hn, -⟩ := rule?_eq_some_iff.1 h
  exact hasNode_iff.2 ⟨n, hn⟩

theorem hasNode_of_mem_dependents {d : NodeId} (h : d ∈ g.dependents id) : g.HasNode id := by
  by_contra hno
  rw [dependents_of_not_hasNode hno] at h
  exact absurd h not_mem_nil

theorem hasNode_of_mem_types (h : t ∈ g.types id) : g.HasNode id := by
  by_contra hno
  rw [types_of_not_hasNode hno] at h
  exact TypeSet.not_mem_empty t h

theorem views_congr (h : g'.nodes = g.nodes) :
    g'.types = g.types ∧ g'.rule? = g.rule? ∧ g'.dependents = g.dependents := by
  refine ⟨?_, ?_, ?_⟩ <;> funext id
  · rw [types, types, h]
  · rw [rule?, rule?, h]
  · rw [dependents, dependents, h]

theorem tables_congr (h : g'.classes = g.classes) :
    g'.class? = g.class? ∧ g'.member? = g.member? ∧ g'.bases = g.bases ∧
      g'.anyBased = g.anyBased := by
  have hclass : g'.class? = g.class? := by
    funext c
    rw [class?, class?, h]
  refine ⟨hclass, ?_, ?_, ?_⟩
  · funext c name
    rw [member?, member?, hclass]
  · funext c
    rw [bases, bases, hclass]
  · funext c
    rw [anyBased, anyBased, hclass]

/-! ### Changing one node -/

section

variable (g) (a : NodeId) (f : Node → Node)

theorem node?_modifyNode (b : NodeId) :
    (g.modifyNode a f).node? b = if a = b then (g.node? b).map f else g.node? b := by
  have hiff : a.index = b.index ↔ a = b := ⟨NodeId.index_inj, congrArg _⟩
  simp only [node?, modifyNode, Array.getElem?_modify, hiff]

@[simp]
theorem size_modifyNode : (g.modifyNode a f).nodes.size = g.nodes.size := by simp [modifyNode]

@[simp]
theorem hasNode_modifyNode (b : NodeId) : (g.modifyNode a f).HasNode b ↔ g.HasNode b := by
  rw [HasNode, HasNode, size_modifyNode]

variable {f}

theorem types_modifyNode_of_keep (hf : ∀ n, (f n).types = n.types) :
    (g.modifyNode a f).types = g.types := by
  funext b
  rw [types_eq_elim, types_eq_elim, node?_modifyNode]
  split <;> rcases g.node? b with - | n <;> simp [hf]

theorem rule?_modifyNode_of_keep (hf : ∀ n, (f n).rule = n.rule) :
    (g.modifyNode a f).rule? = g.rule? := by
  funext b
  rw [rule?_eq_map, rule?_eq_map, node?_modifyNode]
  split <;> rcases g.node? b with - | n <;> simp [hf]

theorem dependents_modifyNode_of_keep (hf : ∀ n, (f n).dependents = n.dependents) :
    (g.modifyNode a f).dependents = g.dependents := by
  funext b
  rw [dependents_eq_elim, dependents_eq_elim, node?_modifyNode]
  split <;> rcases g.node? b with - | n <;> simp [hf]

theorem line_modifyNode_of_keep (hf : ∀ n, (f n).line = n.line) :
    (g.modifyNode a f).line = g.line := by
  funext b
  rw [line_eq_elim, line_eq_elim, node?_modifyNode]
  split <;> rcases g.node? b with - | n <;> simp [hf]

end

/-! ### The work list -/

/-- A work list with one more node, unless it waits already. -/
def enqueue (work : List NodeId) (id : NodeId) : List NodeId :=
  if id ∈ work then work else work ++ [id]

theorem schedule_eq (g : Graph) (id : NodeId) :
    g.schedule id = { g with worklist := enqueue g.worklist id } := by
  unfold schedule enqueue
  split <;> rfl

theorem foldl_schedule_eq (ids : List NodeId) (g : Graph) :
    ids.foldl schedule g = { g with worklist := ids.foldl enqueue g.worklist } := by
  induction ids generalizing g with
  | nil => rfl
  | cons id ids ih => rw [foldl_cons, ih, schedule_eq, foldl_cons]

theorem touch_eq (g : Graph) (id : NodeId) :
    g.touch id = { g with worklist := (g.dependents id).foldl enqueue g.worklist } :=
  foldl_schedule_eq _ _

theorem dependents_touch (g : Graph) (id : NodeId) : (g.touch id).dependents = g.dependents := by
  rw [touch_eq]
  rfl

theorem mem_enqueue : b ∈ enqueue work a ↔ b ∈ work ∨ b = a := by
  unfold enqueue
  split
  · next h => exact ⟨.inl, fun hb => hb.elim (fun hb => hb) fun hb => hb ▸ h⟩
  · simp

theorem mem_foldl_enqueue : b ∈ ids.foldl enqueue work ↔ b ∈ work ∨ b ∈ ids := by
  induction ids generalizing work with
  | nil => simp
  | cons a ids ih => rw [foldl_cons, ih, mem_enqueue, mem_cons, or_assoc]

theorem nodup_enqueue (h : work.Nodup) (a : NodeId) : (enqueue work a).Nodup := by
  unfold enqueue
  split
  · exact h
  · next ha =>
    rw [nodup_append]
    refine ⟨h, nodup_singleton a, fun b hb c hc => ?_⟩
    rintro rfl
    exact ha (mem_singleton.1 hc ▸ hb)

theorem nodup_foldl_enqueue (h : work.Nodup) : (ids.foldl enqueue work).Nodup := by
  induction ids generalizing work with
  | nil => exact h
  | cons a ids ih => exact ih (nodup_enqueue h a)

/-! ### Steps that change no rule, set or table -/

/-- Two graphs that differ at most in who depends on whom, in the work list and in the counts. -/
structure Same (g g' : Graph) : Prop where
  size : g'.nodes.size = g.nodes.size
  types : g'.types = g.types
  rule? : g'.rule? = g.rule?
  line : g'.line = g.line
  classes : g'.classes = g.classes
  functions : g'.functions = g.functions
  modules : g'.modules = g.modules
  constants : g'.constants = g.constants
  unboundAsNone : g'.unboundAsNone = g.unboundAsNone

namespace Same

variable {g g' g'' : Graph}

theorem counts {work : List NodeId} {a b : Nat} :
    Same g { g with worklist := work, recomputations := a, growths := b } :=
  ⟨rfl, rfl, rfl, rfl, rfl, rfl, rfl, rfl, rfl⟩

theorem refl (g : Graph) : Same g g := .counts

section

variable (h : Same g g')
include h

theorem symm : Same g' g :=
  ⟨h.size.symm, h.types.symm, h.rule?.symm, h.line.symm, h.classes.symm, h.functions.symm,
    h.modules.symm, h.constants.symm, h.unboundAsNone.symm⟩

theorem trans (h' : Same g' g'') : Same g g'' :=
  ⟨h'.size.trans h.size, h'.types.trans h.types, h'.rule?.trans h.rule?, h'.line.trans h.line,
    h'.classes.trans h.classes, h'.functions.trans h.functions, h'.modules.trans h.modules,
    h'.constants.trans h.constants, h'.unboundAsNone.trans h.unboundAsNone⟩

omit h in
theorem foldl {α : Type} {step : Graph → α → Graph} (h : ∀ g a, Same g (step g a)) (as : List α)
    (g : Graph) : Same g (as.foldl step g) := by
  induction as generalizing g with
  | nil => exact refl g
  | cons a as ih => exact (h g a).trans (ih (step g a))

theorem hasNode (id : NodeId) : g'.HasNode id ↔ g.HasNode id := by
  rw [HasNode, HasNode, h.size]

theorem class? : g'.class? = g.class? := (tables_congr h.classes).1

theorem member? : g'.member? = g.member? := (tables_congr h.classes).2.1

theorem bases : g'.bases = g.bases := (tables_congr h.classes).2.2.1

theorem anyBased : g'.anyBased = g.anyBased := (tables_congr h.classes).2.2.2

theorem function? : g'.function? = g.function? := by
  funext f
  rw [Graph.function?, Graph.function?, h.functions]

theorem module? : g'.module? = g.module? := by
  funext m
  rw [Graph.module?, Graph.module?, h.modules]

end

theorem schedule (g : Graph) (id : NodeId) : Same g (g.schedule id) := by
  rw [schedule_eq]
  exact .counts

theorem touch (g : Graph) (id : NodeId) : Same g (g.touch id) := by
  rw [touch_eq]
  exact .counts

theorem touchClass (g : Graph) (c : ClassId) : Same g (g.touchClass c) := by
  unfold Graph.touchClass
  split
  · exact touch g _
  · exact refl g

theorem subscribe (g : Graph) (dependent source : NodeId) :
    Same g (g.subscribe dependent source) := by
  refine ⟨size_modifyNode g source _, ?_, ?_, ?_, rfl, rfl, rfl, rfl, rfl⟩
  · refine types_modifyNode_of_keep g source fun n => ?_
    split <;> rfl
  · refine rule?_modifyNode_of_keep g source fun n => ?_
    split <;> rfl
  · refine line_modifyNode_of_keep g source fun n => ?_
    split <;> rfl

theorem subscribeToParents (g : Graph) (c : ClassId) : Same g (g.subscribeToParents c) := by
  unfold Graph.subscribeToParents
  split
  · exact refl g
  · refine foldl (fun g parent => ?_) _ g
    split
    · exact subscribe g _ _
    · exact refl g

end Same

/-- What an offer does to a graph: nothing, or it becomes the member, or it is joined with an own
one. -/
theorem takeUp_induction {P : Graph → Prop} {c : ClassId} {offer : Offer} {changed : Bool}
    (hkept : P g) (hset : P (g.setMember c offer.name ⟨offer.node, .inherited offer.position⟩))
    (hlink : ∀ node, g.member? c offer.name = some ⟨node, .own⟩ → offer.name ≠ "__init__" →
      P (g.link c node offer.node)) : P (takeUp c (g, changed) offer).1 := by
  unfold takeUp
  simp only
  split
  · exact hset
  · next node hm =>
    split
    · next hjoin => exact hlink node hm hjoin.2
    · exact hkept
  · split
    · exact hset
    · exact hkept

/-! ### Subscriptions -/

@[simp]
theorem worklist_subscribe (g : Graph) (dependent source : NodeId) :
    (g.subscribe dependent source).worklist = g.worklist := rfl

theorem mem_dependents_subscribe {source : NodeId} :
    b ∈ (g.subscribe dependent source).dependents a ↔
      b ∈ g.dependents a ∨ (g.HasNode source ∧ a = source ∧ b = dependent) := by
  rw [dependents_eq_elim, dependents_eq_elim, subscribe, node?_modifyNode]
  by_cases hsa : source = a
  · subst hsa
    rw [if_pos rfl, hasNode_iff]
    rcases g.node? source with - | n
    · simp
    · by_cases hd : dependent ∈ n.dependents
      · simp only [Option.map_some, Option.elim_some, if_pos hd]
        refine ⟨.inl, fun h => ?_⟩
        rcases h with h | ⟨-, -, rfl⟩
        · exact h
        · exact hd
      · simp [hd]
  · rw [if_neg hsa]
    refine ⟨.inl, fun h => ?_⟩
    rcases h with h | ⟨-, h, -⟩
    · exact h
    · exact absurd h.symm hsa

theorem mem_dependents_foldl_subscribe {sources : List NodeId} :
    b ∈ (sources.foldl (fun g source => g.subscribe dependent source) g).dependents a ↔
      b ∈ g.dependents a ∨ (g.HasNode a ∧ a ∈ sources ∧ b = dependent) := by
  induction sources generalizing g with
  | nil => simp
  | cons s sources ih =>
    rw [foldl_cons, ih, mem_dependents_subscribe, (Same.subscribe g dependent s).hasNode,
      mem_cons]
    constructor
    · rintro ((h | ⟨hs, rfl, rfl⟩) | ⟨ha, hm, rfl⟩)
      · exact .inl h
      · exact .inr ⟨hs, .inl rfl, rfl⟩
      · exact .inr ⟨ha, .inr hm, rfl⟩
    · rintro (h | ⟨ha, rfl | hm, rfl⟩)
      · exact .inl (.inl h)
      · exact .inl (.inr ⟨ha, rfl, rfl⟩)
      · exact .inr ⟨ha, hm, rfl⟩

theorem worklist_foldl_subscribe (dependent : NodeId) (sources : List NodeId) (g : Graph) :
    (sources.foldl (fun g source => g.subscribe dependent source) g).worklist = g.worklist := by
  induction sources generalizing g with
  | nil => rfl
  | cons s sources ih => rw [foldl_cons, ih, worklist_subscribe]

/-! ### Growing sets -/

theorem mem_types_putTypes :
    t ∈ (g.putTypes a types).types b ↔ t ∈ g.types b ∨ (g.HasNode a ∧ b = a ∧ t ∈ types) := by
  rw [types_eq_elim, types_eq_elim, putTypes, node?_modifyNode]
  by_cases hab : a = b
  · subst hab
    rw [if_pos rfl, hasNode_iff]
    rcases g.node? a with - | n <;> simp
  · rw [if_neg hab]
    refine ⟨.inl, fun h => ?_⟩
    rcases h with h | ⟨-, h, -⟩
    · exact h
    · exact absurd h.symm hab

theorem types_putTypes_of_ne (h : b ≠ a) : (g.putTypes a types).types b = g.types b := by
  ext t
  rw [mem_types_putTypes]
  simp [h]

section

variable (g : Graph) (a : NodeId) (types : TypeSet)

@[simp]
theorem rule?_putTypes : (g.putTypes a types).rule? = g.rule? :=
  rule?_modifyNode_of_keep g a fun _ => rfl

@[simp]
theorem dependents_putTypes : (g.putTypes a types).dependents = g.dependents :=
  dependents_modifyNode_of_keep g a fun _ => rfl

theorem line_putTypes : (g.putTypes a types).line = g.line :=
  line_modifyNode_of_keep g a fun _ => rfl

@[simp]
theorem size_putTypes : (g.putTypes a types).nodes.size = g.nodes.size := size_modifyNode g a _

end

/-! ### Changing a rule -/

def setRule (g : Graph) (id : NodeId) (r : Rule) : Graph :=
  g.modifyNode id fun node => { node with rule := r }

theorem rule?_setRule (g : Graph) (a b : NodeId) (r : Rule) :
    (g.setRule a r).rule? b = if a = b then (g.rule? b).map fun _ => r else g.rule? b := by
  rw [rule?_eq_map, rule?_eq_map, setRule, node?_modifyNode]
  split <;> rcases g.node? b with - | n <;> rfl

section

variable (g : Graph) (a : NodeId) (r : Rule)

@[simp]
theorem types_setRule : (g.setRule a r).types = g.types :=
  types_modifyNode_of_keep g a fun _ => rfl

@[simp]
theorem dependents_setRule : (g.setRule a r).dependents = g.dependents :=
  dependents_modifyNode_of_keep g a fun _ => rfl

theorem line_setRule : (g.setRule a r).line = g.line :=
  line_modifyNode_of_keep g a fun _ => rfl

@[simp]
theorem size_setRule : (g.setRule a r).nodes.size = g.nodes.size := size_modifyNode g a _

end

/-- Connecting a node does nothing, or it gives a plain node one input more and schedules it. -/
theorem connect_cases (g : Graph) (id input : NodeId) : g.connect id input = g ∨
      ∃ inputs, g.rule? id = some (.plain inputs) ∧ id ≠ input ∧ input ∉ inputs ∧
        g.connect id input =
          ((g.setRule id (.plain (inputs ++ [input]))).subscribe id input).schedule id := by
  unfold connect
  split
  · next inputs hrule =>
    split
    · exact .inl rfl
    · next hnew =>
      rw [not_or] at hnew
      exact .inr ⟨inputs, hrule, hnew.1, hnew.2, rfl⟩
  · exact .inl rfl

/-! ### New nodes -/

/-- The graph with a node more, before anyone knows of it. -/
def append (g : Graph) (rule : Rule) (line : Nat) : Graph :=
  { g with nodes := g.nodes.push ⟨rule, .empty, [], line⟩ }

def next (g : Graph) : NodeId := ⟨g.nodes.size⟩

section

variable (g : Graph) (rule : Rule) (line : Nat)

theorem push_eq : g.push rule line =
      (g.next, (rule.sources.foldl (fun g' source => g'.subscribe g.next source)
        (g.append rule line)).schedule g.next) := rfl

theorem node?_append (b : NodeId) :
    (g.append rule line).node? b =
      if b = g.next then some ⟨rule, .empty, [], line⟩ else g.node? b := by
  have hiff : b.index = g.nodes.size ↔ b = g.next :=
    ⟨fun h => NodeId.index_inj h, fun h => congrArg NodeId.index h⟩
  simp only [node?, append, Array.getElem?_push, hiff]

@[simp]
theorem size_append : (g.append rule line).nodes.size = g.nodes.size + 1 := by simp [append]

theorem not_hasNode_next : ¬ g.HasNode g.next := lt_irrefl _

@[simp]
theorem types_append : (g.append rule line).types = g.types := by
  funext b
  rw [types_eq_elim, node?_append]
  split
  · next h =>
    subst h
    rw [types_of_not_hasNode g.not_hasNode_next]
    rfl
  · rw [types_eq_elim]

@[simp]
theorem dependents_append : (g.append rule line).dependents = g.dependents := by
  funext b
  rw [dependents_eq_elim, node?_append]
  split
  · next h =>
    subst h
    rw [dependents_of_not_hasNode g.not_hasNode_next]
    rfl
  · rw [dependents_eq_elim]

theorem rule?_append (b : NodeId) :
    (g.append rule line).rule? b = if b = g.next then some rule else g.rule? b := by
  rw [rule?_eq_map, rule?_eq_map, node?_append]
  split <;> rfl

/-- A new node is told to others and waits. -/
theorem Same.push : Same (g.append rule line) (g.push rule line).2 :=
  (Same.foldl (fun g' s => Same.subscribe g' g.next s) _ _).trans (Same.schedule _ _)

theorem rule?_push (b : NodeId) :
    (g.push rule line).2.rule? b = if b = g.next then some rule else g.rule? b := by
  rw [(Same.push g rule line).rule?, rule?_append]

theorem types_push : (g.push rule line).2.types = g.types :=
  (Same.push g rule line).types.trans (types_append g rule line)

theorem hasNode_push_next : (g.push rule line).2.HasNode g.next := by
  apply hasNode_of_rule? (r := rule)
  rw [rule?_push, if_pos rfl]

theorem classes_push : (g.push rule line).2.classes = g.classes := (Same.push g rule line).classes

theorem member?_push : (g.push rule line).2.member? = g.member? := (tables_congr (classes_push g rule line)).2.1

end

theorem line_append_of_hasNode (rule : Rule) (line : Nat) (hb : g.HasNode b) :
    (g.append rule line).line b = g.line b := by
  rw [line_eq_elim, line_eq_elim, node?_append, if_neg]
  rintro rfl
  exact g.not_hasNode_next hb

theorem hasNode_append {rule : Rule} {line : Nat} :
    (g.append rule line).HasNode b ↔ g.HasNode b ∨ b = g.next := by
  rw [HasNode, HasNode, size_append, Nat.lt_succ_iff_lt_or_eq]
  exact or_congr_right ⟨fun h => NodeId.index_inj h, fun h => congrArg NodeId.index h⟩

/-! ### Classes -/

theorem class?_modifyClass (g : Graph) (c d : ClassId) (f : ClassInfo → ClassInfo) :
    (g.modifyClass c f).class? d = if c = d then (g.class? d).map f else g.class? d := by
  have hiff : c.index = d.index ↔ c = d :=
    ⟨fun h => by cases c; cases d; cases h; rfl, congrArg _⟩
  simp only [class?, modifyClass, Array.getElem?_modify, hiff]

@[simp]
theorem size_modifyClass (g : Graph) (c : ClassId) (f : ClassInfo → ClassInfo) :
    (g.modifyClass c f).classes.size = g.classes.size := by simp [modifyClass]

end Graph

end FlowTyping
