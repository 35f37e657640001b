/-
A graph inside a larger one.

A graph holds a copy of another one if under a renaming it has all nodes, classes, functions and
modules of the other one, and if the next number on one side is renamed to the next number on the
other.  Shared constants are the place where a copy touches the rest: whoever asks for a type gets
the same node, so nothing is said about the dependents of a constant, and constants that wait are
not counted.

Each step of one graph goes along with the same step of the copy.  The judgement is `Along`: the
copy is still one afterwards, and all that belongs to others, the territory, is as it was.  Larger
steps are compositions of a few that change one node or one class (`Along.trans`), up to a whole
turn (`Ready.turn`).
-/
import FlowTyping.Proofs.Graph.Clean

namespace FlowTyping

open List

section

variable {α β γ : Type} {R : α → β → Prop} {a : Option α} {b : Option β} (h : Option.Rel R a b)
include h

/-- Related values are both missing or both there. -/
@[elab_as_elim]
theorem optionRel_cases {motive : Option α → Option β → Prop} (hnone : motive none none)
    (hsome : ∀ {x y}, R x y → motive (some x) (some y)) : motive a b := by
  cases h with
  | none => exact hnone
  | some hxy => exact hsome hxy

theorem optionRel_imp {S : α → β → Prop} (hRS : ∀ {a b}, R a b → S a b) : Option.Rel S a b :=
  optionRel_cases h .none fun hxy => .some (hRS hxy)

theorem optionRel_comp {S : β → γ → Prop} {Q : α → γ → Prop} {c : Option γ} (h' : Option.Rel S b c)
    (hQ : ∀ {a b c}, R a b → S b c → Q a c) : Option.Rel Q a c := by
  cases h with
  | none =>
    cases h'
    exact .none
  | some h =>
    cases h' with
    | some h' => exact .some (hQ h h')

end

theorem optionRel_some_left {α β : Type} {R : α → β → Prop} {a : α} {b : Option β}
    (h : Option.Rel R (some a) b) : ∃ b', b = some b' ∧ R a b' := by
  cases h with
  | some h => exact ⟨_, rfl, h⟩

namespace Graph

variable {rest : List NodeId} {a b : NodeId}

/-! ### Tables that change in step -/

/-- A table and its copy after both have changed: the new numbers still fit, and the entries of
others are as they were in the old copy. -/
structure Together {α : Type} (f : Nat → Nat) (k : α → α) (others : Nat → Prop) (ys xs' ys' : Array α) : Prop where
  next : ∀ i, f (xs'.size + i) = ys'.size + i
  get : ∀ i, ys'[f i]? = xs'[i]?.map k
  others : ∀ i, others i → ys'[i]? = ys[i]?
  count : ys.size ≤ ys'.size

section

variable {α : Type} {f : Nat → Nat} {k : α → α} {others : Nat → Prop} {xs ys : Array α}
  (hinj : Function.Injective f) (hnext : ∀ i, f (xs.size + i) = ys.size + i)
  (hget : ∀ i, ys[f i]? = xs[i]?.map k) (hclear : ∀ i, ¬ others (f i))
include hinj hnext hget hclear

theorem Together.push (x : α) : Together f k others ys (xs.push x) (ys.push (k x)) where
  next i := by
    simp only [Array.size_push, add_assoc]
    exact hnext (1 + i)
  get i := by
    rw [Array.getElem?_push, Array.getElem?_push, ← show f xs.size = ys.size from hnext 0, hget]
    simp only [hinj.eq_iff]
    split <;> rfl
  others i hi := by
    rw [Array.getElem?_push, if_neg]
    rintro rfl
    exact hclear xs.size ((show f xs.size = ys.size from hnext 0) ▸ hi)
  count := by
    rw [Array.size_push]
    exact Nat.le_succ _

theorem Together.modify {F F' : α → α} (hF : ∀ x, F' (k x) = k (F x)) (j : Nat) :
    Together f k others ys (xs.modify j F) (ys.modify (f j) F') where
  next := by simpa only [Array.size_modify] using hnext
  get i := by
    rw [Array.getElem?_modify, Array.getElem?_modify, hget]
    simp only [hinj.eq_iff]
    split
    · rw [Option.map_map, Option.map_map]
      exact congrArg (Option.map · xs[i]?) (funext hF)
    · rfl
  others i hi := by
    rw [Array.getElem?_modify, if_neg]
    rintro rfl
    exact hclear j hi
  count := by rw [Array.size_modify]

end

/-! ### Who waits -/

open Classical in
/-- Those on a work list that have a property, in the same order. -/
noncomputable def waiting (p : NodeId → Prop) (work : List NodeId) : List NodeId :=
  work.filter fun id => decide (p id)

section Waiting

variable {p q : NodeId → Prop} {work : List NodeId} {id : NodeId}

@[simp]
theorem waiting_nil (p : NodeId → Prop) : waiting p [] = [] := rfl

theorem mem_waiting : id ∈ waiting p work ↔ id ∈ work ∧ p id := by simp [waiting]

theorem waiting_cons_of (h : p id) : waiting p (id :: work) = id :: waiting p work := by
  simp [waiting, h]

theorem waiting_cons_of_not (h : ¬ p id) : waiting p (id :: work) = waiting p work := by
  simp [waiting, h]

theorem waiting_congr (h : ∀ id ∈ work, p id ↔ q id) : waiting p work = waiting q work :=
  filter_congr fun id hid => by simp [h id hid]

theorem waiting_append_of_not {before : List NodeId} (h : ∀ i ∈ before, ¬ p i) :
    waiting p (before ++ work) = waiting p work := by
  have hnone : waiting p before = [] := by simpa [waiting] using h
  rw [waiting, filter_append]
  exact congrArg (· ++ waiting p work) hnone

/-- Before the first one that has the property there are only others. -/
theorem waiting_eq_cons (h : waiting p work = id :: rest) :
    ∃ before after, work = before ++ id :: after ∧ ∀ i ∈ before, ¬ p i := by
  obtain ⟨before, after, hwork, hbefore, -⟩ := filter_eq_cons_iff.1 h
  refine ⟨before, after, hwork, fun i hi hp => ?_⟩
  simpa [hp] using hbefore i hi

theorem waiting_enqueue_of (h : p id) : waiting p (enqueue work id) = enqueue (waiting p work) id := by
  unfold enqueue
  by_cases hid : id ∈ work
  · rw [if_pos hid, if_pos (mem_waiting.2 ⟨hid, h⟩)]
  · rw [if_neg hid, if_neg fun hmem => hid (mem_waiting.1 hmem).1]
    simp [waiting, h]

theorem waiting_enqueue_of_not (h : ¬ p id) : waiting p (enqueue work id) = waiting p work := by
  unfold enqueue
  split
  · rfl
  · simp [waiting, h]

theorem enqueue_map (ρ : Renaming) (work : List NodeId) (id : NodeId) :
    enqueue (work.map ρ.node) (ρ.node id) = (enqueue work id).map ρ.node := by
  unfold enqueue
  simp only [Renaming.mem_map_node]
  split
  · rfl
  · rw [map_append, map_singleton]

end Waiting

/-! ### Copies -/

/-- A node and its copy.  The dependents and the line of a constant do not count. -/
structure NodeCopy (ρ : Renaming) (shared : Prop) (n m : Node) : Prop where
  rule : m.rule = ρ.rule n.rule
  types : m.types = ρ.types n.types
  line : ¬ shared → m.line = n.line
  dependents : ¬ shared → m.dependents = n.dependents.map ρ.node

/-- Whether a node is the copy of one that is no constant. -/
def Own (ρ : Renaming) (g : Graph) (id : NodeId) : Prop := ∃ a, ¬ g.Shared a ∧ ρ.node a = id

/-- The second graph holds a copy of the first one. -/
structure Copy (ρ : Renaming) (g h : Graph) : Prop where
  nextNode : ∀ k, ρ.nodes (g.nodes.size + k) = h.nodes.size + k
  nextClass : ∀ k, ρ.classes (g.classes.size + k) = h.classes.size + k
  nextFunction : ∀ k, ρ.functions (g.functions.size + k) = h.functions.size + k
  nextModule : ∀ k, ρ.modules (g.modules.size + k) = h.modules.size + k
  node? : ∀ id, Option.Rel (NodeCopy ρ (g.Shared id)) (g.node? id) (h.node? (ρ.node id))
  class? : ∀ c, h.class? (ρ.ofClass c) = (g.class? c).map ρ.classInfo
  function? : ∀ f, h.function? (ρ.ofFunction f) = (g.function? f).map ρ.functionInfo
  module? : ∀ m, h.module? (ρ.ofModule m) = (g.module? m).map ρ.moduleInfo
  unboundAsNone : h.unboundAsNone = g.unboundAsNone
  lookup : ∀ t id, g.constants.lookup t = some id → h.constants.lookup (ρ.ty t) = some (ρ.node id)
  shared : ∀ id, h.Shared (ρ.node id) ↔ g.Shared id
  /-- Nodes that are no constants keep their order. -/
  ordered : ∀ a b, ¬ g.Shared a → ¬ g.Shared b → a.index < b.index →
    (ρ.node a).index < (ρ.node b).index
  worklist : waiting (g.Own ρ) h.worklist = (waiting (fun id => ¬ g.Shared id) g.worklist).map ρ.node

namespace Copy

variable {ρ : Renaming} {g h : Graph} {id : NodeId}

variable (hc : Copy ρ g h)
include hc

theorem node_next : ρ.node g.next = h.next :=
  congrArg NodeId.mk (hc.nextNode 0)

theorem types (id : NodeId) : h.types (ρ.node id) = ρ.types (g.types id) := by
  rw [types_eq_elim, types_eq_elim]
  exact optionRel_cases (hc.node? id) rfl fun hnode => hnode.types

theorem rule? (id : NodeId) : h.rule? (ρ.node id) = (g.rule? id).map ρ.rule := by
  rw [rule?_eq_map, rule?_eq_map]
  exact optionRel_cases (hc.node? id) rfl fun hnode => congrArg some hnode.rule

theorem line (hid : ¬ g.Shared id) : h.line (ρ.node id) = g.line id := by
  rw [line_eq_elim, line_eq_elim]
  exact optionRel_cases (hc.node? id) rfl fun hnode => hnode.line hid

theorem dependents (hid : ¬ g.Shared id) :
    h.dependents (ρ.node id) = (g.dependents id).map ρ.node := by
  rw [dependents_eq_elim, dependents_eq_elim]
  exact optionRel_cases (hc.node? id) rfl fun hnode => hnode.dependents hid

theorem hasNode_iff (id : NodeId) : h.HasNode (ρ.node id) ↔ g.HasNode id := by
  rw [Graph.hasNode_iff, Graph.hasNode_iff]
  refine optionRel_cases (hc.node? id) ?_ fun _ => ?_ <;> simp

theorem mirror : Mirror ρ g h :=
  ⟨hc.types, hc.class?, hc.function?, hc.module?, hc.unboundAsNone⟩

omit hc in
theorem own_iff : g.Own ρ (ρ.node id) ↔ ¬ g.Shared id := by
  constructor
  · rintro ⟨a, ha, heq⟩
    exact ρ.node_injective heq ▸ ha
  · exact fun hid => ⟨id, hid, rfl⟩

theorem ordered_node (ha : ¬ g.Shared a) (hb : ¬ g.Shared b) :
    Graph.ordered (ρ.node a) (ρ.node b) = Prod.map ρ.node ρ.node (Graph.ordered a b) := by
  have hiff : (ρ.node a).index ≤ (ρ.node b).index ↔ a.index ≤ b.index := by
    constructor
    · intro hle
      by_contra hlt
      exact absurd (hc.ordered b a hb ha (lt_of_not_ge hlt)) (not_lt.2 hle)
    · intro hle
      rcases lt_or_eq_of_le hle with hlt | heq
      · exact le_of_lt (hc.ordered a b ha hb hlt)
      · rw [NodeId.index_inj heq]
  unfold Graph.ordered
  simp only [hiff]
  split <;> rfl

end Copy

/-! ### What belongs to others -/

/-- What belongs to others in a graph.  Constants are nobody's own, but their sets and rules are to
stay as well. -/
structure Territory where
  nodes : NodeId → Prop
  live : NodeId → Prop
  ofClass : ClassId → Prop
  ofFunction : FunctionId → Prop
  ofModule : ModuleId → Prop

structure NodeKept (live : Prop) (n m : Node) : Prop where
  rule : m.rule = n.rule
  types : m.types = n.types
  line : m.line = n.line
  dependents : live → m.dependents = n.dependents

theorem NodeKept.refl {live : Prop} (n : Node) : NodeKept live n n := ⟨rfl, rfl, rfl, fun _ => rfl⟩

/-- A step that leaves a territory as it is.  Numbers and constants are only added. -/
structure Apart (T : Territory) (h h' : Graph) : Prop where
  node? : ∀ id, T.nodes id → Option.Rel (NodeKept (T.live id)) (h.node? id) (h'.node? id)
  class? : ∀ c, T.ofClass c → h'.class? c = h.class? c
  function? : ∀ f, T.ofFunction f → h'.function? f = h.function? f
  module? : ∀ m, T.ofModule m → h'.module? m = h.module? m
  unboundAsNone : h'.unboundAsNone = h.unboundAsNone
  lookup : ∀ t id, h.constants.lookup t = some id → h'.constants.lookup t = some id
  shared : ∀ id, h.HasNode id → (h'.Shared id ↔ h.Shared id)
  worklist : waiting T.live h'.worklist = waiting T.live h.worklist
  nodeCount : h.nodes.size ≤ h'.nodes.size
  classCount : h.classes.size ≤ h'.classes.size
  functionCount : h.functions.size ≤ h'.functions.size
  moduleCount : h.modules.size ≤ h'.modules.size

/-- Nothing that the copy has of its own, or will have, is in the territory. -/
structure Territory.Clear (T : Territory) (ρ : Renaming) (g : Graph) : Prop where
  nodes : ∀ id, ¬ g.Shared id → ¬ T.nodes (ρ.node id)
  live : ∀ id, ¬ T.live (ρ.node id)
  ofClass : ∀ c, ¬ T.ofClass (ρ.ofClass c)
  ofFunction : ∀ f, ¬ T.ofFunction (ρ.ofFunction f)
  ofModule : ∀ m, ¬ T.ofModule (ρ.ofModule m)

variable {T : Territory} {ρ : Renaming} {g h g' h' g'' h'' : Graph}

namespace Apart

theorem optionRel_kept {live : Prop} (n : Option Node) : Option.Rel (NodeKept live) n n := by
  rcases n with - | n
  · exact .none
  · exact .some (.refl n)

theorem refl (T : Territory) (h : Graph) : Apart T h h where
  node? _ _ := optionRel_kept _
  class? _ _ := rfl
  function? _ _ := rfl
  module? _ _ := rfl
  unboundAsNone := rfl
  lookup _ _ hid := hid
  shared _ _ := Iff.rfl
  worklist := rfl
  nodeCount := le_rfl
  classCount := le_rfl
  functionCount := le_rfl
  moduleCount := le_rfl

theorem trans (ha : Apart T h h') (hb : Apart T h' h'') : Apart T h h'' where
  node? id hid := optionRel_comp (ha.node? id hid) (hb.node? id hid) fun hm hn =>
    ⟨hn.rule.trans hm.rule, hn.types.trans hm.types, hn.line.trans hm.line,
      fun hl => (hn.dependents hl).trans (hm.dependents hl)⟩
  class? c hc := (hb.class? c hc).trans (ha.class? c hc)
  function? f hf := (hb.function? f hf).trans (ha.function? f hf)
  module? m hm := (hb.module? m hm).trans (ha.module? m hm)
  unboundAsNone := hb.unboundAsNone.trans ha.unboundAsNone
  lookup t id hid := hb.lookup t id (ha.lookup t id hid)
  shared id hid := (hb.shared id (lt_of_lt_of_le hid ha.nodeCount)).trans (ha.shared id hid)
  worklist := hb.worklist.trans ha.worklist
  nodeCount := le_trans ha.nodeCount hb.nodeCount
  classCount := le_trans ha.classCount hb.classCount
  functionCount := le_trans ha.functionCount hb.functionCount
  moduleCount := le_trans ha.moduleCount hb.moduleCount

end Apart

/-! ### Steps that go along with each other -/

/-- A copy that is clear of a territory, of a graph in good order. -/
structure Ready (T : Territory) (ρ : Renaming) (g h : Graph) : Prop where
  copy : Copy ρ g h
  clear : T.Clear ρ g
  clean : g.Clean
  owners : ∀ c info, g.class? c = some info → ¬ g.Shared info.node

/-- Two steps that go along with each other. -/
structure Along (T : Territory) (ρ : Renaming) (g h g' h' : Graph) : Prop where
  ready : Ready T ρ g' h'
  apart : Apart T h h'
  constants : g'.constants = g.constants

namespace Along

theorem trans (ha : Along T ρ g h g' h') (hb : Along T ρ g' h' g'' h'') : Along T ρ g h g'' h'' :=
  ⟨hb.ready, ha.apart.trans hb.apart, hb.constants.trans ha.constants⟩

theorem not_shared {id : NodeId} (ha : Along T ρ g h g' h') (hid : ¬ g.Shared id) : ¬ g'.Shared id :=
  fun hid' => hid (hid'.of_constants ha.constants)

/-- A step for each member of a list, as long as some property of the first graph lasts. -/
theorem foldl {α β : Type} {step : Graph → α → Graph} {step' : Graph → β → Graph} {f : α → β}
    {as : List α} (hr : Ready T ρ g h)
    (hstep : ∀ k l, Ready T ρ k l → k.constants = g.constants → ∀ a ∈ as,
      Along T ρ k l (step k a) (step' l (f a))) :
    Along T ρ g h (as.foldl step g) ((as.map f).foldl step' h) := by
  induction as generalizing g h with
  | nil => exact ⟨hr, .refl T h, rfl⟩
  | cons a as ih =>
    have hfirst := hstep g h hr rfl a mem_cons_self
    refine hfirst.trans (ih hfirst.ready fun k l hk hconstants b hb => ?_)
    exact hstep k l hk (hconstants.trans hfirst.constants) b (mem_cons_of_mem a hb)

end Along

namespace Ready

variable {id : NodeId}

variable (hr : Ready T ρ g h)
include hr

theorem along : Along T ρ g h g h := ⟨hr, .refl T h, rfl⟩

/-! ### The parts of a graph, one at a time -/

theorem withWorklist {work work' : List NodeId}
    (hwork : waiting (g.Own ρ) work' = (waiting (fun id => ¬ g.Shared id) work).map ρ.node)
    (hothers : waiting T.live work' = waiting T.live h.worklist) :
    Along T ρ g h { g with worklist := work } { h with worklist := work' } where
  ready :=
    { copy := { hr.copy with worklist := hwork }
      clear := { hr.clear with }
      clean := hr.clean.of_same .counts
      owners := hr.owners }
  apart := { Apart.refl T h with worklist := hothers }
  constants := rfl

theorem withCounts (m n m' n' : Nat) : Along T ρ g h { g with recomputations := m, growths := n }
      { h with recomputations := m', growths := n' } where
  ready :=
    { copy := { hr.copy with }
      clear := { hr.clear with }
      clean := hr.clean.of_same .counts
      owners := hr.owners }
  apart := { Apart.refl T h with }
  constants := rfl

/-- A change of a node.  Of a constant, only the dependents may change. -/
theorem modifyNode {f f' : Node → Node}
    (hf : ∀ n m, NodeCopy ρ (g.Shared id) n m → NodeCopy ρ (g.Shared id) (f n) (f' m))
    (hkept : g.Shared id → ∀ m, NodeKept False m (f' m)) (hclean : (g.modifyNode id f).Clean) :
    Along T ρ g h (g.modifyNode id f) (h.modifyNode (ρ.node id) f') where
  ready :=
    { copy :=
        { hr.copy with
          nextNode := by simpa only [size_modifyNode] using hr.copy.nextNode
          node? := by
            intro b
            rw [node?_modifyNode, node?_modifyNode]
            have hrel := hr.copy.node? b
            simp only [Renaming.node_inj]
            split
            · next heq =>
              subst heq
              exact optionRel_cases hrel .none fun hnode => .some (hf _ _ hnode)
            · exact hrel }
      clear := { hr.clear with }
      clean := hclean
      owners := hr.owners }
  apart :=
    { Apart.refl T h with
      node? := by
        intro b hb
        rw [node?_modifyNode]
        split
        · next heq =>
          subst heq
          -- a node of others that has a copy is a constant
          have hshared : g.Shared id := by
            by_contra hid
            exact hr.clear.nodes id hid hb
          rcases h.node? (ρ.node id) with - | m
          · exact .none
          · have hm := hkept hshared m
            exact .some ⟨hm.rule, hm.types, hm.line, fun hl => absurd hl (hr.clear.live id)⟩
        · exact Apart.optionRel_kept _
      nodeCount := by rw [size_modifyNode] }
  constants := rfl

theorem append {r : Rule} (line : Nat) :
    Along T ρ g h (g.append r line) (h.append (ρ.rule r) line) where
  ready :=
    { copy :=
        { hr.copy with
          nextNode := by
            intro k
            rw [size_append, size_append, add_assoc, add_assoc]
            exact hr.copy.nextNode (1 + k)
          node? := by
            intro b
            rw [node?_append, node?_append, ← hr.copy.node_next]
            simp only [Renaming.node_inj]
            split
            · exact .some ⟨rfl, rfl, fun _ => rfl, fun _ => rfl⟩
            · exact hr.copy.node? b }
      clear := { hr.clear with }
      clean := by
        refine hr.clean.of_steps rfl (fun b hb => hasNode_append.2 (.inl hb)) (fun b hb => ?_)
          hr.clean.members rfl rfl
        have hne : b ≠ g.next := fun heq => hr.clean.not_shared_next (heq ▸ hb)
        rw [rule?_append, if_neg hne, types_append]
        exact ⟨rfl, rfl⟩
      owners := hr.owners }
  apart :=
    { Apart.refl T h with
      node? := by
        intro b hb
        have hne : b ≠ h.next := by
          rintro rfl
          rw [← hr.copy.node_next] at hb
          exact hr.clear.nodes _ hr.clean.not_shared_next hb
        rw [node?_append, if_neg hne]
        exact Apart.optionRel_kept _
      nodeCount := by
        rw [size_append]
        exact Nat.le_succ _ }
  constants := rfl

theorem withClasses {classes classes' : Array ClassInfo}
    (hstep : Together ρ.classes ρ.classInfo (T.ofClass ⟨·⟩) h.classes classes classes')
    (hclean : ({ g with classes } : Graph).Clean)
    (howners : ∀ c info, ({ g with classes } : Graph).class? c = some info → ¬ g.Shared info.node) :
    Along T ρ g h { g with classes } { h with classes := classes' } where
  ready :=
    { copy := { hr.copy with nextClass := hstep.next, class? := fun c => hstep.get c.index }
      clear := { hr.clear with }
      clean := hclean
      owners := howners }
  apart := { Apart.refl T h with class? := fun c => hstep.others c.index, classCount := hstep.count }
  constants := rfl

theorem modifyClass {c : ClassId} {f f' : ClassInfo → ClassInfo}
    (hf : ∀ info, f' (ρ.classInfo info) = ρ.classInfo (f info))
    (hnode : ∀ info : ClassInfo, (f info).node = info.node) (hclean : (g.modifyClass c f).Clean) :
    Along T ρ g h (g.modifyClass c f) (h.modifyClass (ρ.ofClass c) f') := by
  refine hr.withClasses (.modify ρ.classes_strictMono.injective hr.copy.nextClass (hr.copy.class? ⟨·⟩)
    (hr.clear.ofClass ⟨·⟩) hf c.index) hclean fun d info hd => ?_
  replace hd := (class?_modifyClass g c d f).symm.trans hd
  split at hd
  · obtain ⟨old, hold, rfl⟩ := Option.map_eq_some_iff.1 hd
    rw [hnode]
    exact hr.owners d old hold
  · exact hr.owners d info hd

/-! ### Single steps -/

theorem schedule (id : NodeId) : Along T ρ g h (g.schedule id) (h.schedule (ρ.node id)) := by
  rw [schedule_eq, schedule_eq]
  apply hr.withWorklist
  · by_cases hid : g.Shared id
    · rw [waiting_enqueue_of_not (fun hown => Copy.own_iff.1 hown hid),
        waiting_enqueue_of_not (fun hno => hno hid), hr.copy.worklist]
    · rw [waiting_enqueue_of (Copy.own_iff.2 hid), hr.copy.worklist, enqueue_map, waiting_enqueue_of hid]
  · rw [waiting_enqueue_of_not (hr.clear.live id)]

theorem subscribe (dependent source : NodeId) :
    Along T ρ g h (g.subscribe dependent source) (h.subscribe (ρ.node dependent) (ρ.node source)) := by
  refine hr.modifyNode (fun n m hnode => ?_) (fun _ m => ?_)
    (hr.clean.of_same (.subscribe g dependent source))
  · refine ⟨?_, ?_, fun hs => ?_, fun hs => ?_⟩
    · rw [apply_ite Node.rule, apply_ite Node.rule, ite_self, ite_self, hnode.rule]
    · rw [apply_ite Node.types, apply_ite Node.types, ite_self, ite_self, hnode.types]
    · rw [apply_ite Node.line, apply_ite Node.line, ite_self, ite_self, hnode.line hs]
    · rw [hnode.dependents hs]
      simp only [Renaming.mem_map_node]
      split
      · exact hnode.dependents hs
      · rw [map_append, map_singleton]
  · split
    · exact .refl m
    · exact ⟨rfl, rfl, rfl, fun hno => hno.elim⟩

theorem touch (hid : ¬ g.Shared id) : Along T ρ g h (g.touch id) (h.touch (ρ.node id)) := by
  unfold Graph.touch
  rw [hr.copy.dependents hid]
  exact Along.foldl hr fun k l hk _ a _ => hk.schedule a

theorem putTypes (hid : ¬ g.Shared id) (types : TypeSet) :
    Along T ρ g h (g.putTypes id types) (h.putTypes (ρ.node id) (ρ.types types)) := by
  refine hr.modifyNode (fun n m hnode => ?_) (fun hs => absurd hs hid) (hr.clean.putTypes hid types)
  exact ⟨hnode.rule, by simp only [hnode.types, Renaming.types_union], hnode.line, hnode.dependents⟩

theorem setRule (hid : ¬ g.Shared id) (r : Rule) :
    Along T ρ g h (g.setRule id r) (h.setRule (ρ.node id) (ρ.rule r)) := by
  refine hr.modifyNode (fun n m hnode => ?_) (fun hs => absurd hs hid) (hr.clean.setRule hid r)
  exact ⟨rfl, hnode.types, hnode.line, hnode.dependents⟩

theorem subscribeAll (dependent : NodeId) (sources : List NodeId) :
    Along T ρ g h (sources.foldl (fun g source => g.subscribe dependent source) g)
      ((sources.map ρ.node).foldl (fun h source => h.subscribe (ρ.node dependent) source) h) :=
  Along.foldl hr fun _ _ hk _ source _ => hk.subscribe dependent source

theorem push (r : Rule) (line : Nat) :
    Along T ρ g h (g.push r line).2 (h.push (ρ.rule r) line).2 := by
  rw [push_eq, push_eq, ρ.sources_rule, ← hr.copy.node_next]
  have happend := hr.append (r := r) line
  have hall := happend.trans (happend.ready.subscribeAll g.next r.sources)
  exact hall.trans (hall.ready.schedule g.next)

theorem connect (hid : ¬ g.Shared id) (input : NodeId) :
    Along T ρ g h (g.connect id input) (h.connect (ρ.node id) (ρ.node input)) := by
  unfold Graph.connect
  rw [hr.copy.rule?]
  rcases g.rule? id with - | r
  · exact hr.along
  · cases r with
    | plain inputs =>
      simp only [Option.map_some, Renaming.rule, Renaming.node_inj, Renaming.mem_map_node]
      split
      · exact hr.along
      · have hset := hr.setRule hid (.plain (inputs ++ [input]))
        rw [Renaming.rule, map_append, map_singleton] at hset
        have hheard := hset.trans (hset.ready.subscribe id input)
        exact hheard.trans (hheard.ready.schedule id)
    | _ => exact hr.along

/-! ### Member tables -/

theorem setMember {m : Member} (hm : ¬ g.Shared m.node) (c : ClassId) (name : String) :
    Along T ρ g h (g.setMember c name m) (h.setMember (ρ.ofClass c) name (ρ.member m)) := by
  refine hr.modifyClass (fun info => ?_) (fun _ => rfl) (hr.clean.setMember hm c name)
  simp only [Renaming.classInfo, Table.mapValues_insert]

theorem link (ha : ¬ g.Shared a) (hb : ¬ g.Shared b) (c : ClassId) :
    Along T ρ g h (g.link c a b) (h.link (ρ.ofClass c) (ρ.node a) (ρ.node b)) := by
  have hordered := hr.copy.ordered_node ha hb
  have hinjective : Function.Injective (Prod.map ρ.node ρ.node) :=
    ρ.node_injective.prodMap ρ.node_injective
  unfold Graph.link
  rw [hr.copy.class?, hordered]
  rcases g.class? c with - | info
  · exact hr.along
  · simp only [Option.map_some, Renaming.classInfo, mem_map_of_injective hinjective]
    split
    · exact hr.along
    · have hnoted : Along T ρ g h
          (g.modifyClass c fun info => { info with linked := Graph.ordered a b :: info.linked })
          (h.modifyClass (ρ.ofClass c) fun info =>
            { info with linked := Prod.map ρ.node ρ.node (Graph.ordered a b) :: info.linked }) :=
        hr.modifyClass (fun _ => rfl) (fun _ => rfl) (hr.clean.modifyClass fun _ _ he => .inl he)
      have hone := hnoted.trans (hnoted.ready.connect (hnoted.not_shared ha) b)
      exact hone.trans (hone.ready.connect (hone.not_shared hb) a)

theorem touchClass (c : ClassId) : Along T ρ g h (g.touchClass c) (h.touchClass (ρ.ofClass c)) := by
  unfold Graph.touchClass
  rw [hr.copy.class?]
  rcases hc : g.class? c with - | info
  · exact hr.along
  · exact hr.touch (hr.owners c info hc)

/-- The node of a member is the copy's node of it, and it is no constant. -/
theorem ensureMember (c : ClassId) (name : String) (line : Nat) :
    Along T ρ g h (g.ensureMember c name line).2 (h.ensureMember (ρ.ofClass c) name line).2 ∧
      (h.ensureMember (ρ.ofClass c) name line).1 = ρ.node (g.ensureMember c name line).1 := by
  unfold Graph.ensureMember
  rw [hr.copy.mirror.member?]
  rcases g.member? c name with - | member
  · have hpush := hr.push (.plain []) line
    have hset := hpush.trans (hpush.ready.setMember (m := ⟨g.next, .own⟩)
      (hpush.not_shared hr.clean.not_shared_next) c name)
    refine ⟨?_, hr.copy.node_next.symm⟩
    have hall := hset.trans (hset.ready.touchClass c)
    rw [Renaming.member, hr.copy.node_next] at hall
    exact hall
  · exact ⟨hr.along, rfl⟩

theorem writeTo (attr : String) (value : NodeId) (line : Nat) (t : Ty) :
    Along T ρ g h (Graph.writeTo attr value line g t)
      (Graph.writeTo attr (ρ.node value) line h (ρ.ty t)) := by
  have hmember : ∀ c : ClassId,
      Along T ρ g h ((g.ensureMember c attr line).2.connect (g.ensureMember c attr line).1 value)
        ((h.ensureMember (ρ.ofClass c) attr line).2.connect (h.ensureMember (ρ.ofClass c) attr line).1
          (ρ.node value)) := by
    intro c
    obtain ⟨hensured, hnode⟩ := hr.ensureMember c attr line
    rw [hnode]
    exact hensured.trans (hensured.ready.connect (hr.clean.ensureMember c attr line).2 value)
  cases t with
  | instanceOf c | classObject c => exact hmember c
  | moduleObject m =>
    simp only [Graph.writeTo, Renaming.ty, hr.copy.module?]
    rcases hm : g.module? m with - | info
    · exact hr.along
    · simp only [Option.map_some, Option.bind_some, Renaming.moduleInfo, Table.get?_mapValues]
      rcases hget : info.exports.get? attr with - | node
      · exact hr.along
      · exact hr.connect (hr.clean.exported m info hm _ (Table.mem_entries_of_get? hget)) value
  | _ => exact hr.along

theorem write (object : NodeId) (attr : String) (value : NodeId) (line : Nat) :
    Along T ρ g h (g.write object attr value line)
      (h.write (ρ.node object) attr (ρ.node value) line) := by
  unfold Graph.write
  rw [hr.copy.types, Renaming.toList_types]
  exact Along.foldl hr fun k l hk _ t _ => hk.writeTo attr value line t

/-! ### Inheritance -/

theorem subscribeToParents (c : ClassId) :
    Along T ρ g h (g.subscribeToParents c) (h.subscribeToParents (ρ.ofClass c)) := by
  unfold Graph.subscribeToParents
  rw [hr.copy.class?]
  rcases g.class? c with - | info
  · exact hr.along
  · have hparents : (h.parents (ρ.ofClass c)).filter (· ≠ ρ.ofClass c) =
        ((g.parents c).filter (· ≠ c)).map ρ.ofClass := by
      rw [hr.copy.mirror.parents, filter_map]
      simp only [Function.comp_def, ne_eq, Renaming.ofClass_inj]
    simp only [Option.map_some, hparents]
    refine Along.foldl hr fun k l hk _ parent _ => ?_
    rw [hk.copy.class?]
    rcases k.class? parent with - | p
    · exact hk.along
    · exact hk.subscribe info.node p.node

theorem takeUp {offer : Offer} (ho : ¬ g.Shared offer.node) (c : ClassId) (changed : Bool) :
    Along T ρ g h (Graph.takeUp c (g, changed) offer).1
      (Graph.takeUp (ρ.ofClass c) (h, changed) (offer.renamed ρ)).1 ∧
    (Graph.takeUp (ρ.ofClass c) (h, changed) (offer.renamed ρ)).2 =
      (Graph.takeUp c (g, changed) offer).2 := by
  have hset := hr.setMember (m := ⟨offer.node, .inherited offer.position⟩) ho c offer.name
  have hmember := hr.copy.mirror.member? c offer.name
  rcases hm : g.member? c offer.name with - | ⟨node, - | earlier⟩
  · simp only [Graph.takeUp, Offer.renamed, hmember, hm]
    exact ⟨hset, rfl⟩
  · simp only [Graph.takeUp, Offer.renamed, hmember, hm, Option.map_some, Renaming.member, ne_eq,
      Renaming.node_inj]
    split
    · exact ⟨hr.link (hr.clean.not_shared_member hm) ho c, rfl⟩
    · exact ⟨hr.along, rfl⟩
  · simp only [Graph.takeUp, Offer.renamed, hmember, hm, Option.map_some, Renaming.member, ne_eq,
      Renaming.node_inj]
    split
    · exact ⟨hset, rfl⟩
    · exact ⟨hr.along, rfl⟩

theorem takeUp_all {offers : List Offer} (ho : ∀ o ∈ offers, ¬ g.Shared o.node) (c : ClassId)
    (changed : Bool) :
    Along T ρ g h (offers.foldl (Graph.takeUp c) (g, changed)).1
      ((offers.map (Offer.renamed ρ)).foldl (Graph.takeUp (ρ.ofClass c)) (h, changed)).1 ∧
    ((offers.map (Offer.renamed ρ)).foldl (Graph.takeUp (ρ.ofClass c)) (h, changed)).2 =
      (offers.foldl (Graph.takeUp c) (g, changed)).2 := by
  induction offers generalizing g h changed with
  | nil => exact ⟨hr.along, rfl⟩
  | cons offer offers ih =>
    obtain ⟨hfirst, hflag⟩ := hr.takeUp (ho offer mem_cons_self) c changed
    rw [map_cons, foldl_cons, foldl_cons]
    generalize Graph.takeUp c (g, changed) offer = s at hfirst hflag ⊢
    generalize Graph.takeUp (ρ.ofClass c) (h, changed) (offer.renamed ρ) = t at hfirst hflag ⊢
    obtain ⟨k, flag⟩ := s
    obtain ⟨l, flag'⟩ := t
    change flag' = flag at hflag
    subst hflag
    obtain ⟨hrest, hflags⟩ := ih hfirst.ready
      (fun o ho' => hfirst.not_shared (ho o (mem_cons_of_mem offer ho'))) flag'
    exact ⟨hfirst.trans hrest, hflags⟩

theorem mergeBases (c : ClassId) : Along T ρ g h (g.mergeBases c).1 (h.mergeBases (ρ.ofClass c)).1 ∧
      (h.mergeBases (ρ.ofClass c)).2 = (g.mergeBases c).2 := by
  have hopens : ((h.bases (ρ.ofClass c)).any fun base =>
        (h.types base).toList.any (h.leavesOpen (ρ.ofClass c))) =
      (g.bases c).any fun base => (g.types base).toList.any (g.leavesOpen c) := by
    rw [hr.copy.mirror.bases, any_map]
    simp only [Function.comp_def, hr.copy.types, Renaming.toList_types, any_map,
      hr.copy.mirror.leavesOpen]
  have hparents := hr.subscribeToParents c
  have hoffers : ∀ o ∈ g.offers c, ¬ (g.subscribeToParents c).Shared o.node := fun o ho =>
    hparents.not_shared (hr.clean.not_shared_offer ho)
  obtain ⟨htaken, hflag⟩ := hparents.ready.takeUp_all hoffers c false
  have hall := hparents.trans htaken
  unfold Graph.mergeBases
  simp only [hopens, hr.copy.mirror.offers]
  generalize (g.offers c).foldl (Graph.takeUp c) (g.subscribeToParents c, false) = s at htaken hflag hall ⊢
  generalize ((g.offers c).map (Offer.renamed ρ)).foldl (Graph.takeUp (ρ.ofClass c))
    (h.subscribeToParents (ρ.ofClass c), false) = t at htaken hflag hall ⊢
  rw [htaken.ready.copy.mirror.anyBased]
  split
  · refine ⟨hall.trans (htaken.ready.modifyClass (fun _ => rfl) (fun _ => rfl) ?_), rfl⟩
    exact htaken.ready.clean.modifyClass fun _ _ he => .inl he
  · exact ⟨hall, hflag⟩

/-! ### Turns -/

theorem grow (hid : ¬ g.Shared id) (types : TypeSet) :
    Along T ρ g h (g.grow id types).1 (h.grow (ρ.node id) (ρ.types types)).1 ∧
      (h.grow (ρ.node id) (ρ.types types)).2 = (g.grow id types).2 := by
  unfold Graph.grow
  rw [hr.copy.types, Renaming.isSubset_types]
  split
  · exact ⟨hr.along, rfl⟩
  · have hput := hr.putTypes hid types
    exact ⟨hput.trans (hput.ready.withCounts _ _ _ _), rfl⟩

theorem recompute (hid : ¬ g.Shared id) :
    Along T ρ g h (g.recompute id).1 (h.recompute (ρ.node id)).1 ∧
      (h.recompute (ρ.node id)).2 = (g.recompute id).2 := by
  have htick : Along T ρ g h g.tick h.tick := hr.withCounts _ _ _ _
  have hrule := hr.copy.rule? id
  rcases hr' : g.rule? id with - | r
  · rw [hr'] at hrule
    rw [recompute_of_none hr', recompute_of_none hrule]
    exact ⟨htick, rfl⟩
  · rw [hr'] at hrule
    by_cases hfinds : r.Finds
    · have hfinds' : (ρ.rule r).Finds := by cases r <;> exact hfinds
      rw [recompute_of_finds hr' hfinds, recompute_of_finds hrule hfinds', htick.ready.copy.mirror.find?]
      rcases g.tick.find? r with - | found
      · exact ⟨htick, rfl⟩
      · have hwatch := htick.trans (htick.ready.subscribeAll id found.watched)
        obtain ⟨hgrown, hflag⟩ := hwatch.ready.grow (hwatch.not_shared hid) found.types
        exact ⟨hwatch.trans hgrown, hflag⟩
    · cases r with
      | write object attr value =>
        rw [recompute_of_write hr', recompute_of_write hrule, hr.copy.line hid]
        exact ⟨htick.trans (htick.ready.write object attr value _), rfl⟩
      | members c =>
        rw [recompute_of_members hr', recompute_of_members hrule]
        obtain ⟨hmerged, hflag⟩ := htick.ready.mergeBases c
        exact ⟨htick.trans hmerged, hflag⟩
      | _ => exact absurd trivial hfinds

/-- **The turn of a node goes along with the turn of its copy.** -/
theorem turn {rest' : List NodeId} (hid : ¬ g.Shared id) (hw : g.worklist = id :: rest)
    (hw' : h.worklist = ρ.node id :: rest') :
    Along T ρ g h (g.turn id rest) (h.turn (ρ.node id) rest') := by
  have hpop : Along T ρ g h { g with worklist := rest } { h with worklist := rest' } := by
    apply hr.withWorklist
    · have hwork := hr.copy.worklist
      rw [hw, hw', waiting_cons_of (Copy.own_iff.2 hid), waiting_cons_of hid, map_cons] at hwork
      exact (List.cons.inj hwork).2
    · rw [hw', waiting_cons_of_not (hr.clear.live id)]
  obtain ⟨hworked, hflag⟩ := hpop.ready.recompute (hpop.not_shared hid)
  have hall := hpop.trans hworked
  unfold Graph.turn
  simp only [hflag]
  split
  · exact hall.trans (hworked.ready.touch (hall.not_shared hid))
  · exact hall

end Ready

end Graph

end FlowTyping
