/-
What working out a node can do to a graph.

Whatever rule a node has, working it out is a sequence of a few elementary changes, called moves
here.  A move that can make some rule find more either schedules all who have to be told, or it
names the node whose dependents have to be told later; the collection `D` of these nodes is the
parameter of `Move`.

Every move keeps the graph valid (`Moves.valid`).  Nothing is ever taken back (`Moves.extends`):
sets, inputs and member tables only grow, and an inherited member only gives way to one from an
earlier base.  And unless all sets, rules and tables stay as they are, something new comes to hold
for good (`Moves.progress`).
-/
import FlowTyping.Proofs.Graph.Valid

namespace FlowTyping

open List

variable {info info' info'' : ClassInfo} {r r' : Rule}

/-! ### Growth of rules and tables -/

/-- The rank of a member in a table: its own members first, then base after base. -/
def Origin.rank : Origin → Nat
  | .own => 0
  | .inherited position => position + 1

/-- A plain rule or a merge may get more inputs; any other rule stays. -/
inductive Rule.Extends : Rule → Rule → Prop
  | refl (r : Rule) : Rule.Extends r r
  | plain {is is' : List NodeId} (h : ∀ i ∈ is, i ∈ is') : Rule.Extends (.plain is) (.plain is')
  | merge {is is' : List Incoming} (h : ∀ i ∈ is, i ∈ is') : Rule.Extends (.merge is) (.merge is')

theorem Rule.Extends.trans {r'' : Rule} (h : r.Extends r') (h' : r'.Extends r'') :
    r.Extends r'' := by
  cases h with
  | refl => exact h'
  | plain hi =>
    cases h' with
    | refl => exact .plain hi
    | plain hi' => exact .plain fun i h => hi' i (hi i h)
  | merge hi =>
    cases h' with
    | refl => exact .merge hi
    | merge hi' => exact .merge fun i h => hi' i (hi i h)

/-- A class keeps its name, its node and its bases; it keeps all members by name, an own one for
good and an inherited one until an earlier base has it. -/
structure ClassInfo.Extends (info info' : ClassInfo) : Prop where
  name : info'.name = info.name
  node : info'.node = info.node
  bases : info'.bases = info.bases
  members : ∀ name member, info.members.get? name = some member →
    ∃ member', info'.members.get? name = some member' ∧
      member'.origin.rank ≤ member.origin.rank ∧ (member.origin = .own → member' = member)
  anyBased : info.anyBased = true → info'.anyBased = true
  linked : ∀ p ∈ info.linked, p ∈ info'.linked

namespace ClassInfo.Extends

variable {info info' info'' : ClassInfo}

theorem refl (info : ClassInfo) : info.Extends info :=
  ⟨rfl, rfl, rfl, fun _ m hm => ⟨m, hm, le_rfl, fun _ => rfl⟩, fun h => h, fun _ h => h⟩

theorem trans (h : info.Extends info') (h' : info'.Extends info'') : info.Extends info'' := by
  refine ⟨h'.name.trans h.name, h'.node.trans h.node, h'.bases.trans h.bases, fun name m hm => ?_,
    fun ho => h'.anyBased (h.anyBased ho), fun p hp => h'.linked p (h.linked p hp)⟩
  obtain ⟨m', hm', hrank, hown⟩ := h.members name m hm
  obtain ⟨m'', hm'', hrank', hown'⟩ := h'.members name m' hm'
  refine ⟨m'', hm'', le_trans hrank' hrank, fun ho => ?_⟩
  have heq := hown ho
  rw [hown' (heq ▸ ho), heq]

end ClassInfo.Extends

/-- What a class keeps under every operation: its name, its node and all members by name.  What is
its own stays its own, but it may be given other bases and a member may be declared anew. -/
structure ClassInfo.Kept (info info' : ClassInfo) : Prop where
  name : info'.name = info.name
  node : info'.node = info.node
  members : ∀ name member, info.members.get? name = some member →
    ∃ member', info'.members.get? name = some member' ∧ (member.origin = .own → member'.origin = .own)
  anyBased : info.anyBased = true → info'.anyBased = true
  linked : ∀ p ∈ info.linked, p ∈ info'.linked

theorem ClassInfo.Kept.trans (h : info.Kept info') (h' : info'.Kept info'') : info.Kept info'' := by
  refine ⟨h'.name.trans h.name, h'.node.trans h.node, fun name m hm => ?_,
    fun ho => h'.anyBased (h.anyBased ho), fun p hp => h'.linked p (h.linked p hp)⟩
  obtain ⟨m', hm', hown⟩ := h.members name m hm
  obtain ⟨m'', hm'', hown'⟩ := h'.members name m' hm'
  exact ⟨m'', hm'', fun ho => hown' (hown ho)⟩

/-- Bases stay, whether the class is open, and the pairs that have been joined. -/
structure ClassInfo.Keeps (info info' : ClassInfo) : Prop where
  bases : info'.bases = info.bases
  anyBased : info'.anyBased = info.anyBased
  linked : ∀ p ∈ info.linked, p ∈ info'.linked

theorem ClassInfo.Keeps.refl (info : ClassInfo) : info.Keeps info := ⟨rfl, rfl, fun _ hp => hp⟩

theorem ClassInfo.Keeps.trans (h : info.Keeps info') (h' : info'.Keeps info'') :
    info.Keeps info'' :=
  ⟨h'.bases.trans h.bases, h'.anyBased.trans h.anyBased, fun p hp => h'.linked p (h.linked p hp)⟩

theorem ClassInfo.Extends.kept (h : info.Extends info') : info.Kept info' := by
  refine ⟨h.name, h.node, fun name m hm => ?_, h.anyBased, h.linked⟩
  obtain ⟨m', hm', -, hown⟩ := h.members name m hm
  exact ⟨m', hm', fun ho => by rw [hown ho]; exact ho⟩

/-- What a module keeps: its name, the names that it exports, and its submodules. -/
structure ModuleInfo.Kept (info info' : ModuleInfo) : Prop where
  name : info'.name = info.name
  exported : ∀ name node, info.exports.get? name = some node →
    ∃ node', info'.exports.get? name = some node'
  submodules : ∀ name m, info.submodules.get? name = some m → info'.submodules.get? name = some m

theorem ModuleInfo.Kept.refl (info : ModuleInfo) : info.Kept info :=
  ⟨rfl, fun _ node h => ⟨node, h⟩, fun _ _ h => h⟩

theorem ModuleInfo.Kept.trans {info info' info'' : ModuleInfo} (h : info.Kept info')
    (h' : info'.Kept info'') : info.Kept info'' := by
  refine ⟨h'.name.trans h.name, fun name node hn => ?_,
    fun name m hm => h'.submodules name m (h.submodules name m hm)⟩
  obtain ⟨node', hn'⟩ := h.exported name node hn
  exact h'.exported name node' hn'

namespace Graph

variable {g g' g'' : Graph} {D D' : NodeId → Prop} {info : ClassInfo} {name : String}
  {member : Member} {c : ClassId}

/-- Nothing in the first graph is taken back in the second, and neither has a class, a function or a
module more than the other. -/
structure Extends (g g' : Graph) : Prop where
  size : g.nodes.size ≤ g'.nodes.size
  types : ∀ id t, t ∈ g.types id → t ∈ g'.types id
  dependents : ∀ id d, d ∈ g.dependents id → d ∈ g'.dependents id
  rules : ∀ id r, g.rule? id = some r → ∃ r', g'.rule? id = some r' ∧ r.Extends r'
  lines : ∀ id, g.HasNode id → g'.line id = g.line id
  classes : ∀ c info, g.class? c = some info → ∃ info', g'.class? c = some info' ∧ info.Extends info'
  classCount : g'.classes.size = g.classes.size
  functions : g'.functions = g.functions
  modules : g'.modules = g.modules
  constants : g'.constants = g.constants
  unboundAsNone : g'.unboundAsNone = g.unboundAsNone

namespace Extends

variable {c : ClassId} {id : NodeId}

theorem refl (g : Graph) : Extends g g :=
  ⟨le_rfl, fun _ _ h => h, fun _ _ h => h, fun _ r h => ⟨r, h, .refl r⟩, fun _ _ => rfl,
    fun _ info h => ⟨info, h, .refl info⟩, rfl, rfl, rfl, rfl, rfl⟩

theorem trans (h : Extends g g') (h' : Extends g' g'') : Extends g g'' := by
  refine ⟨le_trans h.size h'.size, fun id t ht => h'.types id t (h.types id t ht),
    fun id d hd => h'.dependents id d (h.dependents id d hd), fun id r hr => ?_, fun id hid => ?_,
    fun c info hc => ?_, h'.classCount.trans h.classCount, h'.functions.trans h.functions,
    h'.modules.trans h.modules, h'.constants.trans h.constants,
    h'.unboundAsNone.trans h.unboundAsNone⟩
  · obtain ⟨r', hr', hext⟩ := h.rules id r hr
    obtain ⟨r'', hr'', hext'⟩ := h'.rules id r' hr'
    exact ⟨r'', hr'', hext.trans hext'⟩
  · exact (h'.lines id (lt_of_lt_of_le hid h.size)).trans (h.lines id hid)
  · obtain ⟨info', hc', hext⟩ := h.classes c info hc
    obtain ⟨info'', hc'', hext'⟩ := h'.classes c info' hc'
    exact ⟨info'', hc'', hext.trans hext'⟩

theorem hasNode (h : Extends g g') (hid : g.HasNode id) : g'.HasNode id :=
  lt_of_lt_of_le hid h.size

theorem hasType {t : Ty} (h : Extends g g') (ht : g.HasType t) : g'.HasType t :=
  ht.mono h.classCount.ge (by rw [h.functions]) (by rw [h.modules])

/-- A rule that puts values into members never changes. -/
theorem write {object value : NodeId} {attr : String} (h : Extends g g')
    (hr : g.rule? id = some (.write object attr value)) :
    g'.rule? id = some (.write object attr value) := by
  obtain ⟨r', hr', hext⟩ := h.rules id _ hr
  cases hext
  exact hr'

theorem member? {m : Member} (h : Extends g g') (hm : g.member? c name = some m) :
    ∃ m', g'.member? c name = some m' ∧ m'.origin.rank ≤ m.origin.rank := by
  obtain ⟨info, hc, hget⟩ := Option.bind_eq_some_iff.1 hm
  obtain ⟨info', hc', hext⟩ := h.classes c info hc
  obtain ⟨m', hm', hrank, -⟩ := hext.members name m hget
  exact ⟨m', Option.bind_eq_some_iff.2 ⟨info', hc', hm'⟩, hrank⟩

theorem of_same (hs : Same g g') (hdep : ∀ id d, d ∈ g.dependents id → d ∈ g'.dependents id) :
    Extends g g' := by
  refine ⟨hs.size.ge, fun id t ht => ?_, hdep, fun id r hr => ⟨r, ?_, .refl r⟩,
    fun id _ => congrFun hs.line id, fun c info hc => ⟨info, ?_, .refl info⟩, by rw [hs.classes], hs.functions, hs.modules,
    hs.constants, hs.unboundAsNone⟩
  · rw [hs.types]
    exact ht
  · rw [hs.rule?]
    exact hr
  · rw [hs.class?]
    exact hc

theorem schedule (g : Graph) (id : NodeId) : Extends g (g.schedule id) := by
  refine of_same (.schedule g id) fun b d hd => ?_
  rw [schedule_eq]
  exact hd

theorem touch (g : Graph) (id : NodeId) : Extends g (g.touch id) :=
  of_same (.touch g id) fun b _ hd => congrFun (dependents_touch g id) b ▸ hd

theorem touchClass (g : Graph) (c : ClassId) : Extends g (g.touchClass c) := by
  unfold Graph.touchClass
  split
  · exact touch g _
  · exact refl g

theorem subscribe (g : Graph) (dependent source : NodeId) :
    Extends g (g.subscribe dependent source) :=
  of_same (.subscribe g dependent source) fun _ _ hd => mem_dependents_subscribe.2 (.inl hd)

theorem foldl {α : Type} {step : Graph → α → Graph} (h : ∀ g a, Extends g (step g a))
    (as : List α) (g : Graph) : Extends g (as.foldl step g) := by
  induction as generalizing g with
  | nil => exact refl g
  | cons a as ih => exact (h g a).trans (ih (step g a))

theorem putTypes (g : Graph) (id : NodeId) (types : TypeSet) : Extends g (g.putTypes id types) := by
  refine ⟨(size_putTypes g id types).ge, fun b t ht => mem_types_putTypes.2 (.inl ht),
    fun b d hd => ?_, fun b r hr => ⟨r, ?_, .refl r⟩, fun b _ => congrFun (line_putTypes g id types) b,
    fun c info hc => ⟨info, hc, .refl info⟩, rfl, rfl, rfl, rfl, rfl⟩
  · rw [dependents_putTypes]
    exact hd
  · rw [rule?_putTypes]
    exact hr

theorem setRule (hr : g.rule? id = some r) (hext : r.Extends r') : Extends g (g.setRule id r') := by
  refine ⟨(size_setRule g id r').ge, fun b t ht => ?_, fun b d hd => ?_, fun b q hq => ?_,
    fun b _ => congrFun (line_setRule g id r') b, fun c info hc => ⟨info, hc, .refl info⟩, rfl, rfl, rfl, rfl, rfl⟩
  · rw [types_setRule]
    exact ht
  · rw [dependents_setRule]
    exact hd
  · rw [rule?_setRule]
    split
    · next hb =>
      subst hb
      rw [hr] at hq ⊢
      cases hq
      exact ⟨r', rfl, hext⟩
    · exact ⟨q, hq, .refl q⟩

theorem append (g : Graph) (rule : Rule) (line : Nat) : Extends g (g.append rule line) := by
  refine ⟨by rw [size_append]; exact Nat.le_succ _, fun b t ht => ?_, fun b d hd => ?_,
    fun b q hq => ⟨q, ?_, .refl q⟩, fun b hb => line_append_of_hasNode rule line hb,
    fun c info hc => ⟨info, hc, .refl info⟩, rfl, rfl, rfl, rfl, rfl⟩
  · rw [types_append]
    exact ht
  · rw [dependents_append]
    exact hd
  · rw [rule?_append, if_neg]
    · exact hq
    · rintro rfl
      exact g.not_hasNode_next (hasNode_of_rule? hq)

theorem push (g : Graph) (rule : Rule) (line : Nat) : Extends g (g.push rule line).2 := by
  rw [push_eq]
  exact ((append g rule line).trans (foldl (fun g' s => subscribe g' g.next s) _ _)).trans
    (schedule _ _)

theorem modifyClass {f : ClassInfo → ClassInfo}
    (hf : ∀ info, g.class? c = some info → info.Extends (f info)) :
    Extends g (g.modifyClass c f) := by
  refine ⟨le_rfl, fun _ _ h => h, fun _ _ h => h, fun _ r h => ⟨r, h, .refl r⟩, fun _ _ => rfl,
    fun d info hd => ?_, size_modifyClass g c f, rfl, rfl, rfl, rfl⟩
  rw [class?_modifyClass, hd]
  split
  · next hcd =>
    subst hcd
    exact ⟨f info, rfl, hf info hd⟩
  · exact ⟨info, rfl, .refl info⟩

/-- Putting a member into a table takes nothing back if the name is new, or if the member is
inherited from an earlier base. -/
theorem setMember (h : ∀ old, g.member? c name = some old →
      member.origin.rank ≤ old.origin.rank ∧ old.origin ≠ .own) :
    Extends g (g.setMember c name member) := by
  refine modifyClass fun info hc => ⟨rfl, rfl, rfl, fun n m hm => ?_, fun ho => ho, fun _ hp => hp⟩
  simp only [Table.get?_insert]
  split
  · next hn =>
    subst hn
    obtain ⟨hrank, hown⟩ := h m (Option.bind_eq_some_iff.2 ⟨info, hc, hm⟩)
    exact ⟨member, rfl, hrank, fun ho => absurd ho hown⟩
  · exact ⟨m, hm, le_rfl, fun _ => rfl⟩

end Extends

/-! ### Moves -/

/-- A type that rules may come to: it is in every collection of types that has all sets of the graph
and that rules cannot leave. -/
def Derivable (g : Graph) (t : Ty) : Prop :=
  ∀ P : Ty → Prop, Closed g P → (∀ id u, u ∈ g.types id → P u) → P t

/-- The elementary changes that are made while a node is worked out.  Where `D` is asked for a node,
the dependents of that node have to be told later. -/
inductive Move (D : NodeId → Prop) (g : Graph) : Graph → Prop
  | tally (recomputations growths : Nat) : Move D g { g with recomputations, growths }
  | subscribe {dependent : NodeId} (hd : g.HasNode dependent) (source : NodeId) :
      Move D g (g.subscribe dependent source)
  | grow {id : NodeId} {types : TypeSet} (hid : g.HasNode id) (hT : ∀ t ∈ types, g.Derivable t)
      (hnew : ∃ t ∈ types, t ∉ g.types id) (hD : D id) : Move D g (g.putTypes id types)
  | connect {id input : NodeId} {inputs : List NodeId} (hr : g.rule? id = some (.plain inputs))
      (hnew : input ∉ inputs) (hin : g.HasNode input) :
      Move D g (((g.setRule id (.plain (inputs ++ [input]))).subscribe id input).schedule id)
  | newMember {c : ClassId} {info : ClassInfo} {name : String} (line : Nat)
      (hc : g.class? c = some info) (hnone : g.member? c name = none)
      (hattr : ∃ id object value, g.rule? id = some (.write object name value)) :
      Move D g (((g.push (.plain []) line).2.setMember c name ⟨g.next, .own⟩).touchClass c)
  | inherit {c : ClassId} {info : ClassInfo} {name : String} {node : NodeId} {position : Nat}
      (hc : g.class? c = some info) (hnode : g.HasNode node)
      (hposition : position < info.bases.length) (hname : ∃ d m, g.member? d name = some m)
      (hbetter : ∀ old, g.member? c name = some old →
        ∃ earlier, old.origin = .inherited earlier ∧ position < earlier)
      (hD : D info.node) : Move D g (g.setMember c name ⟨node, .inherited position⟩)
  | link {c : ClassId} {info : ClassInfo} {a b : NodeId} (hc : g.class? c = some info)
      (ha : g.HasNode a) (hb : g.HasNode b) (hnew : ordered a b ∉ info.linked) :
      Move D g (g.modifyClass c fun info => { info with linked := ordered a b :: info.linked })
  | openUp {c : ClassId} {info : ClassInfo} (hc : g.class? c = some info)
      (hclosed : info.anyBased = false) (hD : D info.node) :
      Move D g (g.modifyClass c fun info => { info with anyBased := true })

abbrev Moves (D : NodeId → Prop) : Graph → Graph → Prop := Relation.ReflTransGen (Move D)

theorem Move.mono (h : ∀ d, D d → D' d) (m : Move D g g') : Move D' g g' := by
  cases m with
  | tally a b => exact .tally a b
  | subscribe hd s => exact .subscribe hd s
  | grow hid hT hnew hD => exact .grow hid hT hnew (h _ hD)
  | connect hr hnew hin => exact .connect hr hnew hin
  | newMember line hc hnone hattr => exact .newMember line hc hnone hattr
  | inherit hc hnode hpos hname hbetter hD => exact .inherit hc hnode hpos hname hbetter (h _ hD)
  | link hc ha hb hnew => exact .link hc ha hb hnew
  | openUp hc hclosed hD => exact .openUp hc hclosed (h _ hD)

theorem Moves.trans (m : Moves D g g') (m' : Moves D g' g'') : Moves D g g'' :=
  Relation.ReflTransGen.trans m m'

theorem Moves.mono (h : ∀ d, D d → D' d) (m : Moves D g g') : Moves D' g g' := by
  induction m with
  | refl => exact .refl
  | tail _ hstep ih => exact ih.tail (hstep.mono h)

theorem Move.extends (m : Move D g g') : Extends g g' := by
  cases m with
  | tally a b => exact .of_same .counts fun _ _ hd => hd
  | subscribe hd s => exact .subscribe g _ s
  | grow hid hT hnew hD => exact .putTypes g _ _
  | @connect id input inputs hr hnew hin =>
    have hmore : Extends g (g.setRule id (.plain (inputs ++ [input]))) :=
      .setRule hr (.plain fun i hi => mem_append_left _ hi)
    exact (hmore.trans (.subscribe _ _ _)).trans (.schedule _ _)
  | newMember line hc hnone hattr =>
    refine ((Extends.push g _ line).trans (.setMember fun old hold => ?_)).trans (.touchClass _ _)
    rw [member?_push, hnone] at hold
    cases hold
  | inherit hc hnode hpos hname hbetter hD =>
    refine .setMember fun old hold => ?_
    obtain ⟨earlier, horigin, hlt⟩ := hbetter old hold
    rw [horigin]
    exact ⟨Nat.succ_le_succ (le_of_lt hlt), by simp⟩
  | link hc ha hb hnew =>
    refine .modifyClass fun info _ => ⟨rfl, rfl, rfl, fun n m hm => ?_, fun ho => ho, fun p hp => ?_⟩
    · exact ⟨m, hm, le_rfl, fun _ => rfl⟩
    · exact mem_cons_of_mem _ hp
  | openUp hc hclosed hD =>
    refine .modifyClass fun info _ => ⟨rfl, rfl, rfl, fun n m hm => ?_, fun _ => rfl, fun p hp => hp⟩
    exact ⟨m, hm, le_rfl, fun _ => rfl⟩

theorem Moves.extends (m : Moves D g g') : Extends g g' := by
  induction m with
  | refl => exact .refl g
  | tail _ hstep ih => exact ih.trans hstep.extends

/-- Rules only come to types that exist. -/
theorem Valid.closed_hasType (h : g.Valid) : Closed g g.HasType where
  any := trivial
  base _ := trivial
  builtinType _ := trivial
  builtinMethod _ _ _ := trivial
  classObject _ hc := hc
  instanceOf _ hc := hc
  method _ hf := hf
  submodule m info _ _ hm hsub :=
    (h.modules m info hm).submodules _ (Table.mem_entries_of_get? hsub)

/-- **Moves keep a graph valid.** -/
theorem Move.valid (m : Move D g g') (h : g.Valid) : g'.Valid := by
  cases m with
  | tally a b =>
    exact h.of_same .counts (fun _ _ hd => hd) h.dependents
      h.worklist h.nodup
  | subscribe hd s => exact h.subscribe hd s
  | grow hid hT hnew hD =>
    exact h.putTypes _ fun t ht => hT t ht g.HasType h.closed_hasType h.types
  | @connect id input inputs hr hnew hin =>
    have hk : ([input].foldl (fun g s => g.subscribe id s)
        (g.setRule id (.plain (inputs ++ [input])))).Valid :=
      h.replaceRule hr trivial trivial (fun s hs => mem_append.1 hs)
        (fun s hs => by rw [mem_singleton.1 hs]; exact hin)
    refine hk.schedule (((Same.subscribe _ id input).hasNode id).2 ?_)
    exact (hasNode_modifyNode g id _ id).2 (hasNode_of_rule? hr)
  | newMember line hc hnone hattr =>
    have hk : (g.push (.plain []) line).2.Valid :=
      h.push line (fun s hs => absurd hs not_mem_nil) (fun _ _ _ he => by cases he)
        (fun _ he => by cases he)
    exact (hk.setMember (hasNode_push_next g _ line) _ _).touchClass _
  | inherit hc hnode hpos hname hbetter hD => exact h.setMember hnode _ _
  | link hc ha hb hnew => exact h.noteLink ha hb _
  | openUp hc hclosed hD => exact h.openClass _

theorem Moves.valid (m : Moves D g g') (h : g.Valid) : g'.Valid := by
  induction m with
  | refl => exact h
  | tail _ hstep ih => exact hstep.valid ih

/-! ### Progress -/

/-- What can come to hold of a graph and then holds for good. -/
inductive Fact where
  /-- A set has a type. -/
  | type (id : NodeId) (t : Ty)
  /-- A plain node has an input. -/
  | input (id source : NodeId)
  /-- A class has a member of this name, of at most this rank. -/
  | reached (c : ClassId) (name : String) (rank : Nat)
  | opened (c : ClassId)
  | linked (c : ClassId) (a b : NodeId)
deriving DecidableEq

/-- Ranks beyond the number of bases are left out, so that finitely many facts hold. -/
def Fact.Holds (g : Graph) : Fact → Prop
  | .type id t => t ∈ g.types id
  | .input id source => ∃ inputs, g.rule? id = some (.plain inputs) ∧ source ∈ inputs
  | .reached c name rank => ∃ info, g.class? c = some info ∧ rank ≤ info.bases.length ∧
      ∃ m, info.members.get? name = some m ∧ m.origin.rank ≤ rank
  | .opened c => ∃ info, g.class? c = some info ∧ info.anyBased = true
  | .linked c a b => ∃ info, g.class? c = some info ∧ (a, b) ∈ info.linked

variable {fact : Fact}

theorem Fact.Holds.mono (h : fact.Holds g) (hext : Extends g g') : fact.Holds g' := by
  cases fact with
  | type id t => exact hext.types id t h
  | input id source =>
    obtain ⟨inputs, hr, hs⟩ := h
    obtain ⟨r', hr', hmore⟩ := hext.rules id _ hr
    cases hmore with
    | refl => exact ⟨inputs, hr', hs⟩
    | plain hi => exact ⟨_, hr', hi source hs⟩
  | reached c name rank =>
    obtain ⟨info, hc, hrank, m, hm, hle⟩ := h
    obtain ⟨info', hc', hinfo⟩ := hext.classes c info hc
    obtain ⟨m', hm', hle', -⟩ := hinfo.members name m hm
    exact ⟨info', hc', hinfo.bases ▸ hrank, m', hm', le_trans hle' hle⟩
  | opened c =>
    obtain ⟨info, hc, ho⟩ := h
    obtain ⟨info', hc', hinfo⟩ := hext.classes c info hc
    exact ⟨info', hc', hinfo.anyBased ho⟩
  | linked c a b =>
    obtain ⟨info, hc, hl⟩ := h
    obtain ⟨info', hc', hinfo⟩ := hext.classes c info hc
    exact ⟨info', hc', hinfo.linked _ hl⟩

theorem Fact.holds_of_same (hs : Same g g') : fact.Holds g' ↔ fact.Holds g := by
  cases fact <;> simp only [Fact.Holds, hs.types, hs.rule?, hs.class?]

def Gain (g g' : Graph) : Prop := ∃ fact : Fact, ¬ fact.Holds g ∧ fact.Holds g'

theorem Gain.of_extends (h : Gain g g') (hext : Extends g' g'') : Gain g g'' := by
  obtain ⟨fact, hnot, hholds⟩ := h
  exact ⟨fact, hnot, hholds.mono hext⟩

theorem Gain.after (hext : Extends g g') (h : Gain g' g'') : Gain g g'' := by
  obtain ⟨fact, hnot, hholds⟩ := h
  exact ⟨fact, fun hg => hnot (hg.mono hext), hholds⟩

theorem Gain.putTypes {id : NodeId} {types : TypeSet} (hid : g.HasNode id)
    (hnew : ∃ t ∈ types, t ∉ g.types id) : Gain g (g.putTypes id types) := by
  obtain ⟨t, ht, hnot⟩ := hnew
  exact ⟨.type id t, hnot, mem_types_putTypes.2 (.inr ⟨hid, rfl, ht⟩)⟩

/-- A member of smaller rank than before. -/
theorem Gain.setMember (hc : g.class? c = some info)
    (hrank : member.origin.rank ≤ info.bases.length)
    (hbetter : ∀ old, g.member? c name = some old → member.origin.rank < old.origin.rank) :
    Gain g (g.setMember c name member) := by
  refine ⟨.reached c name member.origin.rank, ?_, ?_⟩
  · rintro ⟨info', hc', -, old, hold, hle⟩
    have hlt := hbetter old (Option.bind_eq_some_iff.2 ⟨info', hc', hold⟩)
    exact absurd hle (Nat.not_le_of_lt hlt)
  · refine ⟨{ info with members := info.members.insert name member }, ?_, hrank, member, ?_,
      le_rfl⟩
    · rw [Graph.setMember, class?_modifyClass, if_pos rfl, hc]
      rfl
    · exact Table.get?_insert_self _ _ _

theorem Gain.openUp (hc : g.class? c = some info) (hclosed : info.anyBased = false) :
    Gain g (g.modifyClass c fun info => { info with anyBased := true }) := by
  refine ⟨.opened c, ?_, { info with anyBased := true }, ?_, rfl⟩
  · rintro ⟨info', hc', ho⟩
    rw [hc] at hc'
    cases hc'
    rw [hclosed] at ho
    cases ho
  · rw [class?_modifyClass, if_pos rfl, hc]
    rfl

/-- **Every move makes progress**, except for counting and subscribing. -/
theorem Move.progress (m : Move D g g') : (Same g g' ∧ g'.worklist = g.worklist) ∨ Gain g g' := by
  cases m with
  | tally a b => exact .inl ⟨.counts, rfl⟩
  | subscribe hd s => exact .inl ⟨.subscribe g _ s, rfl⟩
  | grow hid hT hnew hD => exact .inr (.putTypes hid hnew)
  | @connect id input inputs hr hnew hin =>
    right
    refine ⟨.input id input, ?_, inputs ++ [input], ?_, mem_append_right _ (by simp)⟩
    · rintro ⟨inputs', hr', hmem⟩
      rw [hr] at hr'
      cases hr'
      exact hnew hmem
    · rw [(Same.schedule _ _).rule?, (Same.subscribe _ _ _).rule?, rule?_setRule, if_pos rfl, hr]
      rfl
  | @newMember c info name line hc hnone hattr =>
    right
    have hclass : (g.push (.plain []) line).2.class? c = some info := by
      rw [(tables_congr (classes_push g _ line)).1, hc]
    have hset : Gain (g.push (.plain []) line).2
        ((g.push (.plain []) line).2.setMember c name ⟨g.next, .own⟩) := by
      refine .setMember hclass (Nat.zero_le _) fun old hold => ?_
      rw [member?_push, hnone] at hold
      cases hold
    exact (Gain.after (.push g _ line) hset).of_extends (.touchClass _ c)
  | inherit hc hnode hposition hname hbetter hD =>
    right
    refine .setMember hc hposition fun old hold => ?_
    obtain ⟨earlier, horigin, hlt⟩ := hbetter old hold
    rw [horigin]
    exact Nat.succ_lt_succ hlt
  | @link c info a b hc ha hb hnew =>
    right
    refine ⟨.linked c (ordered a b).1 (ordered a b).2, ?_,
      { info with linked := ordered a b :: info.linked }, ?_, mem_cons_self⟩
    · rintro ⟨info', hc', hl⟩
      rw [hc] at hc'
      cases hc'
      exact hnew hl
    · rw [class?_modifyClass, if_pos rfl, hc]
      rfl
  | openUp hc hclosed hD => exact .inr (.openUp hc hclosed)

theorem Moves.progress (m : Moves D g g') : (Same g g' ∧ g'.worklist = g.worklist) ∨ Gain g g' := by
  induction m with
  | refl => exact .inl ⟨.refl g, rfl⟩
  | tail hfirst hstep ih =>
    rcases hstep.progress with ⟨hs, hw⟩ | hgain
    · rcases ih with ⟨hs', hw'⟩ | hgain
      · exact .inl ⟨hs'.trans hs, hw.trans hw'⟩
      · exact .inr (hgain.of_extends hstep.extends)
    · exact .inr (.after (Moves.extends hfirst) hgain)

end Graph

end FlowTyping
