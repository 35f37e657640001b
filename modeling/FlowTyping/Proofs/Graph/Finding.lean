/-
What a rule reads, and what it can find.

The nodes that a finding watches are the record of what it was read off: in another graph with the
same sets at the sources of a rule and at the watched nodes, and the same tables for the classes
whose nodes are watched, the rule finds the same (`find?_agree`), and under new numbers it finds the
same renamed (`Alike.find?`).  Calls are left out, since a call also reads the sets of parameters
and watches none of them, and so are attributes of modules (`IsValue`).

No rule makes up a class, a function, a name or a node: a property of types that is closed under the
few ways in which a rule passes from one type to another holds of all that a rule finds as soon as
it holds of all sets, and a property of the nodes in the tables holds of all that it watches
(`Supplies.find?`).
-/
import FlowTyping.Proofs.Graph.Step
import FlowTyping.Proofs.Renaming.Basic

namespace FlowTyping

open List

variable {s : TypeSet} {t : Ty}

/-! ### Findings -/

namespace Finding

variable {f k : Finding} {fs : List Finding} {t : Ty} {w : NodeId} {ns : List NodeId}
  {condition : Bool}

@[simp]
theorem types_failed : failed.types = .empty := rfl

@[simp]
theorem watched_failed : failed.watched = [] := rfl

@[simp]
theorem types_gives (s : TypeSet) : (gives s).types = s := rfl

@[simp]
theorem types_givesType (t : Ty) : (givesType t).types = .single t := rfl

theorem mem_types_or : t ∈ (f.or k).types ↔ t ∈ f.types ∨ t ∈ k.types := TypeSet.mem_union

theorem mem_watched_or : w ∈ (f.or k).watched ↔ w ∈ f.watched ∨ w ∈ k.watched := mem_append

theorem mem_watched_watching : w ∈ (f.watching ns).watched ↔ w ∈ ns ∨ w ∈ f.watched := mem_append

theorem mem_types_foldl_or : t ∈ (fs.foldl or f).types ↔ t ∈ f.types ∨ ∃ k ∈ fs, t ∈ k.types := by
  induction fs generalizing f with
  | nil => simp
  | cons k fs ih =>
    rw [foldl_cons, ih, mem_types_or, or_assoc]
    simp only [mem_cons, exists_eq_or_imp]

theorem mem_watched_foldl_or :
    w ∈ (fs.foldl or f).watched ↔ w ∈ f.watched ∨ ∃ k ∈ fs, w ∈ k.watched := by
  induction fs generalizing f with
  | nil => simp
  | cons k fs ih =>
    rw [foldl_cons, ih, mem_watched_or, or_assoc]
    simp only [mem_cons, exists_eq_or_imp]

theorem mem_types_join : t ∈ (join fs).types ↔ ∃ f ∈ fs, t ∈ f.types := by
  rw [join, mem_types_foldl_or]
  simp

theorem mem_watched_join : w ∈ (join fs).watched ↔ ∃ f ∈ fs, w ∈ f.watched := by
  rw [join, mem_watched_foldl_or]
  simp

theorem mem_types_givesIf {u : Ty} :
    u ∈ (givesIf condition t).types ↔ condition = true ∧ u = t := by
  cases condition <;> simp [givesIf]

/-! ### Findings that are the same in two graphs -/

end Finding

namespace Renaming

variable (ρ : Renaming)

def finding (f : Finding) : Finding := ⟨ρ.types f.types, f.watched.map ρ.node, f.support⟩

@[simp]
theorem finding_mk (types : TypeSet) (watched : List NodeId) (support : Support) :
    ρ.finding ⟨types, watched, support⟩ = ⟨ρ.types types, watched.map ρ.node, support⟩ := rfl

@[simp]
theorem finding_gives (s : TypeSet) : ρ.finding (.gives s) = .gives (ρ.types s) := rfl

@[simp]
theorem finding_or (f k : Finding) : ρ.finding (f.or k) = (ρ.finding f).or (ρ.finding k) := by
  simp [Finding.or, finding]

@[simp]
theorem finding_join (fs : List Finding) : ρ.finding (.join fs) = .join (fs.map ρ.finding) := by
  have hfold : ∀ f : Finding, ρ.finding (fs.foldl .or f) = (fs.map ρ.finding).foldl .or (ρ.finding f) := by
    induction fs with
    | nil => exact fun _ => rfl
    | cons k fs ih =>
      intro f
      rw [foldl_cons, ih, map_cons, foldl_cons, finding_or]
  exact hfold .failed

@[simp]
theorem finding_watching (ns : List NodeId) (f : Finding) :
    ρ.finding (f.watching ns) = (ρ.finding f).watching (ns.map ρ.node) := by
  simp [Finding.watching, finding]

@[simp]
theorem finding_succeeding (f : Finding) : ρ.finding f.succeeding = (ρ.finding f).succeeding := rfl

@[simp]
theorem finding_givesIf (condition : Bool) (t : Ty) :
    ρ.finding (.givesIf condition t) = .givesIf condition (ρ.ty t) := by
  cases condition <;> rfl

@[simp]
theorem isSupported_finding (f : Finding) : (ρ.finding f).isSupported = f.isSupported := rfl

@[simp]
theorem finding_ofKind? (o : Option Kind) :
    ρ.finding (.ofOption (o.map .base)) = .ofOption (o.map .base) := by
  cases o <;> rfl

@[simp]
theorem finding_id : Renaming.id.finding = id := by
  funext f
  simp [finding]

theorem types_foldl_union {α β : Type} {F : α → TypeSet} {F' : β → TypeSet} {f : α → β}
    {as : List α} (h : ∀ a ∈ as, F' (f a) = ρ.types (F a)) (s : TypeSet) :
    (as.map f).foldl (fun s b => s.union (F' b)) (ρ.types s) =
      ρ.types (as.foldl (fun s a => s.union (F a)) s) := by
  induction as generalizing s with
  | nil => rfl
  | cons a as ih =>
    rw [map_cons, foldl_cons, h a mem_cons_self, ← types_union, foldl_cons]
    exact ih (fun b hb => h b (mem_cons_of_mem a hb)) _

end Renaming

namespace Finding

variable {f k : Finding} {fs : List Finding} {t : Ty} {w : NodeId} {ns : List NodeId}
  {condition : Bool}

/-- The second finding is the first one under new numbers, provided that all that the first one
watches is in `W`. -/
def Follows (ρ : Renaming) (W : NodeId → Prop) (f f' : Finding) : Prop :=
  (∀ w ∈ f.watched, W w) → f' = ρ.finding f

namespace Follows

variable {ρ : Renaming} {W : NodeId → Prop} {f f' k k' : Finding}

theorem of_eq (h : f' = ρ.finding f) : Follows ρ W f f' := fun _ => h

theorem or (hf : Follows ρ W f f') (hk : Follows ρ W k k') : Follows ρ W (f.or k) (f'.or k') := by
  intro hw
  rw [hf fun w h => hw w (mem_watched_or.2 (.inl h)),
    hk fun w h => hw w (mem_watched_or.2 (.inr h)), Renaming.finding_or]

theorem join {α β : Type} {F : α → Finding} {F' : β → Finding} {m : α → β} {as : List α}
    (h : ∀ a ∈ as, Follows ρ W (F a) (F' (m a))) :
    Follows ρ W (Finding.join (as.map F)) (Finding.join ((as.map m).map F')) := by
  intro hw
  rw [Renaming.finding_join, map_map, map_map]
  congr 1
  refine map_congr_left fun a ha => h a ha fun w hwa => hw w ?_
  exact mem_watched_join.2 ⟨F a, mem_map_of_mem ha, hwa⟩

theorem succeeding (h : Follows ρ W f f') : Follows ρ W f.succeeding f'.succeeding := by
  intro hw
  rw [h hw, Renaming.finding_succeeding]

/-- What is watched beside a finding may be used for it. -/
theorem watching (h : (∀ n ∈ ns, W n) → Follows ρ W f f') :
    Follows ρ W (f.watching ns) (f'.watching (ns.map ρ.node)) := by
  intro hw
  rw [h (fun n hn => hw n (mem_watched_watching.2 (.inl hn)))
    fun w hf => hw w (mem_watched_watching.2 (.inr hf)), Renaming.finding_watching]

theorem ite {p : Prop} [Decidable p] (hf : Follows ρ W f f') (hk : Follows ρ W k k') :
    Follows ρ W (if p then f else k) (if p then f' else k') := by
  split
  · exact hf
  · exact hk

/-- If the first one answers, the second is neither read nor watched. -/
theorem orElse (hf : Follows ρ W f f') (hk : Follows ρ W k k') :
    Follows ρ W (if f.isSupported then f else f.or k) (if f'.isSupported then f' else f'.or k') := by
  by_cases hsup : f.isSupported = true
  · intro hw
    rw [if_pos hsup] at hw ⊢
    rw [hf hw, Renaming.isSupported_finding, if_pos hsup]
  · intro hw
    rw [if_neg hsup] at hw ⊢
    have heq := hf fun w hw' => hw w (mem_watched_or.2 (.inl hw'))
    rw [heq, Renaming.isSupported_finding, if_neg hsup, ← heq]
    exact hf.or hk hw

end Follows

/-! ### Findings within bounds -/

/-- All types of a finding are in `P`, and all nodes that it watches are in `N`. -/
structure Within (P : Ty → Prop) (N : NodeId → Prop) (f : Finding) : Prop where
  types : ∀ t ∈ f.types, P t
  watched : ∀ w ∈ f.watched, N w

namespace Within

variable {P : Ty → Prop} {N : NodeId → Prop} {f k : Finding}

theorem empty {support : Support} : Within P N ⟨.empty, [], support⟩ :=
  ⟨fun t ht => absurd ht (TypeSet.not_mem_empty t), fun _ hw => nomatch hw⟩

theorem gives (h : ∀ t ∈ s, P t) : Within P N (Finding.gives s) :=
  ⟨h, fun _ hw => nomatch hw⟩

theorem givesType (h : P t) : Within P N (Finding.givesType t) :=
  gives fun _ hu => TypeSet.mem_single.1 hu ▸ h

theorem ite {p : Prop} [Decidable p] (hf : Within P N f) (hk : Within P N k) :
    Within P N (if p then f else k) := by
  split
  · exact hf
  · exact hk

theorem givesIf (h : P t) : Within P N (Finding.givesIf condition t) :=
  ite (givesType h) empty

theorem ofOption {o : Option Ty} (h : ∀ t, o = some t → P t) : Within P N (Finding.ofOption o) := by
  cases o with
  | none => exact empty
  | some t => exact givesType (h t rfl)

theorem or (hf : Within P N f) (hk : Within P N k) : Within P N (f.or k) :=
  ⟨fun t ht => (mem_types_or.1 ht).elim (hf.types t) (hk.types t),
    fun w hw => (mem_watched_or.1 hw).elim (hf.watched w) (hk.watched w)⟩

theorem join {α : Type} {F : α → Finding} {as : List α} (h : ∀ a ∈ as, Within P N (F a)) :
    Within P N (Finding.join (as.map F)) := by
  refine ⟨fun t ht => ?_, fun w hw => ?_⟩
  · obtain ⟨f, hf, ht⟩ := mem_types_join.1 ht
    obtain ⟨a, ha, rfl⟩ := mem_map.1 hf
    exact (h a ha).types t ht
  · obtain ⟨f, hf, hw⟩ := mem_watched_join.1 hw
    obtain ⟨a, ha, rfl⟩ := mem_map.1 hf
    exact (h a ha).watched w hw

theorem succeeding (h : Within P N f) : Within P N f.succeeding := ⟨h.types, h.watched⟩

theorem watching (h : Within P N f) (hns : ∀ n ∈ ns, N n) : Within P N (f.watching ns) :=
  ⟨h.types, fun w hw => (mem_watched_watching.1 hw).elim (hns w) (h.watched w)⟩

end Within

end Finding

namespace Graph

open Finding (Follows Within)

variable {g g' : Graph} {W : NodeId → Prop} {N : NodeId → Prop} {P : Ty → Prop} {f : Finding}
  {op view : Ty → Finding} {r : Rule} {c : ClassId} {member : NodeId} {types : TypeSet}

/-! ### Types that exist -/

/-- Whether the class, the function or the module that a type points to exists. -/
def HasType (g : Graph) : Ty → Prop
  | .classObject c | .instanceOf c => c.index < g.classes.size
  | .function f | .method f => f.index < g.functions.size
  | .moduleObject m => m.index < g.modules.size
  | _ => True

/-- Whether every type in a set points to something that exists. -/
def TypesExist (g : Graph) : Prop := ∀ id t, t ∈ g.types id → g.HasType t

theorem class?_isSome (h : c.index < g.classes.size) : ∃ info, g.class? c = some info := by
  rw [class?]
  exact ⟨_, Array.getElem?_eq_getElem h⟩

theorem classNodes_eq {info : ClassInfo} (h : g.class? c = some info) :
    g.classNodes c = [info.node] := by
  rw [classNodes, h]

/-! ### Graphs that look alike -/

/-- Whether the class or the function that a type points to is in `C` or in `F`. -/
def Known (C : ClassId → Prop) (F : FunctionId → Prop) : Ty → Prop
  | .classObject c | .instanceOf c => C c
  | .function f | .method f => F f
  | _ => True

/-- The second graph looks from the nodes in `W` as the first one does under new numbers: it has the
same sets there, and the same tables for the classes whose nodes are among them.  All sets have only
classes in `C` and functions in `F`. -/
structure Alike (ρ : Renaming) (W : NodeId → Prop) (C : ClassId → Prop) (F : FunctionId → Prop)
    (g h : Graph) : Prop where
  types : ∀ w, W w → h.types (ρ.node w) = ρ.types (g.types w)
  known : ∀ w t, t ∈ g.types w → Known C F t
  classNodes : ∀ c, C c → h.classNodes (ρ.ofClass c) = (g.classNodes c).map ρ.node
  tables : ∀ c, C c → (∀ n ∈ g.classNodes c, W n) →
    (∀ name, h.member? (ρ.ofClass c) name = (g.member? c name).map ρ.member) ∧
      h.anyBased (ρ.ofClass c) = g.anyBased c
  function? : ∀ f, F f → h.function? (ρ.ofFunction f) = (g.function? f).map ρ.functionInfo
  unboundAsNone : h.unboundAsNone = g.unboundAsNone

namespace Alike

variable {ρ : Renaming} {C : ClassId → Prop} {F : FunctionId → Prop} {h : Graph} {f : FunctionId}
  {l r t : Ty}

variable (ha : Alike ρ W C F g h)
include ha

theorem returned (hf : F f) : Follows ρ W (g.returned f) (h.returned (ρ.ofFunction f)) := by
  unfold Graph.returned
  rw [ha.function? f hf]
  rcases g.function? f with - | info
  · exact .of_eq rfl
  · intro hw
    simp [Renaming.functionInfo, ha.types _ (hw _ (mem_singleton_self _))]

theorem viewed {view' : Ty → Finding}
    (hview : ∀ t, Known C F t → Follows ρ W (view t) (view' (ρ.ty t))) :
    Follows ρ W (g.viewed view member) (h.viewed view' (ρ.node member)) := by
  refine .watching fun hmember => ?_
  rw [ha.types member (hmember member (mem_singleton_self member))]
  exact .succeeding (.join fun t ht => hview t (ha.known member t ht))

theorem returnedBy : Follows ρ W (g.returnedBy member) (h.returnedBy (ρ.node member)) := by
  refine ha.viewed fun t ht => ?_
  cases t with
  | function f | method f => exact ha.returned ht
  | _ => exact .of_eq rfl

/-- Whoever watches a class may read its table. -/
theorem watchingClass {k k' : Finding} (hc : C c)
    (hk : (∀ name, h.member? (ρ.ofClass c) name = (g.member? c name).map ρ.member) →
      h.anyBased (ρ.ofClass c) = g.anyBased c → Follows ρ W k k') :
    Follows ρ W (k.watching (g.classNodes c)) (k'.watching (h.classNodes (ρ.ofClass c))) := by
  rw [ha.classNodes c hc]
  refine .watching fun hw => ?_
  obtain ⟨hmember, hopen⟩ := ha.tables c hc hw
  exact hk hmember hopen

theorem special (hc : C c) (name : String) :
    Follows ρ W (g.special c name) (h.special (ρ.ofClass c) name) := by
  refine ha.watchingClass hc fun hmember hopen => ?_
  rw [hmember, hopen]
  rcases g.member? c name with - | member
  · exact .of_eq (ρ.finding_givesIf _ .any).symm
  · exact ha.returnedBy

theorem specialOf (hT : Known C F t) (name? : Option String) :
    Follows ρ W (g.specialOf name? t) (h.specialOf name? (ρ.ty t)) := by
  cases t with
  | instanceOf c =>
    simp only [Graph.specialOf, Renaming.ty]
    rcases name? with - | name
    · exact .of_eq rfl
    · exact ha.special hT name
  | _ => exact .of_eq rfl

/-- The container decides about a membership test, and its class is watched. -/
theorem searchable {item container : Ty} (hT : Known C F container)
    (hw : ∀ n ∈ g.decidingNodes container, W n) :
    h.searchable (ρ.ty item) (ρ.ty container) = g.searchable item container := by
  cases container with
  | base k => cases item <;> rfl
  | instanceOf c =>
    obtain ⟨hmember, hopen⟩ := ha.tables c hT hw
    simp [Graph.searchable, Renaming.ty, hasMember, hmember, hopen]
  | classObject c => exact (ha.tables c hT hw).2
  | _ => rfl

theorem decidingNodes (hT : Known C F t) :
    h.decidingNodes (ρ.ty t) = (g.decidingNodes t).map ρ.node := by
  cases t with
  | instanceOf c | classObject c => exact ha.classNodes c hT
  | _ => rfl

omit ha in
theorem unknownOperand (kinds : KindSet) :
    Follows ρ W (Graph.unknownOperand kinds) (Graph.unknownOperand kinds) := by
  refine .ite (.of_eq rfl) (.of_eq ?_)
  rw [Renaming.finding_gives, Renaming.types_ofKinds]

theorem binary (hl : Known C F l) (hr : Known C F r) (op : BinaryOp) :
    Follows ρ W (g.binary op l r) (h.binary op (ρ.ty l) (ρ.ty r)) := by
  unfold Graph.binary
  refine .ite (.of_eq rfl) (.ite ?_ ?_)
  · rw [ha.decidingNodes hr]
    refine .watching fun hw => .of_eq ?_
    rw [ha.searchable hr hw, Renaming.finding_givesIf]
    rfl
  · have hoperands := (ha.specialOf hl op.special?).orElse (ha.specialOf hr op.reflected?)
    -- only two operands that are neither unknown nor built in ask the graph
    cases l <;> cases r <;>
      first
        | exact hoperands
        | exact .of_eq (ρ.finding_ofKind? _).symm
        | exact unknownOperand _
        | exact .of_eq rfl

theorem unary (hT : Known C F t) (op : UnaryOp) :
    Follows ρ W (g.unary op t) (h.unary op (ρ.ty t)) := by
  cases t with
  | base k => cases op <;> first | exact .of_eq rfl | exact .of_eq (ρ.finding_ofKind? _).symm
  | instanceOf c => cases op <;> first | exact .of_eq rfl | exact ha.special hT _
  | _ => cases op <;> exact .of_eq rfl

theorem role? (hf : F f) : h.role? (ρ.ofFunction f) = g.role? f := by
  unfold Graph.role?
  rw [ha.function? f hf]
  rcases g.function? f with - | info <;> rfl

theorem throughInstance (hT : Known C F t) :
    Follows ρ W (g.throughInstance t) (h.throughInstance (ρ.ty t)) := by
  cases t with
  | function f =>
    simp only [Graph.throughInstance, Renaming.ty]
    rw [ha.role? hT]
    split
    · exact .of_eq rfl
    · exact ha.returned hT
    · exact .of_eq rfl
  | _ => exact .of_eq rfl

theorem throughClass (hT : Known C F t) :
    Follows ρ W (g.throughClass t) (h.throughClass (ρ.ty t)) := by
  cases t with
  | function f =>
    simp only [Graph.throughClass, Renaming.ty]
    rw [ha.role? hT]
    split <;> exact .of_eq rfl
  | _ => exact .of_eq rfl

/-- An attribute of anything but a module. -/
theorem attributeOf (hT : Known C F t) (hno : ∀ m, t ≠ .moduleObject m) (attr : String) :
    Follows ρ W (g.attributeOf attr t) (h.attributeOf attr (ρ.ty t)) := by
  cases t with
  | instanceOf c =>
    refine ha.watchingClass hT fun hmember hopen => ?_
    rw [hmember, hopen]
    rcases g.member? c attr with - | member
    · exact .ite (.of_eq rfl) (.ite (.of_eq rfl) (.of_eq (ρ.finding_givesIf _ .any).symm))
    · exact ha.viewed fun _ => ha.throughInstance
  | classObject c =>
    refine ha.watchingClass hT fun hmember hopen => ?_
    rw [hmember, hopen]
    rcases g.member? c attr with - | member
    · exact .ite (.of_eq rfl) (.of_eq (ρ.finding_givesIf _ .any).symm)
    · exact ha.viewed fun _ => ha.throughClass
  | moduleObject m => exact absurd rfl (hno m)
  | base k => exact .ite (.of_eq rfl) (.of_eq (ρ.finding_givesIf _ (.builtinType k)).symm)
  | _ => exact .of_eq rfl

theorem element (hT : Known C F t) : Follows ρ W (g.element t) (h.element (ρ.ty t)) := by
  cases t with
  | base k => cases k <;> exact .of_eq rfl
  | instanceOf c =>
    -- both branches watch the class, so its table is the same whichever is taken
    intro hw
    have hclass : ∀ n ∈ g.classNodes c, W n := by
      intro n hn
      refine hw n ?_
      simp only [Graph.element]
      split <;> exact Finding.mem_watched_watching.2 (.inl hn)
    have hmember := (ha.tables c hT hclass).1
    revert hw
    show Follows ρ W _ _
    simp only [Graph.element, Renaming.ty, hasMember, hmember, Option.isSome_map]
    exact .ite (ha.watchingClass hT fun _ _ => .of_eq rfl) (ha.special hT _)
  | classObject c =>
    refine ha.watchingClass hT fun _ hopen => .of_eq ?_
    rw [hopen]
    exact (ρ.finding_givesIf _ .any).symm
  | _ => exact .of_eq rfl

theorem item (hT : Known C F t) (sliced plain : Bool) :
    Follows ρ W (g.item sliced plain t) (h.item sliced plain (ρ.ty t)) := by
  cases t with
  | base k => cases k <;> cases sliced <;> cases plain <;> exact .of_eq rfl
  | instanceOf c => exact ha.special hT _
  | classObject c =>
    refine ha.watchingClass hT fun hmember hopen => .of_eq ?_
    rw [hasMember, hasMember, hmember, hopen, Option.isSome_map, Renaming.finding_givesIf]
    rfl
  | _ => exact .of_eq rfl

theorem incomingTypes {i : Incoming} (hi : ∀ n, i = .value n → W n) :
    h.incomingTypes (ρ.incoming i) = ρ.types (g.incomingTypes i) := by
  cases i with
  | value n => exact ha.types n (hi n rfl)
  | unbound =>
    simp only [Graph.incomingTypes, Renaming.incoming, ha.unboundAsNone]
    split <;> rfl

end Alike

/-! ### What a rule finds depends on what it reads -/

/-- A rule whose reads are all watched: neither a call nor an attribute of a module, and no rule
that changes tables. -/
def IsValue (g : Graph) : Rule → Prop
  | .plain _ | .merge _ | .binary .. | .unary .. | .iterate _ | .subscript .. => True
  | .read object _ => ∀ m, .moduleObject m ∉ g.types object
  | .call .. | .write .. | .members _ => False

/-- The nodes that a rule reads: its sources and what its finding watches. -/
def Reads (g : Graph) (r : Rule) (w : NodeId) : Prop :=
  w ∈ r.sources ∨ ∃ f, g.find? r = some f ∧ w ∈ f.watched

theorem flatMap_map_eq (as bs : List Ty) (F : Ty → Ty → Finding) :
    (as.flatMap fun l => bs.map fun r => F l r) = (as.product bs).map fun p => F p.1 p.2 := by
  simp only [List.product, map_flatMap, map_map, Function.comp_def]

theorem forEach_follows {ρ : Renaming} {op' : Ty → Finding}
    (h : ∀ t ∈ types, Follows ρ W (op t) (op' (ρ.ty t)))
    (hw : ∀ f, forEach types op = some f → ∀ w ∈ f.watched, W w) :
    forEach (ρ.types types) op' = (forEach types op).map ρ.finding := by
  unfold forEach at hw ⊢
  rw [Renaming.isEmpty_types]
  split
  · rfl
  · next hne =>
    rw [if_neg hne] at hw
    exact congrArg some (Follows.join h (hw _ rfl))

/-- **What a rule finds depends on what it reads**: a graph that looks alike from all nodes that a
rule reads gives it the same finding, under new numbers. -/
theorem Alike.find? {ρ : Renaming} {C : ClassId → Prop} {F : FunctionId → Prop} {h : Graph}
    (ha : Alike ρ W C F g h) (hr : g.IsValue r) (hsource : ∀ s ∈ r.sources, W s)
    (hwatched : ∀ f, g.find? r = some f → ∀ w ∈ f.watched, W w) :
    h.find? (ρ.rule r) = (g.find? r).map ρ.finding := by
  have htypes : ∀ s ∈ r.sources, h.types (ρ.node s) = ρ.types (g.types s) :=
    fun s hs => ha.types s (hsource s hs)
  cases r with
  | plain inputs =>
    have hinputs : ∀ i ∈ inputs, h.types (ρ.node i) = ρ.types (g.types i) := htypes
    exact congrArg (some ∘ Finding.gives) (ρ.types_foldl_union hinputs .empty)
  | merge incoming =>
    refine congrArg (some ∘ Finding.gives) (ρ.types_foldl_union (fun i hi => ?_) .empty)
    refine ha.incomingTypes fun n hn => hsource n (mem_filterMap.2 ⟨i, hi, ?_⟩)
    rw [hn]
  | binary op left right =>
    have hl := htypes left (by simp [Rule.sources])
    have hr' := htypes right (by simp [Rule.sources])
    simp only [Graph.find?, Renaming.rule, hl, hr', Renaming.isEmpty_types, Renaming.toList_types]
      at hwatched ⊢
    split
    · rfl
    · next hne =>
      rw [if_neg hne] at hwatched
      have hpairs : ((g.types left).toList.map ρ.ty).flatMap
          (fun l => ((g.types right).toList.map ρ.ty).map fun r => h.binary op l r) =
            (((g.types left).toList.product (g.types right).toList).map (Prod.map ρ.ty ρ.ty)).map
              fun p => h.binary op p.1 p.2 := by
        simp only [List.product, flatMap_map, map_flatMap, map_map, Function.comp_def, Prod.map]
      rw [flatMap_map_eq] at hwatched
      rw [hpairs, flatMap_map_eq]
      refine congrArg some (Follows.join (fun p hp => ?_) (hwatched _ rfl))
      obtain ⟨hlm, hrm⟩ := mem_product.1 hp
      exact ha.binary (ha.known left p.1 hlm) (ha.known right p.2 hrm) op
  | unary op operand =>
    simp only [Graph.find?, Renaming.rule, htypes operand (mem_singleton_self _)] at hwatched ⊢
    exact forEach_follows (fun t ht => ha.unary (ha.known operand t ht) op) hwatched
  | read object attr =>
    simp only [Graph.find?, Renaming.rule, htypes object (mem_singleton_self _)] at hwatched ⊢
    refine forEach_follows (fun t ht => ?_) hwatched
    exact ha.attributeOf (ha.known object t ht) (fun m hm => hr m (hm ▸ ht)) attr
  | iterate source =>
    simp only [Graph.find?, Renaming.rule, htypes source (mem_singleton_self _)] at hwatched ⊢
    exact forEach_follows (fun t ht => ha.element (ha.known source t ht)) hwatched
  | subscript value index =>
    have hplain : ((g.types index).toList.map ρ.ty).any (· ≠ .slice) =
        (g.types index).toList.any (· ≠ .slice) := by
      rw [any_map]
      congr 1
      funext t
      cases t <;> rfl
    have hv := htypes value (by simp [Rule.sources])
    have hi := htypes index (by simp [Rule.sources])
    simp only [Graph.find?, Renaming.rule, hv, hi, Renaming.isEmpty_types,
      Renaming.contains_slice_types, Renaming.toList_types, hplain] at hwatched ⊢
    exact forEach_follows (fun t ht => ha.item (ha.known value t ht) _ _) hwatched
  | call callee args => exact absurd hr not_false
  | write object attr value | members c => rfl

/-! ### Agreement of two graphs -/

/-- Two graphs look the same from the nodes in `W`: the sets there are the same, and so are the
tables of the classes whose nodes are among them. -/
structure Agree (g g' : Graph) (W : NodeId → Prop) : Prop where
  types : ∀ w, W w → g'.types w = g.types w
  classNodes : ∀ c : ClassId, c.index < g.classes.size → g'.classNodes c = g.classNodes c
  tables : ∀ c info, g.class? c = some info → W info.node →
    g'.member? c = g.member? c ∧ g'.anyBased c = g.anyBased c
  functions : ∀ f : FunctionId, f.index < g.functions.size → g'.function? f = g.function? f
  unboundAsNone : g'.unboundAsNone = g.unboundAsNone

theorem Agree.alike (h : Agree g g' W) (hex : g.TypesExist) :
    Alike .id W (·.index < g.classes.size) (·.index < g.functions.size) g g' where
  types w hw := by simpa using h.types w hw
  known w t ht := by
    have hT := hex w t ht
    cases t <;> first | exact hT | trivial
  classNodes c hc := (h.classNodes c hc).trans (map_id _).symm
  tables c hc hw := by
    obtain ⟨info, hinfo⟩ := class?_isSome hc
    have hnode : W info.node := hw _ (by simp [classNodes_eq hinfo])
    obtain ⟨hmember, hopen⟩ := h.tables c info hinfo hnode
    exact ⟨fun name => (congrFun hmember name).trans Option.map_id'.symm, hopen⟩
  function? f hf := (h.functions f hf).trans (by simp)
  unboundAsNone := h.unboundAsNone

/-- Under the same numbers. -/
theorem find?_agree (hex : g.TypesExist) (hr : g.IsValue r) (h : Agree g g' (g.Reads r)) :
    g'.find? r = g.find? r := by
  simpa using (h.alike hex).find? hr (fun _ => .inl) fun f hf _ hw => .inr ⟨f, hf, hw⟩

/-! ### Types that a rule can find -/

/-- A property of types that rules cannot leave: it holds of `any`, of kinds and of what kinds have,
and with a type it holds of the types that a rule may pass to from there. -/
structure Closed (g : Graph) (P : Ty → Prop) : Prop where
  any : P .any
  base : ∀ k, P (.base k)
  builtinType : ∀ k, P (.builtinType k)
  builtinMethod : ∀ k attr, (Builtin.method? k attr).isSome = true → P (.builtinMethod k attr)
  classObject : ∀ c, P (.instanceOf c) → P (.classObject c)
  instanceOf : ∀ c, P (.classObject c) → P (.instanceOf c)
  method : ∀ f, P (.function f) → P (.method f)
  submodule : ∀ m info name sub, g.module? m = some info → info.submodules.get? name = some sub →
    P (.moduleObject sub)

/-- All sets of a graph are in such a `P`, and the nodes that its tables lead to are in `N`. -/
structure Supplies (g : Graph) (P : Ty → Prop) (N : NodeId → Prop) : Prop extends Closed g P where
  types : ∀ id t, t ∈ g.types id → P t
  classNodes : ∀ c, ∀ n ∈ g.classNodes c, N n
  members : ∀ c name member, g.member? c name = some member → N member.node
  functions : ∀ f info, g.function? f = some info → N info.returns
  exports : ∀ m info name node, g.module? m = some info → info.exports.get? name = some node → N node

namespace Supplies

variable {P : Ty → Prop} {N : NodeId → Prop} (h : Supplies g P N) {args : List Argument} {t : Ty}
  {k : Kind}

include h

theorem returned (f : FunctionId) : Within P N (g.returned f) := by
  unfold Graph.returned
  split
  · next info hinfo => exact ⟨h.types _, fun w hw => mem_singleton.1 hw ▸ h.functions f info hinfo⟩
  · exact .empty

theorem viewed (hview : ∀ t, P t → Within P N (view t))
    (hmember : N member) : Within P N (g.viewed view member) := by
  refine .watching (.succeeding (.join fun t ht => ?_)) fun n hn => mem_singleton.1 hn ▸ hmember
  exact hview t (h.types member t ht)

theorem returnedBy (hmember : N member) : Within P N (g.returnedBy member) := by
  refine h.viewed (fun t _ => ?_) hmember
  split
  · exact h.returned _
  · exact h.returned _
  · exact .givesType h.any

theorem special (c : ClassId) (name : String) : Within P N (g.special c name) := by
  refine .watching ?_ (h.classNodes c)
  split
  · next member hmember => exact h.returnedBy (h.members c name member hmember)
  · exact .givesIf h.any

theorem specialOf (name? : Option String) (t : Ty) : Within P N (g.specialOf name? t) := by
  unfold Graph.specialOf
  split
  · split
    · exact h.special _ _
    · exact .empty
  · exact .empty

theorem unknownOperand (ks : KindSet) : Within P N (Graph.unknownOperand ks) := by
  refine .ite (.givesType h.any) (.gives fun t ht => ?_)
  rw [TypeSet.ofKinds, TypeSet.mem_ofList, mem_map] at ht
  obtain ⟨k, -, rfl⟩ := ht
  exact h.base k

theorem ofKind? (o : Option Kind) : Within P N (.ofOption (o.map .base)) := by
  refine .ofOption fun t ht => ?_
  obtain ⟨k, -, rfl⟩ := Option.map_eq_some_iff.1 ht
  exact h.base k

theorem decidingNodes (t : Ty) : ∀ n ∈ g.decidingNodes t, N n := by
  unfold Graph.decidingNodes
  split
  · exact h.classNodes _
  · exact h.classNodes _
  · exact fun n hn => nomatch hn

theorem binary (op : BinaryOp) (l r : Ty) : Within P N (g.binary op l r) := by
  unfold Graph.binary
  refine .ite (.givesType (h.base _)) (.ite (.watching (.givesIf (h.base _)) (h.decidingNodes r)) ?_)
  split
  · exact h.ofKind? _
  · exact h.unknownOperand _
  · exact h.unknownOperand _
  · exact .givesType h.any
  · exact .givesType h.any
  · exact .ite (h.specialOf _ _) (.or (h.specialOf _ _) (h.specialOf _ _))

theorem unary (op : UnaryOp) (t : Ty) : Within P N (g.unary op t) := by
  unfold Graph.unary
  split
  · exact .givesType (h.base _)
  · exact h.ofKind? _
  · exact .givesType h.any
  · exact h.special _ _
  · exact .empty

theorem throughInstance (ht : P t) : Within P N (g.throughInstance t) := by
  unfold Graph.throughInstance
  split
  · split
    · exact .givesType ht
    · exact h.returned _
    · exact .givesType (h.method _ ht)
  · exact .givesType ht

theorem throughClass (ht : P t) : Within P N (g.throughClass t) := by
  unfold Graph.throughClass
  split
  · split
    · exact .givesType (h.method _ ht)
    · exact .givesType h.any
    · exact .givesType ht
  · exact .givesType ht

theorem moduleAttribute (m : ModuleId) (attr : String) : Within P N (g.moduleAttribute m attr) := by
  unfold Graph.moduleAttribute
  split
  · exact .empty
  · next info hinfo =>
    split
    · next node hnode =>
      refine .watching (.gives (h.types node)) fun n hn => ?_
      rw [mem_singleton.1 hn]
      exact h.exports m info attr node hinfo hnode
    · split
      · next sub hsub => exact .givesType (h.submodule m info attr sub hinfo hsub)
      · exact .givesIf (h.base _)

theorem attributeOf (attr : String) (ht : P t) : Within P N (g.attributeOf attr t) := by
  unfold Graph.attributeOf
  split
  · next c =>
    refine .watching ?_ (h.classNodes c)
    split
    · next member hmember => exact h.viewed (fun _ => h.throughInstance) (h.members c attr member hmember)
    · exact .ite (.givesType (h.classObject c ht)) (.ite (.givesType (h.base _)) (.givesIf h.any))
  · next c =>
    refine .watching ?_ (h.classNodes c)
    split
    · next member hmember => exact h.viewed (fun _ => h.throughClass) (h.members c attr member hmember)
    · exact .ite (.givesType (h.base _)) (.givesIf h.any)
  · exact h.moduleAttribute _ attr
  · split
    · next hmethod => exact .givesType (h.builtinMethod _ _ hmethod)
    · exact .givesIf (h.builtinType _)
  · exact .givesType h.any

theorem callFunction (args : List Argument) (bound : Bool) (f : FunctionId) :
    Within P N (g.callFunction args bound f) := by
  unfold Graph.callFunction
  split
  · exact .empty
  · next info hinfo =>
    have hwatched : ∀ w ∈ [info.returns], N w := fun w hw => mem_singleton.1 hw ▸ h.functions f info hinfo
    exact .ite ⟨h.types _, hwatched⟩ ⟨fun t ht => absurd ht (TypeSet.not_mem_empty t), hwatched⟩

theorem callClass (args : List Argument) (hc : P (.classObject c)) :
    Within P N (g.callClass args c) := by
  refine .watching ?_ (h.classNodes c)
  split
  · next init hinit =>
    refine .watching (.ite (.givesType (h.instanceOf c hc)) .empty) fun n hn => ?_
    rcases mem_cons.1 hn with rfl | hn
    · exact h.members c _ init hinit
    · obtain ⟨call, hcall, hn⟩ := mem_flatMap.1 hn
      obtain ⟨f, -, rfl⟩ := mem_map.1 hcall
      exact (h.callFunction args true f).watched n hn
  · exact .ite (.givesType (h.instanceOf c hc)) .empty

theorem callInstance (args : List Argument) (c : ClassId) : Within P N (g.callInstance args c) := by
  refine .watching ?_ (h.classNodes c)
  split
  · next call hcall =>
    have hfound : Within P N (.join ((g.types call.node).toList.map (g.callMember args))) := by
      refine .join fun t _ => ?_
      unfold Graph.callMember
      split
      · exact h.callFunction args true _
      · exact .givesType h.any
    exact .watching (.ite hfound.succeeding hfound) fun n hn => mem_singleton.1 hn ▸ h.members c _ call hcall
  · exact .givesIf h.any

theorem returns {r : Builtin.Returns} {first : Option TypeSet}
    (hfirst : ∀ s, first = some s → ∀ t ∈ s, P t) : ∀ t ∈ r.types first, P t := by
  cases r with
  | kind k => exact fun t ht => TypeSet.mem_single.1 ht ▸ h.base k
  | firstArgument =>
    cases first with
    | none => exact fun t ht => TypeSet.mem_single.1 ht ▸ h.any
    | some s => exact hfirst s rfl
  | any => exact fun t ht => TypeSet.mem_single.1 ht ▸ h.any

theorem callBuiltin (hargs : ∀ a ∈ args, N a.value) (name : String) :
    Within P N (g.callBuiltin args name) := by
  unfold Graph.callBuiltin
  split
  · exact .givesType h.any
  · refine .ite (.watching (.gives (h.returns fun s hs => ?_)) fun n hn => ?_) .empty
    · obtain ⟨hmap, -⟩ := Option.filter_eq_some_iff.1 hs
      obtain ⟨n, -, rfl⟩ := Option.map_eq_some_iff.1 hmap
      exact h.types n
    · obtain ⟨a, ha, rfl⟩ := mem_map.1 (mem_of_mem_head? (Option.mem_toList.1 hn))
      exact hargs a (mem_filter.1 ha).1

theorem call (hargs : ∀ a ∈ args, N a.value) (ht : P t) : Within P N (g.call args t) := by
  cases t with
  | any | builtinClass name => exact .givesType h.any
  | function f => exact h.callFunction args false f
  | method f => exact h.callFunction args true f
  | classObject c => exact h.callClass args ht
  | instanceOf c => exact h.callInstance args c
  | builtinFunction name => exact h.callBuiltin hargs name
  | builtinType k => exact .ite (.givesType (h.base k)) .empty
  | builtinMethod k name => exact .gives (h.returns fun s hs => nomatch hs)
  | _ => exact .empty

theorem element? (ht : k.element? = some t) : P t := by
  cases k <;> simp only [Kind.element?, Option.some.injEq, reduceCtorEq] at ht <;> subst ht <;>
    first | exact h.base _ | exact h.any

theorem subscript? {sliced : Bool} (ht : k.subscript? sliced = some t) : P t := by
  cases k <;> cases sliced <;>
    simp only [Kind.subscript?, Option.some.injEq, reduceCtorEq] at ht <;> subst ht <;>
    first | exact h.base _ | exact h.any

theorem element (t : Ty) : Within P N (g.element t) := by
  unfold Graph.element
  split
  · exact .ofOption fun _ => h.element?
  · exact .givesType h.any
  · exact .ite (.watching (.givesType h.any) (h.classNodes _)) (h.special _ _)
  · exact .watching (.givesIf h.any) (h.classNodes _)
  · exact .empty

theorem item (sliced plain : Bool) (t : Ty) : Within P N (g.item sliced plain t) := by
  unfold Graph.item
  split
  · exact .or (.ite (.ofOption fun _ => h.subscript?) .empty) (.ite (.ofOption fun _ => h.subscript?) .empty)
  · exact .givesType h.any
  · exact .givesType h.any
  · exact .givesType h.any
  · exact h.special _ _
  · exact .watching (.givesIf h.any) (h.classNodes _)
  · exact .empty

end Supplies

theorem mem_foldl_union {α : Type} {F : α → TypeSet} {as : List α} :
    t ∈ as.foldl (fun s a => s.union (F a)) s ↔ t ∈ s ∨ ∃ a ∈ as, t ∈ F a := by
  induction as generalizing s with
  | nil => simp
  | cons a as ih =>
    rw [foldl_cons, ih, TypeSet.mem_union, or_assoc]
    simp only [mem_cons, exists_eq_or_imp]

theorem mem_types_forEach (hf : forEach types op = some f) :
    t ∈ f.types ↔ ∃ u ∈ types, t ∈ (op u).types := by
  unfold forEach at hf
  split at hf
  · exact absurd hf (by simp)
  · cases hf
    rw [Finding.mem_types_join]
    simp only [mem_map, exists_exists_and_eq_and, TypeSet.mem_def]

theorem isEmpty_eq_false_of_mem {s : TypeSet} (h : t ∈ s) : s.isEmpty = false := by
  rw [TypeSet.isEmpty, isEmpty_eq_false_iff_exists_mem]
  exact ⟨t, h⟩

theorem exists_forEach :
    (∃ f, forEach types op = some f ∧ t ∈ f.types) ↔ ∃ u ∈ types, t ∈ (op u).types := by
  constructor
  · rintro ⟨f, hf, ht⟩
    exact (mem_types_forEach hf).1 ht
  · rintro ⟨u, hu, ht⟩
    have hf : forEach types op = some (.join (types.toList.map op)) := by
      rw [forEach, isEmpty_eq_false_of_mem hu]
      rfl
    exact ⟨_, hf, (mem_types_forEach hf).2 ⟨u, hu, ht⟩⟩

theorem within_forEach (h : ∀ t ∈ types, Within P N (op t))
    (hf : forEach types op = some f) : Within P N f := by
  unfold forEach at hf
  split at hf
  · cases hf
  · cases hf
    exact .join h

/-- **Rules make nothing up**: a rule finds and watches what the graph supplies it with. -/
theorem Supplies.find? (h : Supplies g P N)
    (hargs : ∀ callee args, r = .call callee args → ∀ a ∈ args, N a.value)
    (hf : g.find? r = some f) : Within P N f := by
  cases r with
  | plain inputs =>
    cases hf
    refine .gives fun t ht => ?_
    rcases mem_foldl_union.1 ht with ht | ⟨i, -, ht⟩
    · exact absurd ht (TypeSet.not_mem_empty t)
    · exact h.types i t ht
  | merge incoming =>
    cases hf
    refine .gives fun t ht => ?_
    rcases mem_foldl_union.1 ht with ht | ⟨i, -, ht⟩
    · exact absurd ht (TypeSet.not_mem_empty t)
    · cases i with
      | value n => exact h.types n t ht
      | unbound =>
        simp only [incomingTypes] at ht
        split at ht
        · exact TypeSet.mem_single.1 ht ▸ h.base _
        · exact absurd ht (TypeSet.not_mem_empty t)
  | binary op left right =>
    simp only [Graph.find?] at hf
    split at hf
    · cases hf
    · cases hf
      rw [flatMap_map_eq]
      exact .join fun p _ => h.binary op p.1 p.2
  | unary op operand => exact within_forEach (fun t _ => h.unary op t) hf
  | read object attr => exact within_forEach (fun t ht => h.attributeOf attr (h.types object t ht)) hf
  | call callee args =>
    exact within_forEach (fun t ht => h.call (hargs callee args rfl) (h.types callee t ht)) hf
  | iterate source => exact within_forEach (fun t _ => h.element t) hf
  | subscript value index => exact within_forEach (fun t _ => h.item _ _ t) hf
  | write object attr value | members c => cases hf

/-- What holds of all sets and cannot be left holds of all that a rule finds. -/
theorem find?_closed (h : Closed g P) (hall : ∀ id t, t ∈ g.types id → P t)
    (hf : g.find? r = some f) (ht : t ∈ f.types) : P t := by
  have hsupplies : Supplies g P fun _ => True :=
    ⟨h, hall, fun _ _ _ => trivial, fun _ _ _ _ => trivial, fun _ _ _ => trivial, fun _ _ _ _ _ _ => trivial⟩
  exact (hsupplies.find? (fun _ _ _ _ _ => trivial) hf).types t ht

end Graph

end FlowTyping
