/-
What a rule finds under new numbers.

A graph mirrors another one under a renaming if at every new number it has what the other one has at
the old number, renamed; it may hold much more.  Every query that starts from a new number answers
in a mirror what the same query answers in the original, renamed, up to what a rule finds (`find?`)
and what is reported about it (`issue?`).
-/
import FlowTyping.Graph.Check
import FlowTyping.Proofs.Graph.Finding
import FlowTyping.Proofs.Graph.Subclass

namespace FlowTyping

open List

/-! ### Mirrors -/

namespace Graph

/-- What the first graph has at a number, the second one has at the new number. -/
structure Mirror (ρ : Renaming) (g h : Graph) : Prop where
  types : ∀ id, h.types (ρ.node id) = ρ.types (g.types id)
  class? : ∀ c, h.class? (ρ.ofClass c) = (g.class? c).map ρ.classInfo
  function? : ∀ f, h.function? (ρ.ofFunction f) = (g.function? f).map ρ.functionInfo
  module? : ∀ m, h.module? (ρ.ofModule m) = (g.module? m).map ρ.moduleInfo
  unboundAsNone : h.unboundAsNone = g.unboundAsNone

namespace Mirror

variable {ρ : Renaming} {g h : Graph}

section

variable (hm : Mirror ρ g h)
include hm

theorem bases (c : ClassId) : h.bases (ρ.ofClass c) = (g.bases c).map ρ.node := by
  unfold Graph.bases
  rw [hm.class?]
  rcases g.class? c with - | info <;> rfl

theorem anyBased (c : ClassId) : h.anyBased (ρ.ofClass c) = g.anyBased c := by
  unfold Graph.anyBased
  rw [hm.class?]
  rcases g.class? c with - | info <;> rfl

theorem member? (c : ClassId) (name : String) :
    h.member? (ρ.ofClass c) name = (g.member? c name).map ρ.member := by
  unfold Graph.member?
  rw [hm.class?]
  rcases g.class? c with - | info
  · rfl
  · exact Table.get?_mapValues _ _ _

theorem classNodes (c : ClassId) : h.classNodes (ρ.ofClass c) = (g.classNodes c).map ρ.node := by
  unfold Graph.classNodes
  rw [hm.class?]
  rcases g.class? c with - | info <;> rfl

theorem parents (c : ClassId) : h.parents (ρ.ofClass c) = (g.parents c).map ρ.ofClass := by
  unfold Graph.parents
  rw [hm.bases, flatMap_map, map_flatMap]
  congr 1
  funext base
  rw [hm.types, Renaming.toList_types, filterMap_map, map_filterMap]
  congr 1
  funext t
  cases t <;> rfl

/-! ### Attributes -/

omit hm in
theorem known_everywhere (t : Ty) : Known (fun _ => True) (fun _ => True) t := by cases t <;> trivial

/-- All of a mirror looks alike. -/
theorem alike : Alike ρ (fun _ => True) (fun _ => True) (fun _ => True) g h where
  types id _ := hm.types id
  known _ t _ := known_everywhere t
  classNodes c _ := hm.classNodes c
  tables c _ _ := ⟨hm.member? c, hm.anyBased c⟩
  function? f _ := hm.function? f
  unboundAsNone := hm.unboundAsNone

theorem moduleAttribute (m : ModuleId) (attr : String) :
    h.moduleAttribute (ρ.ofModule m) attr = ρ.finding (g.moduleAttribute m attr) := by
  unfold Graph.moduleAttribute
  rw [hm.module?]
  rcases g.module? m with - | info
  · rfl
  · simp only [Option.map_some, Renaming.moduleInfo, Table.get?_mapValues]
    rcases info.exports.get? attr with - | node
    · rcases info.submodules.get? attr with - | sub
      · exact (ρ.finding_givesIf _ (.base .str)).symm
      · rfl
    · simp [hm.types]

theorem attributeOf (attr : String) (t : Ty) :
    h.attributeOf attr (ρ.ty t) = ρ.finding (g.attributeOf attr t) := by
  cases t with
  | moduleObject m => exact hm.moduleAttribute m attr
  | _ => exact hm.alike.attributeOf (known_everywhere _) (by simp) attr fun _ _ => trivial

/-! ### Calls -/

theorem isSubclass (derived base : ClassId) :
    h.isSubclass (ρ.ofClass derived) (ρ.ofClass base) = g.isSubclass derived base := by
  rw [Bool.eq_iff_iff, Graph.isSubclass_iff (g := g), hasBase_eq, Graph.isSubclass, Search.reaches_iff]
  refine Search.reaches_index_iff (f := fun c => (ρ.ofClass c).index) (fun c c' hc => ?_) fun c => ?_
  · exact congrArg ClassId.mk (ρ.classes_strictMono.injective hc)
  · rw [Graph.successors_parents, hm.parents, map_map]
    rfl

theorem accepts (expected given : Ty) :
    h.accepts (ρ.ty expected) (ρ.ty given) = g.accepts expected given := by
  unfold Graph.accepts
  simp only [Renaming.ty_inj]
  split
  · rfl
  · cases expected with
    | instanceOf base =>
      cases given with
      | instanceOf derived => exact hm.isSubclass derived base
      | _ => rfl
    | base k =>
      cases given with
      | base k' => cases k <;> cases k' <;> rfl
      | _ => cases k <;> rfl
    | function f | method f => cases given <;> rfl
    | _ => rfl

theorem compatible (argument parameter : NodeId) :
    h.compatible (ρ.node argument) (ρ.node parameter) = g.compatible argument parameter := by
  unfold Graph.compatible
  simp [hm.types, hm.accepts, any_map, Function.comp_def]

theorem callFunction (args : List Argument) (bound : Bool) (f : FunctionId) :
    h.callFunction (args.map ρ.argument) bound (ρ.ofFunction f) =
      ρ.finding (g.callFunction args bound f) := by
  unfold Graph.callFunction
  rw [hm.function?]
  rcases g.function? f with - | info
  · rfl
  · simp only [Option.map_some, Renaming.functionInfo, ρ.bind?_renamed, hm.types]
    rcases Signature.bind? info.params args bound with - | pairs
    · rfl
    · have hall : ((pairs.map (Prod.map ρ.node ρ.node)).all fun p => h.compatible p.1 p.2) =
          pairs.all fun p => g.compatible p.1 p.2 := by
        simp only [all_map, Function.comp_def, Prod.map_fst, Prod.map_snd, hm.compatible]
      simp only [Option.map_some, hall]
      split <;> rfl

omit hm in
theorem functionsOf_types (ρ : Renaming) (types : TypeSet) :
    functionsOf (ρ.types types) = (functionsOf types).map ρ.ofFunction := by
  unfold functionsOf
  rw [Renaming.toList_types, filterMap_map, map_filterMap]
  congr 1
  funext t
  cases t <;> rfl

theorem callClass (args : List Argument) (c : ClassId) :
    h.callClass (args.map ρ.argument) (ρ.ofClass c) = ρ.finding (g.callClass args c) := by
  have hmake : ∀ accepted : Bool,
      (if accepted then Finding.givesType (.instanceOf (ρ.ofClass c)) else ⟨.empty, [], .mismatched⟩) =
        ρ.finding (if accepted then .givesType (.instanceOf c) else ⟨.empty, [], .mismatched⟩) := by
    rintro (- | -) <;> rfl
  unfold Graph.callClass
  simp only [hm.classNodes, hm.member?, hm.anyBased, Renaming.finding_watching]
  congr 1
  rcases g.member? c "__init__" with - | init
  · simp only [Option.map_none, isEmpty_map]
    exact hmake _
  · have hcalls : (functionsOf (h.types (ρ.member init).node)).map
        (h.callFunction (args.map ρ.argument) true) =
          ((functionsOf (g.types init.node)).map (g.callFunction args true)).map ρ.finding := by
      rw [show (ρ.member init).node = ρ.node init.node from rfl, hm.types, functionsOf_types,
        map_map, map_map]
      exact map_congr_left fun f _ => hm.callFunction args true f
    simp only [Option.map_some, hcalls]
    generalize (functionsOf (g.types init.node)).map (g.callFunction args true) = calls
    rw [Renaming.finding_watching, ← hmake, isEmpty_map, any_map, map_cons,
      flatMap_map, map_flatMap]
    rfl

theorem callMember (args : List Argument) (t : Ty) :
    h.callMember (args.map ρ.argument) (ρ.ty t) = ρ.finding (g.callMember args t) := by
  cases t with
  | function f => exact hm.callFunction args true f
  | _ => rfl

theorem callInstance (args : List Argument) (c : ClassId) :
    h.callInstance (args.map ρ.argument) (ρ.ofClass c) = ρ.finding (g.callInstance args c) := by
  unfold Graph.callInstance
  rw [hm.classNodes, hm.member?, hm.anyBased, Renaming.finding_watching]
  congr 1
  rcases g.member? c "__call__" with - | member
  · exact (ρ.finding_givesIf _ .any).symm
  · simp only [Option.map_some, Renaming.member, hm.types, Renaming.finding_watching,
      Renaming.isEmpty_types, Renaming.toList_types, map_map, map_cons, map_nil]
    congr 1
    rw [show h.callMember (args.map ρ.argument) ∘ ρ.ty = ρ.finding ∘ g.callMember args from
      funext (hm.callMember args), ← map_map, ← Renaming.finding_join]
    split <;> rfl

omit hm in
theorem positionalArguments_renamed (ρ : Renaming) (args : List Argument) :
    positionalArguments (args.map ρ.argument) = (positionalArguments args).map ρ.node := by
  unfold positionalArguments
  rw [filter_map, map_map, map_map]
  rfl

omit hm in
theorem returns_types (ρ : Renaming) (r : Builtin.Returns) (first : Option TypeSet) :
    r.types (first.map ρ.types) = ρ.types (r.types first) := by
  cases r with
  | kind k | any => rfl
  | firstArgument => cases first <;> rfl

theorem callBuiltin (args : List Argument) (name : String) :
    h.callBuiltin (args.map ρ.argument) name = ρ.finding (g.callBuiltin args name) := by
  unfold Graph.callBuiltin
  rcases Builtin.function? name with - | function
  · rfl
  · have hunpacked : ((args.map ρ.argument).any
        fun a => a.passing = .unpacked || a.passing = .unpackedMapping) =
          args.any fun a => a.passing = .unpacked || a.passing = .unpackedMapping := by
      rw [any_map]
      rfl
    have hfirst : (((positionalArguments args).map ρ.node).head?.map h.types).filter
        (fun s => !s.isEmpty) =
          (((positionalArguments args).head?.map g.types).filter fun s => !s.isEmpty).map ρ.types := by
      rcases positionalArguments args with - | ⟨a, as⟩
      · rfl
      · simp only [map_cons, List.head?_cons, Option.map_some, hm.types, Option.filter,
          Renaming.isEmpty_types]
        split <;> rfl
    simp only [hunpacked, positionalArguments_renamed, length_map, hfirst, returns_types]
    split
    · rw [Renaming.finding_watching, Renaming.finding_gives]
      rcases positionalArguments args with - | ⟨a, as⟩ <;> rfl
    · rfl

theorem call (args : List Argument) (t : Ty) :
    h.call (args.map ρ.argument) (ρ.ty t) = ρ.finding (g.call args t) := by
  cases t with
  | function f => exact hm.callFunction args false f
  | method f => exact hm.callFunction args true f
  | classObject c => exact hm.callClass args c
  | instanceOf c => exact hm.callInstance args c
  | builtinFunction name => exact hm.callBuiltin args name
  | builtinType k =>
    simp only [Graph.call, Renaming.ty, positionalArguments_renamed, length_map]
    split <;> rfl
  | builtinMethod k name => exact congrArg Finding.gives (returns_types ρ _ none)
  | _ => rfl

/-! ### Rules -/

/-- **A rule finds the same under new numbers.** -/
theorem find? (r : Rule) : h.find? (ρ.rule r) = (g.find? r).map ρ.finding := by
  cases r with
  | read object attr =>
    simp only [Graph.find?, Renaming.rule, hm.types]
    exact forEach_follows (fun t _ => .of_eq (hm.attributeOf attr t)) fun _ _ _ _ => trivial
  | call callee args =>
    simp only [Graph.find?, Renaming.rule, hm.types]
    exact forEach_follows (fun t _ => .of_eq (hm.call args t)) fun _ _ _ _ => trivial
  | write object attr value | members c => rfl
  | _ => exact hm.alike.find? trivial (fun _ _ => trivial) fun _ _ _ _ => trivial

/-! ### Texts -/

theorem describe (t : Ty) : h.describe (ρ.ty t) = g.describe t := by
  have hclass : ∀ c, describe.className h (ρ.ofClass c) = describe.className g c := by
    intro c
    unfold describe.className
    rw [hm.class?, Option.map_map]
    rfl
  have hfunction : ∀ f, describe.functionName h (ρ.ofFunction f) = describe.functionName g f := by
    intro f
    unfold describe.functionName
    rw [hm.function?, Option.map_map]
    rfl
  cases t with
  | classObject c | instanceOf c => simp only [Graph.describe, Renaming.ty, hclass]
  | function f | method f => simp only [Graph.describe, Renaming.ty, hfunction]
  | moduleObject m =>
    simp only [Graph.describe, Renaming.ty]
    rw [hm.module?, Option.map_map]
    rfl
  | _ => rfl

theorem typeNames (id : NodeId) : h.typeNames (ρ.node id) = g.typeNames id := by
  unfold Graph.typeNames Graph.presented
  rw [hm.types, ← ρ.types_presented, Renaming.toList_types, map_map]
  congr 1
  exact map_congr_left fun t _ => hm.describe t

theorem render (id : NodeId) : h.render (ρ.node id) = g.render id := by
  rw [Graph.render, Graph.render, hm.typeNames]

/-! ### Issues -/

theorem support? (r : Rule) : h.support? (ρ.rule r) = g.support? r := by
  rw [Graph.support?, Graph.support?, hm.find?, Option.map_map]
  rfl

theorem fails (r : Rule) : h.fails (ρ.rule r) = g.fails r := by
  rw [Graph.fails, Graph.fails, hm.support?]

theorem nonIntegerIndex (value index : NodeId) :
    h.nonIntegerIndex (ρ.node value) (ρ.node index) = g.nonIntegerIndex value index := by
  unfold Graph.nonIntegerIndex
  simp only [hm.types, Renaming.isEmpty_types, Renaming.toList_types, all_map, any_map]
  congr 1
  · congr 2
    funext t
    cases t <;> rfl
  · congr 2
    funext t
    cases t <;> rfl

theorem canBeBase (base : NodeId) : h.canBeBase (ρ.node base) = g.canBeBase base := by
  unfold Graph.canBeBase
  simp only [hm.types, Renaming.isEmpty_types, Renaming.toList_types, any_map]
  congr 2
  funext t
  cases t <;> rfl

/-- **The same issue is found with a rule under new numbers.** -/
theorem issue? (r : Rule) : h.issue? (ρ.rule r) = g.issue? r := by
  have hfails := hm.fails r
  have hsupport := hm.support? r
  cases r with
  | members c =>
    simp only [Graph.issue?, Renaming.rule]
    rw [hm.bases, List.find?_map, Option.map_map]
    simp only [Function.comp_def, hm.canBeBase, hm.render]
  | plain inputs | merge values | write object attr value => rfl
  | binary op left right | unary op operand | read object attr | iterate source =>
    simp only [Renaming.rule] at hfails
    simp only [Graph.issue?, Renaming.rule, hfails, hm.render]
  | call callee args =>
    simp only [Renaming.rule] at hsupport
    simp only [Graph.issue?, Renaming.rule, hsupport, hm.render]
  | subscript value index =>
    simp only [Renaming.rule] at hfails
    simp only [Graph.issue?, Renaming.rule, hfails, hm.render, hm.nonIntegerIndex]

end

/-! ### What the bases of a class offer -/

end Mirror

def Offer.renamed (ρ : Renaming) (o : Offer) : Offer := { o with node := ρ.node o.node }

namespace Mirror

variable {ρ : Renaming} {g h : Graph}

theorem offersOf (hm : Mirror ρ g h) (c : ClassId) (position : Nat) (t : Ty) :
    h.offersOf (ρ.ofClass c) position (ρ.ty t) = (g.offersOf c position t).map (Offer.renamed ρ) := by
  cases t with
  | classObject parent =>
    simp only [Graph.offersOf, Renaming.ty, Renaming.ofClass_inj, hm.class?]
    by_cases hparent : parent = c
    · simp [hparent]
    · simp only [if_neg hparent]
      rcases g.class? parent with - | info
      · rfl
      · simp only [Option.map_some, Renaming.classInfo, Table.mapValues, map_map]
        rfl
  | _ => rfl

theorem offers (hm : Mirror ρ g h) (c : ClassId) :
    h.offers (ρ.ofClass c) = (g.offers c).map (Offer.renamed ρ) := by
  unfold Graph.offers
  rw [hm.bases, zipIdx_map, flatMap_map, map_flatMap]
  congr 1
  funext e
  obtain ⟨base, position⟩ := e
  show ((h.types (ρ.node base)).toList.flatMap _) = _
  rw [hm.types, Renaming.toList_types, flatMap_map, map_flatMap]
  congr 1
  funext t
  exact hm.offersOf c position t

theorem leavesOpen (hm : Mirror ρ g h) (c : ClassId) (t : Ty) :
    h.leavesOpen (ρ.ofClass c) (ρ.ty t) = g.leavesOpen c t := by
  cases t with
  | classObject parent => simp [Graph.leavesOpen, Renaming.ty, hm.anyBased]
  | _ => rfl

end Mirror

end Graph

end FlowTyping
