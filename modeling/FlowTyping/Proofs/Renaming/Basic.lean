/-
Other numbers for the nodes, classes, functions and modules of a graph.

Nodes may be renamed in any way that keeps them apart; classes, functions and modules keep their
order as well, so that a set of types is listed in the same order under its new numbers
(`before_ty`), and renaming a set is renaming its list.  Everything that holds numbers is renamed
number by number.  Renaming commutes with the operations on sets (`types_union`), with tables
(`get?_mapValues`) and with the binding of arguments (`bind?_renamed`).
-/
import FlowTyping.Graph.Change
import FlowTyping.Graph.Rule
import FlowTyping.Proofs.Table

namespace FlowTyping

open List

/-! ### Tables -/

namespace Table

variable {κ α β : Type}

/-- The same keys in the same order, with other values. -/
def mapValues (f : α → β) (t : Table κ α) : Table κ β := ⟨t.entries.map fun e => (e.1, f e.2)⟩

variable [DecidableEq κ]

@[simp]
theorem get?_mapValues (f : α → β) (t : Table κ α) (key : κ) :
    (t.mapValues f).get? key = (t.get? key).map f := find?_map_snd f key t.entries

@[simp]
theorem contains_mapValues (f : α → β) (t : Table κ α) (key : κ) :
    (t.mapValues f).contains key = t.contains key := by simp [contains]

theorem put_map_snd (f : α → β) (key : κ) (a : α) (es : List (κ × α)) :
    (put key a es).map (fun e => (e.1, f e.2)) = put key (f a) (es.map fun e => (e.1, f e.2)) := by
  induction es with
  | nil => rfl
  | cons e es ih =>
    obtain ⟨k, b⟩ := e
    simp only [put, map_cons]
    split
    · rfl
    · rw [map_cons, ih]

theorem mapValues_insert (f : α → β) (t : Table κ α) (key : κ) (a : α) :
    (t.insert key a).mapValues f = (t.mapValues f).insert key (f a) :=
  congrArg Table.mk (put_map_snd f key a t.entries)

theorem mapValues_insertNew (f : α → β) (t : Table κ α) (key : κ) (a : α) :
    (t.insertNew key a).mapValues f = (t.mapValues f).insertNew key (f a) := by
  unfold insertNew
  rw [contains_mapValues, ← mapValues_insert]
  split <;> rfl

end Table

/-! ### Renamings -/

structure Renaming where
  nodes : Nat → Nat
  classes : Nat → Nat
  functions : Nat → Nat
  modules : Nat → Nat
  nodes_injective : Function.Injective nodes
  classes_strictMono : StrictMono classes
  functions_strictMono : StrictMono functions
  modules_strictMono : StrictMono modules

namespace Renaming

variable (ρ : Renaming) {t u : Ty} {a : NodeId} {s : TypeSet}

def node (id : NodeId) : NodeId := ⟨ρ.nodes id.index⟩

def ofClass (c : ClassId) : ClassId := ⟨ρ.classes c.index⟩

def ofFunction (f : FunctionId) : FunctionId := ⟨ρ.functions f.index⟩

def ofModule (m : ModuleId) : ModuleId := ⟨ρ.modules m.index⟩

theorem node_injective : Function.Injective ρ.node := by
  intro a b h
  obtain ⟨i⟩ := a
  obtain ⟨j⟩ := b
  exact congrArg NodeId.mk (ρ.nodes_injective (NodeId.mk.inj h))

theorem ofClass_injective : Function.Injective ρ.ofClass := by
  intro a b h
  obtain ⟨i⟩ := a
  obtain ⟨j⟩ := b
  exact congrArg ClassId.mk (ρ.classes_strictMono.injective (ClassId.mk.inj h))

@[simp]
theorem node_inj {b : NodeId} : ρ.node a = ρ.node b ↔ a = b := ρ.node_injective.eq_iff

@[simp]
theorem ofClass_inj {c d : ClassId} : ρ.ofClass c = ρ.ofClass d ↔ c = d := ρ.ofClass_injective.eq_iff

@[simp]
theorem mem_map_node {as : List NodeId} : ρ.node a ∈ as.map ρ.node ↔ a ∈ as :=
  mem_map_of_injective ρ.node_injective

/-! ### Types -/

def ty : Ty → Ty
  | .any => .any
  | .base k => .base k
  | .slice => .slice
  | .classObject c => .classObject (ρ.ofClass c)
  | .instanceOf c => .instanceOf (ρ.ofClass c)
  | .function f => .function (ρ.ofFunction f)
  | .method f => .method (ρ.ofFunction f)
  | .moduleObject m => .moduleObject (ρ.ofModule m)
  | .builtinFunction name => .builtinFunction name
  | .builtinType k => .builtinType k
  | .builtinClass name => .builtinClass name
  | .builtinMethod k name => .builtinMethod k name

@[simp]
theorem tag_ty (t : Ty) : (ρ.ty t).tag = t.tag := by cases t <;> rfl

@[simp]
theorem label_ty (t : Ty) : (ρ.ty t).label = t.label := by cases t <;> rfl

@[simp]
theorem kind?_ty (t : Ty) : (ρ.ty t).kind? = t.kind? := by cases t <;> rfl

theorem number_ty_lt (h : t.tag = u.tag) :
    (ρ.ty t).number < (ρ.ty u).number ↔ t.number < u.number := by
  cases t <;> cases u <;> simp only [Ty.tag] at h <;> try exact absurd h (by decide)
  case classObject.classObject => exact ρ.classes_strictMono.lt_iff_lt
  case instanceOf.instanceOf => exact ρ.classes_strictMono.lt_iff_lt
  case function.function => exact ρ.functions_strictMono.lt_iff_lt
  case method.method => exact ρ.functions_strictMono.lt_iff_lt
  case moduleObject.moduleObject => exact ρ.modules_strictMono.lt_iff_lt
  all_goals exact Iff.rfl

theorem number_ty_eq (h : t.tag = u.tag) :
    (ρ.ty t).number = (ρ.ty u).number ↔ t.number = u.number := by
  have hless := ρ.number_ty_lt h
  have hmore := ρ.number_ty_lt h.symm
  omega

/-- **Types come in the same order under their new numbers.** -/
theorem before_ty (t u : Ty) : (ρ.ty t).before (ρ.ty u) = t.before u := by
  rw [Bool.eq_iff_iff, Ty.before_iff, Ty.before_iff, ρ.tag_ty, ρ.tag_ty, ρ.label_ty, ρ.label_ty]
  by_cases h : t.tag = u.tag
  · rw [ρ.number_ty_lt h, ρ.number_ty_eq h]
  · simp only [h, false_and, or_false]

theorem ty_injective : Function.Injective ρ.ty := by
  intro t u h
  have htag : t.tag = u.tag := by rw [← ρ.tag_ty t, h, ρ.tag_ty]
  have hlabel : t.label = u.label := by rw [← ρ.label_ty t, h, ρ.label_ty]
  exact Ty.eq_of_keys htag ((ρ.number_ty_eq htag).1 (by rw [h])) hlabel

@[simp]
theorem ty_inj : ρ.ty t = ρ.ty u ↔ t = u := ρ.ty_injective.eq_iff

/-! ### Sets of types -/

def types (s : TypeSet) : TypeSet where
  toList := s.toList.map ρ.ty
  ascending := by
    rw [pairwise_map]
    simp only [before_ty]
    exact s.ascending

@[simp]
theorem toList_types (s : TypeSet) : (ρ.types s).toList = s.toList.map ρ.ty := rfl

theorem mem_types : u ∈ ρ.types s ↔ ∃ t ∈ s, ρ.ty t = u := mem_map

@[simp]
theorem ty_mem_types : ρ.ty t ∈ ρ.types s ↔ t ∈ s :=
  mem_map_of_injective ρ.ty_injective

@[simp]
theorem types_single (t : Ty) : ρ.types (.single t) = .single (ρ.ty t) := rfl

@[simp]
theorem types_union (s t : TypeSet) : ρ.types (s.union t) = (ρ.types s).union (ρ.types t) := by
  ext u
  simp only [mem_types, TypeSet.mem_union, or_and_right, exists_or]

@[simp]
theorem types_ofKinds (ks : KindSet) : ρ.types (.ofKinds ks) = .ofKinds ks := by
  ext u
  simp only [mem_types, TypeSet.ofKinds, TypeSet.mem_ofList, mem_map]
  constructor
  · rintro ⟨t, ⟨k, hk, rfl⟩, rfl⟩
    exact ⟨k, hk, rfl⟩
  · rintro ⟨k, hk, rfl⟩
    exact ⟨.base k, ⟨k, hk, rfl⟩, rfl⟩

@[simp]
theorem isEmpty_types (s : TypeSet) : (ρ.types s).isEmpty = s.isEmpty := by
  simp [TypeSet.isEmpty]

theorem contains_types (s : TypeSet) (t : Ty) : (ρ.types s).contains (ρ.ty t) = s.contains t := by
  rw [Bool.eq_iff_iff, TypeSet.contains_iff, TypeSet.contains_iff, ty_mem_types]

@[simp]
theorem hasAny_types (s : TypeSet) : (ρ.types s).hasAny = s.hasAny := ρ.contains_types s .any

@[simp]
theorem contains_slice_types (s : TypeSet) : (ρ.types s).contains .slice = s.contains .slice :=
  ρ.contains_types s .slice

@[simp]
theorem isSubset_types (s t : TypeSet) : (ρ.types s).isSubset (ρ.types t) = s.isSubset t := by
  rw [Bool.eq_iff_iff, TypeSet.isSubset_iff, TypeSet.isSubset_iff]
  constructor
  · exact fun h u hu => ρ.ty_mem_types.1 (h _ (ρ.ty_mem_types.2 hu))
  · intro h u hu
    obtain ⟨v, hv, rfl⟩ := ρ.mem_types.1 hu
    exact ρ.ty_mem_types.2 (h v hv)

@[simp]
theorem kinds?_types (s : TypeSet) : (ρ.types s).kinds? = s.kinds? := by
  have hlist : ∀ ts : List Ty, (ts.map ρ.ty).mapM Ty.kind? = ts.mapM Ty.kind? := by
    intro ts
    induction ts with
    | nil => rfl
    | cons t ts ih => rw [map_cons, mapM_cons, mapM_cons, kind?_ty, ih]
  rw [TypeSet.kinds?, TypeSet.kinds?, toList_types, hlist]

theorem types_presented (s : TypeSet) : ρ.types s.presented = (ρ.types s).presented := by
  unfold TypeSet.presented
  rw [isEmpty_types, kinds?_types]
  split <;> rfl

/-! ### Parts of a graph -/

def argument (a : Argument) : Argument := { a with value := ρ.node a.value }

def param (p : Param) : Param := { p with node := ρ.node p.node }

def incoming : Incoming → Incoming
  | .value node => .value (ρ.node node)
  | .unbound => .unbound

def rule : Rule → Rule
  | .plain inputs => .plain (inputs.map ρ.node)
  | .merge values => .merge (values.map ρ.incoming)
  | .binary op left right => .binary op (ρ.node left) (ρ.node right)
  | .unary op operand => .unary op (ρ.node operand)
  | .read object attr => .read (ρ.node object) attr
  | .write object attr value => .write (ρ.node object) attr (ρ.node value)
  | .call callee args => .call (ρ.node callee) (args.map ρ.argument)
  | .iterate source => .iterate (ρ.node source)
  | .subscript value index => .subscript (ρ.node value) (ρ.node index)
  | .members owner => .members (ρ.ofClass owner)

def member (m : Member) : Member := { m with node := ρ.node m.node }

def classInfo (info : ClassInfo) : ClassInfo where
  name := info.name
  node := ρ.node info.node
  bases := info.bases.map ρ.node
  members := info.members.mapValues ρ.member
  anyBased := info.anyBased
  linked := info.linked.map (Prod.map ρ.node ρ.node)

def functionInfo (info : FunctionInfo) : FunctionInfo where
  name := info.name
  params := info.params.map ρ.param
  returns := ρ.node info.returns
  role := info.role
  line := info.line

def moduleInfo (info : ModuleInfo) : ModuleInfo where
  name := info.name
  exports := info.exports.mapValues ρ.node
  submodules := info.submodules.mapValues ρ.ofModule

/-- Every number is kept. -/
protected def id : Renaming :=
  ⟨fun n => n, fun n => n, fun n => n, fun n => n, Function.injective_id, strictMono_id, strictMono_id, strictMono_id⟩

@[simp]
theorem node_id : Renaming.id.node = id := rfl

@[simp]
theorem ofClass_id : Renaming.id.ofClass = id := rfl

@[simp]
theorem ofModule_id : Renaming.id.ofModule = id := rfl

@[simp]
theorem ty_id : Renaming.id.ty = id := by
  funext t
  cases t <;> rfl

@[simp]
theorem types_id : Renaming.id.types = id := by
  funext s
  ext t
  simp [mem_types]

@[simp]
theorem incoming_id : Renaming.id.incoming = id := by
  funext i
  cases i <;> rfl

@[simp]
theorem rule_id (r : Rule) : Renaming.id.rule r = r := by
  cases r with
  | call callee args => exact congrArg (Rule.call callee) (map_id args)
  | _ => simp [rule]

@[simp]
theorem classInfo_id : Renaming.id.classInfo = id := by
  funext info
  simp [classInfo, Table.mapValues, member]

@[simp]
theorem functionInfo_id : Renaming.id.functionInfo = id := by
  funext info
  simp [functionInfo, show Renaming.id.param = id from rfl]

@[simp]
theorem moduleInfo_id : Renaming.id.moduleInfo = id := by
  funext info
  simp [moduleInfo, Table.mapValues]

theorem incoming_injective : Function.Injective ρ.incoming := by
  intro a b h
  cases a <;> cases b <;> simp_all [incoming]

theorem sources_rule (r : Rule) : (ρ.rule r).sources = r.sources.map ρ.node := by
  cases r with
  | merge values =>
    simp only [rule, Rule.sources, filterMap_map, map_filterMap]
    congr 1
    funext value
    cases value <;> rfl
  | call callee args => simp [rule, Rule.sources, argument, Function.comp_def]
  | _ => rfl

/-! ### Binding of arguments -/

open Signature

theorem positional_renamed (params : List Param) (bound : Bool) :
    positional (params.map ρ.param) bound = (positional params bound).map ρ.param := by
  simp only [positional, map_drop, filter_map]
  rfl

theorem has_renamed (mode : ParamMode) (params : List Param) :
    has mode (params.map ρ.param) = has mode params := by
  simp only [has, any_map]
  rfl

/-- The same progress, with the pairs under their new numbers. -/
def progress (p : Progress) : Progress :=
  { p with pairs := p.pairs.map (Prod.map ρ.node ρ.node) }

theorem take?_renamed (params positional : List Param) (p : Progress) (arg : Argument) :
    take? (params.map ρ.param) (positional.map ρ.param) (ρ.progress p) (ρ.argument arg) =
      (take? params positional p arg).map ρ.progress := by
  have hindex : ∀ name : String, (positional.map ρ.param).findIdx? (·.name = name) =
      positional.findIdx? (·.name = name) := fun name => by
    rw [List.findIdx?_map]
    rfl
  have hkeyword : ∀ name : String,
      (params.map ρ.param).find? (fun q => q.mode = .keywordOnly ∧ q.name = name) =
        (params.find? fun q => q.mode = .keywordOnly ∧ q.name = name).map ρ.param := fun name => by
    rw [List.find?_map]
    rfl
  unfold take?
  rw [show (ρ.argument arg).passing = arg.passing from rfl]
  rcases arg.passing with - | name | - | -
  · simp only [List.getElem?_map, ρ.has_renamed, show (ρ.progress p).next = p.next from rfl]
    rcases positional[p.next]? with - | param
    · simp only [Option.map_none]
      split <;> rfl
    · simp [progress, argument, Renaming.param]
  · simp only [hindex, hkeyword, ρ.has_renamed, List.getElem?_map,
      show (ρ.progress p).filled = p.filled from rfl,
      show (ρ.progress p).keywords = p.keywords from rfl]
    generalize List.findIdx? _ positional = position
    generalize List.find? _ params = keyword
    rcases position with - | i
    · rcases keyword with - | param
      · dsimp only [Option.map_none]
        split <;> rfl
      · dsimp only [Option.map_some]
        split
        · rfl
        · simp [progress, argument, Renaming.param]
    · dsimp only
      split
      · rfl
      · rcases positional[i]? with - | param <;> simp [progress, argument, Renaming.param]
  · rfl
  · rfl

theorem takeAll?_renamed (params positional : List Param) (p : Progress) (args : List Argument) :
    takeAll? (params.map ρ.param) (positional.map ρ.param) (ρ.progress p) (args.map ρ.argument) =
      (takeAll? params positional p args).map ρ.progress := by
  induction args generalizing p with
  | nil => rfl
  | cons arg args ih =>
    rw [map_cons, takeAll?, takeAll?, ρ.take?_renamed]
    rcases take? params positional p arg with - | q
    · rfl
    · exact ih q

theorem missingPositional_renamed (positional : List Param) (p : Progress) :
    missingPositional (positional.map ρ.param) (ρ.progress p) = missingPositional positional p := by
  simp only [missingPositional, zipIdx_map, any_map]
  rfl

theorem missingKeyword_renamed (params : List Param) (p : Progress) :
    missingKeyword (params.map ρ.param) (ρ.progress p) = missingKeyword params p := by
  simp only [missingKeyword, any_map]
  rfl

/-- **Arguments meet the same parameters under their new numbers.** -/
theorem bind?_renamed (params : List Param) (args : List Argument) (bound : Bool) :
    bind? (params.map ρ.param) (args.map ρ.argument) bound =
      (bind? params args bound).map (List.map (Prod.map ρ.node ρ.node)) := by
  have hall := ρ.takeAll?_renamed params (Signature.positional params bound) .start args
  rw [show ρ.progress .start = .start from rfl] at hall
  simp only [bind?, ρ.positional_renamed, hall]
  rcases takeAll? params (Signature.positional params bound) .start args with - | p
  · rfl
  · simp only [Option.map_some, ρ.missingPositional_renamed, ρ.missingKeyword_renamed]
    rw [show (ρ.progress p).unpacked = p.unpacked from rfl,
      show (ρ.progress p).unpackedMapping = p.unpackedMapping from rfl]
    split
    · rfl
    · split <;> rfl

end Renaming

end FlowTyping
