/-
Two analyses of one module, side by side.

The same module may be analysed over two different graphs, and then it gets other numbers for its
nodes, classes and functions.  Which numbers belong together is a pairing, and it grows while the
two analyses go on.  A twin is a pair of contexts with a relation between the graphs of the two
sides: requests that are paired keep it, and whatever the analysis reads off the graphs is paired or
the same.  Nodes that something may be put into are paired as receivers; a twin need not pair a
shared constant with anything as a receiver, and then no walk ever puts anything into one.

The judgement is `Twin.Leads`: started in states whose parts are paired, two steps leave such states
and results that belong together.  Most steps stay in the scopes where they are (`Twin.Sim`), and
the others report something (`Twin.Says`).  Both sides count how often they ask for something that
is not there, and the counts are to stay at zero.
-/
import FlowTyping.Inference.Definition
import FlowTyping.Proofs.Renaming.Request

namespace FlowTyping

open FlowTyping.Graph (Request)

/-! ### Pairings -/

/-- Which numbers of two analyses belong together. -/
structure Pairing where
  node : NodeId → NodeId → Prop
  /-- Nodes that something may be put into. -/
  receiver : NodeId → NodeId → Prop
  ofClass : ClassId → ClassId → Prop
  ofFunction : FunctionId → FunctionId → Prop
  ofModule : ModuleId → ModuleId → Prop

/-- A type that names no class, function or module of the program. -/
def Ty.IsFixed : Ty → Prop
  | .classObject _ | .instanceOf _ | .function _ | .method _ | .moduleObject _ => False
  | _ => True

/-- Tables with related keys in the same order, whose values are related. -/
def Table.Related {κ κ' α β : Type} (K : κ → κ' → Prop) (R : α → β → Prop) (t : Table κ α) (u : Table κ' β) : Prop :=
  List.Forall₂ (fun e f => K e.1 f.1 ∧ R e.2 f.2) t.entries u.entries

/-- Tables with the same keys in the same order, whose values are related. -/
def Table.Match {κ α β : Type} (R : α → β → Prop) (t : Table κ α) (u : Table κ β) : Prop := t.Related Eq R u

/-- Arrays of the same size, whose entries are related. -/
structure ArrayMatch {α β : Type} (R : α → β → Prop) (xs : Array α) (ys : Array β) : Prop where
  size : ys.size = xs.size
  get : ∀ i : Nat, Option.Rel R xs[i]? ys[i]?

/-- Every number, paired with its new one. -/
def Renaming.pairs (ρ : Renaming) : Pairing :=
  ⟨fun i j => ρ.node i = j, fun i j => ρ.node i = j, fun c d => ρ.ofClass c = d,
    fun f k => ρ.ofFunction f = k, fun m n => ρ.ofModule m = n⟩

/-- Lists whose members are related to their images only. -/
theorem map_of_forall₂ {α β : Type} {R : α → β → Prop} {f : α → β} {as : List α} {bs : List β}
    (h : List.Forall₂ R as bs) (hR : ∀ {a b}, R a b → f a = b) : as.map f = bs := by
  induction h with
  | nil => rfl
  | cons hab _ ih => rw [List.map_cons, hR hab, ih]

namespace Pairing

/-- What belongs together goes on doing so. -/
structure Grows (w w' : Pairing) : Prop where
  node : ∀ {a b}, w.node a b → w'.node a b
  receiver : ∀ {a b}, w.receiver a b → w'.receiver a b
  ofClass : ∀ {c d}, w.ofClass c d → w'.ofClass c d
  ofFunction : ∀ {f k}, w.ofFunction f k → w'.ofFunction f k
  ofModule : ∀ {m n}, w.ofModule m n → w'.ofModule m n

theorem Grows.refl (w : Pairing) : w.Grows w :=
  ⟨fun h => h, fun h => h, fun h => h, fun h => h, fun h => h⟩

theorem Grows.trans {w w' w'' : Pairing} (h : w.Grows w') (h' : w'.Grows w'') : w.Grows w'' :=
  ⟨fun ha => h'.node (h.node ha), fun ha => h'.receiver (h.receiver ha),
    fun ha => h'.ofClass (h.ofClass ha), fun ha => h'.ofFunction (h.ofFunction ha),
    fun ha => h'.ofModule (h.ofModule ha)⟩

variable (w : Pairing)

inductive TyMatch : Ty → Ty → Prop
  | fixed {t : Ty} (h : t.IsFixed) : TyMatch t t
  | classObject {c d : ClassId} (h : w.ofClass c d) : TyMatch (.classObject c) (.classObject d)
  | instanceOf {c d : ClassId} (h : w.ofClass c d) : TyMatch (.instanceOf c) (.instanceOf d)
  | function {f k : FunctionId} (h : w.ofFunction f k) : TyMatch (.function f) (.function k)
  | method {f k : FunctionId} (h : w.ofFunction f k) : TyMatch (.method f) (.method k)
  | moduleObject {m n : ModuleId} (h : w.ofModule m n) : TyMatch (.moduleObject m) (.moduleObject n)

structure ArgumentMatch (a b : Argument) : Prop where
  value : w.node a.value b.value
  passing : a.passing = b.passing

structure ParamMatch (p q : Param) : Prop where
  name : p.name = q.name
  node : w.receiver p.node q.node
  mode : p.mode = q.mode
  hasDefault : p.hasDefault = q.hasDefault

structure FunctionMatch (i j : FunctionInfo) : Prop where
  name : i.name = j.name
  params : List.Forall₂ w.ParamMatch i.params j.params
  returns : w.receiver i.returns j.returns
  role : i.role = j.role
  line : i.line = j.line

inductive IncomingMatch : Incoming → Incoming → Prop
  | value {a b : NodeId} (h : w.node a b) : IncomingMatch (.value a) (.value b)
  | unbound : IncomingMatch .unbound .unbound

/-- The same rule, up to the nodes in it.  The rule of a class comes with the class, and a merge
starts with nothing coming in. -/
inductive RuleMatch : Rule → Rule → Prop
  | plain {as bs : List NodeId} (h : List.Forall₂ w.node as bs) : RuleMatch (.plain as) (.plain bs)
  | merge : RuleMatch (.merge []) (.merge [])
  | binary {a b a' b' : NodeId} (op : BinaryOp) (h : w.node a a') (h' : w.node b b') :
      RuleMatch (.binary op a b) (.binary op a' b')
  | unary {a a' : NodeId} (op : UnaryOp) (h : w.node a a') : RuleMatch (.unary op a) (.unary op a')
  | read {a a' : NodeId} (attr : String) (h : w.node a a') : RuleMatch (.read a attr) (.read a' attr)
  | write {a b a' b' : NodeId} (attr : String) (h : w.node a a') (h' : w.node b b') :
      RuleMatch (.write a attr b) (.write a' attr b')
  | call {a a' : NodeId} {as bs : List Argument} (h : w.node a a')
      (hargs : List.Forall₂ w.ArgumentMatch as bs) : RuleMatch (.call a as) (.call a' bs)
  | iterate {a a' : NodeId} (h : w.node a a') : RuleMatch (.iterate a) (.iterate a')
  | subscript {a b a' b' : NodeId} (h : w.node a a') (h' : w.node b b') :
      RuleMatch (.subscript a b) (.subscript a' b')

inductive RequestMatch : Request → Request → Prop
  | add {r r' : Rule} (h : w.RuleMatch r r') (line : Nat) :
      RequestMatch (.add r line) (.add r' line)
  | constant {t t' : Ty} (h : w.TyMatch t t') : RequestMatch (.constant t) (.constant t')
  | addToMerge {a b : NodeId} {as bs : List Incoming} (h : w.node a b)
      (hvalues : List.Forall₂ w.IncomingMatch as bs) :
      RequestMatch (.addToMerge a as) (.addToMerge b bs)
  | addInput {a b a' b' : NodeId} (h : w.receiver a a') (hinput : w.node b b') :
      RequestMatch (.addInput a b) (.addInput a' b')
  | seed {a b : NodeId} {ts us : TypeSet} (h : w.receiver a b)
      (htypes : List.Forall₂ w.TyMatch ts.toList us.toList) : RequestMatch (.seed a ts) (.seed b us)
  | addClass (name : String) (line : Nat) : RequestMatch (.addClass name line) (.addClass name line)
  | setBases {c d : ClassId} {as bs : List NodeId} (h : w.ofClass c d)
      (hbases : List.Forall₂ w.node as bs) : RequestMatch (.setBases c as) (.setBases d bs)
  | addOwnMember {c d : ClassId} {a b : NodeId} (h : w.ofClass c d) (name : String)
      (hnode : w.receiver a b) : RequestMatch (.addOwnMember c name a) (.addOwnMember d name b)
  | addFunction {i j : FunctionInfo} (h : w.FunctionMatch i j) :
      RequestMatch (.addFunction i) (.addFunction j)
  | setExport {m n : ModuleId} {a b : NodeId} (h : w.ofModule m n) (name : String)
      (hnode : w.receiver a b) : RequestMatch (.setExport m name a) (.setExport n name b)

/-- The numbers that two requests answer belong together. -/
def Answered (g h : Graph) : Request → Request → Prop
  | .add .., .add .. => w.receiver g.next h.next
  | .constant t, .constant u => w.node (g.constant t).1 (h.constant u).1
  | .addClass .., .addClass .. => w.ofClass ⟨g.classes.size⟩ ⟨h.classes.size⟩
  | .addFunction _, .addFunction _ => w.ofFunction ⟨g.functions.size⟩ ⟨h.functions.size⟩
  | _, _ => True

end Pairing

/-! ### Parts of states -/

namespace Pairing

open Inference

variable (w : Pairing)

inductive TargetMatch : ImportTarget → ImportTarget → Prop
  | module {m n : ModuleId} (h : w.ofModule m n) : TargetMatch (.module m) (.module n)
  | cyclic : TargetMatch .cyclic .cyclic
  | missing : TargetMatch .missing .missing

inductive KindMatch : ScopeKind → ScopeKind → Prop
  | module : KindMatch .module .module
  | classBody {c d : ClassId} (h : w.ofClass c d) : KindMatch (.classBody c) (.classBody d)
  | functionBody {f k : FunctionId} (h : w.ofFunction f k) :
      KindMatch (.functionBody f) (.functionBody k)

/-- What a scope binds may be written to; loops and frames are only read. -/
structure ScopeMatch (s t : Scope) : Prop where
  kind : w.KindMatch s.kind t.kind
  versions : t.versions = s.versions
  bindings : Table.Match w.receiver s.bindings t.bindings
  summaries : Table.Match w.receiver s.summaries t.summaries
  loops : Table.Match w.node s.loops t.loops
  frames : List.Forall₂ (Table.Match w.node) s.frames t.frames

/-- The same scopes on both sides, with the given versions. -/
structure ScopesMatch (versions : List Versions) (ss ts : Array Scope) : Prop extends
    ArrayMatch w.ScopeMatch ss ts where
  versions : ss.toList.map (·.versions) = versions

structure UnknownsMatch (u v : Unknowns) : Prop where
  params : List.Forall₂ w.receiver u.params v.params
  domains : v.domains = u.domains
  size : u.domains.size = u.params.length

/-- The same unknown parameters on both sides.  What the tables have are the places of parameters
that are among them. -/
structure StacksMatch (us vs : Array Unknowns) (es fs : Table NodeId Slot) : Prop extends
    ArrayMatch w.UnknownsMatch us vs where
  slots : es.Related w.node Eq fs
  placed : ∀ e ∈ es.entries, ∃ u, us[e.2.function]? = some u ∧ u.params[e.2.position]? = some e.1

structure ConstructorMatch (c d : Constructor) : Prop where
  owner : w.ofClass c.owner d.owner
  returns : w.receiver c.returns d.returns
  line : c.line = d.line

end Pairing

/-! ### Growth -/

theorem Table.Match.mono {κ α β : Type} {R S : α → β → Prop} {t : Table κ α} {u : Table κ β}
    (h : t.Match R u) (hRS : ∀ {a b}, R a b → S a b) : t.Match S u :=
  List.Forall₂.imp (fun _ _ he => ⟨he.1, hRS he.2⟩) h

namespace ArrayMatch

variable {α β : Type} {R S : α → β → Prop} {xs : Array α} {ys : Array β} (h : ArrayMatch R xs ys)
include h

theorem mono (hRS : ∀ {a b}, R a b → S a b) : ArrayMatch S xs ys :=
  ⟨h.size, fun i => optionRel_imp (h.get i) hRS⟩

theorem back? : Option.Rel R xs.back? ys.back? := by
  rw [Array.back?_eq_getElem?, Array.back?_eq_getElem?, h.size]
  exact h.get _

theorem push {x : α} {y : β} (hxy : R x y) : ArrayMatch R (xs.push x) (ys.push y) where
  size := by rw [Array.size_push, Array.size_push, h.size]
  get i := by
    rw [Array.getElem?_push, Array.getElem?_push, h.size]
    split
    · exact .some hxy
    · exact h.get i

theorem pop : ArrayMatch R xs.pop ys.pop where
  size := by rw [Array.size_pop, Array.size_pop, h.size]
  get i := by
    rw [Array.getElem?_pop, Array.getElem?_pop, h.size]
    split
    · exact h.get i
    · exact .none

theorem modify {f : α → α} {k : β → β} (hf : ∀ {x y}, R x y → R (f x) (k y)) (i : Nat) :
    ArrayMatch R (xs.modify i f) (ys.modify i k) where
  size := by rw [Array.size_modify, Array.size_modify, h.size]
  get j := by
    rw [Array.getElem?_modify, Array.getElem?_modify]
    split
    · exact optionRel_cases (h.get j) .none fun hxy => .some (hf hxy)
    · exact h.get j

end ArrayMatch

namespace Pairing

open Inference

variable {w w' : Pairing} {i j : FunctionInfo} {ss ts : Array Scope} {vs : List Versions}
  {a b : ScopeKind} {r r' : Request} {p q : Param} {t u : Ty}

section

variable (hw : w.Grows w')
include hw

theorem TyMatch.mono (h : w.TyMatch t u) : w'.TyMatch t u := by
  cases h with
  | fixed h => exact .fixed h
  | classObject h => exact .classObject (hw.ofClass h)
  | instanceOf h => exact .instanceOf (hw.ofClass h)
  | function h => exact .function (hw.ofFunction h)
  | method h => exact .method (hw.ofFunction h)
  | moduleObject h => exact .moduleObject (hw.ofModule h)

theorem ArgumentMatch.mono {a b : Argument} (h : w.ArgumentMatch a b) :
    w'.ArgumentMatch a b := ⟨hw.node h.value, h.passing⟩

theorem ParamMatch.mono (h : w.ParamMatch p q) :
    w'.ParamMatch p q := ⟨h.name, hw.receiver h.node, h.mode, h.hasDefault⟩

theorem FunctionMatch.mono (h : w.FunctionMatch i j) : w'.FunctionMatch i j :=
  ⟨h.name, h.params.imp fun _ _ hp => hp.mono hw, hw.receiver h.returns, h.role, h.line⟩

theorem IncomingMatch.mono {a b : Incoming} (h : w.IncomingMatch a b) : w'.IncomingMatch a b := by
  cases h with
  | value h => exact .value (hw.node h)
  | unbound => exact .unbound

theorem RuleMatch.mono {r r' : Rule} (h : w.RuleMatch r r') : w'.RuleMatch r r' := by
  cases h with
  | plain h => exact .plain (h.imp fun _ _ ha => hw.node ha)
  | merge => exact .merge
  | binary op h h' => exact .binary op (hw.node h) (hw.node h')
  | unary op h => exact .unary op (hw.node h)
  | read attr h => exact .read attr (hw.node h)
  | write attr h h' => exact .write attr (hw.node h) (hw.node h')
  | call h hargs => exact .call (hw.node h) (hargs.imp fun _ _ ha => ha.mono hw)
  | iterate h => exact .iterate (hw.node h)
  | subscript h h' => exact .subscript (hw.node h) (hw.node h')

theorem RequestMatch.mono (h : w.RequestMatch r r') : w'.RequestMatch r r' := by
  cases h with
  | add h line => exact .add (h.mono hw) line
  | constant h => exact .constant (h.mono hw)
  | addToMerge h hvalues => exact .addToMerge (hw.node h) (hvalues.imp fun _ _ hv => hv.mono hw)
  | addInput h hinput => exact .addInput (hw.receiver h) (hw.node hinput)
  | seed h htypes => exact .seed (hw.receiver h) (htypes.imp fun _ _ ht => ht.mono hw)
  | addClass name line => exact .addClass name line
  | setBases h hbases => exact .setBases (hw.ofClass h) (hbases.imp fun _ _ hb => hw.node hb)
  | addOwnMember h name hnode => exact .addOwnMember (hw.ofClass h) name (hw.receiver hnode)
  | addFunction h => exact .addFunction (h.mono hw)
  | setExport h name hnode => exact .setExport (hw.ofModule h) name (hw.receiver hnode)

theorem TargetMatch.mono {a b : ImportTarget} (h : w.TargetMatch a b) : w'.TargetMatch a b := by
  cases h with
  | module h => exact .module (hw.ofModule h)
  | cyclic => exact .cyclic
  | missing => exact .missing

theorem KindMatch.mono (h : w.KindMatch a b) : w'.KindMatch a b := by
  cases h with
  | module => exact .module
  | classBody h => exact .classBody (hw.ofClass h)
  | functionBody h => exact .functionBody (hw.ofFunction h)

theorem ScopeMatch.mono {s t : Scope} (h : w.ScopeMatch s t) : w'.ScopeMatch s t :=
  ⟨h.kind.mono hw, h.versions, h.bindings.mono hw.receiver, h.summaries.mono hw.receiver,
    h.loops.mono hw.node, h.frames.imp fun _ _ hf => hf.mono hw.node⟩

theorem ScopesMatch.mono (h : w.ScopesMatch vs ss ts) : w'.ScopesMatch vs ss ts :=
  ⟨h.toArrayMatch.mono fun hs => hs.mono hw, h.versions⟩

theorem UnknownsMatch.mono {u v : Unknowns} (h : w.UnknownsMatch u v) :
    w'.UnknownsMatch u v := ⟨h.params.imp fun _ _ hp => hw.receiver hp, h.domains, h.size⟩

theorem StacksMatch.mono {us vs : Array Unknowns} {es fs : Table NodeId Slot}
    (h : w.StacksMatch us vs es fs) : w'.StacksMatch us vs es fs :=
  ⟨h.toArrayMatch.mono fun hu => hu.mono hw, List.Forall₂.imp (fun _ _ he => ⟨hw.node he.1, he.2⟩) h.slots, h.placed⟩

theorem ConstructorMatch.mono {c d : Constructor} (h : w.ConstructorMatch c d) : w'.ConstructorMatch c d :=
  ⟨hw.ofClass h.owner, hw.receiver h.returns, h.line⟩

end

theorem ScopesMatch.sizes (h : w.ScopesMatch vs ss ts) :
    ss.size = vs.length ∧ ts.size = vs.length := by
  have hleft : ss.size = vs.length := by
    rw [← h.versions, List.length_map, Array.length_toList]
  exact ⟨hleft, h.size.trans hleft⟩

/-! ### New numbers -/

variable {ρ : Renaming}

theorem TyMatch.renamed {u : Ty} (h : ρ.pairs.TyMatch t u) : ρ.ty t = u := by
  cases h with
  | @fixed t h => cases t <;> first | rfl | exact h.elim
  | classObject h => exact congrArg Ty.classObject h
  | instanceOf h => exact congrArg Ty.instanceOf h
  | function h => exact congrArg Ty.function h
  | method h => exact congrArg Ty.method h
  | moduleObject h => exact congrArg Ty.moduleObject h

theorem ArgumentMatch.renamed {x y : Argument} (h : ρ.pairs.ArgumentMatch x y) : ρ.argument x = y :=
  congr (congrArg Argument.mk h.value) h.passing

theorem ParamMatch.renamed {p q : Param} (h : ρ.pairs.ParamMatch p q) : ρ.param p = q :=
  congr (congr (congr (congrArg Param.mk h.name) h.node) h.mode) h.hasDefault

theorem FunctionMatch.renamed {i j : FunctionInfo} (h : ρ.pairs.FunctionMatch i j) : ρ.functionInfo i = j :=
  congr (congr (congr (congr (congrArg FunctionInfo.mk h.name) (map_of_forall₂ h.params ParamMatch.renamed))
    h.returns) h.role) h.line

theorem IncomingMatch.renamed {x y : Incoming} (h : ρ.pairs.IncomingMatch x y) : ρ.incoming x = y := by
  cases h with
  | value h => exact congrArg Incoming.value h
  | unbound => rfl

theorem RuleMatch.renamed {r r' : Rule} (h : ρ.pairs.RuleMatch r r') : ρ.rule r = r' := by
  cases h with
  | plain h => exact congrArg Rule.plain (map_of_forall₂ h id)
  | merge => rfl
  | binary op h h' => exact congrArg₂ (Rule.binary op) h h'
  | unary op h => exact congrArg (Rule.unary op) h
  | read attr h => exact congrArg (Rule.read · attr) h
  | write attr h h' => exact congrArg₂ (Rule.write · attr ·) h h'
  | call h hargs => exact congrArg₂ Rule.call h (map_of_forall₂ hargs ArgumentMatch.renamed)
  | iterate h => exact congrArg Rule.iterate h
  | subscript h h' => exact congrArg₂ Rule.subscript h h'

/-- **A request that is paired is the same request under new numbers.** -/
theorem RequestMatch.renamed (h : ρ.pairs.RequestMatch r r') : ρ.request r = r' := by
  cases h with
  | add h line => exact congrArg (Request.add · line) h.renamed
  | constant h => exact congrArg Request.constant h.renamed
  | addToMerge h hvalues => exact congrArg₂ Request.addToMerge h (map_of_forall₂ hvalues IncomingMatch.renamed)
  | addInput h hinput => exact congrArg₂ Request.addInput h hinput
  | seed h htypes =>
    refine congrArg₂ Request.seed h (TypeSet.ext fun u => ?_)
    rw [TypeSet.mem_def, TypeSet.mem_def, Renaming.toList_types, map_of_forall₂ htypes TyMatch.renamed]
  | addClass name line => rfl
  | setBases h hbases => exact congrArg₂ Request.setBases h (map_of_forall₂ hbases id)
  | addOwnMember h name hnode => exact congrArg₂ (Request.addOwnMember · name ·) h hnode
  | addFunction h => exact congrArg Request.addFunction h.renamed
  | setExport h name hnode => exact congrArg₂ (Request.setExport · name ·) h hnode

/-! ### Equal numbers -/

def same : Pairing := ⟨Eq, Eq, Eq, Eq, Eq⟩

theorem RequestMatch.eq (h : same.RequestMatch r r') : r = r' := by
  have hrenamed : Renaming.id.request r = r' := RequestMatch.renamed h
  simpa using hrenamed

theorem scopeMatch_ofVersions (h : w.KindMatch a b) (versions : Versions) :
    w.ScopeMatch (.ofVersions a versions) (.ofVersions b versions) :=
  ⟨h, rfl, .nil, .nil, .nil, .nil⟩

end Pairing

section

variable {κ κ' α β : Type} [DecidableEq κ] [DecidableEq κ'] {K : κ → κ' → Prop} {R : α → β → Prop}
  {t : Table κ α} {u : Table κ' β} {key : κ} {key' : κ'} (h : t.Related K R u)
  (hK : ∀ {k l k' l'}, K k l → K k' l' → (k = k' ↔ l = l')) (hkey : K key key')
include h hK hkey

theorem Table.Related.get? : Option.Rel R (t.get? key) (u.get? key') := by
  obtain ⟨es⟩ := t
  obtain ⟨fs⟩ := u
  change List.Forall₂ _ es fs at h
  show Option.Rel R (find? key es) (find? key' fs)
  induction h with
  | nil => exact .none
  | cons hef _ ih =>
    simp only [find?, hK hef.1 hkey]
    split
    · exact .some hef.2
    · exact ih

theorem Table.Related.insert {a : α} {b : β} (hab : R a b) : (t.insert key a).Related K R (u.insert key' b) := by
  obtain ⟨es⟩ := t
  obtain ⟨fs⟩ := u
  change List.Forall₂ _ es fs at h
  show List.Forall₂ _ (put key a es) (put key' b fs)
  induction h with
  | nil => exact .cons ⟨hkey, hab⟩ .nil
  | cons hef hrest ih =>
    simp only [put, hK hef.1 hkey]
    split
    · exact .cons ⟨hef.1, hab⟩ hrest
    · exact .cons hef ih

end

namespace Table.Match

variable {κ α β : Type} [DecidableEq κ] {R : α → β → Prop} {t : Table κ α} {u : Table κ β}

theorem get? (h : t.Match R u) (key : κ) : Option.Rel R (t.get? key) (u.get? key) :=
  Related.get? h (by rintro _ _ _ _ rfl rfl; rfl) rfl

theorem contains (h : t.Match R u) (key : κ) : u.contains key = t.contains key := by
  unfold Table.contains
  exact optionRel_cases (h.get? key) rfl fun _ => rfl

theorem insert {a : α} {b : β} (h : t.Match R u) (key : κ) (hab : R a b) :
    (t.insert key a).Match R (u.insert key b) :=
  Related.insert h (by rintro _ _ _ _ rfl rfl; rfl) rfl hab

end Table.Match

/-! ### Twins -/

open Inference in
/-- Two contexts that say the same, apart from what they import and the module that they number. -/
structure Inference.Context.Agrees (left right : Context) : Prop where
  config : right.config = left.config
  name : right.name = left.name
  isPackage : right.isPackage = left.isPackage

theorem Inference.Context.Agrees.refl (context : Inference.Context) : context.Agrees context := ⟨rfl, rfl, rfl⟩

open Inference in
/-- Two contexts, and a relation between graphs that requests keep. -/
structure Twin where
  left : Context
  right : Context
  agrees : left.Agrees right
  /-- The graphs of the two sides, as far as a pairing says. -/
  graphs : Pairing → Graph → Graph → Prop
  node_of_receiver : ∀ {w g h a b}, graphs w g h → w.receiver a b → w.node a b
  node_inj : ∀ {w g h a b a' b'}, graphs w g h → w.node a b → w.node a' b' → (a = a' ↔ b = b')
  run : ∀ {w g h r r'}, graphs w g h → w.RequestMatch r r' →
    ∃ w', w.Grows w' ∧ graphs w' (r.run g) (r'.run h) ∧ w'.Answered g h r r'
  classNodes : ∀ {w g h c d}, graphs w g h → w.ofClass c d →
    List.Forall₂ w.node (g.classNodes c) (h.classNodes d)
  returns : ∀ {w g h f k}, graphs w g h → w.ofFunction f k →
    Option.Rel (fun i j => w.receiver i.returns j.returns) (g.function? f) (h.function? k)
  exported : ∀ {w g h m n}, graphs w g h → w.ofModule m n → ∀ name,
    Option.Rel w.node ((g.module? m).bind (·.exports.get? name))
      ((h.module? n).bind (·.exports.get? name))
  knownKinds : ∀ {w g h a b}, graphs w g h → w.node a b →
    knownKinds? (h.types b) = knownKinds? (g.types a)
  accepted : ∀ {w g h a b}, graphs w g h → w.node a b → ∀ position,
    acceptedByAll? h position (h.types b).toList = acceptedByAll? g position (g.types a).toList

namespace Twin

open Inference

/-- States whose parts belong together: scopes with these versions are open, those of the module
first, and these reports have been made. -/
structure States (P : Twin) (vs : List Versions) (ds : List Diagnostic) (w : Pairing) (s t : State) : Prop where
  graph : P.graphs w s.graph t.graph
  module : w.ofModule P.left.module P.right.module
  imports : ∀ name, Option.Rel w.TargetMatch (P.left.imports.get? name) (P.right.imports.get? name)
  scopes : w.ScopesMatch vs s.scopes t.scopes
  path : t.path = s.path
  unknowns : w.StacksMatch s.unknowns t.unknowns s.slots t.slots
  starImports : List.Forall₂ w.ofModule s.starImports t.starImports
  functions : List.Forall₂ w.ofFunction s.functions t.functions
  checks : List.Forall₂ w.node s.checks t.checks
  constructors : List.Forall₂ w.ConstructorMatch s.constructors t.constructors
  diagnostics : s.diagnostics = ds ∧ t.diagnostics = ds
  left : List.Forall₂ w.ScopeMatch s.left t.left
  strays : s.strays = 0 ∧ t.strays = 0

variable {P : Twin} {vs : List Versions} {ds ds' es : List Diagnostic} {w w' : Pairing} {s t : State}

theorem States.withGraph {g h : Graph} (hst : P.States vs ds w s t) (hw : w.Grows w')
    (hgraph : P.graphs w' g h) :
    P.States vs ds w' { s with graph := g } { t with graph := h } where
  graph := hgraph
  module := hw.ofModule hst.module
  imports name := optionRel_imp (hst.imports name) fun h => h.mono hw
  scopes := hst.scopes.mono hw
  path := hst.path
  unknowns := hst.unknowns.mono hw
  starImports := hst.starImports.imp fun _ _ h => hw.ofModule h
  functions := hst.functions.imp fun _ _ h => hw.ofFunction h
  checks := hst.checks.imp fun _ _ h => hw.node h
  constructors := hst.constructors.imp fun _ _ h => h.mono hw
  diagnostics := hst.diagnostics
  left := hst.left.imp fun _ _ h => h.mono hw
  strays := hst.strays

/-- Two steps that lead from states that belong together to such states, with results as `Q` says.
-/
def Leads (P : Twin) (vs : List Versions) (ds ds' : List Diagnostic) (w : Pairing) {α β : Type}
    (x : Infer α) (y : Infer β) (Q : Pairing → α → β → Prop) : Prop :=
  ∀ w' s t, w.Grows w' → P.States vs ds w' s t →
    ∃ w'', w'.Grows w'' ∧ P.States vs ds' w'' (x P.left s).2 (y P.right t).2 ∧
      Q w'' (x P.left s).1 (y P.right t).1

/-- Two steps that say nothing. -/
def Sim (P : Twin) (vs : List Versions) (ds : List Diagnostic) (w : Pairing) {α β : Type}
    (x : Infer α) (y : Infer β) (Q : Pairing → α → β → Prop) : Prop := P.Leads vs ds ds w x y Q

/-- Two steps that say nothing, and whose results do not matter. -/
def Keeps (P : Twin) (vs : List Versions) (ds : List Diagnostic) (w : Pairing) {α β : Type}
    (x : Infer α) (y : Infer β) : Prop := P.Leads vs ds ds w x y fun _ _ _ => True

/-- Two steps that report the same. -/
def Says (P : Twin) (vs : List Versions) (ds : List Diagnostic) (w : Pairing) (es : List Diagnostic)
    {α β : Type} (x : Infer α) (y : Infer β) : Prop :=
  P.Leads vs ds (ds ++ es) w x y fun _ _ _ => True

section Rules

variable {α β γ δ : Type} {x : Infer α} {y : Infer β} {f : α → Infer γ} {k : β → Infer δ}
  {Q Q' : Pairing → α → β → Prop} {R : Pairing → γ → δ → Prop}

theorem Leads.bind (hx : P.Leads vs ds ds' w x y Q)
    (hf : ∀ w' a b, w.Grows w' → Q w' a b → P.Leads vs ds' es w' (f a) (k b) R) :
    P.Leads vs ds es w (x >>= f) (y >>= k) R := by
  intro w₁ s t hw hst
  obtain ⟨w₂, hw₂, hst₂, hq⟩ := hx w₁ s t hw hst
  obtain ⟨w₃, hw₃, hst₃, hr⟩ := hf w₂ _ _ (hw.trans hw₂) hq w₂ _ _ (.refl w₂) hst₂
  exact ⟨w₃, hw₂.trans hw₃, hst₃, hr⟩

theorem Sim.bind (hx : P.Sim vs ds w x y Q)
    (hf : ∀ w' a b, w.Grows w' → Q w' a b → P.Leads vs ds ds' w' (f a) (k b) R) :
    P.Leads vs ds ds' w (x >>= f) (y >>= k) R := Leads.bind hx hf

theorem Sim.pure {a : α} {b : β} (h : ∀ w', w.Grows w' → Q w' a b) :
    P.Sim vs ds w (Pure.pure a) (Pure.pure b) Q :=
  fun w' _ _ hw hst => ⟨w', .refl w', hst, h w' hw⟩

theorem Leads.grow (hx : P.Leads vs ds ds' w x y Q) (hw : w.Grows w') : P.Leads vs ds ds' w' x y Q :=
  fun w₁ s t hw₁ hst => hx w₁ s t (hw.trans hw₁) hst

theorem Sim.imp (hx : P.Sim vs ds w x y Q) (hQ : ∀ w a b, Q w a b → Q' w a b) : P.Sim vs ds w x y Q' := by
  intro w₁ s t hw hst
  obtain ⟨w₂, hw₂, hst₂, hq⟩ := hx w₁ s t hw hst
  exact ⟨w₂, hw₂, hst₂, hQ w₂ _ _ hq⟩

theorem Sim.discard (hx : P.Sim vs ds w x y Q) : P.Keeps vs ds w (discard x) (discard y) := by
  intro w₁ s t hw hst
  obtain ⟨w₂, hw₂, hst₂, -⟩ := hx w₁ s t hw hst
  exact ⟨w₂, hw₂, hst₂, trivial⟩

theorem Sim.ite {c : Prop} [Decidable c] {x' : Infer α} {y' : Infer β}
    (hx : c → P.Sim vs ds w x y Q) (hy : ¬ c → P.Sim vs ds w x' y' Q) :
    P.Sim vs ds w (if c then x else x') (if c then y else y') Q := by
  split
  · next h => exact hx h
  · next h => exact hy h

theorem Keeps.andThen (hx : P.Keeps vs ds w x y)
    (hf : ∀ w' a b, w.Grows w' → P.Leads vs ds ds' w' (f a) (k b) R) :
    P.Leads vs ds ds' w (x >>= f) (y >>= k) R := Sim.bind hx fun w' a b hw _ => hf w' a b hw

theorem Keeps.pure {a : α} {b : β} : P.Keeps vs ds w (Pure.pure a : Infer α) (Pure.pure b : Infer β) :=
  Sim.pure fun _ _ => trivial

theorem Keeps.mute (hx : P.Keeps vs ds w x y) : P.Says vs ds w [] x y := by
  rw [Says, List.append_nil]
  exact hx

theorem Says.andThen (hx : P.Says vs ds w es x y)
    (hf : ∀ w' a b, w.Grows w' → P.Says vs (ds ++ es) w' ds' (f a) (k b)) :
    P.Says vs ds w (es ++ ds') (x >>= f) (y >>= k) := by
  rw [Says, ← List.append_assoc]
  exact Leads.bind hx fun w' a b hw _ => hf w' a b hw

/-- Going on without a word. -/
theorem Says.andKeeps (hx : P.Says vs ds w es x y)
    (hf : ∀ w' a b, w.Grows w' → P.Keeps vs (ds ++ es) w' (f a) (k b)) :
    P.Says vs ds w es (x >>= f) (y >>= k) := Leads.bind hx fun w' a b hw _ => hf w' a b hw

end Rules

end Twin

end FlowTyping
