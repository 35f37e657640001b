/-
Requests to one of two graphs that stand beside each other.

A request to one side is answered by the common graph as the side itself would answer it, under new
numbers (`Beside.request`).  A constant is the exception (`Beside.constant`): one side may ask for a
type that the other side has asked for before.  It then makes a node, while in the common graph
there is one already, and the new node is renamed to that one.  In the end all nodes are worked out
once more; each side's nodes come up in the order of their numbers, and that is the same order on
the common list (`Beside.repropagate`).
-/
import FlowTyping.Proofs.Renaming.Beside

namespace FlowTyping

open FlowTyping.Graph (Request)

def Renaming.request (ρ : Renaming) : Request → Request
  | .add rule line => .add (ρ.rule rule) line
  | .constant t => .constant (ρ.ty t)
  | .addToMerge id values => .addToMerge (ρ.node id) (values.map ρ.incoming)
  | .addInput id input => .addInput (ρ.node id) (ρ.node input)
  | .seed id types => .seed (ρ.node id) (ρ.types types)
  | .addClass name line => .addClass name line
  | .setBases c bases => .setBases (ρ.ofClass c) (bases.map ρ.node)
  | .addOwnMember c name node => .addOwnMember (ρ.ofClass c) name (ρ.node node)
  | .addFunction info => .addFunction (ρ.functionInfo info)
  | .addModule name => .addModule name
  | .setExport m name node => .setExport (ρ.ofModule m) name (ρ.node node)
  | .addSubmodule parent name child => .addSubmodule (ρ.ofModule parent) name (ρ.ofModule child)
  | .repropagate => .repropagate

@[simp]
theorem Renaming.request_id (r : Request) : Renaming.id.request r = r := by
  cases r <;> simp [Renaming.request]

theorem Renaming.mentioned_rule (ρ : Renaming) (r : Rule) :
    (ρ.rule r).mentioned = r.mentioned.map ρ.node := by
  cases r with
  | merge values => exact ρ.sources_rule (.merge values)
  | call callee args => exact ρ.sources_rule (.call callee args)
  | _ => rfl

/-- A renaming in which the first number that is not in use is renamed to a given one, and those
after it follow in step. -/
theorem Renaming.exists_redirect (ρ : Renaming) {n m j : Nat} (hj : j < m)
    (hbelow : ∀ i, i < n → ρ.nodes i < m) (hfresh : ∀ i, i < n → ρ.nodes i ≠ j) :
    ∃ ρ' : Renaming, (∀ i, i < n → ρ'.nodes i = ρ.nodes i) ∧ ρ'.nodes n = j ∧
      (∀ k, ρ'.nodes (n + 1 + k) = m + k) ∧ ρ'.classes = ρ.classes ∧ ρ'.functions = ρ.functions ∧
      ρ'.modules = ρ.modules := by
  have hold : ∀ i, i < n → Function.update ρ.nodes n j i = ρ.nodes i := fun i hi =>
    Function.update_of_ne (ne_of_lt hi) j ρ.nodes
  have hlast : Function.update ρ.nodes n j n = j := Function.update_self n j ρ.nodes
  have hall : ∀ i, i < n + 1 → Function.update ρ.nodes n j i < m := by
    intro i hi
    rcases Nat.lt_succ_iff_lt_or_eq.1 hi with hi | rfl
    · rw [hold i hi]
      exact hbelow i hi
    · rw [hlast]
      exact hj
  have hinjective : ∀ i k, i < n + 1 → k < n + 1 →
      Function.update ρ.nodes n j i = Function.update ρ.nodes n j k → i = k := by
    intro i k hi hk heq
    rcases Nat.lt_succ_iff_lt_or_eq.1 hi with hi | rfl <;>
      rcases Nat.lt_succ_iff_lt_or_eq.1 hk with hk | rfl
    · rw [hold i hi, hold k hk] at heq
      exact ρ.nodes_injective heq
    · rw [hold i hi, hlast] at heq
      exact absurd heq (hfresh i hi)
    · rw [hold k hk, hlast] at heq
      exact absurd heq.symm (hfresh k hk)
    · rfl
  refine ⟨{ ρ with
    nodes := lockstep (Function.update ρ.nodes n j) (n + 1) m
    nodes_injective := lockstep_injective hinjective hall }, fun i hi => ?_, ?_, fun k => ?_, rfl, rfl, rfl⟩
  · exact (lockstep_of_lt (Nat.lt_succ_of_lt hi)).trans (hold i hi)
  · exact (lockstep_of_lt (Nat.lt_succ_self n)).trans hlast
  · exact lockstep_add k

namespace Graph

variable {T : Territory} {ρ σ : Renaming} {a b g h : Graph} {i id j : NodeId} {p q : NodeId → Prop}
  {t : Ty} {ids : List NodeId} {r : Request}

/-! ### What a request mentions -/

namespace Copy

variable (hc : Copy ρ g h)
include hc

theorem hasType (ht : g.HasType t) : h.HasType (ρ.ty t) := by
  cases t with
  | classObject c | instanceOf c => exact (hc.lt_classes_iff c).2 ht
  | function f | method f => exact (hc.lt_functions_iff f).2 ht
  | moduleObject m => exact (hc.lt_modules_iff m).2 ht
  | _ => exact trivial

theorem hasNodes (hids : ∀ id ∈ ids, g.HasNode id) : ∀ id ∈ ids.map ρ.node, h.HasNode id := by
  intro id hid
  obtain ⟨i, hi, rfl⟩ := List.mem_map.1 hid
  exact (hc.hasNode_iff i).2 (hids i hi)

theorem given (hr : r.Given g) : (ρ.request r).Given h := by
  cases r with
  | add rule line =>
    refine ⟨?_, ?_⟩
    · rw [ρ.mentioned_rule]
      exact hc.hasNodes hr.1
    · cases rule <;> exact hr.2
  | constant t => exact hc.hasType hr
  | addToMerge id values =>
    refine ⟨(hc.hasNode_iff id).2 hr.1, ?_⟩
    rw [show Rule.merge (values.map ρ.incoming) = ρ.rule (.merge values) from rfl, ρ.sources_rule]
    exact hc.hasNodes hr.2
  | addInput id input => exact ⟨(hc.hasNode_iff id).2 hr.1, (hc.hasNode_iff input).2 hr.2⟩
  | seed id types =>
    refine ⟨(hc.hasNode_iff id).2 hr.1, fun u hu => ?_⟩
    obtain ⟨t, ht, rfl⟩ := List.mem_map.1 hu
    exact hc.hasType (hr.2 t ht)
  | setBases c bases => exact ⟨(hc.lt_classes_iff c).2 hr.1, hc.hasNodes hr.2⟩
  | addOwnMember c name node => exact ⟨(hc.lt_classes_iff c).2 hr.1, (hc.hasNode_iff node).2 hr.2⟩
  | addFunction info =>
    refine ⟨(hc.hasNode_iff _).2 hr.1, fun q hq => ?_⟩
    obtain ⟨p, hp, rfl⟩ := List.mem_map.1 hq
    exact (hc.hasNode_iff _).2 (hr.2 p hp)
  | setExport m name node => exact ⟨(hc.lt_modules_iff m).2 hr.1, (hc.hasNode_iff node).2 hr.2⟩
  | addSubmodule parent name child =>
    exact ⟨(hc.lt_modules_iff parent).2 hr.1, (hc.lt_modules_iff child).2 hr.2⟩
  | _ => exact trivial

theorem not_shared (hid : ¬ g.Shared id) : ¬ h.Shared (ρ.node id) :=
  fun hs => hid ((hc.shared id).1 hs)

theorem spares (hr : r.Spares g) : (ρ.request r).Spares h := by
  cases r with
  | addInput id input | seed id types | addOwnMember c name node | setExport m name node => exact hc.not_shared hr
  | addFunction info =>
    refine ⟨fun q hq => ?_, hc.not_shared hr.2⟩
    obtain ⟨p, hp, rfl⟩ := List.mem_map.1 hq
    exact hc.not_shared (hr.1 p hp)
  | _ => exact trivial

theorem isMerge (id : NodeId) : h.isMerge (ρ.node id) = g.isMerge id := by
  unfold Graph.isMerge
  rw [hc.rule?]
  rcases g.rule? id with - | r
  · rfl
  · cases r <;> rfl

theorem drains (r : Request) : (ρ.request r).drains h = r.drains g := by
  cases r with
  | addToMerge id values =>
    simp only [Renaming.request, Request.drains, List.isEmpty_map, hc.isMerge]
  | setBases c bases => simp only [Renaming.request, Request.drains, hc.class?, Option.isSome_map]
  | _ => rfl

theorem nextClass_eq : ρ.ofClass ⟨g.classes.size⟩ = ⟨h.classes.size⟩ :=
  congrArg ClassId.mk (hc.nextClass 0)

theorem nextFunction_eq : ρ.ofFunction ⟨g.functions.size⟩ = ⟨h.functions.size⟩ :=
  congrArg FunctionId.mk (hc.nextFunction 0)

theorem nextModule_eq : ρ.ofModule ⟨g.modules.size⟩ = ⟨h.modules.size⟩ :=
  congrArg ModuleId.mk (hc.nextModule 0)

end Copy

/-! ### Tables that get longer -/

namespace Ready

variable (hr : Ready T ρ g h)
include hr

theorem pushClass {i : ClassInfo} (hnode : ¬ g.Shared i.node) (hmembers : i.members.entries = []) :
    Along T ρ g h { g with classes := g.classes.push i }
      { h with classes := h.classes.push (ρ.classInfo i) } := by
  have hclass : ∀ c info, (g.classes.push i)[ClassId.index c]? = some info →
      info = i ∨ g.class? c = some info := by
    intro c info hc
    rw [Array.getElem?_push] at hc
    split at hc
    · exact .inl (Option.some.inj hc).symm
    · exact .inr hc
  refine hr.withClasses (.push ρ.classes_strictMono.injective hr.copy.nextClass (hr.copy.class? ⟨·⟩)
    (hr.clear.ofClass ⟨·⟩) i) ?_ fun c info hc => ?_
  · refine hr.clean.of_steps rfl (fun _ hb => hb) (fun _ _ => ⟨rfl, rfl⟩) (fun c info hc e he => ?_) rfl rfl
    rcases hclass c info hc with rfl | hc
    · rw [hmembers] at he
      cases he
    · exact hr.clean.members c info hc e he
  · rcases hclass c info hc with rfl | hc
    · exact hnode
    · exact hr.owners c info hc

theorem pushFunction {info : FunctionInfo} (hclean : (g.addFunction info).2.Clean) :
    Along T ρ g h (g.addFunction info).2 (h.addFunction (ρ.functionInfo info)).2 := by
  have hstep : Together ρ.functions ρ.functionInfo (T.ofFunction ⟨·⟩) h.functions _ _ :=
    .push ρ.functions_strictMono.injective hr.copy.nextFunction (hr.copy.function? ⟨·⟩) (hr.clear.ofFunction ⟨·⟩) info
  exact
    { ready :=
        { copy := { hr.copy with nextFunction := hstep.next, function? := fun f => hstep.get f.index }
          clear := { hr.clear with }
          clean := hclean
          owners := hr.owners }
      apart := { Apart.refl T h with function? := fun f => hstep.others f.index, functionCount := hstep.count }
      constants := rfl }

theorem withModules {modules modules' : Array ModuleInfo}
    (hstep : Together ρ.modules ρ.moduleInfo (T.ofModule ⟨·⟩) h.modules modules modules')
    (hclean : ({ g with modules } : Graph).Clean) :
    Along T ρ g h { g with modules } { h with modules := modules' } where
  ready :=
    { copy := { hr.copy with nextModule := hstep.next, module? := fun m => hstep.get m.index }
      clear := { hr.clear with }
      clean := hclean
      owners := hr.owners }
  apart := { Apart.refl T h with module? := fun m => hstep.others m.index, moduleCount := hstep.count }
  constants := rfl

theorem modifyModule {m : ModuleId} {f f' : ModuleInfo → ModuleInfo}
    (hf : ∀ info, f' (ρ.moduleInfo info) = ρ.moduleInfo (f info))
    (hclean : (g.modifyModule m f).Clean) :
    Along T ρ g h (g.modifyModule m f) (h.modifyModule (ρ.ofModule m) f') :=
  hr.withModules (.modify ρ.modules_strictMono.injective hr.copy.nextModule (hr.copy.module? ⟨·⟩)
    (hr.clear.ofModule ⟨·⟩) hf m.index) hclean

theorem addModule (name : String) (hclean : (g.addModule name).2.Clean) :
    Along T ρ g h (g.addModule name).2 (h.addModule name).2 :=
  hr.withModules (.push ρ.modules_strictMono.injective hr.copy.nextModule (hr.copy.module? ⟨·⟩)
    (hr.clear.ofModule ⟨·⟩) ⟨name, .empty, .empty⟩) hclean

/-! ### The changes that requests make -/

theorem addIncoming (id : NodeId) (value : Incoming) : Along T ρ g h (Graph.addIncoming id g value)
      (Graph.addIncoming (ρ.node id) h (ρ.incoming value)) := by
  unfold Graph.addIncoming
  rw [hr.copy.rule?]
  rcases hrule : g.rule? id with - | r
  · exact hr.along
  · cases r with
    | merge values =>
      simp only [Option.map_some, Renaming.rule, List.mem_map_of_injective ρ.incoming_injective]
      split
      · exact hr.along
      · have hid : ¬ g.Shared id := by
          intro hs
          rw [hr.clean.rule? hs] at hrule
          cases hrule
        have hset := hr.setRule hid (.merge (values ++ [value]))
        rw [Renaming.rule, List.map_append, List.map_singleton] at hset
        cases value with
        | value source => exact hset.trans (hset.ready.subscribe id source)
        | unbound => exact hset
    | _ => exact hr.along

theorem withTypes (hid : ¬ g.Shared id) (types : TypeSet) :
    Along T ρ g h (g.withTypes id types) (h.withTypes (ρ.node id) (ρ.types types)) := by
  unfold Graph.withTypes
  rw [hr.copy.types, Renaming.isSubset_types]
  split
  · exact hr.along
  · have hput := hr.putTypes hid types
    exact hput.trans (hput.ready.touch (hput.not_shared hid))

theorem withClass (name : String) (line : Nat) :
    Along T ρ g h (g.withClass name line) (h.withClass name line) := by
  have hpush := hr.push (.members ⟨g.classes.size⟩) line
  have hnext := hpush.not_shared hr.clean.not_shared_next
  have hput := hpush.trans (hpush.ready.putTypes hnext (.single (.classObject ⟨g.classes.size⟩)))
  have hclass := hput.trans (hput.ready.pushClass (i := ⟨name, g.next, [], .empty, false, []⟩)
    (hput.not_shared hr.clean.not_shared_next) rfl)
  rw [Renaming.rule, hr.copy.nextClass_eq, hr.copy.node_next, Renaming.types_single, Renaming.ty,
    hr.copy.nextClass_eq, Renaming.classInfo, hr.copy.node_next] at hclass
  exact hclass

theorem withBases {c : ClassId} {info : ClassInfo} (bases : List NodeId) :
    Along T ρ g h (g.withBases c info.node bases)
      (h.withBases (ρ.ofClass c) (ρ.node info.node) (bases.map ρ.node)) := by
  have hheard := hr.subscribeAll info.node bases
  have hset : Along T ρ g h
      ((bases.foldl (fun g base => g.subscribe info.node base) g).modifyClass c fun info =>
        { info with bases })
      (((bases.map ρ.node).foldl (fun h base => h.subscribe (ρ.node info.node) base) h).modifyClass
        (ρ.ofClass c) fun info => { info with bases := bases.map ρ.node }) :=
    hheard.trans (hheard.ready.modifyClass (fun _ => rfl) (fun _ => rfl)
      (hheard.ready.clean.modifyClass fun _ _ he => .inl he))
  exact hset.trans (hset.ready.schedule info.node)

theorem withOwnMember {node : NodeId} (hnode : ¬ g.Shared node) (c : ClassId) (name : String) :
    Along T ρ g h (g.withOwnMember c name node) (h.withOwnMember (ρ.ofClass c) name (ρ.node node)) := by
  have hset := hr.setMember (m := ⟨node, .own⟩) hnode c name
  have hjoined : Along T ρ g h
      ((g.setMember c name ⟨node, .own⟩).joinReplaced c name node (g.member? c name))
      ((h.setMember (ρ.ofClass c) name ⟨ρ.node node, .own⟩).joinReplaced (ρ.ofClass c) name
        (ρ.node node) (h.member? (ρ.ofClass c) name)) := by
    rw [hr.copy.mirror.member?]
    rcases hm : g.member? c name with - | member
    · exact hset
    · simp only [Option.map_some, joinReplaced, Renaming.member, ne_eq, Renaming.node_inj]
      split
      · exact hset.trans (hset.ready.link (hset.not_shared hnode)
          (hset.not_shared (hr.clean.not_shared_member hm)) c)
      · exact hset
  exact hjoined.trans (hjoined.ready.touchClass c)

/-- **The change that a request makes goes along with the change that it makes in the copy.** -/
theorem change (hs : g.Sound) (hgiven : r.Given g) (hspares : r.Spares g)
    (hconstant : ∀ t, r ≠ .constant t) (hrepropagate : r ≠ .repropagate) :
    Along T ρ g h (r.change g) ((ρ.request r).change h) := by
  have hclean := hr.clean.change hs hgiven hspares
  cases r with
  | add rule line => exact hr.push rule line
  | constant t => exact absurd rfl (hconstant t)
  | addToMerge id values =>
    simp only [Renaming.request, Request.change, List.isEmpty_map, hr.copy.isMerge]
    split
    · have hall : Along T ρ g h (values.foldl (Graph.addIncoming id) g)
          ((values.map ρ.incoming).foldl (Graph.addIncoming (ρ.node id)) h) :=
        Along.foldl hr fun k l hk _ value _ => hk.addIncoming id value
      exact hall.trans (hall.ready.schedule id)
    · exact hr.along
  | addInput id input => exact hr.connect hspares input
  | seed id types => exact hr.withTypes hspares types
  | addClass name line => exact hr.withClass name line
  | setBases c bases =>
    simp only [Renaming.request, Request.change, hr.copy.class?]
    rcases g.class? c with - | info
    · exact hr.along
    · exact hr.withBases bases
  | addOwnMember c name node => exact hr.withOwnMember hspares c name
  | addFunction info => exact hr.pushFunction hclean
  | addModule name => exact hr.addModule name hclean
  | setExport m name node =>
    refine hr.modifyModule (fun info => ?_) hclean
    simp only [Renaming.moduleInfo, Table.mapValues_insert]
  | addSubmodule parent name child =>
    refine hr.modifyModule (fun info => ?_) hclean
    simp only [Renaming.moduleInfo, Table.mapValues_insertNew]
  | repropagate => exact absurd rfl hrepropagate

end Ready

/-! ### Requests to one side -/

namespace Beside

/-- **A request to the right side is answered as the right side would answer it by itself.** -/
theorem request (hb : Beside ρ σ a b h) (hidle : ∀ id ∈ a.worklist, a.Shared id)
    (hs : b.Sound) (hh : h.Sound) (hr : r.Given b) (hspares : r.Spares b)
    (hconstant : ∀ t, r ≠ .constant t) (hrepropagate : r ≠ .repropagate) :
    ∃ ρ' σ', Beside ρ' σ' a (r.run b) ((σ.request r).run h) ∧ ρ.Agree ρ' a ∧
      σ.Agree σ' (r.change b) := by
  have hgiven := hb.right.given hr
  have hal := hb.ready.change hs hr hspares hconstant hrepropagate
  obtain ⟨ρ₁, hρ₁, hb₁⟩ := hb.along hal.ready hal.apart (hs.prepared_change hr).valid
    (hh.prepared_change hgiven).valid (hb.clean.change hh hgiven (hb.right.spares hspares))
  rw [Request.run_eq, Request.run_eq, hb.right.drains]
  split
  · obtain ⟨ρ₂, σ₂, hb₂, hρ₂, hσ₂⟩ := hb₁.propagateRight hidle
    exact ⟨ρ₂, σ₂, hb₂, hρ₁.trans hρ₂, hσ₂⟩
  · exact ⟨ρ₁, σ, hb₁, hρ₁, .refl σ _⟩

end Beside

/-! ### Constants -/

theorem waiting_and (work : List NodeId) :
    waiting (fun id => p id ∧ q id) work = waiting q (waiting p work) := by
  simp only [waiting, List.filter_filter]
  refine List.filter_congr fun id _ => ?_
  by_cases hp : p id <;> by_cases hq : q id <;> simp [hp, hq]

theorem waiting_map (ρ : Renaming) (h : ∀ id, p (ρ.node id) ↔ q id) (work : List NodeId) :
    waiting p (work.map ρ.node) = (waiting q work).map ρ.node := by
  simp only [waiting, List.filter_map]
  congr 1
  exact List.filter_congr fun id _ => by simp [h id]

theorem lookup_cons_eq_ite {β : Type} (t u : Ty) (b : β) (es : List (Ty × β)) :
    ((t, b) :: es).lookup u = if u = t then some b else es.lookup u := by
  by_cases h : u = t
  · simp [h]
  · have hne : (u == t) = false := beq_false_of_ne h
    simp [List.lookup_cons, hne, h]

/-- The graph in which a node is one of the constants as well. -/
def named (g : Graph) (t : Ty) (id : NodeId) : Graph := { g with constants := (t, id) :: g.constants }

theorem shared_named : (g.named t id).Shared i ↔ i = id ∨ g.Shared i := by
  constructor
  · rintro ⟨u, hu⟩
    rcases List.mem_cons.1 hu with heq | hu
    · cases heq
      exact .inl rfl
    · exact .inr ⟨u, hu⟩
  · rintro (rfl | ⟨u, hu⟩)
    · exact ⟨t, List.mem_cons_self⟩
    · exact ⟨u, List.mem_cons_of_mem _ hu⟩

theorem withConstant_eq (g : Graph) (t : Ty) :
    g.withConstant t = ((g.push (.plain []) 0).2.putTypes g.next (.single t)).named t g.next := rfl

theorem NodeCopy.mono {s s' : Prop} {n m : Node} (hc : NodeCopy ρ s n m) (hs : s → s') :
    NodeCopy ρ s' n m :=
  ⟨hc.rule, hc.types, fun hno => hc.line fun h => hno (hs h), fun hno => hc.dependents fun h => hno (hs h)⟩

namespace Ready

theorem named (hr : Ready T ρ g h) (hclean : (g.named t id).Clean)
    (howners : ∀ c info, g.class? c = some info → info.node ≠ id) :
    Ready T ρ (g.named t id) (h.named (ρ.ty t) (ρ.node id)) where
  copy :=
    { hr.copy with
      node? := fun i =>
        optionRel_imp (hr.copy.node? i) fun hn => hn.mono fun hs => shared_named.2 (.inr hs)
      lookup := by
        intro u i hu
        rw [Graph.named, lookup_cons_eq_ite] at hu ⊢
        simp only [Renaming.ty_inj]
        split at hu
        · next heq =>
          cases hu
          rw [if_pos heq]
        · next hne =>
          rw [if_neg hne]
          exact hr.copy.lookup u i hu
      shared := fun i => by rw [shared_named, shared_named, Renaming.node_inj, hr.copy.shared]
      ordered := fun i j hi hj => hr.copy.ordered i j (fun hs => hi (shared_named.2 (.inr hs)))
        fun hs => hj (shared_named.2 (.inr hs))
      worklist := by
        -- both lists lose the new constant
        have hleft : ∀ i, (g.named t id).Own ρ i ↔ g.Own ρ i ∧ i ≠ ρ.node id := by
          intro i
          constructor
          · rintro ⟨j, hj, rfl⟩
            rw [shared_named, not_or] at hj
            exact ⟨⟨j, hj.2, rfl⟩, fun heq => hj.1 (ρ.node_injective heq)⟩
          · rintro ⟨⟨j, hj, rfl⟩, hne⟩
            refine ⟨j, fun hs => ?_, rfl⟩
            rcases shared_named.1 hs with rfl | hs
            · exact hne rfl
            · exact hj hs
        have hright : ∀ i, ¬ (g.named t id).Shared i ↔ ¬ g.Shared i ∧ i ≠ id := by
          intro i
          rw [shared_named, not_or, and_comm]
        show waiting ((g.named t id).Own ρ) h.worklist =
          (waiting (fun i => ¬ (g.named t id).Shared i) g.worklist).map ρ.node
        rw [waiting_congr fun i _ => hleft i, waiting_congr fun i _ => hright i, waiting_and,
          waiting_and, hr.copy.worklist]
        exact waiting_map ρ (fun i => not_congr ρ.node_inj) _ }
  clear := ⟨fun i hi => hr.clear.nodes i fun hs => hi (shared_named.2 (.inr hs)), hr.clear.live,
    hr.clear.ofClass, hr.clear.ofFunction, hr.clear.ofModule⟩
  clean := hclean
  owners := by
    intro c info hc hs
    rcases shared_named.1 hs with heq | hs
    · exact howners c info hc heq
    · exact hr.owners c info hc hs

/-- A type that nobody has asked for yet. -/
theorem withConstant (hr : Ready T ρ g h) (hv : g.Valid)
    (hnew : h.constants.lookup (ρ.ty t) = none) :
    Ready T ρ (g.withConstant t) (h.withConstant (ρ.ty t)) ∧ Apart T h (h.withConstant (ρ.ty t)) := by
  have hpush := hr.push (.plain []) 0
  have hput := hpush.trans (hpush.ready.putTypes (hpush.not_shared hr.clean.not_shared_next) (.single t))
  have hclasses : ((g.push (.plain []) 0).2.putTypes g.next (.single t)).classes = g.classes :=
    classes_push g (.plain []) 0
  have hready := hput.ready.named (hr.clean.withConstant hv t) fun c info hc heq => by
    rw [Graph.class?, hclasses] at hc
    exact g.not_hasNode_next (heq ▸ hv.hasNode_class hc)
  have hapart := hput.apart
  rw [hr.copy.node_next, Renaming.rule, List.map_nil, Renaming.types_single] at hready hapart
  refine ⟨hready, { hapart with lookup := fun u i hu => ?_, shared := fun i hi => ?_ }⟩
  · rw [withConstant_eq, Graph.named, lookup_cons_eq_ite, if_neg]
    · exact hapart.lookup u i hu
    · rintro rfl
      rw [hnew] at hu
      cases hu
  · rw [withConstant_eq, shared_named, hapart.shared i hi]
    refine or_iff_right ?_
    rintro rfl
    exact h.not_hasNode_next hi

end Ready

theorem node?_withConstant (g : Graph) (t : Ty) (i : NodeId) : (g.withConstant t).node? i =
      if i = g.next then some ⟨.plain [], .single t, [], 0⟩ else g.node? i := by
  show (((g.append (.plain []) 0).schedule g.next).putTypes g.next (.single t)).node? i = _
  rw [Graph.putTypes, node?_modifyNode, schedule_eq]
  show (if g.next = i then ((g.append (.plain []) 0).node? i).map _ else
    (g.append (.plain []) 0).node? i) = _
  rw [node?_append]
  by_cases hi : i = g.next
  · subst hi
    rw [if_pos rfl, if_pos rfl, if_pos rfl]
    rfl
  · rw [if_neg fun heq => hi heq.symm, if_neg hi, if_neg hi]

theorem shared_withConstant : (g.withConstant t).Shared i ↔ i = g.next ∨ g.Shared i := by
  rw [withConstant_eq, shared_named]
  refine or_congr_right ⟨fun hs => hs.of_constants ?_, fun hs => hs.of_constants ?_⟩
  · exact aside_constants.push g (.plain []) 0
  · exact (aside_constants.push g (.plain []) 0).symm

theorem lookup_withConstant (g : Graph) (t u : Ty) :
    (g.withConstant t).constants.lookup u = if u = t then some g.next else g.constants.lookup u := by
  rw [withConstant_eq, Graph.named, lookup_cons_eq_ite]
  show (if u = t then some g.next else (g.push (.plain []) 0).2.constants.lookup u) = _
  rw [aside_constants.push]

theorem size_withConstant (g : Graph) (t : Ty) : (g.withConstant t).nodes.size = g.nodes.size + 1 := by
  show (((g.append (.plain []) 0).schedule g.next).putTypes g.next (.single t)).nodes.size = _
  rw [size_putTypes, schedule_eq]
  exact size_append g (.plain []) 0

theorem worklist_withConstant_eq (g : Graph) (t : Ty) :
    (g.withConstant t).worklist = enqueue g.worklist g.next := by
  show ((g.append (.plain []) 0).schedule g.next).worklist = _
  rw [schedule_eq]
  rfl

/-- A constant for a type that the original has no constant for is the copy of no node. -/
theorem Copy.node_ne_of_lookup (hc : Copy ρ g h) (hclean : g.Clean) (hcleanh : h.Clean)
    (hnew : g.constants.lookup t = none) (hj : h.constants.lookup (ρ.ty t) = some j) :
    ρ.node i ≠ j := by
  rintro rfl
  have hmem := mem_of_lookup_eq_some hj
  obtain ⟨u, hu⟩ := (hc.shared i).1 ⟨_, hmem⟩
  -- it would be a constant for the same type
  have htypes := hc.types i
  rw [(hcleanh.constants _ _ hmem).2, (hclean.constants u i hu).2, Renaming.types_single] at htypes
  have hut : ρ.ty t ∈ TypeSet.single (ρ.ty u) := htypes ▸ TypeSet.mem_single.2 rfl
  rw [TypeSet.mem_single, Renaming.ty_inj] at hut
  subst hut
  have hnot := List.lookup_eq_none_iff.1 hnew _ hu
  simp at hnot

/-- A type that the surroundings have a constant for, while the original has none.  The new node on
one side is renamed to the node that is there. -/
theorem Copy.share (hc : Copy ρ g h) (hv : g.Valid) (hclean : g.Clean) (hvh : h.Valid)
    (hcleanh : h.Clean) (hnew : g.constants.lookup t = none)
    (hj : h.constants.lookup (ρ.ty t) = some j) :
    ∃ ρ', ρ.Agree ρ' g ∧ ρ'.node g.next = j ∧ Copy ρ' (g.withConstant t) h := by
  have hg : g.InRange := hv.inRange hclean
  have hmem := mem_of_lookup_eq_some hj
  have hsharedj : h.Shared j := ⟨_, hmem⟩
  obtain ⟨ρ', hold, hlast, hafter, hclasses, hfunctions, hmodules⟩ := ρ.exists_redirect
    (hcleanh.hasNode hsharedj) (fun i hi => (hc.hasNode_iff ⟨i⟩).2 hi)
    (fun i _ heq => hc.node_ne_of_lookup (i := ⟨i⟩) hclean hcleanh hnew hj (NodeId.index_inj heq))
  have hagree : ρ.Agree ρ' g :=
    ⟨hold, fun i _ => congrFun hclasses i, fun i _ => congrFun hfunctions i, fun i _ => congrFun hmodules i⟩
  have hnext : ρ'.node g.next = j := NodeId.index_inj hlast
  have hty : ρ'.ty = ρ.ty := by
    funext u
    cases u <;> simp only [Renaming.ty, Renaming.ofClass, Renaming.ofFunction, Renaming.ofModule,
      hclasses, hfunctions, hmodules]
  -- the other numbers that are not in use are renamed to numbers that are not in use
  have hfree : ∀ {i : NodeId}, ¬ g.HasNode i → i ≠ g.next →
      ∃ k, i.index = g.nodes.size + 1 + k ∧ (ρ'.node i).index = h.nodes.size + k := by
    intro i hi hne
    have hindex : i.index ≠ g.nodes.size := fun heq => hne (NodeId.index_inj heq)
    have hle : g.nodes.size + 1 ≤ i.index :=
      lt_of_le_of_ne (le_of_not_gt hi) (Ne.symm hindex)
    obtain ⟨k, hk⟩ := Nat.exists_eq_add_of_le hle
    refine ⟨k, hk, ?_⟩
    show ρ'.nodes i.index = _
    rw [hk, hafter]
  have habsent : ∀ {i : NodeId}, ¬ g.HasNode i → i ≠ g.next → ¬ h.HasNode (ρ'.node i) := by
    intro i hi hne
    obtain ⟨k, -, hk⟩ := hfree hi hne
    exact not_lt.2 (hk ▸ Nat.le_add_right _ k)
  have hext := Extends.push g (.plain []) 0
  have hclass : (g.withConstant t).class? = g.class? := (tables_congr (classes_push g (.plain []) 0)).1
  have hfunction : (g.withConstant t).function? = g.function? := by
    funext f
    exact congrArg (fun fs : Array FunctionInfo => fs[f.index]?) hext.functions
  have hmodule : (g.withConstant t).module? = g.module? := by
    funext m
    exact congrArg (fun ms : Array ModuleInfo => ms[m.index]?) hext.modules
  have hne : ∀ {i : NodeId}, g.HasNode i → i ≠ g.next := fun hi heq => g.not_hasNode_next (heq ▸ hi)
  refine ⟨ρ', hagree, hnext,
    { nextNode := fun k => by rw [size_withConstant, hafter]
      nextClass := fun k => ?_
      nextFunction := fun k => ?_
      nextModule := fun k => ?_
      node? := fun i => ?_
      class? := fun c => ?_
      function? := fun f => ?_
      module? := fun m => ?_
      unboundAsNone := hc.unboundAsNone.trans hext.unboundAsNone.symm
      lookup := fun u i hu => ?_
      shared := fun i => ?_
      ordered := fun i k hi hk hik => ?_
      worklist := ?_ }⟩
  · rw [hclasses]
    exact (classes_push g (.plain []) 0) ▸ hc.nextClass k
  · rw [hfunctions]
    exact hext.functions ▸ hc.nextFunction k
  · rw [hmodules]
    exact hext.modules ▸ hc.nextModule k
  · rw [node?_withConstant]
    split
    · next heq =>
      subst heq
      obtain ⟨hrule, htypes⟩ := hcleanh.constants _ j hmem
      obtain ⟨m, hm, hmrule⟩ := rule?_eq_some_iff.1 hrule
      have hshared : (g.withConstant t).Shared g.next := shared_withConstant.2 (.inl rfl)
      rw [hnext, hm]
      refine .some ⟨hmrule, ?_, fun hs => absurd hshared hs, fun hs => absurd hshared hs⟩
      rw [← types_of_node? hm, htypes, Renaming.types_single, hty]
    · next hi =>
      by_cases hthere : g.HasNode i
      · obtain ⟨n, hn⟩ := Graph.hasNode_iff.1 hthere
        have hcopy := hc.node? i
        rw [hn] at hcopy
        obtain ⟨m, hm, hcopy⟩ := optionRel_some_left hcopy
        rw [hagree.node hthere, hn, hm]
        exact .some ((hcopy.agree hg hagree hn).mono fun hs => shared_withConstant.2 (.inr hs))
      · rw [node?_eq_none_iff.2 hthere, node?_eq_none_iff.2 (habsent hthere hi)]
        exact .none
  · rw [hclass, hg.map_class? hagree, ← hc.class?, Renaming.ofClass, hclasses]
    rfl
  · rw [hfunction, hg.map_function? hagree, ← hc.function?, Renaming.ofFunction, hfunctions]
    rfl
  · rw [hmodule, hg.map_module? hagree, ← hc.module?, Renaming.ofModule, hmodules]
    rfl
  · rw [lookup_withConstant] at hu
    rw [hty]
    split at hu
    · next heq =>
      cases hu
      rw [heq, hnext, hj]
    · rw [hagree.node (hg.constants u i (mem_of_lookup_eq_some hu)).2]
      exact hc.lookup u i hu
  · rw [shared_withConstant]
    by_cases hi : i = g.next
    · subst hi
      rw [hnext]
      exact iff_of_true hsharedj (.inl rfl)
    · rw [or_iff_right hi]
      by_cases hthere : g.HasNode i
      · rw [hagree.node hthere, hc.shared]
      · refine iff_of_false (fun hs => ?_) fun hs => hthere (hclean.hasNode hs)
        exact habsent hthere hi (hcleanh.hasNode hs)
  · rw [shared_withConstant, not_or] at hi hk
    by_cases hkn : g.HasNode k
    · have hin : g.HasNode i := lt_trans hik hkn
      rw [hagree.node hin, hagree.node hkn]
      exact hc.ordered i k hi.2 hk.2 hik
    · obtain ⟨l, hl, hl'⟩ := hfree hkn hk.1
      rw [hl']
      by_cases hin : g.HasNode i
      · rw [hagree.node hin]
        exact lt_of_lt_of_le ((hc.hasNode_iff i).2 hin) (Nat.le_add_right _ l)
      · obtain ⟨l', hli, hli'⟩ := hfree hin hi.1
        rw [hli']
        omega
  · have hleft : waiting ((g.withConstant t).Own ρ') h.worklist = waiting (g.Own ρ) h.worklist := by
      refine waiting_congr fun id hid => ⟨?_, ?_⟩
      · rintro ⟨i, hi, rfl⟩
        rw [shared_withConstant, not_or] at hi
        have hin : g.HasNode i := by
          by_contra hin
          exact habsent hin hi.1 (hvh.worklist _ hid)
        exact ⟨i, hi.2, (hagree.node hin).symm⟩
      · rintro ⟨i, hi, rfl⟩
        have hin : g.HasNode i := (hc.hasNode_iff i).1 (hvh.worklist _ hid)
        refine ⟨i, fun hs => ?_, hagree.node hin⟩
        exact (shared_withConstant.1 hs).elim (hne hin) hi
    have hright : waiting (fun i => ¬ (g.withConstant t).Shared i) (g.withConstant t).worklist =
        waiting (fun i => ¬ g.Shared i) g.worklist := by
      rw [worklist_withConstant_eq, waiting_enqueue_of_not fun hno => hno (shared_withConstant.2 (.inl rfl))]
      refine waiting_congr fun i hi => not_congr ?_
      rw [shared_withConstant, or_iff_right (hne (hv.worklist i hi))]
    rw [hleft, hright, hc.worklist]
    exact (hagree.map_node fun i hi => hv.worklist i (mem_waiting.1 hi).1).symm

namespace Beside

/-- **A constant that the right side asks for.**  If the left side has asked for it before, the two
share it. -/
theorem constant (hb : Beside ρ σ a b h) (hs : b.Sound) (hh : h.Sound) (hT : b.HasType t) :
    ∃ ρ' σ', Beside ρ' σ' a (b.constant t).2 (h.constant (σ.ty t)).2 ∧ ρ.Agree ρ' a ∧ σ.Agree σ' b ∧
      σ'.node (b.constant t).1 = (h.constant (σ.ty t)).1 := by
  rcases hright : b.constants.lookup t with - | i
  · have hbc : b.constant t = (b.next, b.withConstant t) := by
      unfold Graph.constant
      rw [hright]
      rfl
    have hvb : (b.withConstant t).Valid := (hs.withConstant hT).valid
    rw [hbc]
    rcases hall : h.constants.lookup (σ.ty t) with - | j
    · have hhc : h.constant (σ.ty t) = (h.next, h.withConstant (σ.ty t)) := by
        unfold Graph.constant
        rw [hall]
        rfl
      have hvh : (h.withConstant (σ.ty t)).Valid := (hh.withConstant (hb.right.hasType hT)).valid
      obtain ⟨hready, hapart⟩ := hb.ready.withConstant hb.rightValid hall
      obtain ⟨ρ', hagree, hbeside⟩ := hb.along hready hapart hvb hvh (hb.clean.withConstant hb.valid _)
      rw [hhc]
      exact ⟨ρ', σ, hbeside, hagree, .refl σ b, hb.right.node_next⟩
    · have hhc : h.constant (σ.ty t) = (j, h) := by
        unfold Graph.constant
        rw [hall]
      obtain ⟨σ', hagree, hnext, hcopy⟩ := hb.right.share hb.rightValid hb.rightClean hb.valid hb.clean
        hright hall
      have hlater := Later.withConstant b t
      rw [hhc]
      refine ⟨ρ, σ',
        { hb with
          right := hcopy
          rightValid := hvb
          rightClean := hb.rightClean.withConstant hb.rightValid t
          nodes := fun i k hi hk heq => ?_
          ofClass := fun c d hc hd heq => ?_
          ofFunction := fun f k hf hk heq => ?_
          ofModule := fun m n hm hn heq => ?_
          cover := fun id hid => ?_ }, .refl ρ a, hagree, hnext⟩
      · rw [shared_withConstant]
        by_cases hkn : k = b.next
        · subst hkn
          rw [hnext] at heq
          exact ⟨(hb.left.shared i).1 (heq ▸ ⟨_, mem_of_lookup_eq_some hall⟩), .inl rfl⟩
        · have hthere : b.HasNode k := by
            rw [HasNode, size_withConstant, Nat.lt_succ_iff_lt_or_eq] at hk
            exact hk.resolve_right fun heq' => hkn (NodeId.index_inj heq')
          rw [hagree.node hthere] at heq
          obtain ⟨hi', hk'⟩ := hb.nodes i k hi hthere heq
          exact ⟨hi', .inr hk'⟩
      · have hd' : d.index < b.classes.size := (classes_push b (.plain []) 0) ▸ hd
        exact hb.ofClass c d hc hd' (heq.trans (hagree.ofClass hd'))
      · have hk' : k.index < b.functions.size := (Extends.push b (.plain []) 0).functions ▸ hk
        exact hb.ofFunction f k hf hk' (heq.trans (hagree.ofFunction hk'))
      · have hn' : n.index < b.modules.size := (Extends.push b (.plain []) 0).modules ▸ hn
        exact hb.ofModule m n hm hn' (heq.trans (hagree.ofModule hn'))
      · rcases hb.cover id hid with hleft | ⟨k, hk, rfl⟩
        · exact .inl hleft
        · exact .inr ⟨k, hlater.hasNode hk, hagree.node hk⟩
  · have hbc : b.constant t = (i, b) := by
      unfold Graph.constant
      rw [hright]
    have hhc : h.constant (σ.ty t) = (σ.node i, h) := by
      unfold Graph.constant
      rw [hb.right.lookup t i hright]
    rw [hbc, hhc]
    exact ⟨ρ, σ, hb, .refl ρ a, .refl σ b, rfl⟩

end Beside

/-! ### Working everything out once more -/

theorem waiting_foldl_enqueue (p : NodeId → Prop) (ids work : List NodeId) :
    waiting p (ids.foldl enqueue work) = (waiting p ids).foldl enqueue (waiting p work) := by
  induction ids generalizing work with
  | nil => rfl
  | cons id ids ih =>
    rw [List.foldl_cons, ih]
    by_cases hid : p id
    · rw [waiting_enqueue_of hid, waiting_cons_of hid, List.foldl_cons]
    · rw [waiting_enqueue_of_not hid, waiting_cons_of_not hid]

theorem foldl_enqueue_of_nodup {work : List NodeId} (h : (work ++ ids).Nodup) :
    ids.foldl enqueue work = work ++ ids := by
  induction ids generalizing work with
  | nil => exact (List.append_nil work).symm
  | cons id ids ih =>
    have hnew : id ∉ work := fun hid =>
      (List.nodup_append.1 h).2.2 id hid id List.mem_cons_self rfl
    rw [List.foldl_cons, enqueue, if_neg hnew, ih, List.append_assoc, List.singleton_append]
    rwa [List.append_assoc, List.singleton_append]

/-- The numbers of all nodes, in order. -/
def everyone (g : Graph) : List NodeId := (List.range g.nodes.size).map NodeId.mk

theorem mem_everyone : id ∈ g.everyone ↔ g.HasNode id := by
  simp only [everyone, List.mem_map, List.mem_range]
  constructor
  · rintro ⟨i, hi, rfl⟩
    exact hi
  · exact fun hid => ⟨id.index, hid, rfl⟩

theorem pairwise_everyone (g : Graph) : g.everyone.Pairwise fun a b => a.index < b.index :=
  List.pairwise_map.2 List.pairwise_lt_range

/-- If nobody with a property waits, those with the property come up in the order of their numbers.
-/
theorem waiting_allScheduled (h : ∀ id ∈ g.worklist, ¬ p id) :
    waiting p g.allScheduled.worklist = waiting p g.everyone := by
  have hnone : waiting p g.worklist = [] := by simpa [waiting] using h
  rw [allScheduled_eq]
  show waiting p (g.everyone.foldl enqueue g.worklist) = _
  rw [waiting_foldl_enqueue, hnone, foldl_enqueue_of_nodup, List.nil_append]
  rw [List.nil_append]
  have hpairwise : (waiting p g.everyone).Pairwise fun a b => a.index < b.index :=
    (pairwise_everyone g).sublist List.filter_sublist
  refine hpairwise.imp ?_
  rintro i j hlt rfl
  exact lt_irrefl _ hlt

/-- The nodes of a copy come up in the same order as the nodes that they are copies of. -/
theorem Copy.allScheduled (hc : Copy ρ g h) (hg : ∀ id ∈ g.worklist, g.Shared id)
    (hh : ∀ id ∈ h.worklist, h.Shared id) : Copy ρ g.allScheduled h.allScheduled := by
  have hleft : ∀ id ∈ h.worklist, ¬ g.Own ρ id := by
    rintro id hid ⟨i, hi, rfl⟩
    exact hi ((hc.shared i).1 (hh _ hid))
  have hwork : waiting (g.Own ρ) h.allScheduled.worklist =
      (waiting (fun id => ¬ g.Shared id) g.allScheduled.worklist).map ρ.node := by
    rw [waiting_allScheduled hleft, waiting_allScheduled fun id hid hno => hno (hg id hid)]
    have : Std.Irrefl fun a b : NodeId => a.index < b.index := ⟨fun _ => lt_irrefl _⟩
    have : Std.Antisymm fun a b : NodeId => a.index < b.index :=
      ⟨fun _ _ hab hba => absurd (lt_trans hab hba) (lt_irrefl _)⟩
    refine List.Pairwise.eq_of_mem_iff (r := fun a b : NodeId => a.index < b.index) ?_ ?_ fun id => ?_
    · exact (pairwise_everyone h).sublist List.filter_sublist
    · rw [List.pairwise_map]
      refine ((pairwise_everyone g).sublist List.filter_sublist).imp_of_mem ?_
      intro i j hi hj hij
      exact hc.ordered i j (mem_waiting.1 hi).2 (mem_waiting.1 hj).2 hij
    · rw [mem_waiting, mem_everyone, List.mem_map]
      constructor
      · rintro ⟨hid, i, hi, rfl⟩
        exact ⟨i, mem_waiting.2 ⟨mem_everyone.2 ((hc.hasNode_iff i).1 hid), hi⟩, rfl⟩
      · rintro ⟨i, hi, rfl⟩
        obtain ⟨hin, hi⟩ := mem_waiting.1 hi
        exact ⟨(hc.hasNode_iff i).2 (mem_everyone.1 hin), i, hi, rfl⟩
  rw [allScheduled_eq, allScheduled_eq] at hwork ⊢
  exact { hc with worklist := hwork }

/-- **When all nodes are worked out once more, both sides fare as they would by themselves.** -/
theorem Beside.repropagate (hb : Beside ρ σ a b h) (ha : a.Sound) (hs : b.Sound) (hh : h.Sound) :
    ∃ ρ' σ', Beside ρ' σ' a.repropagate.2 b.repropagate.2 h.repropagate.2 ∧ ρ.Agree ρ' a ∧
      σ.Agree σ' b := by
  have hscheduled : Beside ρ σ a.allScheduled b.allScheduled h.allScheduled := by
    have hleft := hb.left.allScheduled ha.idle hh.idle
    have hright := hb.right.allScheduled hs.idle hh.idle
    have hva := hb.leftValid.allScheduled
    have hvb := hb.rightValid.allScheduled
    have hvh := hb.valid.allScheduled
    have hcleana := hb.leftClean.of_same (.allScheduled a)
    have hcleanb := hb.rightClean.of_same (.allScheduled b)
    have hcleanh := hb.clean.of_same (.allScheduled h)
    rw [allScheduled_eq a] at hleft hva hcleana ⊢
    rw [allScheduled_eq b] at hright hvb hcleanb ⊢
    rw [allScheduled_eq h] at hleft hright hvh hcleanh ⊢
    exact
      { hb with
        left := hleft
        right := hright
        leftValid := hva
        leftClean := hcleana
        rightValid := hvb
        rightClean := hcleanb
        valid := hvh
        clean := hcleanh }
  obtain ⟨ρ', σ', hbeside, hρ, hσ⟩ := hscheduled.propagate
  exact ⟨ρ', σ', hbeside, hρ.earlier ha.prepared_allScheduled.later,
    hσ.earlier hs.prepared_allScheduled.later⟩

end Graph

end FlowTyping
