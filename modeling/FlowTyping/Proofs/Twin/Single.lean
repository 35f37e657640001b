/-
An analysis beside itself.

If every number of a graph is paired only with itself, then the two sides of a twin are one
analysis.  What is left of the relation between them is what each number is worth: a node that is
paired exists, a receiver is no shared constant either, and a class, a function or a module that is
paired has been added.  So a single analysis never mentions what is not there, never puts anything
into a constant, and never asks for a scope or a parameter that it does not have
(`tidy_walkModule`).
-/
import FlowTyping.Proofs.Graph.Range
import FlowTyping.Proofs.Twin.Definition

namespace FlowTyping

open FlowTyping.Graph (Request Since Later)

variable {ρ ρ' : Renaming} {g g' start : Graph} {t : Ty} {r : Request} {context : Context}

/-! ### A graph and its numbers -/

/-- Each number of a graph, paired with the one that it has in a copy. -/
def Graph.renamed (g : Graph) (ρ : Renaming) : Pairing where
  node i j := ρ.node i = j ∧ g.HasNode i
  receiver i j := ρ.node i = j ∧ g.HasNode i ∧ ¬ g.Shared i
  ofClass c d := ρ.ofClass c = d ∧ c.index < g.classes.size
  ofFunction f k := ρ.ofFunction f = k ∧ f.index < g.functions.size
  ofModule m n := ρ.ofModule m = n ∧ m.index < g.modules.size

theorem Graph.Later.renamed (hl : Later g g') (hagree : ρ.Agree ρ' g)
    (hshared : ∀ id, g.HasNode id → g'.Shared id → g.Shared id) :
    (g.renamed ρ).Grows (g'.renamed ρ') where
  node hi := ⟨(hagree.node hi.2).trans hi.1, hl.hasNode hi.2⟩
  receiver hi := ⟨(hagree.node hi.2.1).trans hi.1, hl.hasNode hi.2.1,
    fun hs => hi.2.2 (hshared _ hi.2.1 hs)⟩
  ofClass hc := ⟨(hagree.ofClass hc.2).trans hc.1, lt_of_lt_of_le hc.2 hl.classCount⟩
  ofFunction hf := ⟨(hagree.ofFunction hf.2).trans hf.1, lt_of_lt_of_le hf.2 hl.functionCount⟩
  ofModule hm := ⟨(hagree.ofModule hm.2).trans hm.1, lt_of_lt_of_le hm.2 hl.moduleCount⟩

theorem Graph.renamed_pairs (g : Graph) (ρ : Renaming) : (g.renamed ρ).Grows ρ.pairs :=
  ⟨And.left, And.left, And.left, And.left, And.left⟩

/-- Each number of a graph, paired with itself. -/
def Graph.numbers (g : Graph) : Pairing where
  node a b := a = b ∧ g.HasNode a
  receiver a b := a = b ∧ g.HasNode a ∧ ¬ g.Shared a
  ofClass c d := c = d ∧ c.index < g.classes.size
  ofFunction f k := f = k ∧ f.index < g.functions.size
  ofModule m n := m = n ∧ m.index < g.modules.size

theorem Graph.Later.numbers (h : Later g g')
    (hshared : ∀ id, g.HasNode id → g'.Shared id → g.Shared id) : g.numbers.Grows g'.numbers :=
  h.renamed (.refl .id g) hshared

theorem Graph.numbers_same (g : Graph) : g.numbers.Grows .same := g.renamed_pairs .id

theorem forall_left {α β : Type} {R : α → β → Prop} {p : α → Prop} {as : List α} {bs : List β}
    (h : List.Forall₂ R as bs) (hR : ∀ {a b}, R a b → p a) : ∀ a ∈ as, p a := by
  induction h with
  | nil => exact fun _ ha => absurd ha List.not_mem_nil
  | cons hab _ ih => exact List.forall_mem_cons.2 ⟨hR hab, ih⟩

/-- What a pairing pairs on the left is there in a graph, and nothing is put into its constants. -/
structure Pairing.Within (w : Pairing) (g : Graph) : Prop where
  node : ∀ {a b}, w.node a b → g.HasNode a
  receiver : ∀ {a b}, w.receiver a b → g.HasNode a ∧ ¬ g.Shared a
  ofClass : ∀ {c d}, w.ofClass c d → c.index < g.classes.size
  ofFunction : ∀ {f k}, w.ofFunction f k → f.index < g.functions.size
  ofModule : ∀ {m n}, w.ofModule m n → m.index < g.modules.size

theorem Graph.renamed_within (g : Graph) (ρ : Renaming) : (g.renamed ρ).Within g :=
  ⟨And.right, And.right, And.right, And.right, And.right⟩

theorem Graph.numbers_within (g : Graph) : g.numbers.Within g := g.renamed_within .id

namespace Pairing.Within

variable {w : Pairing}

theorem hasType {u : Ty} (hw : w.Within g) (h : w.TyMatch t u) : g.HasType t := by
  cases h with
  | @fixed t h => cases t <;> first | exact trivial | exact h.elim
  | classObject h | instanceOf h => exact hw.ofClass h
  | function h | method h => exact hw.ofFunction h
  | moduleObject h => exact hw.ofModule h

theorem rule {r r' : Rule} (hw : w.Within g) (h : w.RuleMatch r r') :
    (∀ n ∈ r.mentioned, g.HasNode n) ∧ r.isMembers = false := by
  have hone : ∀ {a b : NodeId}, w.node a b → ∀ n ∈ [a], g.HasNode n := fun ha n hn =>
    List.mem_singleton.1 hn ▸ hw.node ha
  have htwo : ∀ {a b a' b' : NodeId}, w.node a a' → w.node b b' → ∀ n ∈ [a, b], g.HasNode n :=
    fun ha hb => List.forall_mem_cons.2 ⟨hw.node ha, hone hb⟩
  cases h with
  | plain h => exact ⟨forall_left h hw.node, rfl⟩
  | merge => exact ⟨fun n hn => absurd hn List.not_mem_nil, rfl⟩
  | binary op h h' | write attr h h' | subscript h h' => exact ⟨htwo h h', rfl⟩
  | unary op h | read attr h | iterate h => exact ⟨hone h, rfl⟩
  | call h hargs =>
    refine ⟨List.forall_mem_cons.2 ⟨hw.node h, fun n hn => ?_⟩, rfl⟩
    obtain ⟨a, ha, rfl⟩ := List.mem_map.1 hn
    exact forall_left (p := fun a => g.HasNode a.value) hargs (fun h => hw.node h.value) a ha

/-- **A request that is paired is proper.** -/
theorem proper {r' : Request} (hw : w.Within g) (h : w.RequestMatch r r') : r.Given g ∧ r.Spares g := by
  cases h with
  | add h line => exact ⟨hw.rule h, trivial⟩
  | constant h => exact ⟨hw.hasType h, trivial⟩
  | addToMerge h hvalues =>
    refine ⟨⟨hw.node h, fun n hn => ?_⟩, trivial⟩
    obtain ⟨a, ha, han⟩ := List.mem_filterMap.1 hn
    refine forall_left (p := fun a => ∀ n, a = .value n → g.HasNode n) hvalues (fun h n hn => ?_) a ha n ?_
    · subst hn
      cases h with
      | value h => exact hw.node h
    · cases a with
      | value m => rw [Option.some.inj han]
      | unbound => cases han
  | addInput h hinput => exact ⟨⟨(hw.receiver h).1, hw.node hinput⟩, (hw.receiver h).2⟩
  | seed h htypes => exact ⟨⟨(hw.receiver h).1, forall_left htypes hw.hasType⟩, (hw.receiver h).2⟩
  | addClass name line => exact ⟨trivial, trivial⟩
  | setBases h hbases => exact ⟨⟨hw.ofClass h, forall_left hbases hw.node⟩, trivial⟩
  | addOwnMember h name hnode => exact ⟨⟨hw.ofClass h, (hw.receiver hnode).1⟩, (hw.receiver hnode).2⟩
  | addFunction h =>
    have hparams := forall_left (p := fun p => g.HasNode p.node ∧ ¬ g.Shared p.node) h.params
      fun h => hw.receiver h.node
    exact ⟨⟨(hw.receiver h.returns).1, fun p hp => (hparams p hp).1⟩, fun p hp => (hparams p hp).2,
      (hw.receiver h.returns).2⟩
  | setExport h name hnode => exact ⟨⟨hw.ofModule h, (hw.receiver hnode).1⟩, (hw.receiver hnode).2⟩

end Pairing.Within

/-! ### The answers to requests -/

namespace Graph

theorem hasNode_constant (hv : g.Valid) : (g.constant t).2.HasNode (g.constant t).1 := by
  rcases constant_cases g t with ⟨id, hid, heq⟩ | heq
  · rw [heq]
    exact hv.constants _ hid
  · rw [heq]
    exact (hasNode_modifyNode _ _ _ _).2 (g.hasNode_push_next _ 0)

theorem lt_classes_addClass (hs : g.Sound) (name : String) (line : Nat) :
    g.classes.size < (g.addClass name line).2.classes.size := by
  have hext := drain_extends (g.withClass name line).budget (hs.valid.withClass name line)
  have hcount : (g.addClass name line).2.classes.size = (g.withClass name line).classes.size :=
    hext.classCount
  rw [hcount, classes_withClass, Array.size_push]
  exact Nat.lt_succ_self _

theorem not_shared_add {rule : Rule} {line : Nat} (h : g.Clean) :
    ¬ ((Request.add rule line).run g).Shared g.next := by
  intro hshared
  exact h.not_shared_next (hshared.of_constants (constants_run g fun t ht => Request.noConfusion ht))

/-- What a proper request answers is one of the numbers afterwards. -/
theorem Since.answered (h : Since start g) (hr : r.Given g) :
    (r.run g).numbers.Answered g g r r := by
  cases r with
  | add rule line =>
    have hthere := (h.sound.prepared_change hr).valid
    exact ⟨rfl, hasNode_add g rule line hthere, not_shared_add h.clean⟩
  | constant t => exact ⟨rfl, hasNode_constant h.sound.valid⟩
  | addClass name line => exact ⟨rfl, lt_classes_addClass h.sound name line⟩
  | addFunction info =>
    refine ⟨rfl, ?_⟩
    show g.functions.size < (g.functions.push info).size
    rw [Array.size_push]
    exact Nat.lt_succ_self _
  | _ => exact trivial

end Graph

/-! ### The twin -/

open Inference

/-- An analysis beside itself, over a graph that grows from a given one. -/
def Twin.single (context : Context) (start : Graph) : Twin where
  left := context
  right := context
  agrees := .refl context
  graphs w g h := h = g ∧ w = g.numbers ∧ Since start g
  node_of_receiver := by
    rintro w g h a b ⟨-, rfl, -⟩ hab
    exact ⟨hab.1, hab.2.1⟩
  node_inj := by
    rintro w g h a b a' b' ⟨-, rfl, -⟩ ⟨rfl, -⟩ ⟨rfl, -⟩
    exact Iff.rfl
  run := by
    rintro w g h r r' ⟨rfl, rfl, hsince⟩ hmatch
    obtain rfl := (hmatch.mono h.numbers_same).eq
    obtain ⟨hr, hspares⟩ := h.numbers_within.proper hmatch
    exact ⟨(r.run h).numbers, (hsince.sound.request hr).later.numbers fun id hid hs =>
      hs.of_request hid, ⟨rfl, rfl, hsince.request hr hspares⟩, hsince.answered hr⟩
  classNodes := by
    rintro w g h c d ⟨rfl, rfl, hsince⟩ ⟨rfl, hc⟩
    obtain ⟨info, hinfo⟩ := Graph.class?_isSome hc
    rw [Graph.classNodes_eq hinfo]
    exact .cons ⟨rfl, hsince.sound.valid.hasNode_class hinfo⟩ .nil
  returns := by
    rintro w g h f k ⟨rfl, rfl, hsince⟩ ⟨rfl, hf⟩
    have hinfo : h.function? f = some h.functions[f.index] := Array.getElem?_eq_getElem hf
    rw [hinfo]
    exact .some ⟨rfl, hsince.sound.valid.functions f _ hinfo, hsince.clean.returns f _ hinfo⟩
  exported := by
    rintro w g h m n ⟨rfl, rfl, hsince⟩ ⟨rfl, hm⟩ name
    rcases hexport : (h.module? m).bind (·.exports.get? name) with - | node
    · exact .none
    · obtain ⟨info, hinfo, hget⟩ := Option.bind_eq_some_iff.1 hexport
      exact .some ⟨rfl, (hsince.sound.valid.modules m info hinfo).exported _
        (Table.mem_entries_of_get? hget)⟩
  knownKinds := by
    rintro w g h a b ⟨rfl, rfl, -⟩ ⟨rfl, -⟩
    rfl
  accepted := by
    rintro w g h a b ⟨rfl, rfl, -⟩ ⟨rfl, -⟩ position
    rfl

/-! ### What an analysis leaves -/

namespace Inference

/-- All that a scope names exists, and the names that it binds stand for no constants. -/
structure Scope.Holds (g : Graph) (scope : Scope) : Prop where
  ofClass : ∀ c, scope.kind = .classBody c → c.index < g.classes.size
  ofFunction : ∀ f, scope.kind = .functionBody f → f.index < g.functions.size
  bindings : ∀ e ∈ scope.bindings.entries, g.HasNode e.2 ∧ ¬ g.Shared e.2
  summaries : ∀ e ∈ scope.summaries.entries, g.HasNode e.2 ∧ ¬ g.Shared e.2
  loops : ∀ e ∈ scope.loops.entries, g.HasNode e.2
  frames : ∀ frame ∈ scope.frames, ∀ e ∈ frame.entries, g.HasNode e.2

/-- The scopes of a walk, open or closed. -/
def State.everyScope (s : State) : List Scope := s.scopes.toList ++ s.left

/-- The state of a walk that started over a given graph: all numbers in it are those of something,
the names of all scopes stand for no constants, the slots are those of unknown parameters, and
nothing was asked for that is not there. -/
structure State.Tidy (start : Graph) (s : State) : Prop where
  since : Since start s.graph
  scopes : ∀ scope ∈ s.everyScope, scope.Holds s.graph
  slots : ∀ e ∈ s.slots.entries, ∃ u, s.unknowns[e.2.function]? = some u ∧ u.params[e.2.position]? = some e.1
  starImports : ∀ m ∈ s.starImports, m.index < s.graph.modules.size
  functions : ∀ f ∈ s.functions, f.index < s.graph.functions.size
  checks : ∀ id ∈ s.checks, s.graph.HasNode id
  constructors : ∀ c ∈ s.constructors, c.owner.index < s.graph.classes.size ∧
    s.graph.HasNode c.returns
  strays : s.strays = 0

end Inference

theorem Table.Match.forall_mem {κ α : Type} {R : α → α → Prop} {p : α → Prop} {t : Table κ α}
    (h : t.Match R t) (hR : ∀ {a b}, R a b → p a) : ∀ e ∈ t.entries, p e.2 :=
  forall_left (p := fun e => p e.2) h fun he => hR he.2

theorem Inference.Scope.holds_of_match {scope : Scope} (h : g.numbers.ScopeMatch scope scope) :
    scope.Holds g where
  ofClass c hc := by
    have hkind := h.kind
    rw [hc] at hkind
    cases hkind with
    | classBody hcc => exact hcc.2
  ofFunction f hf := by
    have hkind := h.kind
    rw [hf] at hkind
    cases hkind with
    | functionBody hff => exact hff.2
  bindings := h.bindings.forall_mem And.right
  summaries := h.summaries.forall_mem And.right
  loops := h.loops.forall_mem And.right
  frames frame hframe := (List.forall₂_same.1 h.frames frame hframe).forall_mem And.right

/-- Two sides that agree are one side in good order. -/
theorem Twin.States.tidy {vs : List Versions} {ds : List Diagnostic}
    {w : Pairing} {s : State} (h : (Twin.single context start).States vs ds w s s) : s.Tidy start := by
  obtain ⟨-, rfl, hsince⟩ := h.graph
  refine ⟨hsince, fun scope hscope => Inference.Scope.holds_of_match ?_, h.unknowns.placed, ?_, ?_, ?_, ?_, h.strays.1⟩
  · rcases List.mem_append.1 hscope with hopen | hclosed
    · obtain ⟨d, hd, hget⟩ := Array.getElem_of_mem (Array.mem_def.2 hopen)
      have hthere : s.scopes[d]? = some scope := hget ▸ Array.getElem?_eq_getElem hd
      have hrel := h.scopes.get d
      rw [hthere] at hrel
      exact Option.rel_some_some.1 hrel
    · exact List.forall₂_same.1 h.left scope hclosed
  · exact fun m hm => (List.forall₂_same.1 h.starImports m hm).2
  · exact fun f hf => (List.forall₂_same.1 h.functions f hf).2
  · exact fun id hid => (List.forall₂_same.1 h.checks id hid).2
  · intro c hc
    have hmatch := List.forall₂_same.1 h.constructors c hc
    exact ⟨hmatch.owner.2, hmatch.returns.2.1⟩

/-- **The analysis of a module leaves everything in good order.** -/
theorem Inference.tidy_walkModule (hs : g.Sound) (hclean : g.Clean)
    (hmodule : context.module.index < g.modules.size)
    (himports : ∀ name id, context.imports.get? name = some (.module id) →
      id.index < g.modules.size) (body : List Stmt) :
    (walkModule body context (.start g)).2.Tidy g := by
  have hstart : (Twin.single context g).States [] [] g.numbers (.start g) (.start g) := by
    refine Twin.states_start ⟨rfl, rfl, .refl hs hclean⟩ ⟨rfl, hmodule⟩ fun name => ?_
    show Option.Rel _ (context.imports.get? name) (context.imports.get? name)
    rcases htarget : context.imports.get? name with - | (id | - | -)
    · exact .none
    · exact .some (.module ⟨rfl, himports name id htarget⟩)
    · exact .some .cyclic
    · exact .some .missing
  obtain ⟨w, -, hend⟩ := Twin.states_walkModule hstart body
  exact Twin.States.tidy hend

end FlowTyping
