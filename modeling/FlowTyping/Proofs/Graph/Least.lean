/-
Graphs of values: the sets are the least ones that the rules and the seeds allow.

Without classes, functions and modules a rule works on types one by one (`Yields`), and a family of
sets supports a graph if each set has what was seeded into it and what its rule yields.  At the end
the sets are the least family that supports the graph: they support it because the graph has come to
rest, and nothing but seeds and rules ever put a type into a set.  A least family is unique, so the
order of nodes, inputs and seeds did not matter.
-/
import FlowTyping.Proofs.Graph.Request

namespace FlowTyping

open List

/-- A type that mentions no class, function or module. -/
def Ty.IsBare : Ty → Prop
  | .classObject _ | .instanceOf _ | .function _ | .method _ | .moduleObject _ => False
  | _ => True

/-- A rule for values: no call, no write, no subscript, no class. -/
def Rule.IsBasic : Rule → Prop
  | .plain _ | .merge _ | .binary .. | .unary .. | .read .. | .iterate _ => True
  | _ => False

/-- Two rules that are the same up to the order of inputs. -/
def Rule.SameInputs (r r' : Rule) : Prop := r.Extends r' ∧ r'.Extends r

namespace Graph

variable {g g' k : Graph} {F : NodeId → Set Ty} {calls : List Call} {id : NodeId} {r : Rule}
  {seeded : NodeId → Ty → Prop} {t : Ty} {u : Bool} {types : TypeSet}

/-! ### What rules yield, type by type -/

/-- What a rule makes of a family of sets, where no class, function or module is around. -/
def Yields (unboundAsNone : Bool) (F : NodeId → Set Ty) : Rule → Set Ty
  | .plain inputs => { t | ∃ i ∈ inputs, t ∈ F i }
  | .merge incoming =>
    { t | (∃ n, .value n ∈ incoming ∧ t ∈ F n) ∨
      (.unbound ∈ incoming ∧ unboundAsNone = true ∧ t = .base .none) }
  | .binary op left right =>
    { t | ∃ l ∈ F left, ∃ r ∈ F right, t ∈ ((empty unboundAsNone).binary op l r).types }
  | .unary op operand => { t | ∃ u ∈ F operand, t ∈ ((empty unboundAsNone).unary op u).types }
  | .read object attr => { t | ∃ u ∈ F object, t ∈ ((empty unboundAsNone).attributeOf attr u).types }
  | .iterate source => { t | ∃ u ∈ F source, t ∈ ((empty unboundAsNone).element u).types }
  | .subscript .. | .call .. | .write .. | .members _ => ∅

def family (g : Graph) (id : NodeId) : Set Ty := { t | t ∈ g.types id }

theorem Yields.mono {F' : NodeId → Set Ty} {r' : Rule} (hF : F ≤ F') (hr : r.Extends r') :
    Yields u F r ⊆ Yields u F' r' := by
  intro t ht
  cases hr with
  | refl =>
    cases r with
    | plain inputs =>
      obtain ⟨i, hi, ht⟩ := ht
      exact ⟨i, hi, hF i ht⟩
    | merge incoming =>
      rcases ht with ⟨n, hn, ht⟩ | ht
      · exact .inl ⟨n, hn, hF n ht⟩
      · exact .inr ht
    | binary op left right =>
      obtain ⟨l, hl, b, hb, ht⟩ := ht
      exact ⟨l, hF left hl, b, hF right hb, ht⟩
    | unary op operand =>
      obtain ⟨v, hv, ht⟩ := ht
      exact ⟨v, hF operand hv, ht⟩
    | read object attr =>
      obtain ⟨v, hv, ht⟩ := ht
      exact ⟨v, hF object hv, ht⟩
    | iterate source =>
      obtain ⟨v, hv, ht⟩ := ht
      exact ⟨v, hF source hv, ht⟩
    | _ => exact ht
  | plain hi =>
    obtain ⟨i, hm, ht⟩ := ht
    exact ⟨i, hi i hm, hF i ht⟩
  | merge hi =>
    rcases ht with ⟨n, hn, ht⟩ | ⟨hn, hu⟩
    · exact .inl ⟨n, hi _ hn, hF n ht⟩
    · exact .inr ⟨hi _ hn, hu⟩

/-! ### Bare types see no graph -/

/-- From no node at all, every graph looks like the empty one. -/
theorem alike_empty (g : Graph) :
    Alike .id nobody (fun _ => False) (fun _ => False) (empty g.unboundAsNone) g := by
  refine ⟨nofun, fun w t ht => ?_, nofun, nofun, nofun, rfl⟩
  simp [Graph.types, empty] at ht

theorem known_of_bare (h : t.IsBare) : Known (fun _ => False) (fun _ => False) t := by
  cases t <;> first | exact absurd h not_false | trivial

/-- A finding in the empty graph watches nothing, so that it is the same in every graph. -/
theorem eq_of_follows_empty {f f' : Finding} (h : Finding.Follows .id nobody f f')
    (hw : ∀ w ∈ f.watched, (empty u).HasNode w) : f' = f := by
  simpa using h fun w hmem => absurd (hw w hmem) (Nat.not_lt_zero _)

theorem binary_of_bare {l r : Ty} (hl : l.IsBare) (hr : r.IsBare) (op : BinaryOp) :
    g.binary op l r = (empty g.unboundAsNone).binary op l r := by
  have hv := valid_empty g.unboundAsNone
  apply eq_of_follows_empty (u := g.unboundAsNone)
  · simpa using (alike_empty g).binary (known_of_bare hl) (known_of_bare hr) op
  · exact (hv.supplies.binary op l r).watched

theorem unary_of_bare (ht : t.IsBare) (op : UnaryOp) :
    g.unary op t = (empty g.unboundAsNone).unary op t := by
  have hv := valid_empty g.unboundAsNone
  apply eq_of_follows_empty (u := g.unboundAsNone)
  · simpa using (alike_empty g).unary (known_of_bare ht) op
  · exact (hv.supplies.unary op t).watched

theorem attributeOf_of_bare (ht : t.IsBare) (attr : String) :
    g.attributeOf attr t = (empty g.unboundAsNone).attributeOf attr t := by
  have hv := valid_empty g.unboundAsNone
  have hno : ∀ m, t ≠ .moduleObject m := by
    rintro m rfl
    exact ht
  apply eq_of_follows_empty (u := g.unboundAsNone)
  · simpa using (alike_empty g).attributeOf (known_of_bare ht) hno attr
  · exact (hv.supplies.attributeOf attr trivial).watched

theorem element_of_bare (ht : t.IsBare) : g.element t = (empty g.unboundAsNone).element t := by
  have hv := valid_empty g.unboundAsNone
  apply eq_of_follows_empty (u := g.unboundAsNone)
  · simpa using (alike_empty g).element (known_of_bare ht)
  · exact (hv.supplies.element t).watched

/-- **A basic rule finds exactly what it yields**, if all sets are bare. -/
theorem find?_iff_yields (hbare : ∀ id t, t ∈ g.types id → t.IsBare) (hr : r.IsBasic) :
    (∃ f, g.find? r = some f ∧ t ∈ f.types) ↔ t ∈ Yields g.unboundAsNone g.family r := by
  cases r with
  | plain inputs =>
    simp only [find?, Option.some.injEq, exists_eq_left', Finding.types_gives, mem_foldl_union]
    simp [Yields, family]
  | merge incoming =>
    simp only [find?, Option.some.injEq, exists_eq_left', Finding.types_gives, mem_foldl_union,
      TypeSet.not_mem_empty, false_or]
    constructor
    · rintro ⟨i, hi, ht⟩
      cases i with
      | value n => exact .inl ⟨n, hi, ht⟩
      | unbound =>
        simp only [incomingTypes] at ht
        split at ht
        · next hu => exact .inr ⟨hi, hu, TypeSet.mem_single.1 ht⟩
        · exact absurd ht (TypeSet.not_mem_empty t)
    · rintro (⟨n, hn, ht⟩ | ⟨hn, hu, rfl⟩)
      · exact ⟨.value n, hn, ht⟩
      · refine ⟨.unbound, hn, ?_⟩
        rw [incomingTypes, if_pos hu]
        exact TypeSet.mem_single.2 rfl
  | binary op left right =>
    constructor
    · rintro ⟨f, hf, ht⟩
      simp only [find?] at hf
      split at hf
      · cases hf
      · cases hf
        obtain ⟨k, hk, ht⟩ := Finding.mem_types_join.1 ht
        simp only [mem_flatMap, mem_map] at hk
        obtain ⟨l, hl, b, hb, rfl⟩ := hk
        rw [binary_of_bare (hbare left l hl) (hbare right b hb)] at ht
        exact ⟨l, hl, b, hb, ht⟩
    · rintro ⟨l, hl, b, hb, ht⟩
      rw [← binary_of_bare (hbare left l hl) (hbare right b hb)] at ht
      have hne : ((g.types left).isEmpty || (g.types right).isEmpty) = false := by
        rw [Bool.or_eq_false_iff, TypeSet.isEmpty, TypeSet.isEmpty,
          isEmpty_eq_false_iff_exists_mem, isEmpty_eq_false_iff_exists_mem]
        exact ⟨⟨l, hl⟩, ⟨b, hb⟩⟩
      refine ⟨_, by rw [find?, hne]; rfl, Finding.mem_types_join.2 ⟨g.binary op l b, ?_, ht⟩⟩
      exact mem_flatMap.2 ⟨l, hl, mem_map_of_mem hb⟩
  | unary op operand =>
    refine exists_forEach.trans (exists_congr fun v => and_congr_right fun hv => ?_)
    rw [unary_of_bare (hbare operand v hv)]
  | read object attr =>
    refine exists_forEach.trans (exists_congr fun v => and_congr_right fun hv => ?_)
    rw [attributeOf_of_bare (hbare object v hv)]
  | iterate source =>
    refine exists_forEach.trans (exists_congr fun v => and_congr_right fun hv => ?_)
    rw [element_of_bare (hbare source v hv)]
  | _ => exact absurd hr not_false

/-! ### Calls -/

/-- A call that adds to a graph of values. -/
inductive Call where
  | plain (line : Nat)
  | union (inputs : List NodeId) (line : Nat)
  | constant (t : Ty)
  | merge (line : Nat)
  | addToMerge (id : NodeId) (values : List Incoming)
  | binary (op : BinaryOp) (left right : NodeId) (line : Nat)
  | unary (op : UnaryOp) (operand : NodeId) (line : Nat)
  | read (object : NodeId) (attr : String) (line : Nat)
  | iterate (source : NodeId) (line : Nat)
  | addInput (id input : NodeId)
  | seed (id : NodeId) (types : TypeSet)

namespace Call

def run (g : Graph) : Call → Graph
  | plain line => (g.add (.plain []) line).2
  | union inputs line => (g.add (.plain inputs) line).2
  | constant t => (g.constant t).2
  | merge line => (g.add (.merge []) line).2
  | addToMerge id values => g.addToMerge id values
  | binary op left right line => (g.add (.binary op left right) line).2
  | unary op operand line => (g.add (.unary op operand) line).2
  | read object attr line => (g.add (.read object attr) line).2
  | iterate source line => (g.add (.iterate source) line).2
  | addInput id input => g.addInput id input
  | seed id types => g.seed id types

/-- Whether a call gives nodes that exist and types that mention no class, function or module. -/
def Allowed (g : Graph) : Call → Prop
  | plain _ | merge _ => True
  | union inputs _ => ∀ i ∈ inputs, g.HasNode i
  | constant t => t.IsBare
  | addToMerge id values => g.HasNode id ∧ ∀ n, .value n ∈ values → g.HasNode n
  | binary _ left right _ => g.HasNode left ∧ g.HasNode right
  | unary _ operand _ => g.HasNode operand
  | read object _ _ => g.HasNode object
  | iterate source _ => g.HasNode source
  | addInput id input => g.HasNode id ∧ g.HasNode input
  | seed id types => g.HasNode id ∧ ∀ t ∈ types, t.IsBare

/-- The types that a call puts into a node by itself. -/
def Seeds (g : Graph) : Call → NodeId → Ty → Prop
  | constant t, id, u => id = (g.constant t).1 ∧ u = t
  | seed id types, id', u => id' = id ∧ u ∈ types
  | _, _, _ => False

def runAll (g : Graph) (calls : List Call) : Graph := calls.foldl run g

/-- Whether each call of a sequence is allowed when its turn comes. -/
def AllAllowed (g : Graph) : List Call → Prop
  | [] => True
  | call :: calls => call.Allowed g ∧ AllAllowed (call.run g) calls

/-- The types that the calls of a sequence put into a node by themselves. -/
def Seeded (g : Graph) : List Call → NodeId → Ty → Prop
  | [], _, _ => False
  | call :: calls, id, t => call.Seeds g id t ∨ Seeded (call.run g) calls id t

end Call

/-- A family of sets that has all that was seeded and all that the rules yield. -/
structure Supports (g : Graph) (seeded : NodeId → Ty → Prop) (F : NodeId → Set Ty) : Prop where
  seeds : ∀ id t, seeded id t → t ∈ F id
  rules : ∀ id r, g.rule? id = some r → Yields g.unboundAsNone F r ⊆ F id

/-! ### Flat graphs -/

/-- A graph without classes, functions and modules, with basic rules and bare types, in which shared
constants have their types. -/
structure Flat (g : Graph) : Prop where
  classes : g.classes = #[]
  functions : g.functions = #[]
  modules : g.modules = #[]
  rules : ∀ id r, g.rule? id = some r → r.IsBasic
  bare : ∀ id t, t ∈ g.types id → t.IsBare
  constants : ∀ e ∈ g.constants, e.1 ∈ g.types e.2

theorem Flat.closed_bare (h : g.Flat) : Closed g Ty.IsBare := by
  refine ⟨trivial, fun _ => trivial, fun _ => trivial, fun _ _ _ => trivial, fun c hc => hc,
    fun c hc => hc, fun f hf => hf, fun m info name sub hm => ?_⟩
  rw [module?, h.modules] at hm
  simp at hm

theorem finds_of_basic (h : r.IsBasic) : r.Finds := by
  cases r <;> trivial

/-- What a turn does to a flat graph: it changes no rule, and a type that comes into a set is one
that the rule yields. -/
theorem Flat.turn {rest : List NodeId} (h : g.Flat) (hv : g.Valid) (hw : g.worklist = id :: rest) :
    (g.turn id rest).Flat ∧ (g.turn id rest).rule? = g.rule? ∧
      (g.turn id rest).unboundAsNone = g.unboundAsNone ∧
      ∀ b t, t ∈ (g.turn id rest).types b → t ∈ g.types b ∨
        ∃ r, g.rule? b = some r ∧ t ∈ Yields g.unboundAsNone g.family r := by
  obtain ⟨n, hn⟩ := hasNode_iff.1 (hv.worklist id (by rw [hw]; exact mem_cons_self))
  have hr : g.rule? id = some n.rule := rule?_eq_some_iff.2 ⟨n, hn, rfl⟩
  have hbasic := h.rules id n.rule hr
  have hext := turn_extends hv hw
  obtain ⟨hrule, hclasses, htypes⟩ := turn_finds hr (finds_of_basic hbasic) rest
  have hyield : ∀ b t, t ∈ (g.turn id rest).types b → t ∈ g.types b ∨
      ∃ r, g.rule? b = some r ∧ t ∈ Yields g.unboundAsNone g.family r := by
    intro b t ht
    rcases htypes b t ht with ht | ⟨rfl, hf⟩
    · exact .inl ht
    · exact .inr ⟨n.rule, hr, (find?_iff_yields h.bare hbasic).1 hf⟩
  refine ⟨⟨hclasses.trans h.classes, hext.functions.trans h.functions, hext.modules.trans h.modules,
    fun b r hb => ?_, fun b t ht => ?_, fun e he => ?_⟩, hrule, hext.unboundAsNone, hyield⟩
  · rw [hrule] at hb
    exact h.rules b r hb
  · rcases htypes b t ht with ht | ⟨-, f, hf, ht⟩
    · exact h.bare b t ht
    · exact find?_closed h.closed_bare h.bare hf ht
  · rw [hext.constants] at he
    exact hext.types _ _ (h.constants e he)

/-- A run keeps a flat graph flat and leaves its rules; its sets stay in every family that has them
at the start and has what the rules yield. -/
theorem Flat.drain (h : g.Flat) (hv : g.Valid) (fuel : Nat) :
    (Graph.drain fuel g).Flat ∧ (Graph.drain fuel g).rule? = g.rule? ∧
      (Graph.drain fuel g).unboundAsNone = g.unboundAsNone ∧ g.family ≤ (Graph.drain fuel g).family ∧
      ∀ F, (∀ id r, g.rule? id = some r → Yields g.unboundAsNone F r ⊆ F id) → g.family ≤ F →
        (Graph.drain fuel g).family ≤ F := by
  refine (drain_induction (P := fun k => k.Valid ∧ k.Flat ∧ k.rule? = g.rule? ∧
    k.unboundAsNone = g.unboundAsNone ∧ g.family ≤ k.family ∧
    ∀ F, (∀ id r, g.rule? id = some r → Yields g.unboundAsNone F r ⊆ F id) → g.family ≤ F →
      k.family ≤ F) ?_ fuel ?_).2
  · rintro k id rest hw ⟨hkv, hk, hrule, hu, hgrown, hleast⟩
    obtain ⟨hflat, hrule', hu', htypes⟩ := hk.turn hkv hw
    refine ⟨hkv.turn hw, hflat, hrule'.trans hrule, hu'.trans hu, fun b => ?_, fun F hF hg b => ?_⟩
    · exact Set.Subset.trans (hgrown b) fun t ht => (turn_extends hkv hw).types b t ht
    · intro t ht
      rcases htypes b t ht with ht | ⟨r, hr, ht⟩
      · exact hleast F hF hg b ht
      · rw [hrule] at hr
        rw [hu] at ht
        exact hF b r hr (Yields.mono (hleast F hF hg) (.refl r) ht)
  · exact ⟨hv, h, rfl, rfl, le_refl _, fun F _ hg => hg⟩

/-! ### What one call does -/

/-- What a call makes of a graph: the new graph has come to rest, nothing is taken back, what was
seeded is there, and nothing is there that seeds and rules do not ask for. -/
structure Built (g g' : Graph) (seeded : NodeId → Ty → Prop) : Prop where
  sound : g'.Sound
  flat : g'.Flat
  unboundAsNone : g'.unboundAsNone = g.unboundAsNone
  grows : g.family ≤ g'.family
  rules : ∀ id r, g.rule? id = some r → ∃ r', g'.rule? id = some r' ∧ r.Extends r'
  seeds : ∀ id t, seeded id t → t ∈ g'.types id
  least : ∀ F, g.family ≤ F → (∀ id t, seeded id t → t ∈ F id) →
    (∀ id r, g'.rule? id = some r → Yields g.unboundAsNone F r ⊆ F id) → g'.family ≤ F

theorem isBasic_of_extends {r' : Rule} (h : r.Extends r') (hr : r.IsBasic) : r'.IsBasic := by
  cases h with
  | refl => exact hr
  | plain | merge => trivial

namespace Built

/-- A change of rules and sets, followed by propagation. -/
theorem prepared (hflat : g.Flat) (hk : Prepared g k) (hext : Extends g k)
    (hclasses : k.classes = g.classes) (hnew : ∀ id r, k.rule? id = some r → g.HasNode id ∨ r.IsBasic)
    (hbare : ∀ id t, seeded id t → t.IsBare)
    (htypes : ∀ id t, t ∈ k.types id ↔ t ∈ g.types id ∨ seeded id t) :
    Built g k.propagate seeded := by
  have hkflat : k.Flat := by
    refine ⟨hclasses.trans hflat.classes, hext.functions.trans hflat.functions,
      hext.modules.trans hflat.modules, fun id r hr => ?_, fun id t ht => ?_, fun e he => ?_⟩
    · rcases hnew id r hr with hid | hbasic
      · -- the rule is the old one, perhaps with more inputs
        obtain ⟨n, hn⟩ := hasNode_iff.1 hid
        have hold : g.rule? id = some n.rule := rule?_eq_some_iff.2 ⟨n, hn, rfl⟩
        obtain ⟨r', hr', hmore⟩ := hext.rules id _ hold
        cases hr.symm.trans hr'
        exact isBasic_of_extends hmore (hflat.rules id _ hold)
      · exact hbasic
    · exact ((htypes id t).1 ht).elim (hflat.bare id t) (hbare id t)
    · rw [hext.constants] at he
      exact hext.types _ _ (hflat.constants e he)
  obtain ⟨hflat', hrule, hu', hgrown, hleast⟩ := hkflat.drain hk.valid k.budget
  refine ⟨hk.reached.sound, hflat', hu'.trans hext.unboundAsNone, fun id t ht => ?_,
    fun id r hr => ?_, fun id t ht => ?_, fun F hg hseeds hF => ?_⟩
  · exact hgrown id ((htypes id t).2 (.inl ht))
  · rw [Graph.propagate, hrule]
    exact hext.rules id r hr
  · exact hgrown id ((htypes id t).2 (.inr ht))
  · apply hleast F
    · intro id r hr
      rw [hext.unboundAsNone]
      refine hF id r ?_
      rw [Graph.propagate, hrule]
      exact hr
    · intro id t ht
      rcases (htypes id t).1 ht with ht | ht
      · exact hg id ht
      · exact hseeds id t ht

theorem trans {g'' : Graph} {s s' : NodeId → Ty → Prop} (h : Built g g' s)
    (h' : Built g' g'' s') : Built g g'' fun id t => s id t ∨ s' id t := by
  refine ⟨h'.sound, h'.flat, h'.unboundAsNone.trans h.unboundAsNone, le_trans h.grows h'.grows,
    fun id r hr => ?_, fun id t ht => ?_, fun F hg hF hrules => ?_⟩
  · obtain ⟨r', hr', hext⟩ := h.rules id r hr
    obtain ⟨r'', hr'', hext'⟩ := h'.rules id r' hr'
    exact ⟨r'', hr'', hext.trans hext'⟩
  · rcases ht with ht | ht
    · exact h'.grows id (h.seeds id t ht)
    · exact h'.seeds id t ht
  · apply h'.least F
    · apply h.least F hg fun id t ht => hF id t (.inl ht)
      -- the rules of the middle are those of the end with fewer inputs
      intro id r hr
      obtain ⟨r', hr', hext⟩ := h'.rules id r hr
      exact Set.Subset.trans (Yields.mono (le_refl F) hext) (hrules id r' hr')
    · exact fun id t ht => hF id t (.inr ht)
    · rw [h.unboundAsNone]
      exact hrules

variable (h : g.Sound) (hflat : g.Flat)
include h hflat

theorem add {rule : Rule} (line : Nat) (hbasic : rule.IsBasic)
    (hs : ∀ s ∈ rule.sources, g.HasNode s) :
    Built g (g.add rule line).2 fun _ _ => False := by
  have hwrite : ∀ object attr value, rule = .write object attr value → g.HasNode value := by
    rintro object attr value rfl
    exact absurd hbasic not_false
  have hmembers : ∀ c, rule ≠ .members c := by
    rintro c rfl
    exact hbasic
  show Built g (g.push rule line).2.propagate fun _ _ => False
  refine .prepared hflat (h.prepared_push line hs hwrite hmembers) (.push g rule line)
    (classes_push g rule line) (fun id r hr => ?_) (fun _ _ hf => absurd hf not_false) fun id t => ?_
  · rw [rule?_push] at hr
    split at hr
    · cases hr
      exact .inr hbasic
    · exact .inl (hasNode_of_rule? hr)
  · rw [types_push, or_false]

theorem addInput {input : NodeId} (hin : g.HasNode input)
    (id : NodeId) : Built g (g.addInput id input) fun _ _ => False := by
  refine .prepared hflat (h.prepared_connect hin id) (moves_connect (D := nobody) hin id).extends
    (classes_connect g id input) (fun b r hr => .inl ?_) (fun _ _ hf => absurd hf not_false) fun b t => ?_
  · rw [HasNode, ← size_connect g id input]
    exact hasNode_of_rule? hr
  · rw [types_connect, or_false]

theorem seed (hid : g.HasNode id)
    (hT : ∀ t ∈ types, t.IsBare) : Built g (g.seed id types) fun b t => b = id ∧ t ∈ types := by
  have hexist : ∀ t ∈ types, g.HasType t := fun t ht => by
    cases t <;> first | exact absurd (hT _ ht) not_false | trivial
  have hbare : ∀ b t, b = id ∧ t ∈ types → t.IsBare := fun _ t ht => hT t ht.2
  have hk := h.prepared_withTypes id hexist
  rw [seed_eq]
  rw [withTypes] at hk ⊢
  split at hk
  · next hsub =>
    rw [if_pos hsub]
    refine .prepared hflat hk (.refl g) rfl (fun b r hr => .inl (hasNode_of_rule? hr)) hbare fun b t => ?_
    refine ⟨.inl, ?_⟩
    rintro (ht | ⟨rfl, ht⟩)
    · exact ht
    · exact TypeSet.isSubset_iff.1 hsub t ht
  · next hsub =>
    rw [if_neg hsub]
    have hsame := Same.touch (g.putTypes id types) id
    have hext := (Extends.putTypes g id types).trans (.touch _ id)
    refine .prepared hflat hk hext hsame.classes (fun b r hr => .inl ?_) hbare fun b t => ?_
    · rw [hsame.rule?, rule?_putTypes] at hr
      exact hasNode_of_rule? hr
    · rw [hsame.types, mem_types_putTypes]
      exact or_congr_right ⟨fun hb => hb.2, fun hb => ⟨hid, hb⟩⟩

theorem unchanged (hseeds : ∀ id t, seeded id t → t ∈ g.types id) : Built g g seeded :=
  ⟨h, hflat, rfl, le_refl _, fun _ r hr => ⟨r, hr, .refl r⟩, hseeds, fun _ hg _ _ => hg⟩

theorem addToMerge {values : List Incoming}
    (hid : g.HasNode id) (hvalues : ∀ n, .value n ∈ values → g.HasNode n) :
    Built g (g.addToMerge id values) fun _ _ => False := by
  unfold Graph.addToMerge
  split
  · have hk := h.prepared_incoming hid hvalues
    have hgrown := mergeGrown_foldl h.valid id hvalues
    generalize values.foldl (addIncoming id) g = k at hgrown hk ⊢
    have hsame := Same.schedule k id
    refine .prepared hflat hk (hgrown.grown.trans (.schedule k id)) (hsame.classes.trans hgrown.classes)
      (fun b r hr => .inl ?_) (fun _ _ hf => absurd hf not_false) fun b t => ?_
    · by_cases hb : b = id
      · exact hb ▸ hid
      · rw [hsame.rule?, hgrown.rules b hb] at hr
        exact hasNode_of_rule? hr
    · rw [hsame.types, hgrown.types, or_false]
  · exact .unchanged h hflat fun _ _ hf => absurd hf not_false

theorem constant (ht : t.IsBare) :
    Built g (g.constant t).2 fun id u => id = (g.constant t).1 ∧ u = t := by
  have hexist : g.HasType t := by
    cases t <;> first | exact absurd ht not_false | trivial
  rcases constant_cases g t with ⟨id, hid, heq⟩ | heq
  · rw [heq]
    refine .unchanged h hflat ?_
    rintro b u ⟨rfl, rfl⟩
    exact hflat.constants _ hid
  · rw [heq]
    have hext := Extends.push g (.plain []) 0
    refine ⟨h.withConstant hexist, ?_, hext.unboundAsNone, fun b u hu => mem_types_withConstant.2 (.inl hu),
      fun b r hr => ⟨r, ?_, .refl r⟩, fun b u hu => mem_types_withConstant.2 (.inr hu), fun F hg hF _ => ?_⟩
    · refine ⟨?_, hext.functions.trans hflat.functions, hext.modules.trans hflat.modules,
        fun b r hr => ?_, fun b u hu => ?_, fun e he => ?_⟩
      · exact (classes_withConstant g t).trans hflat.classes
      · rw [rule?_withConstant] at hr
        split at hr
        · cases hr
          trivial
        · exact hflat.rules b r hr
      · rcases mem_types_withConstant.1 hu with hu | ⟨-, rfl⟩
        · exact hflat.bare b u hu
        · exact ht
      · rw [constants_withConstant] at he
        rcases mem_cons.1 he with rfl | he
        · exact mem_types_withConstant.2 (.inr ⟨rfl, rfl⟩)
        · exact mem_types_withConstant.2 (.inl (hflat.constants e he))
    · rw [rule?_withConstant, if_neg]
      · exact hr
      · rintro rfl
        exact g.not_hasNode_next (hasNode_of_rule? hr)
    · intro b u hu
      rcases mem_types_withConstant.1 hu with hu | hu
      · exact hg b hu
      · exact hF b u hu

/-- **Every call builds.** -/
theorem call {call : Call} (hallowed : call.Allowed g) :
    Built g (call.run g) (call.Seeds g) := by
  cases call with
  | plain line | merge line => exact .add h hflat line trivial fun s hs => absurd hs not_mem_nil
  | union inputs line => exact .add h hflat line trivial hallowed
  | constant t => exact .constant h hflat hallowed
  | addToMerge id values => exact .addToMerge h hflat hallowed.1 hallowed.2
  | binary op left right line =>
    refine .add h hflat line trivial fun s hs => ?_
    rcases mem_cons.1 hs with rfl | hs
    · exact hallowed.1
    · rw [mem_singleton.1 hs]
      exact hallowed.2
  | unary op operand line | read object attr line | iterate source line =>
    refine .add h hflat line trivial fun s hs => ?_
    rw [mem_singleton.1 hs]
    exact hallowed
  | addInput id input => exact .addInput h hflat hallowed.2 id
  | seed id types => exact .seed h hflat hallowed.1 hallowed.2

theorem runAll (hallowed : Call.AllAllowed g calls) :
    Built g (Call.runAll g calls) (Call.Seeded g calls) := by
  induction calls generalizing g with
  | nil => exact .unchanged h hflat fun _ _ hf => absurd hf not_false
  | cons call calls ih =>
    have hfirst := Built.call h hflat hallowed.1
    exact hfirst.trans (ih hfirst.sound hfirst.flat hallowed.2)

end Built

theorem flat_empty (u : Bool) : (empty u).Flat := by
  refine ⟨rfl, rfl, rfl, fun id r hr => ?_, fun id t ht => ?_, fun e he => ?_⟩
  · exact absurd (hasNode_of_rule? hr) (Nat.not_lt_zero _)
  · exact absurd (hasNode_of_mem_types ht) (Nat.not_lt_zero _)
  · cases he

/-! ### The least family -/

/-- The sets of a flat graph that has come to rest have what its rules yield. -/
theorem Flat.yields_subset (hflat : g.Flat) (h : g.Sound) (hr : g.rule? id = some r) :
    Yields g.unboundAsNone g.family r ⊆ g.family id := by
  intro t ht
  have hbasic := hflat.rules id r hr
  have hvalue : g.IsValue r := by
    cases r with
    | read object attr => exact fun m hm => hflat.bare object _ hm
    | _ => trivial
  obtain ⟨f, hf, ht⟩ := (find?_iff_yields hflat.bare hbasic).2 ht
  exact (h.settled id r hr hvalue f hf).2 t ht

/-- The sets after a sequence of calls are the least family that supports the graph. -/
theorem isLeast_family (h : Call.AllAllowed (empty u) calls) :
    IsLeast { F | Supports (Call.runAll (empty u) calls) (Call.Seeded (empty u) calls) F }
      (Call.runAll (empty u) calls).family := by
  have hbuilt := Built.runAll (sound_empty u) (flat_empty u) h
  refine ⟨⟨hbuilt.seeds, fun id r hr => hbuilt.flat.yields_subset hbuilt.sound hr⟩, fun F hF => ?_⟩
  apply hbuilt.least F
  · intro id t ht
    exact absurd (hasNode_of_mem_types ht) (Nat.not_lt_zero _)
  · exact hF.seeds
  · rw [← hbuilt.unboundAsNone]
    exact hF.rules

/-- Two graphs with the same nodes, up to the order of inputs and values of merges. -/
def SameNodes (g g' : Graph) : Prop := ∀ id, Option.Rel Rule.SameInputs (g.rule? id) (g'.rule? id)

theorem SameNodes.symm (h : SameNodes g g') : SameNodes g' g := by
  intro id
  have hid := h id
  generalize g.rule? id = o at hid
  generalize g'.rule? id = o' at hid
  cases hid with
  | some hr => exact .some ⟨hr.2, hr.1⟩
  | none => exact .none

theorem Supports.of_same {seeded' : NodeId → Ty → Prop} (h : Supports g seeded F)
    (hnodes : SameNodes g g') (hu : g'.unboundAsNone = g.unboundAsNone)
    (hseeds : ∀ id t, seeded' id t → seeded id t) : Supports g' seeded' F := by
  refine ⟨fun id t ht => h.seeds id t (hseeds id t ht), fun id r' hr' => ?_⟩
  have hid := hnodes id
  rw [hr'] at hid
  generalize hr : g.rule? id = o at hid
  cases hid with
  | some hsame =>
    rw [hu]
    exact Set.Subset.trans (Yields.mono (le_refl F) hsame.2) (h.rules id _ hr)

/-- **The sets are least, and the order is irrelevant.**  After any sequence of calls the sets of
the nodes are the least family that has all seeds and all that the rules yield; so another sequence
that ends with the same nodes and the same seeds ends with the same sets. -/
theorem family_isLeast_whatever_order (u : Bool) (calls : List Call)
    (h : Call.AllAllowed (empty u) calls) :
    IsLeast { F | Supports (Call.runAll (empty u) calls) (Call.Seeded (empty u) calls) F }
        (Call.runAll (empty u) calls).family ∧
      ∀ calls', Call.AllAllowed (empty u) calls' →
        SameNodes (Call.runAll (empty u) calls) (Call.runAll (empty u) calls') →
        (∀ id t, Call.Seeded (empty u) calls id t ↔ Call.Seeded (empty u) calls' id t) →
        ∀ id, (Call.runAll (empty u) calls').types id = (Call.runAll (empty u) calls).types id := by
  have hleast := isLeast_family h
  refine ⟨hleast, fun calls' h' hnodes hseeds id => ?_⟩
  have hu := (Built.runAll (sound_empty u) (flat_empty u) h).unboundAsNone
  have hu' := (Built.runAll (sound_empty u) (flat_empty u) h').unboundAsNone
  have hsets : { F | Supports (Call.runAll (empty u) calls') (Call.Seeded (empty u) calls') F } =
      { F | Supports (Call.runAll (empty u) calls) (Call.Seeded (empty u) calls) F } := by
    ext F
    constructor
    · exact fun hF => hF.of_same hnodes.symm (hu.trans hu'.symm) fun id t => (hseeds id t).1
    · exact fun hF => hF.of_same hnodes (hu'.trans hu.symm) fun id t => (hseeds id t).2
  have hleast' := isLeast_family h'
  rw [hsets] at hleast'
  ext t
  exact Set.ext_iff.1 (congrFun (hleast'.unique hleast) id) t

/-- Three nodes, first the edges, with a cycle, and then the seeds. -/
def edgesFirst : List Call :=
  [.plain 1, .plain 1, .plain 1, .addInput ⟨2⟩ ⟨0⟩, .addInput ⟨2⟩ ⟨1⟩, .addInput ⟨0⟩ ⟨2⟩,
    .seed ⟨0⟩ (.single (.base .int)), .seed ⟨1⟩ (.single (.base .str))]

/-- The same nodes, with seeds and edges the other way round. -/
def seedsFirst : List Call :=
  [.plain 1, .plain 1, .plain 1, .seed ⟨1⟩ (.single (.base .str)), .addInput ⟨2⟩ ⟨1⟩,
    .addInput ⟨0⟩ ⟨2⟩, .seed ⟨0⟩ (.single (.base .int)), .addInput ⟨2⟩ ⟨0⟩]

theorem allAllowed_edgesFirst : Call.AllAllowed (empty true) edgesFirst := by
  refine ⟨trivial, trivial, trivial, ⟨?_, ?_⟩, ⟨?_, ?_⟩, ⟨?_, ?_⟩, ⟨?_, ?_⟩, ⟨?_, ?_⟩, trivial⟩
  all_goals first | decide +kernel | exact fun t ht => by rw [TypeSet.mem_single.1 ht]; trivial

theorem allAllowed_seedsFirst : Call.AllAllowed (empty true) seedsFirst := by
  refine ⟨trivial, trivial, trivial, ⟨?_, ?_⟩, ⟨?_, ?_⟩, ⟨?_, ?_⟩, ⟨?_, ?_⟩, ⟨?_, ?_⟩, trivial⟩
  all_goals first | decide +kernel | exact fun t ht => by rw [TypeSet.mem_single.1 ht]; trivial

theorem sameNodes_edgesFirst_seedsFirst :
    SameNodes (Call.runAll (empty true) edgesFirst) (Call.runAll (empty true) seedsFirst) := by
  have hnone : ∀ (calls : List Call) (n : Nat), (Call.runAll (empty true) calls).nodes.size = 3 →
      (Call.runAll (empty true) calls).rule? ⟨n + 3⟩ = none := by
    intro calls n hsize
    rw [rule?_eq_map, node?_eq_none_iff.2]
    · rfl
    · rw [HasNode, hsize]
      exact Nat.not_lt_of_le (Nat.le_add_left 3 n)
  rintro ⟨- | - | - | n⟩
  · have h : (Call.runAll (empty true) edgesFirst).rule? ⟨0⟩ = some (.plain [⟨2⟩]) := by decide +kernel
    have h' : (Call.runAll (empty true) seedsFirst).rule? ⟨0⟩ = some (.plain [⟨2⟩]) := by
      decide +kernel
    rw [h, h']
    exact .some ⟨.refl _, .refl _⟩
  · have h : (Call.runAll (empty true) edgesFirst).rule? ⟨1⟩ = some (.plain []) := by decide +kernel
    have h' : (Call.runAll (empty true) seedsFirst).rule? ⟨1⟩ = some (.plain []) := by decide +kernel
    rw [show (0 + 1) = 1 from rfl, h, h']
    exact .some ⟨.refl _, .refl _⟩
  · have h : (Call.runAll (empty true) edgesFirst).rule? ⟨2⟩ = some (.plain [⟨0⟩, ⟨1⟩]) := by
      decide +kernel
    have h' : (Call.runAll (empty true) seedsFirst).rule? ⟨2⟩ = some (.plain [⟨1⟩, ⟨0⟩]) := by
      decide +kernel
    rw [show (0 + 1 + 1) = 2 from rfl, h, h']
    exact .some ⟨.plain fun i hi => by simpa [or_comm] using hi,
      .plain fun i hi => by simpa [or_comm] using hi⟩
  · rw [hnone edgesFirst n (by decide +kernel), hnone seedsFirst n (by decide +kernel)]
    exact .none

theorem family_isLeast_edgesFirst_seedsFirst :
    IsLeast { F | Supports (Call.runAll (empty true) edgesFirst)
        (Call.Seeded (empty true) edgesFirst) F } (Call.runAll (empty true) edgesFirst).family ∧
      ∀ id, (Call.runAll (empty true) seedsFirst).types id =
        (Call.runAll (empty true) edgesFirst).types id := by
  obtain ⟨hleast, horder⟩ :=
    family_isLeast_whatever_order true edgesFirst allAllowed_edgesFirst
  refine ⟨hleast, horder seedsFirst allAllowed_seedsFirst sameNodes_edgesFirst_seedsFirst ?_⟩
  intro id t
  simp only [edgesFirst, seedsFirst, Call.Seeded, Call.Seeds, false_or, or_false]
  exact or_comm

end Graph

end FlowTyping
