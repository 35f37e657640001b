/-
Walking the body of a module, step by step.

As long as no function, class or comprehension is entered, the scope of the module is the only one.
A step then only adds to two tables, from versions of names to nodes and from names to their
summaries (`State.Leads`).  Every node of a version that is not a merge feeds the summary of its
name, except for a moment while it is made; so there are two invariants, `Placed` for single steps
and `AtModule` for steps that belong together.  `Goes` puts steps together.
-/
import FlowTyping.Proofs.Graph.Feeds
import FlowTyping.Proofs.Inference.Definition

namespace FlowTyping.Inference

open List

variable {α β : Type} {context : Context} {V : Versions} {s t u : State} {g : Graph}
  {inputs : List NodeId} {value : NodeId} {x : String} {rule : Rule} {id : NameId}

/-! ### Rules of new nodes -/

/-- A rule for a new node: what it mentions exists, and it is not that of a class. -/
structure RuleFits (rule : Rule) (g : Graph) : Prop where
  sources : ∀ s ∈ rule.sources, g.HasNode s
  values : ∀ object attr value, rule = .write object attr value → g.HasNode value
  members : ∀ c, rule ≠ .members c

theorem RuleFits.of_finds (hfinds : rule.Finds)
    (h : ∀ s ∈ rule.sources, g.HasNode s) : RuleFits rule g := by
  refine ⟨h, fun object attr value hr => ?_, fun c hr => ?_⟩
  · rw [hr] at hfinds
    exact absurd hfinds not_false
  · rw [hr] at hfinds
    exact absurd hfinds not_false

theorem ruleFits_plain (h : ∀ i ∈ inputs, g.HasNode i) :
    RuleFits (.plain inputs) g := .of_finds trivial h

theorem ruleFits_merge : RuleFits (.merge []) g :=
  .of_finds trivial fun _ hs => absurd hs not_mem_nil

/-! ### The scope of a module -/

def State.scope (s : State) : Scope := (s.scopes[0]?).getD default

/-- The node of a version of a name. -/
def State.bound? (s : State) (x : String) (v : Nat) : Option NodeId := s.scope.bindings.get? (x, v)

/-- The node into which all versions of a name flow. -/
def State.total? (s : State) (x : String) : Option NodeId := s.scope.summaries.get? x

theorem bound?_eq (h : t.scopes = s.scopes) : t.bound? = s.bound? := by
  funext x v
  rw [State.bound?, State.bound?, State.scope, State.scope, h]

theorem total?_eq (h : t.scopes = s.scopes) : t.total? = s.total? := by
  funext x
  rw [State.total?, State.total?, State.scope, State.scope, h]

/-- Nothing is taken back from one state to another. -/
structure State.Leads (s t : State) : Prop where
  later : s.graph.Later t.graph
  bound : ∀ x v n, s.bound? x v = some n → t.bound? x v = some n
  total : ∀ x n, s.total? x = some n → t.total? x = some n

theorem State.Leads.refl (s : State) : s.Leads s := ⟨.refl _, fun _ _ _ h => h, fun _ _ h => h⟩

theorem State.Leads.trans (h : s.Leads t) (h' : t.Leads u) : s.Leads u :=
  ⟨h.later.trans h'.later, fun x v n hn => h'.bound x v n (h.bound x v n hn),
    fun x n hn => h'.total x n (h.total x n hn)⟩

/-- The body of a module is being walked, outside of all functions, classes and comprehensions. -/
structure Placed (context : Context) (V : Versions) (s : State) : Prop where
  sound : s.graph.Sound
  imports : ∀ name id, context.imports.get? name = some (.module id) → id.index < s.graph.modules.size
  stocked : s.graph.Stocked
  size : s.scopes.size = 1
  kind : s.scope.kind = .module
  versions : s.scope.versions = V
  frames : s.scope.frames = []
  slots : s.slots = .empty
  globals : V.globals = []
  nonlocals : V.nonlocals = []
  hasNode : ∀ x v n, s.bound? x v = some n → s.graph.HasNode n
  total : ∀ x n, s.total? x = some n → s.graph.IsPlain n

/-- A plain node feeds the summary of a name. -/
def Summed (s : State) (x : String) (n : NodeId) : Prop :=
  s.graph.IsPlain n ∧ ∃ total, s.total? x = some total ∧ s.graph.Feeds n total

theorem Summed.leads {n : NodeId} (h : Summed s x n) (hl : s.Leads t) : Summed t x n := by
  obtain ⟨hplain, total, htotal, hfeeds⟩ := h
  exact ⟨hplain.later hl.later, total, hl.total x total htotal, hfeeds.later hl.later⟩

/-- In addition, each version that is not a merge feeds the summary of its name. -/
structure AtModule (context : Context) (V : Versions) (s : State) : Prop extends Placed context V s where
  bound : ∀ x v n, s.bound? x v = some n →
    (∃ m ∈ V.merges, m.name = x ∧ m.version = v) ∨ Summed s x n

/-! ### Putting steps together -/

/-- Started in a state, a step keeps an invariant, takes nothing back, and leaves a result as `Q`
says. -/
def Goes (context : Context) (I : State → Prop) (x : Infer α) (s : State) (Q : α → State → Prop) : Prop :=
  I (x context s).2 ∧ s.Leads (x context s).2 ∧ Q (x context s).1 (x context s).2

namespace Goes

variable {I : State → Prop} {x : Infer α} {f : α → Infer β} {Q Q' : α → State → Prop}
  {R : β → State → Prop}

theorem andThen (hx : Goes context I x s Q)
    (hf : ∀ a t, x context s = (a, t) → I t → s.Leads t → Q a t → Goes context I (f a) t R) :
    Goes context I (x >>= f) s R := by
  obtain ⟨ht, hl, hq⟩ := hx
  obtain ⟨hu, hl', hr⟩ := hf _ _ rfl ht hl hq
  exact ⟨hu, hl.trans hl', hr⟩

theorem bind (hx : Goes context I x s Q)
    (hf : ∀ a t, I t → s.Leads t → Q a t → Goes context I (f a) t R) : Goes context I (x >>= f) s R :=
  hx.andThen fun a t _ => hf a t

theorem reading {a : α} (hx : x context s = (a, s)) (hf : Goes context I (f a) s R) :
    Goes context I (x >>= f) s R := by
  have happly : (x >>= f) context s = f a context s := by
    show f (x context s).1 context (x context s).2 = f a context s
    rw [hx]
  unfold Goes
  rw [happly]
  exact hf

theorem pure {a : α} (hs : I s) (h : Q a s) : Goes context I (Pure.pure a) s Q := ⟨hs, .refl s, h⟩

theorem mono (hx : Goes context I x s Q) (h : ∀ a t, I t → s.Leads t → Q a t → Q' a t) :
    Goes context I x s Q' := ⟨hx.1, hx.2.1, h _ _ hx.1 hx.2.1 hx.2.2⟩

theorem discardThen {f : Unit → Infer β} (hx : Goes context I x s Q)
    (hf : ∀ a t, x context s = (a, t) → I t → s.Leads t → Q a t → Goes context I (f ()) t R) :
    Goes context I (discard x >>= f) s R := by
  obtain ⟨ht, hl, hq⟩ := hx
  obtain ⟨hu, hl', hr⟩ := hf _ _ rfl ht hl hq
  exact ⟨hu, hl.trans hl', hr⟩

theorem of_eq {a : α} (h : x context s = (a, t)) (ht : I t) (hl : s.Leads t) (hq : Q a t) :
    Goes context I x s Q := by
  unfold Goes
  rw [h]
  exact ⟨ht, hl, hq⟩

theorem tidy (hs : AtModule context V s)
    (hx : Goes context (Placed context V) x s fun a t => t.bound? = s.bound? ∧ Q a t) :
    Goes context (AtModule context V) x s Q := by
  obtain ⟨ht, hl, hsame, hq⟩ := hx
  refine ⟨⟨ht, fun y v n hn => ?_⟩, hl, hq⟩
  rw [hsame] at hn
  exact (hs.bound y v n hn).imp_right fun h => h.leads hl

theorem aside (hs : AtModule context V s)
    (hx : Goes context (Placed context V) x s fun a t => t.scopes = s.scopes ∧ Q a t) :
    Goes context (AtModule context V) x s Q :=
  tidy hs (hx.mono fun _ _ _ _ h => ⟨bound?_eq h.1, h.2⟩)

end Goes

/-! ### Steps on the graph -/

theorem leads_withGraph (h : s.graph.Later g) : s.Leads { s with graph := g } :=
  ⟨h, fun _ _ _ hn => hn, fun _ _ hn => hn⟩

theorem Placed.withGraph (h : Placed context V s) (hg : s.graph.Reached g) (hstocked : g.Stocked) :
    Placed context V { s with graph := g } where
  sound := hg.sound
  imports name id hid := (h.imports name id hid).trans_le hg.later.moduleCount
  stocked := hstocked
  size := h.size
  kind := h.kind
  versions := h.versions
  frames := h.frames
  slots := h.slots
  globals := h.globals
  nonlocals := h.nonlocals
  hasNode y v n hn := hg.later.hasNode (h.hasNode y v n hn)
  total y n hn := (h.total y n hn).later hg.later

section

variable (hs : Placed context V s) {id node : NodeId}
include hs

theorem goes_changed {x : Infer α} {a : α} {Q : α → State → Prop} (hg : s.graph.Reached g)
    (hconstants : g.constants = s.graph.constants) (hx : x context s = (a, { s with graph := g }))
    (hq : Q a { s with graph := g }) :
    Goes context (Placed context V) x s fun a t => t.scopes = s.scopes ∧ Q a t :=
  .of_eq hx (hs.withGraph hg (hs.stocked.later hg.later hconstants)) (leads_withGraph hg.later) ⟨rfl, hq⟩

theorem goes_addNode (h : RuleFits rule s.graph) (line : Nat) :
    Goes context (Placed context V) (addNode rule line) s fun id t => t.scopes = s.scopes ∧
      t.graph.HasNode id ∧ ∃ r, t.graph.rule? id = some r ∧ rule.Extends r := by
  have hvalid := hs.sound.valid.push line h.sources h.values h.members
  exact goes_changed hs (hs.sound.prepared_push line h.sources h.values h.members).reached
    (s.graph.constants_run (r := .add rule line) fun _ => Graph.Request.noConfusion) rfl
    ⟨Graph.hasNode_add s.graph rule line hvalid, Graph.rule?_add line hvalid⟩

theorem goes_constant {ty : Ty} (h : s.graph.HasType ty) :
    Goes context (Placed context V) (constant ty) s fun id t => t.scopes = s.scopes ∧
      t.graph.HasNode id ∧ ty ∈ t.graph.types id := by
  obtain ⟨hstocked, htype⟩ := hs.stocked.constant ty
  have hreached := hs.sound.constant h
  refine .of_eq rfl (hs.withGraph hreached hstocked) (leads_withGraph hreached.later) ⟨rfl, ?_, htype⟩
  show (s.graph.constant ty).2.HasNode (s.graph.constant ty).1
  rcases Graph.constant_cases s.graph ty with ⟨id, hid, heq⟩ | heq
  · rw [heq]
    exact hs.sound.valid.constants _ hid
  · rw [heq]
    exact (Graph.hasNode_modifyNode _ _ _ _).2 (s.graph.hasNode_push_next _ 0)

theorem goes_addInput {input : NodeId} (h : s.graph.HasNode input) (hid : s.graph.IsPlain id) :
    Goes context (Placed context V) (addInput id input) s fun _ t => t.scopes = s.scopes ∧
      t.graph.Feeds input id := by
  exact goes_changed hs (hs.sound.prepared_connect h id).reached
    (s.graph.constants_run (r := .addInput id input) fun _ => Graph.Request.noConfusion) rfl
    (Graph.feeds_addInput hs.sound h hid)

theorem goes_addChecked (h : RuleFits rule s.graph) (line : Nat) :
    Goes context (Placed context V) (addChecked rule line) s fun id t => t.scopes = s.scopes ∧
      t.graph.HasNode id ∧ ∃ r, t.graph.rule? id = some r ∧ rule.Extends r := by
  refine (goes_addNode hs h line).bind fun id t ht _ hid => ?_
  have hplaced : Placed context V { t with checks := t.checks ++ [id] } := { ht with }
  have hl : t.Leads { t with checks := t.checks ++ [id] } :=
    ⟨.refl _, fun _ _ _ hn => hn, fun _ _ hn => hn⟩
  exact .of_eq rfl hplaced hl hid

/-- A rule that has nothing to grow by stays as it is. -/
theorem goes_addOperation (h : RuleFits rule s.graph) (hsame : ∀ r, rule.Extends r → r = rule) (line : Nat) :
    Goes context (Placed context V) (addChecked rule line) s fun id t => t.scopes = s.scopes ∧
      t.graph.HasNode id ∧ t.graph.rule? id = some rule := by
  refine (goes_addChecked hs h line).mono fun id u _ _ h => ?_
  obtain ⟨hscopes, hnode, r, hr, hext⟩ := h
  exact ⟨hscopes, hnode, hsame r hext ▸ hr⟩

omit hs in
/-- Outside of all functions no node is that of a parameter. -/
theorem slot?_apply (hs : s.slots = .empty) (node : NodeId) : slot? node context s = (none, s) := by
  show (s.slots.get? node, s) = (none, s)
  rw [hs]
  rfl

omit hs in
theorem restrict_apply (hs : s.slots = .empty) (node : NodeId) (allowed : KindSet) :
    restrict node allowed context s = ((), s) := by
  unfold restrict
  simp only [bind, ReaderT.bind, StateT.bind, slot?_apply hs]
  rfl

omit hs in
theorem constrainOperands_apply (hs : s.slots = .empty) (op : BinaryOp) (left right : NodeId) :
    constrainOperands op left right context s = ((), s) := by
  unfold constrainOperands
  simp only [bind, ReaderT.bind, StateT.bind, slot?_apply hs]
  rfl

theorem goes_binaryNode {op : BinaryOp} {left right : NodeId} (line : Nat)
    (hl : s.graph.HasNode left) (hr : s.graph.HasNode right) :
    Goes context (Placed context V) (binaryNode op left right line) s fun id t => t.scopes = s.scopes ∧
      t.graph.HasNode id ∧ t.graph.rule? id = some (.binary op left right) := by
  have hfits : RuleFits (.binary op left right) s.graph := by
    refine .of_finds trivial fun n hn => ?_
    rcases mem_pair.1 hn with rfl | rfl
    · exact hl
    · exact hr
  refine .reading (constrainOperands_apply hs.slots op left right) ?_
  refine goes_addOperation hs hfits (fun r hext => ?_) line
  cases hext
  rfl

theorem goes_unaryNode {op : UnaryOp} {operand : NodeId} (line : Nat)
    (h : s.graph.HasNode operand) :
    Goes context (Placed context V) (unaryNode op operand line) s fun id t => t.scopes = s.scopes ∧
      t.graph.HasNode id ∧ t.graph.rule? id = some (.unary op operand) := by
  have hfits : RuleFits (.unary op operand) s.graph :=
    .of_finds trivial fun n hn => mem_singleton.1 hn ▸ h
  have hadd := goes_addOperation hs hfits (fun r hext => by cases hext; rfl) line
  unfold unaryNode
  dsimp only
  split
  · refine .reading (restrict_apply hs.slots operand _) ?_
    exact hadd
  · exact hadd

/-! ### Steps on the scope -/

omit hs in
section

variable (h : s.scopes.size = 1)
include h

theorem depth_apply : depth context s = (0, s) := by
  show (s.scopes.size - 1, s.asked (0 < s.scopes.size)) = (0, s)
  rw [h]
  rfl

omit hs in
theorem scopeAt_zero_apply : scopeAt 0 context s = (s.scope, s) := by
  show (s.scope, s.asked (0 < s.scopes.size)) = (s.scope, s)
  rw [h]
  rfl

omit hs in
theorem currentScope_apply : currentScope context s = (s.scope, s) := by
  show scopeAt (depth context s).1 context (depth context s).2 = (s.scope, s)
  rw [depth_apply h, scopeAt_zero_apply h]

omit hs in
theorem modifyScopeAt_zero_apply (f : Scope → Scope) :
    modifyScopeAt 0 f context s = ((), { s with scopes := s.scopes.modify 0 f }) := by
  show ((), { s.asked (0 < s.scopes.size) with scopes := s.scopes.modify 0 f }) = _
  rw [h]
  rfl

omit hs in
theorem scope_modify (f : Scope → Scope) :
    ({ s with scopes := s.scopes.modify 0 f } : State).scope = f s.scope := by
  have hlt : 0 < s.scopes.size := by omega
  show ((s.scopes.modify 0 f)[0]?).getD default = f ((s.scopes[0]?).getD default)
  rw [Array.getElem?_eq_getElem (by rwa [Array.size_modify]), Array.getElem?_eq_getElem hlt,
    Array.getElem_modify_self]
  rfl

end

/-- A change of the two tables of the scope. -/
theorem Placed.modifyScope {f : Scope → Scope} (hkind : (f s.scope).kind = s.scope.kind)
    (hversions : (f s.scope).versions = s.scope.versions)
    (hframes : (f s.scope).frames = s.scope.frames)
    (hbound : ∀ y w n, (f s.scope).bindings.get? (y, w) = some n → s.graph.HasNode n)
    (htotal : ∀ y n, (f s.scope).summaries.get? y = some n → s.graph.IsPlain n) :
    Placed context V { s with scopes := s.scopes.modify 0 f } := by
  have hscope := scope_modify hs.size f
  refine { hs with
    size := Array.size_modify.trans hs.size, kind := ?_, versions := ?_, frames := ?_
    hasNode := fun y w n hn => ?_, total := fun y n hn => ?_ }
  · rw [hscope, hkind]
    exact hs.kind
  · rw [hscope, hversions]
    exact hs.versions
  · rw [hscope, hframes]
    exact hs.frames
  · apply hbound y w n
    rw [← hscope]
    exact hn
  · apply htotal y n
    rw [← hscope]
    exact hn

/-- A change of the tables that takes nothing back. -/
theorem goes_modifyScopeAt {f : Scope → Scope} (hkind : (f s.scope).kind = s.scope.kind)
    (hversions : (f s.scope).versions = s.scope.versions)
    (hframes : (f s.scope).frames = s.scope.frames)
    (hbound : ∀ y w n, (f s.scope).bindings.get? (y, w) = some n → s.graph.HasNode n)
    (htotal : ∀ y n, (f s.scope).summaries.get? y = some n → s.graph.IsPlain n)
    (hkeeps : ∀ y w n, s.bound? y w = some n → (f s.scope).bindings.get? (y, w) = some n)
    (hkeeps' : ∀ y n, s.total? y = some n → (f s.scope).summaries.get? y = some n) :
    Goes context (Placed context V) (modifyScopeAt 0 f) s fun _ t =>
      t.graph = s.graph ∧ t.scope = f s.scope := by
  have hscope := scope_modify hs.size f
  refine .of_eq (modifyScopeAt_zero_apply hs.size f) (hs.modifyScope hkind hversions hframes hbound htotal)
    ⟨.refl _, fun y w n hn => ?_, fun y n hn => ?_⟩ ⟨rfl, hscope⟩
  · rw [State.bound?, hscope]
    exact hkeeps y w n hn
  · rw [State.total?, hscope]
    exact hkeeps' y n hn

theorem goes_insertBinding {v : Nat} (hnode : s.graph.HasNode node) (hnew : s.bound? x v = none) :
    Goes context (Placed context V)
      (Inference.modifyScope fun scope => { scope with bindings := scope.bindings.insert (x, v) node }) s
      fun _ t => t.graph = s.graph ∧ t.total? = s.total? ∧
        ∀ y w, t.bound? y w = if (x, v) = (y, w) then some node else s.bound? y w := by
  refine .reading (depth_apply hs.size) ?_
  refine Goes.mono (goes_modifyScopeAt hs rfl rfl rfl (fun y w n hn => ?_) hs.total (fun y w n hn => ?_)
    fun _ _ hn => hn) fun _ t _ _ h => ⟨h.1, ?_, fun y w => ?_⟩
  · rw [Table.get?_insert] at hn
    split at hn
    · cases hn
      exact hnode
    · exact hs.hasNode y w n hn
  · rw [Table.get?_insert, if_neg]
    · exact hn
    · rintro ⟨⟩
      cases hnew.symm.trans hn
  · funext y
    rw [State.total?, State.total?, h.2]
  · rw [State.bound?, h.2]
    exact Table.get?_insert _ _ _ _

theorem goes_insertSummary (hplain : s.graph.IsPlain node) (hnew : s.total? x = none) :
    Goes context (Placed context V)
      (modifyScopeAt 0 fun scope => { scope with summaries := scope.summaries.insert x node }) s
      fun _ t => t.graph = s.graph ∧ t.bound? = s.bound? ∧
        ∀ y, t.total? y = if x = y then some node else s.total? y := by
  refine Goes.mono (goes_modifyScopeAt hs rfl rfl rfl hs.hasNode (fun y n hn => ?_) (fun _ _ _ hn => hn)
    fun y n hn => ?_) fun _ t _ _ h => ⟨h.1, ?_, fun y => ?_⟩
  · rw [Table.get?_insert] at hn
    split at hn
    · cases hn
      exact hplain
    · exact hs.total y n hn
  · rw [Table.get?_insert, if_neg]
    · exact hn
    · rintro rfl
      cases hnew.symm.trans hn
  · funext y w
    rw [State.bound?, State.bound?, h.2]
  · rw [State.total?, h.2]
    exact Table.get?_insert _ _ _ _

/-! ### Names -/

omit hs in
theorem isPlain_of_extends {r : Rule} (hr : g.rule? id = some r)
    (h : (Rule.plain inputs).Extends r) : g.IsPlain id := by
  cases h with
  | refl | plain => exact ⟨_, hr⟩

theorem goes_summary (x : String) :
    Goes context (Placed context V) (summary 0 x) s fun n t => t.bound? = s.bound? ∧ t.total? x = some n := by
  unfold summary
  refine .reading (scopeAt_zero_apply hs.size) ?_
  split
  · next node hnode => exact .pure hs ⟨rfl, hnode⟩
  · next hnone =>
    have hfits : RuleFits (.plain []) s.graph := ruleFits_plain fun i hi => absurd hi not_mem_nil
    refine (goes_addNode hs hfits 0).bind fun node t ht hst hnode => ?_
    obtain ⟨hscopes, hnode, r, hr, hext⟩ := hnode
    have hplain : t.graph.IsPlain node := isPlain_of_extends hr hext
    have hnew : t.total? x = none := (congrFun (total?_eq hscopes) x).trans hnone
    refine (goes_insertSummary ht hplain hnew).bind fun _ u hu htu hsame => ?_
    obtain ⟨hgraph, hbound, htotal⟩ := hsame
    have hdone : u.bound? = s.bound? ∧ u.total? x = some node := by
      rw [hbound, htotal, if_pos rfl]
      exact ⟨bound?_eq hscopes, rfl⟩
    -- The scope is that of a module, so the summary becomes an export.
    rw [hs.kind]
    dsimp only
    refine .reading rfl ?_
    refine (goes_changed (Q := fun _ _ => True) hu (hu.sound.setExport (hgraph ▸ hnode) context.module x)
      rfl rfl trivial).bind fun _ w hw _ hsame => .pure hw ?_
    rw [bound?_eq hsame.1, total?_eq hsame.1]
    exact hdone

end

theorem goes_binding (hs : AtModule context V s) (x : String) (v line : Nat) :
    Goes context (AtModule context V) (binding x v line) s fun n t => t.bound? x v = some n := by
  unfold binding
  refine .reading (currentScope_apply hs.size) ?_
  split
  · next node hnode => exact .pure hs hnode
  · next hnone =>
    -- The new node feeds its summary only after some steps, so they are taken together.
    have hfits : RuleFits (.plain []) s.graph := ruleFits_plain fun i hi => absurd hi not_mem_nil
    have hnew : Goes context (Placed context V) (do
          let node ← addNode (.plain []) line
          modifyScope fun s => { s with bindings := s.bindings.insert (x, v) node }
          let total ← summary (← depth) x
          addInput total node
          return node) s fun n t =>
        (∀ y w, t.bound? y w = if (x, v) = (y, w) then some n else s.bound? y w) ∧ Summed t x n := by
      refine (goes_addNode hs.toPlaced hfits line).bind fun node t ht hst hnode => ?_
      obtain ⟨hscopes, hnode, r, hr, hext⟩ := hnode
      have hplain : t.graph.IsPlain node := isPlain_of_extends hr hext
      have hunbound : t.bound? x v = none := (congrFun (congrFun (bound?_eq hscopes) x) v).trans hnone
      refine (goes_insertBinding ht hnode hunbound).bind fun _ u hu htu hsame => ?_
      obtain ⟨hgraph, -, hbound⟩ := hsame
      refine .reading (depth_apply hu.size) ?_
      refine (goes_summary hu x).bind fun total w hw huw htotal => ?_
      obtain ⟨hsame, htotal⟩ := htotal
      have hnode' : w.graph.HasNode node := (htu.later.trans huw.later).hasNode hnode
      refine (goes_addInput hw hnode' (hw.total x total htotal)).bind fun _ z hz hwz hfeeds => ?_
      obtain ⟨hscopes', hfeeds⟩ := hfeeds
      refine .pure hz ⟨fun y i => ?_, hplain.later (htu.later.trans (huw.later.trans hwz.later)),
        total, hwz.total x total htotal, hfeeds⟩
      rw [bound?_eq hscopes', hsame, hbound, bound?_eq hscopes]
    obtain ⟨ht, hl, hbound, hsummed⟩ := hnew
    refine ⟨⟨ht, fun y w n hn => ?_⟩, hl, (hbound x v).trans (if_pos rfl)⟩
    rw [hbound] at hn
    split at hn
    · next heq =>
      cases heq
      cases hn
      exact .inr hsummed
    · exact (hs.bound y w n hn).imp_right fun h => h.leads hl

/-- A read of a local gives the node of the version that it sees. -/
theorem goes_readName (hs : AtModule context V s) (id : NameId) (hx : x ∈ V.locals) (line : Nat) :
    Goes context (AtModule context V) (readName id x line) s fun n t => t.graph.HasNode n ∧
      ∀ v, V.read? id = some (.version v) → t.bound? x v = some n := by
  unfold readName
  refine .reading (currentScope_apply hs.size) ?_
  rw [hs.frames, hs.versions, hs.globals, hs.nonlocals]
  simp only [framed?, contains_nil, Bool.false_eq_true, if_false]
  split
  · next v hv =>
    refine (goes_binding hs x v line).mono fun n t ht _ hn => ⟨ht.hasNode x v n hn, fun w hw => ?_⟩
    cases hv.symm.trans hw
    exact hn
  · next hunbound =>
    refine Goes.mono (Q := fun n t => t.graph.HasNode n) ?_ fun n t _ _ hn => ⟨hn, fun w hw => ?_⟩
    · refine .reading rfl ?_
      split
      · have hnone : s.graph.HasType (.base .none) := trivial
        exact .aside hs ((goes_constant hs.toPlaced hnone).mono fun _ _ _ _ h => ⟨h.1, h.2.1⟩)
      · have hfits : RuleFits (.plain []) s.graph := ruleFits_plain fun i hi => absurd hi not_mem_nil
        exact .aside hs ((goes_addNode hs.toPlaced hfits line).mono fun _ _ _ _ h => ⟨h.1, h.2.1⟩)
    · cases hunbound.symm.trans hw
  · next hnone =>
    -- a local that has no version here is read as a whole
    have hlocal : s.scope.isLocal x = true := by
      rw [Scope.isLocal, hs.versions]
      exact contains_iff_mem.2 hx
    rw [if_pos hlocal]
    refine .reading (depth_apply hs.size) ?_
    refine .tidy hs ((goes_summary hs.toPlaced x).mono fun n t ht _ h =>
      ?_)
    obtain ⟨inputs, hplain⟩ := ht.total x n h.2
    refine ⟨h.1, Graph.hasNode_of_rule? hplain, fun w hw => ?_⟩
    cases hnone.symm.trans hw

/-- A value has gone into the version that a write makes, and on into the summary of the name. -/
def Stored (V : Versions) (s : State) (id : NameId) (x : String) (value : NodeId) : Prop :=
  ∀ v, V.written? id = some v → ∃ n, s.bound? x v = some n ∧ s.graph.Feeds value n ∧
    ∃ total, s.total? x = some total ∧ s.graph.Feeds n total

theorem Stored.leads (h : Stored V s id x value) (hl : s.Leads t) : Stored V t id x value := by
  intro v hv
  obtain ⟨n, hn, hvalue, total, htotal, hfeeds⟩ := h v hv
  exact ⟨n, hl.bound x v n hn, hvalue.later hl.later, total, hl.total x total htotal,
    hfeeds.later hl.later⟩

/-- The versions that some events write are not those of merges. -/
def Apart (V : Versions) (events : List Event) : Prop :=
  ∀ id x, .write id x ∈ events → ∀ v, V.written? id = some v → ∀ m ∈ V.merges, m.name = x → m.version ≠ v

theorem goes_writeName (hs : AtModule context V s) (hapart : Apart V [.write id x])
    (line : Nat) (hvalue : s.graph.HasNode value) :
    Goes context (AtModule context V) (writeName id x value line) s fun _ t => Stored V t id x value := by
  have hwritten : Goes context (AtModule context V) (written? id x line) s fun o t =>
      (o = none → V.written? id = none) ∧
        ∀ n, o = some n → ∃ v, V.written? id = some v ∧ t.bound? x v = some n := by
    unfold written?
    refine .reading (currentScope_apply hs.size) ?_
    rw [hs.versions, hs.globals, hs.nonlocals]
    split
    · next v hv =>
      refine (goes_binding hs x v line).bind fun n t ht _ hn => .pure ht ⟨nofun, fun n' hn' => ?_⟩
      cases hn'
      exact ⟨v, hv, hn⟩
    · next hnone => exact .pure hs ⟨fun _ => hnone, nofun⟩
  refine hwritten.bind fun o t ht hst ho => ?_
  rcases o with - | n
  · refine .pure ht fun v hv => ?_
    cases (ho.1 rfl).symm.trans hv
  · obtain ⟨v, hv, hn⟩ := ho.2 n rfl
    rcases ht.bound x v n hn with ⟨m, hm, hname, hversion⟩ | ⟨hplain, total, htotal, hfeeds⟩
    · exact absurd hversion (hapart id x mem_cons_self v hv m hm hname)
    · refine .aside ht ((goes_addInput ht.toPlaced (hst.later.hasNode hvalue) hplain).mono
        fun _ u hu htu h => ⟨h.1, fun v' hv' => ?_⟩)
      cases hv.symm.trans hv'
      exact ⟨n, htu.bound x v n hn, h.2, total, htu.total x total htotal, hfeeds.later htu.later⟩

end FlowTyping.Inference
