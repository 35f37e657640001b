/-
The single steps of two analyses that run side by side.

For each step that the walk over a tree is made of there is one lemma: given arguments that belong
together, it leads from paired states to paired states.  A step that looks at the current scope
needs a scope to be there, so most lemmas ask for one scope at least.  A slot is looked up among the
unknown parameters and used at once, so it lies within them.
-/
import FlowTyping.Proofs.Twin.Basic

namespace FlowTyping.Twin

open List Inference

variable {P : Twin} {vs : List Versions} {v : Versions} {ds : List Diagnostic} {w : Pairing}
  {a a' b b' : NodeId} {as bs : List NodeId} {d : Nat} {es : List Diagnostic} {f k : Scope → Scope}
  {g h : Graph} {r r' : Graph.Request} {s t : State} {slot : Slot} {us : List Unknowns}
  {x y : Infer Unit}

/-! ### Reading and changing the state -/

theorem sim_read : P.Sim vs ds w read read fun _ c d => c = P.left ∧ d = P.right :=
  fun w' _ _ _ hst => ⟨w', .refl w', hst, rfl, rfl⟩

theorem sim_get : P.Sim vs ds w get get fun w' s t => P.States vs ds w' s t :=
  fun w' _ _ _ hst => ⟨w', .refl w', hst, hst⟩

theorem keeps_modify {f k : State → State}
    (h : ∀ w' s t, w.Grows w' → P.States vs ds w' s t → P.States vs ds w' (f s) (k t)) :
    P.Keeps vs ds w (modify f) (modify k) :=
  fun w' s t hw hst => ⟨w', .refl w', h w' s t hw hst, trivial⟩

theorem States.run (hst : P.States vs ds w s t) (h : w.RequestMatch r r') :
    ∃ w', w.Grows w' ∧
      P.States vs ds w' { s with graph := r.run s.graph } { t with graph := r'.run t.graph } ∧
      w'.Answered s.graph t.graph r r' := by
  obtain ⟨w', hw, hgraph, hanswer⟩ := P.run hst.graph h
  exact ⟨w', hw, hst.withGraph hw hgraph, hanswer⟩

theorem keeps_request (h : w.RequestMatch r r') :
    P.Keeps vs ds w (changeGraph fun g => r.run g) (changeGraph fun g => r'.run g) := by
  intro w₁ s t hw hst
  obtain ⟨w₂, hw₂, hst₂, -⟩ := hst.run (h.mono hw)
  exact ⟨w₂, hw₂, hst₂, trivial⟩

/-! ### Nodes -/

theorem sim_addNode {r r' : Rule} (h : w.RuleMatch r r') (line : Nat) :
    P.Sim vs ds w (addNode r line) (addNode r' line) Pairing.receiver := by
  intro w₁ s t hw hst
  obtain ⟨w₂, hw₂, hst₂, hanswer⟩ := hst.run (.add (h.mono hw) line)
  exact ⟨w₂, hw₂, hst₂, hanswer⟩

/-- A receiver can be used like any node. -/
theorem Sim.toNode {x y : Infer NodeId} (h : P.Sim vs ds w x y Pairing.receiver) :
    P.Sim vs ds w x y Pairing.node := by
  intro w₁ s t hw hst
  obtain ⟨w₂, hw₂, hst₂, hreceiver⟩ := h w₁ s t hw hst
  exact ⟨w₂, hw₂, hst₂, P.node_of_receiver hst₂.graph hreceiver⟩

theorem sim_plain (line : Nat) :
    P.Sim vs ds w (addNode (.plain []) line) (addNode (.plain []) line) Pairing.receiver :=
  sim_addNode (.plain .nil) line

theorem sim_constant {t u : Ty} (h : w.TyMatch t u) :
    P.Sim vs ds w (constant t) (constant u) Pairing.node := by
  intro w₁ s s' hw hst
  obtain ⟨w₂, hw₂, hst₂, hanswer⟩ := hst.run (.constant (h.mono hw))
  exact ⟨w₂, hw₂, hst₂, hanswer⟩

theorem sim_anyNode : P.Sim vs ds w anyNode anyNode Pairing.node :=
  sim_constant (.fixed trivial)

theorem sim_noneNode : P.Sim vs ds w noneNode noneNode Pairing.node :=
  sim_constant (.fixed trivial)

theorem sim_listNode : P.Sim vs ds w listNode listNode Pairing.node :=
  sim_constant (.fixed trivial)

theorem keeps_addInput {i j : NodeId} (h : w.receiver a b) (hinput : w.node i j) :
    P.Keeps vs ds w (addInput a i) (addInput b j) := keeps_request (.addInput h hinput)

theorem keeps_seed {ts us : TypeSet} (h : w.receiver a b)
    (htypes : Forall₂ w.TyMatch ts.toList us.toList) :
    P.Keeps vs ds w (seed a ts) (seed b us) := keeps_request (.seed h htypes)

theorem keeps_addCheck (h : w.node a b) : P.Keeps vs ds w (addCheck a) (addCheck b) :=
  keeps_modify fun _ _ _ hw hst =>
    { hst with checks := rel_append hst.checks (.cons (hw.node h) .nil) }

theorem sim_addChecked {r r' : Rule} (h : w.RuleMatch r r') (line : Nat) :
    P.Sim vs ds w (addChecked r line) (addChecked r' line) Pairing.node :=
  (sim_addNode h line).toNode.bind fun _ _ _ _ hid =>
    (keeps_addCheck hid).andThen fun _ _ _ hw => Sim.pure fun _ hw' => (hw.trans hw').node hid

theorem says_report (line : Nat) (issue : Issue) :
    P.Says vs ds w [⟨P.left.name, line, issue⟩] (report line issue) (report line issue) := by
  intro w' s t _ hst
  refine ⟨w', .refl w', { hst with diagnostics := ⟨?_, ?_⟩ }, trivial⟩
  · exact congrArg (· ++ _) hst.diagnostics.1
  · show t.diagnostics ++ [⟨P.right.name, line, issue⟩] = _
    rw [hst.diagnostics.2, P.agrees.name]

/-! ### Scopes -/

theorem asked_of_true {there : Bool} (h : there = true) : s.asked there = s := by
  rw [h]
  rfl

theorem States.asked {there there' : Bool} (hst : P.States vs ds w s t) (h : there = true)
    (h' : there' = true) : P.States vs ds w (s.asked there) (t.asked there') := by
  rw [asked_of_true h, asked_of_true h']
  exact hst

theorem lt_length_concat : vs.length < (vs ++ [v]).length := by simp

theorem length_concat_pos : 0 < (vs ++ [v]).length := by simp

theorem sim_depth : P.Sim (vs ++ [v]) ds w depth depth fun _ d d' => d = vs.length ∧ d' = vs.length := by
  intro w' s t hw hst
  obtain ⟨hleft, hright⟩ := hst.scopes.sizes
  rw [length_append, length_singleton] at hleft hright
  refine ⟨w', .refl w', hst.asked (by simp [hleft]) (by simp [hright]), ?_, ?_⟩
  · show s.scopes.size - 1 = _
    rw [hleft]
    rfl
  · show t.scopes.size - 1 = _
    rw [hright]
    rfl

theorem sim_scopeAt_versions (hd : d < vs.length) : P.Sim vs ds w (scopeAt d) (scopeAt d)
    fun w a b => w.ScopeMatch a b ∧ vs[d]? = some a.versions := by
  intro w' s t hw hst
  obtain ⟨hleft, hright⟩ := hst.scopes.sizes
  have hdl : d < s.scopes.size := hleft ▸ hd
  have hdr : d < t.scopes.size := hright ▸ hd
  have hgs := Array.getElem?_eq_getElem hdl
  have hgt := Array.getElem?_eq_getElem hdr
  refine ⟨w', .refl w', hst.asked (decide_eq_true hdl) (decide_eq_true hdr), ?_, ?_⟩
  · show w'.ScopeMatch ((s.scopes[d]?).getD default) ((t.scopes[d]?).getD default)
    have hrel := hst.scopes.get d
    rw [hgs, hgt] at hrel ⊢
    exact Option.rel_some_some.1 hrel
  · show vs[d]? = some ((s.scopes[d]?).getD default).versions
    rw [← hst.scopes.versions, List.getElem?_map, Array.getElem?_toList, hgs]
    rfl

theorem sim_scopeAt (hd : d < vs.length) :
    P.Sim vs ds w (scopeAt d) (scopeAt d) Pairing.ScopeMatch :=
  (sim_scopeAt_versions hd).imp fun _ _ _ => And.left

theorem sim_currentScope_versions : P.Sim (vs ++ [v]) ds w currentScope currentScope
    fun w a b => w.ScopeMatch a b ∧ a.versions = v := by
  refine sim_depth.bind fun _ d d' _ hd => ?_
  obtain ⟨rfl, rfl⟩ := hd
  refine (sim_scopeAt_versions lt_length_concat).imp fun _ a b h => ⟨h.1, ?_⟩
  have hlast := h.2
  rw [List.getElem?_concat_length] at hlast
  exact (Option.some.inj hlast).symm

theorem sim_currentScope :
    P.Sim (vs ++ [v]) ds w currentScope currentScope Pairing.ScopeMatch :=
  sim_currentScope_versions.imp fun _ _ _ => And.left

theorem keeps_modifyScopeAt (hd : d < vs.length) (hf : ∀ a, (f a).versions = a.versions)
    (h : ∀ w', w.Grows w' → ∀ a b, w'.ScopeMatch a b → w'.ScopeMatch (f a) (k b)) :
    P.Keeps vs ds w (modifyScopeAt d f) (modifyScopeAt d k) := by
  refine keeps_modify fun w' s t hw hst => ?_
  obtain ⟨hleft, hright⟩ := hst.scopes.sizes
  have hs : s.asked (d < s.scopes.size) = s := asked_of_true (decide_eq_true (hleft ▸ hd))
  have ht : t.asked (d < t.scopes.size) = t := asked_of_true (decide_eq_true (hright ▸ hd))
  rw [hs, ht]
  refine { hst with scopes := ⟨hst.scopes.modify (fun hab => h w' hw _ _ hab) d, ?_⟩ }
  show (s.scopes.modify d f).toList.map (·.versions) = vs
  rw [Array.toList_modify, Graph.map_modify_of_eq hf]
  exact hst.scopes.versions

theorem keeps_modifyScope (hf : ∀ a, (f a).versions = a.versions)
    (h : ∀ w', w.Grows w' → ∀ a b, w'.ScopeMatch a b → w'.ScopeMatch (f a) (k b)) :
    P.Keeps (vs ++ [v]) ds w (modifyScope f) (modifyScope k) := by
  refine sim_depth.bind fun _ d d' hw hd => ?_
  obtain ⟨rfl, rfl⟩ := hd
  exact keeps_modifyScopeAt lt_length_concat hf fun w' hw' => h w' (hw.trans hw')

theorem States.pushScope {a b : Scope} (hst : P.States vs ds w s t) (h : w.ScopeMatch a b) :
    P.States (vs ++ [a.versions]) ds w { s with scopes := s.scopes.push a }
      { t with scopes := t.scopes.push b } := by
  refine { hst with scopes := ⟨hst.scopes.push h, ?_⟩ }
  show (s.scopes.push a).toList.map (·.versions) = vs ++ [a.versions]
  rw [Array.toList_push, map_append, hst.scopes.versions]
  rfl

theorem States.popScope (hst : P.States (vs ++ [v]) ds w s t) :
    P.States vs ds w { s with scopes := s.scopes.pop, left := s.scopes.back?.toList ++ s.left }
      { t with scopes := t.scopes.pop, left := t.scopes.back?.toList ++ t.left } := by
  have hlast : Forall₂ w.ScopeMatch s.scopes.back?.toList t.scopes.back?.toList := by
    exact optionRel_cases hst.scopes.back? .nil fun h => .cons h .nil
  refine { hst with
    scopes := ⟨hst.scopes.pop, ?_⟩
    left := rel_append hlast hst.left }
  show s.scopes.pop.toList.map (·.versions) = vs
  rw [Array.toList_pop, map_dropLast, hst.scopes.versions, dropLast_concat]

/-- One more scope on both sides, for a while. -/
theorem says_inScope {a b : Scope} (h : w.ScopeMatch a b)
    (hx : P.Says (vs ++ [a.versions]) ds w es x y) :
    P.Says vs ds w es (do pushScope a; x; popScope) (do pushScope b; y; popScope) := by
  intro w₁ s t hw hst
  obtain ⟨w₂, hw₂, hst₂, -⟩ := hx w₁ _ _ hw (hst.pushScope (h.mono hw))
  exact ⟨w₂, hw₂, hst₂.popScope, trivial⟩

theorem says_inPath {name : String} (h : P.Says vs ds w es x y) :
    P.Says vs ds w es (inPath name x) (inPath name y) := by
  refine sim_get.bind fun w₁ s t hw hst => ?_
  have hpath : t.path = s.path := hst.path
  dsimp only
  rw [hpath]
  refine Keeps.andThen (keeps_modify fun _ _ _ _ hst => { hst with path := rfl }) fun w₂ _ _ hw₂ => ?_
  refine Says.andKeeps (Leads.grow h (hw.trans hw₂)) fun w₃ _ _ _ => ?_
  exact keeps_modify fun _ _ _ _ hst => { hst with path := rfl }

theorem sim_qualify (name : String) :
    P.Sim vs ds w (qualify name) (qualify name) fun _ a b => a = b := by
  refine sim_get.bind fun w₁ s t hw hst => Sim.pure fun _ _ => ?_
  have hpath : t.path = s.path := hst.path
  rw [hpath]

/-! ### Frames -/

theorem keeps_pushFrame {names names' : Table String NodeId} (h : names.Match w.node names') :
    P.Keeps (vs ++ [v]) ds w (pushFrame names) (pushFrame names') :=
  keeps_modifyScope (fun _ => rfl) fun _ hw _ _ hscope =>
    { hscope with frames := .cons (h.mono hw.node) hscope.frames }

theorem keeps_popFrame : P.Keeps (vs ++ [v]) ds w popFrame popFrame := by
  refine keeps_modifyScope (fun _ => rfl) fun w' _ a b hscope => { hscope with frames := ?_ }
  have hframes := hscope.frames
  show Forall₂ (Table.Match w'.node) a.frames.tail b.frames.tail
  generalize a.frames = as at hframes ⊢
  generalize b.frames = bs at hframes ⊢
  cases hframes with
  | nil => exact .nil
  | cons _ hrest => exact hrest

theorem keeps_bindInFrame (name : String) (h : w.node a b) :
    P.Keeps (vs ++ [v]) ds w (bindInFrame name a) (bindInFrame name b) := by
  refine keeps_modifyScope (fun scope => ?_) fun w' hw s t hscope => ?_
  · rcases scope.frames with - | ⟨names, frames⟩ <;> rfl
  obtain ⟨kind, versions, bindings, summaries, loops, frames⟩ := s
  obtain ⟨kind', versions', bindings', summaries', loops', frames'⟩ := t
  have hframes := hscope.frames
  cases hframes with
  | nil => exact hscope
  | cons hfirst hrest =>
    exact { hscope with frames := .cons (hfirst.insert name (hw.node h)) hrest }

/-! ### Names -/

theorem sim_summary (hd : d < vs.length) (name : String) :
    P.Sim vs ds w (summary d name) (summary d name) Pairing.receiver := by
  unfold summary
  refine (sim_scopeAt hd).bind fun w₁ s t _ hscope => ?_
  refine optionRel_cases (hscope.summaries.get? name) ?_ fun hab => Sim.pure fun _ hw => hw.receiver hab
  refine (sim_plain 0).bind fun w₂ a b hw₂ hab => ?_
  refine Keeps.andThen (keeps_modifyScopeAt hd (fun _ => rfl) fun w' hw' u v huv =>
    { huv with summaries := huv.summaries.insert name (hw'.receiver hab) }) fun w₃ _ _ hw₃ => ?_
  have hdone : ∀ w', w₃.Grows w' →
      P.Sim vs ds w' (Pure.pure a) (Pure.pure b) Pairing.receiver :=
    fun w' hw' => Sim.pure fun w'' hw'' => ((hw₃.trans hw').trans hw'').receiver hab
  have hkind := hscope.kind
  generalize s.kind = kind at hkind ⊢
  generalize t.kind = kind' at hkind ⊢
  cases hkind with
  | module =>
    refine sim_read.bind fun w₄ c c' hw₄ hcontexts => ?_
    obtain ⟨rfl, rfl⟩ := hcontexts
    intro w₅ s t hw₅ hst
    have hnode := ((hw₃.trans hw₄).trans hw₅).receiver hab
    obtain ⟨w₆, hw₆, hst₆, -⟩ := hst.run (.setExport hst.module name hnode)
    exact ⟨w₆, hw₆, hst₆, hw₆.receiver hnode⟩
  | classBody hc =>
    exact Keeps.andThen (keeps_request (.addOwnMember ((hw₂.trans hw₃).ofClass hc) name
      (hw₃.receiver hab))) fun w₄ _ _ hw₄ => hdone w₄ hw₄
  | functionBody _ => exact hdone w₃ (.refl w₃)

theorem keeps_summaries (hd : d < vs.length) (names : List String) :
    P.Keeps vs ds w (summaries d names) (summaries d names) := by
  induction names generalizing w with
  | nil => exact Keeps.pure
  | cons name names ih => exact (sim_summary hd name).discard.andThen fun _ _ _ _ => ih

theorem sim_binding (name : String) (version line : Nat) :
    P.Sim (vs ++ [v]) ds w (binding name version line) (binding name version line)
      Pairing.receiver := by
  unfold binding
  refine sim_currentScope.bind fun w₁ s t _ hscope => ?_
  refine optionRel_cases (hscope.bindings.get? (name, version)) ?_
    fun hab => Sim.pure fun _ hw => hw.receiver hab
  refine (sim_plain line).bind fun w₂ a b _ hab => ?_
  refine Keeps.andThen (keeps_modifyScope (fun _ => rfl) fun w' hw' u v huv =>
    { huv with bindings := huv.bindings.insert (name, version) (hw'.receiver hab) })
    fun w₃ _ _ hw₃ => ?_
  refine sim_depth.bind fun w₄ d d' hw₄ hd => ?_
  obtain ⟨rfl, rfl⟩ := hd
  refine (sim_summary lt_length_concat name).bind fun w₅ total total' hw₅ htotal => ?_
  have hab' := ((hw₃.trans hw₄).trans hw₅).receiver hab
  intro w₆ s t hw₆ hst
  have hnode := P.node_of_receiver hst.graph (hw₆.receiver hab')
  obtain ⟨w₇, hw₇, hst₇, -⟩ := hst.run (.addInput (hw₆.receiver htotal) hnode)
  exact ⟨w₇, hw₇, hst₇, (hw₆.trans hw₇).receiver hab'⟩

theorem sim_unboundNode (line : Nat) :
    P.Sim vs ds w (unboundNode line) (unboundNode line) Pairing.node := by
  refine sim_read.bind fun _ c c' _ hcontexts => ?_
  obtain ⟨rfl, rfl⟩ := hcontexts
  rw [P.agrees.config]
  exact Sim.ite (fun _ => sim_noneNode) fun _ => (sim_plain line).toNode

theorem isFunction_eq {a b : Scope} (h : w.ScopeMatch a b) : b.isFunction = a.isFunction := by
  have hkind := h.kind
  unfold Scope.isFunction
  generalize a.kind = kind at hkind ⊢
  generalize b.kind = kind' at hkind ⊢
  cases hkind <;> rfl

theorem ownerBelow?_eq {ss ts : Array Scope} (h : w.ScopesMatch vs ss ts) (name : String)
    (d : Nat) : ownerBelow? ts name d = ownerBelow? ss name d := by
  induction d with
  | zero => rfl
  | succ d ih =>
    simp only [ownerBelow?]
    refine optionRel_cases (h.get (d + 1)) ih fun hscope => ?_
    dsimp only
    rw [isFunction_eq hscope, Scope.isLocal, Scope.isLocal, hscope.versions, ih]

/-- The owner of a name is a scope around the current one. -/
theorem lt_of_ownerBelow? {scopes : Array Scope} {name : String} {owner : Nat}
    (h : ownerBelow? scopes name d = some owner) : owner ≤ d := by
  induction d with
  | zero => cases h
  | succ d ih =>
    simp only [ownerBelow?] at h
    split at h
    · split at h
      · cases h
        exact le_rfl
      · exact Nat.le_succ_of_le (ih h)
    · exact Nat.le_succ_of_le (ih h)

theorem sim_enclosing? (name : String) :
    P.Sim (vs ++ [v]) ds w (enclosing? name) (enclosing? name) fun w => Option.Rel w.receiver := by
  unfold enclosing?
  refine sim_get.bind fun w₁ s t _ hst => sim_depth.bind fun w₂ d d' _ hd => ?_
  obtain ⟨rfl, rfl⟩ := hd
  have hscopes := hst.scopes
  rw [ownerBelow?_eq hscopes]
  rcases hfound : ownerBelow? s.scopes name (vs.length - 1) with - | owner
  · exact Sim.pure fun _ _ => .none
  · have hlt : owner < (vs ++ [v]).length := by
      have hle := lt_of_ownerBelow? hfound
      rw [length_append, length_singleton]
      omega
    exact (sim_summary hlt name).bind fun _ _ _ _ hab => Sim.pure fun _ hw => .some (hw.receiver hab)

theorem exported?_rel {ms ns : List ModuleId} (hgraph : P.graphs w g h)
    (hms : Forall₂ w.ofModule ms ns) (name : String) :
    Option.Rel w.node (exported? g name ms) (exported? h name ns) := by
  induction hms with
  | nil => exact .none
  | cons hm _ ih =>
    simp only [exported?]
    exact optionRel_cases (P.exported hgraph hm name) ih fun hab => .some hab

/-- What a built-in name stands for is no class, function or module of the program. -/
theorem isFixed_builtin (name : String) : ((Builtin.lookup? name).getD .any).IsFixed := by
  unfold Builtin.lookup?
  split
  · exact trivial
  · split
    · exact trivial
    · split
      · exact trivial
      · rcases h : Builtin.values.lookup name with - | t
        · exact trivial
        · have hvalues : ∀ e ∈ Builtin.values, e.2.IsFixed := by
            simp [Builtin.values, Ty.IsFixed]
          exact hvalues _ (mem_of_lookup_eq_some h)

theorem sim_global (name : String) :
    P.Sim (vs ++ [v]) ds w (global name) (global name) Pairing.node := by
  unfold global
  refine (sim_scopeAt length_concat_pos).bind fun w₁ a b _ hscope => ?_
  rw [Scope.isLocal, Scope.isLocal, hscope.versions, hscope.summaries.contains]
  refine Sim.ite (fun _ => (sim_summary length_concat_pos name).toNode) fun _ => ?_
  refine sim_get.bind fun w₂ s t _ hst => ?_
  refine optionRel_cases (exported?_rel hst.graph hst.starImports name) ?_
    fun hab => Sim.pure fun _ hw => hw.node hab
  refine sim_read.bind fun w₃ c c' _ hcontexts => ?_
  obtain ⟨rfl, rfl⟩ := hcontexts
  rw [P.agrees.config]
  exact Sim.ite (fun _ => sim_anyNode) fun _ => sim_constant (.fixed (isFixed_builtin name))

theorem framed?_rel {as bs : List (Table String NodeId)} (name : String)
    (h : Forall₂ (Table.Match w.node) as bs) :
    Option.Rel w.node (framed? name as) (framed? name bs) := by
  induction h with
  | nil => exact .none
  | @cons a b as bs hab _ ih =>
    simp only [framed?]
    exact optionRel_cases (hab.get? name) ih fun hxy => .some hxy

theorem sim_outer (name : String) :
    P.Sim (vs ++ [v]) ds w (outer name) (outer name) Pairing.node := by
  intro w₁ s t hw hst
  refine (Sim.bind (sim_enclosing? name) fun w₂ a b hw₂ hrel => ?_ :
    P.Sim (vs ++ [v]) ds w₁ (outer name) (outer name) Pairing.node) w₁ s t (.refl w₁) hst
  cases hrel with
  | some hab => exact Sim.toNode (Sim.pure fun _ hw => hw.receiver hab)
  | none => exact sim_global name

theorem sim_readName (id : NameId) (name : String) (line : Nat) :
    P.Sim (vs ++ [v]) ds w (readName id name line) (readName id name line) Pairing.node := by
  unfold readName
  refine sim_currentScope.bind fun w₁ a b _ hscope => ?_
  rw [Scope.isLocal, Scope.isLocal, hscope.versions]
  refine optionRel_cases (framed?_rel name hscope.frames) ?_ fun hab => Sim.pure fun _ hw => hw.node hab
  refine Sim.ite (fun _ => sim_global name) fun _ => Sim.ite (fun _ => ?_) fun _ => ?_
  · refine (sim_enclosing? name).bind fun w₂ x y _ hrel => ?_
    cases hrel with
    | some hxy => exact Sim.toNode (Sim.pure fun _ hw => hw.receiver hxy)
    | none => exact sim_anyNode
  · rcases a.versions.read? id with - | v | -
    · refine Sim.ite (fun _ => sim_depth.bind fun w₂ d d' _ hd => ?_) fun _ => sim_outer name
      obtain ⟨rfl, rfl⟩ := hd
      exact (sim_summary lt_length_concat name).toNode
    · exact (sim_binding name v line).toNode
    · exact sim_unboundNode line

theorem sim_written? (id : NameId) (name : String) (line : Nat) :
    P.Sim (vs ++ [v]) ds w (written? id name line) (written? id name line)
      fun w => Option.Rel w.receiver := by
  have hsome : ∀ {w : Pairing} {x y : Infer NodeId},
      (P.Sim (vs ++ [v]) ds w x y Pairing.receiver) →
      P.Sim (vs ++ [v]) ds w (do return some (← x)) (do return some (← y))
        fun w => Option.Rel w.receiver :=
    fun hx => hx.bind fun _ _ _ _ hab => Sim.pure fun _ hw => .some (hw.receiver hab)
  unfold written?
  refine sim_currentScope.bind fun w₁ a b _ hscope => ?_
  rw [hscope.versions]
  rcases a.versions.written? id with - | v
  · refine Sim.ite (fun _ => hsome (sim_summary length_concat_pos name)) fun _ =>
      Sim.ite (fun _ => sim_enclosing? name) fun _ => Sim.pure fun _ _ => .none
  · exact hsome (sim_binding name v line)

theorem keeps_writeName (id : NameId) (name : String) (line : Nat) (h : w.node a b) :
    P.Keeps (vs ++ [v]) ds w (writeName id name a line) (writeName id name b line) := by
  refine (sim_written? id name line).bind fun w₁ x y hw hrel => ?_
  cases hrel with
  | some hxy => exact keeps_addInput hxy (hw.node h)
  | none => exact Keeps.pure

/-! ### Unknown parameters -/

theorem mem_iff_mem (hgraph : P.graphs w g h) (hab : w.node a b) (hs : Forall₂ w.receiver as bs) :
    a ∈ as ↔ b ∈ bs := by
  induction hs with
  | nil => exact iff_of_false not_mem_nil not_mem_nil
  | cons hxy _ ih =>
    rw [mem_cons, mem_cons, ih, P.node_inj hgraph hab (P.node_of_receiver hgraph hxy)]

theorem related_without {es fs : Table NodeId Slot} (hgraph : P.graphs w g h) (hs : es.Related w.node Eq fs)
    (hparams : Forall₂ w.receiver as bs) : (es.without as).Related w.node Eq (fs.without bs) := by
  obtain ⟨es⟩ := es
  obtain ⟨fs⟩ := fs
  change Forall₂ _ es fs at hs
  show Forall₂ _ (es.filter _) (fs.filter _)
  induction hs with
  | nil => exact .nil
  | cons hef _ ih =>
    simp only [filter_cons, mem_iff_mem hgraph hef.1 hparams, decide_eq_true_eq]
    split
    · exact .cons hef ih
    · exact ih

theorem related_noteSlots {es fs : Table NodeId Slot} (hgraph : P.graphs w g h)
    (hs : es.Related w.node Eq fs) (hparams : Forall₂ w.receiver as bs) (function i : Nat) :
    (noteSlots function (as.zipIdx i) es).Related w.node Eq (noteSlots function (bs.zipIdx i) fs) := by
  induction hparams generalizing es fs i with
  | nil => exact hs
  | cons hab _ ih => exact ih (hs.insert (P.node_inj hgraph) (P.node_of_receiver hgraph hab) rfl) (i + 1)

/-- Each place is an old one or that of a parameter that has been noted. -/
theorem mem_noteSlots {params : List (NodeId × Nat)} {es : Table NodeId Slot} {function : Nat}
    {e : NodeId × Slot} (he : e ∈ (noteSlots function params es).entries) :
    e ∈ es.entries ∨ ∃ p ∈ params, e = (p.1, ⟨function, p.2⟩) := by
  induction params generalizing es with
  | nil => exact .inl he
  | cons p params ih =>
    rcases ih he with he | ⟨q, hq, rfl⟩
    · exact (Table.mem_entries_insert he).imp_right fun heq => ⟨p, mem_cons_self, heq⟩
    · exact .inr ⟨q, mem_cons_of_mem _ hq, rfl⟩

section

variable {us vs : Array Unknowns} {es fs : Table NodeId Slot} (hs : w.StacksMatch us vs es fs)
include hs

/-- A place that is looked up is one among the unknown parameters of both sides. -/
theorem isIn_of_get? (h : es.get? a = some slot) : slot.isIn us = true ∧ slot.isIn vs = true := by
  obtain ⟨u, hu, hparam⟩ := hs.placed _ (Table.mem_entries_of_get? h)
  have hrel := hs.get slot.function
  rw [hu] at hrel
  obtain ⟨v, hv, hmatch⟩ := optionRel_some_left hrel
  have hposition := (List.getElem?_eq_some_iff.1 hparam).1
  simp only [Slot.isIn, hu, hv, hmatch.domains, hmatch.size, decide_eq_true_eq]
  exact ⟨hposition, hposition⟩

theorem stacks_push (hgraph : P.graphs w g h) (hparams : Forall₂ w.receiver as bs) :
    w.StacksMatch (us.push ⟨as, .ofCount as.length⟩) (vs.push ⟨bs, .ofCount bs.length⟩)
      (noteSlots us.size as.zipIdx es) (noteSlots vs.size bs.zipIdx fs) where
  toArrayMatch := hs.push ⟨hparams, congrArg Domains.ofCount hparams.length_eq.symm, length_replicate⟩
  slots := hs.size ▸ related_noteSlots hgraph hs.slots hparams us.size 0
  placed e he := by
    rcases mem_noteSlots he with he | ⟨p, hp, rfl⟩
    · obtain ⟨u, hu, hparam⟩ := hs.placed e he
      have hlt := (Array.getElem?_eq_some_iff.1 hu).1
      exact ⟨u, by rw [Array.getElem?_push, if_neg hlt.ne, hu], hparam⟩
    · exact ⟨_, Array.getElem?_push_size, mk_mem_zipIdx_iff_getElem?.1 hp⟩

/-- With the parameters of the innermost function their places go. -/
theorem stacks_pop (hgraph : P.graphs w g h) {u v : Unknowns} (hu : us.back? = some u) (huv : w.UnknownsMatch u v) :
    w.StacksMatch us.pop vs.pop (es.without u.params) (fs.without v.params) where
  toArrayMatch := hs.pop
  slots := related_without hgraph hs.slots huv.params
  placed e he := by
    obtain ⟨he, hnot⟩ := mem_filter.1 he
    obtain ⟨x, hx, hparam⟩ := hs.placed e he
    -- the place of a parameter of another function
    have hne : e.2.function ≠ us.size - 1 := by
      intro heq
      rw [heq, ← Array.back?_eq_getElem?, hu, Option.some_inj] at hx
      exact absurd (hx ▸ mem_of_getElem? hparam) (of_decide_eq_true hnot)
    have hlt := (Array.getElem?_eq_some_iff.1 hx).1
    exact ⟨x, by rw [Array.getElem?_pop, if_pos (by omega), hx], hparam⟩

/-- A change of the domains that keeps their number. -/
theorem stacks_modify {f : Domains → Domains} (function : Nat) (hf : ∀ d, (f d).size = d.size) :
    w.StacksMatch (us.modify function fun u => { u with domains := f u.domains })
      (vs.modify function fun u => { u with domains := f u.domains }) es fs where
  toArrayMatch := by
    refine hs.modify (fun huv => ?_) function
    exact ⟨huv.params, congrArg f huv.domains, (hf _).trans huv.size⟩
  slots := hs.slots
  placed e he := by
    obtain ⟨u, hu, hparam⟩ := hs.placed e he
    rw [Array.getElem?_modify, hu]
    split
    · exact ⟨_, rfl, hparam⟩
    · exact ⟨u, rfl, hparam⟩

end

theorem size_restrict (d : Domains) (position : Nat) (allowed : KindSet) :
    (d.restrict position allowed).size = d.size := length_modify _ _ _

theorem size_pair (d : Domains) (left right : Nat) (op : BinaryOp) :
    (d.pair left right op).size = d.size := by
  unfold Domains.pair
  split <;> rfl

theorem keeps_modifyDomains {f : Domains → Domains} (function : Nat) (hf : ∀ d, (f d).size = d.size) :
    P.Keeps vs ds w (modifyDomains function f) (modifyDomains function f) :=
  keeps_modify fun _ _ _ _ hst => { hst with unknowns := stacks_modify hst.unknowns function hf }

theorem keeps_pushUnknowns (h : Forall₂ w.receiver as bs) :
    P.Keeps vs ds w (pushUnknowns as) (pushUnknowns bs) :=
  keeps_modify fun _ _ _ hw hst =>
    { hst with unknowns := stacks_push hst.unknowns hst.graph (h.imp fun _ _ hab => hw.receiver hab) }

theorem tyMatch_fixed {types : TypeSet} (h : ∀ t ∈ types, t.IsFixed) :
    Forall₂ w.TyMatch types.toList types.toList :=
  forall₂_same.2 fun t ht => .fixed (h t ht)

theorem tyMatch_single {t u : Ty} (h : w.TyMatch t u) :
    Forall₂ w.TyMatch (TypeSet.single t).toList (TypeSet.single u).toList := .cons h .nil

theorem isFixed_solvedTypes {config : Config} {kinds : Option KindSet} {t : Ty}
    (h : t ∈ solvedTypes config kinds) : t.IsFixed := by
  have hany : t ∈ TypeSet.any → t.IsFixed := by
    intro ht
    rw [TypeSet.mem_single.1 ht]
    exact trivial
  unfold solvedTypes at h
  split at h
  · split at h
    · obtain ⟨k, -, rfl⟩ := mem_map.1 (TypeSet.mem_ofList.1 h)
      exact trivial
    · exact hany h
  · exact hany h

theorem keeps_seedAll {types : List TypeSet} (h : Forall₂ w.receiver as bs)
    (hfixed : ∀ ts ∈ types, ∀ t ∈ ts, t.IsFixed) :
    P.Keeps vs ds w (seedAll (as.zip types)) (seedAll (bs.zip types)) := by
  induction types generalizing w as bs with
  | nil =>
    rw [zip_nil_right, zip_nil_right]
    exact Keeps.pure
  | cons ts types ih =>
    cases h with
    | nil => exact Keeps.pure
    | cons hab hrest =>
      refine (keeps_seed hab (tyMatch_fixed (hfixed ts mem_cons_self))).andThen
        fun w' _ _ hw => ih (hrest.imp fun _ _ h => hw.receiver h) fun us hus =>
          hfixed us (mem_cons_of_mem _ hus)

theorem sim_takeUnknowns? : P.Sim vs ds w (modifyGet State.takeUnknowns?)
    (modifyGet State.takeUnknowns?) fun w => Option.Rel w.UnknownsMatch := by
  intro w₁ s t _ hst
  have hback := hst.unknowns.back?
  have happly (c : Context) (s : State) :
      (modifyGet State.takeUnknowns? : Infer (Option Unknowns)) c s = s.takeUnknowns? := rfl
  simp only [happly, State.takeUnknowns?]
  generalize hu : s.unknowns.back? = x at hback ⊢
  generalize t.unknowns.back? = y at hback ⊢
  cases hback with
  | none => exact ⟨w₁, .refl w₁, hst, .none⟩
  | some huv => exact ⟨w₁, .refl w₁, { hst with unknowns := stacks_pop hst.unknowns hst.graph hu huv }, .some huv⟩

theorem keeps_popUnknowns : P.Keeps vs ds w popUnknowns popUnknowns := by
  unfold popUnknowns
  refine sim_takeUnknowns?.bind fun w₁ x y _ hxy => ?_
  cases hxy with
  | none => exact Keeps.pure
  | @some u v huv =>
    refine sim_read.bind fun w₂ c c' hw₂ hcontexts => ?_
    obtain ⟨rfl, rfl⟩ := hcontexts
    dsimp only
    rw [P.agrees.config, huv.domains]
    refine keeps_seedAll (huv.params.imp fun _ _ h => hw₂.receiver h) fun ts hts t ht => ?_
    obtain ⟨kinds, -, rfl⟩ := mem_map.1 hts
    exact isFixed_solvedTypes ht

/-- Looking a slot up leaves the state alone. -/
theorem slot?_bind (a : NodeId) (k : Option Slot → Infer Unit) (c : Context) (s : State) :
    (slot? a >>= k) c s = k (s.slots.get? a) c s := rfl

/-- Asking for a slot that is there leaves the state alone. -/
theorem askSlot_bind (h : slot.isIn s.unknowns = true) (k : Unit → Infer Unit) (c : Context) :
    (askSlot slot >>= k) c s = k () c s := by
  show k () c (s.asked (slot.isIn s.unknowns)) = k () c s
  rw [asked_of_true h]

/-- Nodes that belong together have the same place. -/
theorem States.slots_get? (hst : P.States vs ds w s t) (h : w.node a b) : t.slots.get? b = s.slots.get? a := by
  exact optionRel_cases (hst.unknowns.slots.get? (P.node_inj hst.graph) h) rfl fun h => by rw [h]

theorem keeps_restrict (h : w.node a b) (allowed : KindSet) :
    P.Keeps vs ds w (restrict a allowed) (restrict b allowed) := by
  intro w₁ s t hw hst
  unfold restrict
  rw [slot?_bind, slot?_bind, hst.slots_get? (hw.node h)]
  rcases hslot : s.slots.get? a with - | slot
  · exact ⟨w₁, .refl w₁, hst, trivial⟩
  · obtain ⟨hleft, hright⟩ := isIn_of_get? hst.unknowns hslot
    dsimp only
    rw [askSlot_bind hleft, askSlot_bind hright]
    exact keeps_modifyDomains slot.function (fun d => size_restrict d _ _) w₁ s t (.refl w₁) hst

theorem sim_typesOf (h : w.node a b) :
    P.Sim vs ds w (typesOf a) (typesOf b) fun _ x y => knownKinds? y = knownKinds? x := by
  intro w₁ s t hw hst
  exact ⟨w₁, .refl w₁, hst, P.knownKinds hst.graph (hw.node h)⟩

theorem keeps_restrictBeside (h : w.node a a') (h' : w.node b b') (allowed : KindSet → KindSet) :
    P.Keeps vs ds w (restrictBeside a b allowed) (restrictBeside a' b' allowed) := by
  refine (sim_typesOf h').bind fun w₁ x y hw hkinds => ?_
  rw [hkinds]
  rcases knownKinds? x with - | kinds
  · exact Keeps.pure
  · exact keeps_restrict (hw.node h) _

theorem keeps_constrainOperands (op : BinaryOp) (h : w.node a a') (h' : w.node b b') :
    P.Keeps vs ds w (constrainOperands op a b) (constrainOperands op a' b') := by
  intro w₁ s t hw hst
  unfold constrainOperands
  rw [slot?_bind, slot?_bind, slot?_bind, slot?_bind, hst.slots_get? (hw.node h), hst.slots_get? (hw.node h')]
  rcases hl : s.slots.get? a with - | l
  · rcases hr : s.slots.get? b with - | r
    · exact ⟨w₁, .refl w₁, hst, trivial⟩
    · exact keeps_restrictBeside h' h _ w₁ s t hw hst
  · rcases hr : s.slots.get? b with - | r
    · exact keeps_restrictBeside h h' _ w₁ s t hw hst
    · obtain ⟨hll, hlr⟩ := isIn_of_get? hst.unknowns hl
      obtain ⟨hrl, hrr⟩ := isIn_of_get? hst.unknowns hr
      dsimp only
      split
      · rw [askSlot_bind hll, askSlot_bind hlr, askSlot_bind hrl, askSlot_bind hrr]
        exact keeps_modifyDomains l.function (fun d => size_pair d _ _ op) w₁ s t (.refl w₁) hst
      · exact ⟨w₁, .refl w₁, hst, trivial⟩

theorem keeps_constrainPositions (h : w.node a b) (hs : Forall₂ w.node as bs) (i : Nat) :
    P.Keeps vs ds w (constrainPositions a (as.zipIdx i)) (constrainPositions b (bs.zipIdx i)) := by
  induction as generalizing w bs i with
  | nil =>
    cases hs
    exact Keeps.pure
  | cons x as ih =>
    rcases hs with - | ⟨hxy, hs⟩
    rw [zipIdx_cons, zipIdx_cons]
    unfold constrainPositions
    refine sim_get.bind fun w₁ s t hw hst => ?_
    have hrest : ∀ w', w₁.Grows w' → P.Keeps vs ds w' (constrainPositions a (as.zipIdx (i + 1)))
        (constrainPositions b (List.zipIdx _ (i + 1))) := fun w' hw' =>
      ih ((hw.trans hw').node h) (hs.imp fun _ _ h => (hw.trans hw').node h) (i + 1)
    dsimp only
    rw [P.accepted hst.graph (hw.node h) i]
    rcases acceptedByAll? s.graph i (s.graph.types a).toList with - | allowed
    · exact hrest w₁ (.refl w₁)
    · exact (keeps_restrict (hw.node hxy) allowed).andThen fun w₂ _ _ hw₂ => hrest w₂ hw₂

theorem positionalArguments_rel {as bs : List Argument} (h : Forall₂ w.ArgumentMatch as bs) :
    Forall₂ w.node (Graph.positionalArguments as) (Graph.positionalArguments bs) := by
  unfold Graph.positionalArguments
  induction h with
  | nil => exact .nil
  | cons hab _ ih =>
    simp only [filter_cons, hab.passing]
    split
    · exact .cons hab.value ih
    · exact ih

theorem keeps_constrainArguments {as bs : List Argument} (h : w.node a b)
    (hs : Forall₂ w.ArgumentMatch as bs) :
    P.Keeps vs ds w (constrainArguments a as) (constrainArguments b bs) :=
  keeps_constrainPositions h (positionalArguments_rel hs) 0

/-! ### Operations on nodes -/

theorem sim_binaryNode (op : BinaryOp) (line : Nat) (h : w.node a a') (h' : w.node b b') :
    P.Sim vs ds w (binaryNode op a b line) (binaryNode op a' b' line) Pairing.node :=
  (keeps_constrainOperands op h h').andThen fun _ _ _ hw =>
    sim_addChecked (.binary op (hw.node h) (hw.node h')) line

theorem sim_readNode (attr : String) (line : Nat) (h : w.node a b) :
    P.Sim vs ds w (readNode a attr line) (readNode b attr line) Pairing.node :=
  (keeps_restrict h _).andThen fun _ _ _ hw => sim_addChecked (.read attr (hw.node h)) line

theorem sim_iterateNode (line : Nat) (h : w.node a b) :
    P.Sim vs ds w (iterateNode a line) (iterateNode b line) Pairing.node :=
  (keeps_restrict h _).andThen fun _ _ _ hw => sim_addChecked (.iterate (hw.node h)) line

theorem sim_unaryNode (op : UnaryOp) (line : Nat) (h : w.node a b) :
    P.Sim vs ds w (unaryNode op a line) (unaryNode op b line) Pairing.node := by
  have hadd : ∀ w', w.Grows w' → P.Sim vs ds w' (addChecked (.unary op a) line)
      (addChecked (.unary op b) line) Pairing.node := fun w' hw =>
    sim_addChecked (.unary op (hw.node h)) line
  unfold unaryNode
  rcases unaryKinds? op with - | kinds
  · exact hadd w (.refl w)
  · exact (keeps_restrict h kinds).andThen fun w' _ _ hw => hadd w' hw

theorem sim_subscriptNode (line : Nat) (h : w.node a a') (h' : w.node b b') :
    P.Sim vs ds w (subscriptNode a b line) (subscriptNode a' b' line) Pairing.node :=
  (keeps_restrict h _).andThen fun _ _ _ hw =>
    sim_addChecked (.subscript (hw.node h) (hw.node h')) line

theorem sim_callNode {as bs : List Argument} (line : Nat) (h : w.node a b)
    (hs : Forall₂ w.ArgumentMatch as bs) :
    P.Sim vs ds w (callNode a as line) (callNode b bs line) Pairing.node :=
  (keeps_constrainArguments h hs).andThen fun _ _ _ hw =>
    sim_addChecked (.call (hw.node h) (hs.imp fun _ _ hab => hab.mono hw)) line

end FlowTyping.Twin
