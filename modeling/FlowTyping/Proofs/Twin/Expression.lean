/-
Two walks over one expression or simple statement, side by side.

The tree is the same on both sides, so both walks take the same way through it.  There is one lemma
for each function of the walk, by recursion over the tree where the walk is one, and the nodes that
the two walks give belong together.  The nodes of parameters are receivers, since their defaults
flow into them.
-/
import FlowTyping.Proofs.Inference.Reports
import FlowTyping.Proofs.Twin.Step

namespace FlowTyping.Twin

open List Inference

variable {P : Twin} {vs : List Versions} {v : Versions} {ds : List Diagnostic} {w w' : Pairing}
  {a b : NodeId} {ps qs : List Param} {x : Infer NodeId}

/-- The graphs may be looked at before a step is taken. -/
theorem Sim.ofGraphs {α β : Type} {x : Infer α} {y : Infer β} {Q : Pairing → α → β → Prop}
    (h : ∀ w' g k, w.Grows w' → P.graphs w' g k → P.Sim vs ds w' x y Q) : P.Sim vs ds w x y Q :=
  fun w' s t hw hst => h w' s.graph t.graph hw hst.graph w' s t (.refl w') hst

/-! ### Parameters -/

theorem forall₂_param_mono (h : Forall₂ w.ParamMatch ps qs) (hw : w.Grows w') :
    Forall₂ w'.ParamMatch ps qs := h.imp fun _ _ hp => hp.mono hw

/-- The receiver of a method has the same type on both sides, up to the number of the class. -/
theorem givenType?_rel {p q : Param} {a b : Option Ty} (hab : Option.Rel w.TyMatch a b)
    (h : w.ParamMatch p q) (position : Nat) :
    Option.Rel w.TyMatch (givenType? a p position) (givenType? b q position) := by
  simp only [givenType?, h.mode]
  split
  · exact .some (.fixed trivial)
  · exact .some (.fixed trivial)
  · split
    · exact hab
    · exact .none
  · exact .none

theorem sim_seedParameters {a b : Option Ty} (hab : Option.Rel w.TyMatch a b)
    (h : Forall₂ w.ParamMatch ps qs) (i : Nat) :
    P.Sim vs ds w (seedParameters a (ps.zipIdx i)) (seedParameters b (qs.zipIdx i))
      fun w => Forall₂ w.receiver := by
  induction ps generalizing w qs i with
  | nil =>
    cases h
    exact Sim.pure fun _ _ => .nil
  | cons p ps ih =>
    rcases h with - | ⟨hpq, h⟩
    rw [zipIdx_cons, zipIdx_cons]
    unfold seedParameters
    refine optionRel_cases (givenType?_rel hab hpq i) ?_ fun htu => ?_
    · exact (ih hab h (i + 1)).bind fun w₁ as bs hw hs => Sim.pure fun w₂ hw₂ =>
        .cons ((hw.trans hw₂).receiver hpq.node) (hs.imp fun _ _ h => hw₂.receiver h)
    · exact (keeps_seed hpq.node (tyMatch_single htu)).andThen fun w' _ _ hw =>
        ih (optionRel_imp hab fun h => h.mono hw) (forall₂_param_mono h hw) (i + 1)

theorem sim_collector (mode : ParamMode) (line : Nat) (name : Option String) :
    P.Sim vs ds w (collector mode line name) (collector mode line name)
      fun w => Forall₂ w.ParamMatch := by
  rcases name with - | name
  · exact Sim.pure fun _ _ => .nil
  · exact (sim_plain line).bind fun _ _ _ _ hnode => Sim.pure fun _ hw =>
      .cons ⟨rfl, hw.receiver hnode, rfl, rfl⟩ .nil

theorem frameOf_match (h : Forall₂ w.ParamMatch ps qs) :
    (frameOf ps).Match w.receiver (frameOf qs) := by
  have hrun : ∀ (names names' : Table String NodeId), names.Match w.receiver names' →
      (ps.foldl (fun names p => names.insert p.name p.node) names).Match w.receiver
        (qs.foldl (fun names p => names.insert p.name p.node) names') := by
    induction h with
    | nil => exact fun _ _ hnames => hnames
    | cons hpq _ ih =>
      intro names names' hnames
      apply ih
      simp only [hpq.name]
      exact hnames.insert _ hpq.node
  exact hrun .empty .empty .nil

theorem keeps_pushParameters (h : Forall₂ w.ParamMatch ps qs) :
    P.Keeps (vs ++ [v]) ds w (pushFrame (frameOf ps)) (pushFrame (frameOf qs)) :=
  Sim.ofGraphs fun _ _ _ hw hgraph => keeps_pushFrame <|
    (frameOf_match h).mono fun hab => P.node_of_receiver hgraph (hw.receiver hab)

theorem sim_addFunction {i j : FunctionInfo} (h : w.FunctionMatch i j) :
    P.Sim vs ds w (onGraph (·.addFunction i)) (onGraph (·.addFunction j))
      Pairing.ofFunction := by
  intro w₁ s t hw hst
  obtain ⟨w₂, hw₂, hst₂, hanswer⟩ := hst.run (.addFunction (h.mono hw))
  exact ⟨w₂, hw₂, hst₂, hanswer⟩

/-! ### Expressions -/

theorem isFixed_literalType (c : Constant) : (literalType c).IsFixed := by
  cases c <;> exact trivial

/-- The same use, up to the value that is stored or bound. -/
inductive UseMatch (w : Pairing) : Use → Use → Prop
  | load : UseMatch w .load .load
  | store {a b : NodeId} (h : w.node a b) : UseMatch w (.store a) (.store b)
  | bind {a b : NodeId} (h : w.node a b) : UseMatch w (.bind a) (.bind b)

theorem UseMatch.mono {u u' : Use} (h : UseMatch w u u') (hw : w.Grows w') : UseMatch w' u u' := by
  cases h with
  | load => exact .load
  | store h => exact .store (hw.node h)
  | bind h => exact .bind (hw.node h)

/-- Unpacking a value: its elements are used, and the value itself is the result. -/
theorem sim_unpack {y : Infer NodeId} {f k : NodeId → Infer Unit}
    (hx : P.Sim vs ds w x y Pairing.node)
    (hf : ∀ w' e e', w.Grows w' → w'.node e e' → P.Keeps vs ds w' (f e) (k e')) (hab : w.node a b) :
    P.Sim vs ds w (do let element ← x; f element; return a) (do let element ← y; k element; return b)
      Pairing.node :=
  hx.bind fun w₁ e e' hw₁ he => (hf w₁ e e' hw₁ he).andThen fun _ _ _ hw₂ =>
    Sim.pure fun _ hw₃ => ((hw₁.trans hw₂).trans hw₃).node hab

/-- A lambda with its parameters: a function whose body is walked in a frame with their names. -/
def lambda (line : Nat) (ps : List Param) (body : Infer NodeId) : Infer NodeId := do
  let returns ← addNode (.plain []) line
  let name ← qualify "<lambda>"
  let function ← onGraph (·.addFunction ⟨name, ps, returns, .method, line⟩)
  let unknown ← seedParameters none ps.zipIdx
  pushFrame (frameOf ps)
  pushUnknowns unknown
  let value ← body
  popUnknowns
  popFrame
  addInput returns value
  constant (.function function)

theorem sim_lambda (line : Nat) (h : Forall₂ w.ParamMatch ps qs)
    (hx : ∀ w', P.Sim (vs ++ [v]) ds w' x x Pairing.node) :
    P.Sim (vs ++ [v]) ds w (lambda line ps x) (lambda line qs x) Pairing.node := by
  refine (sim_plain line).bind fun w₁ returns returns' hw₁ hreturns =>
    (sim_qualify "<lambda>").bind fun w₂ name name' hw₂ hname => ?_
  subst hname
  have hparams := forall₂_param_mono h (hw₁.trans hw₂)
  have hinfo : w₂.FunctionMatch ⟨name, ps, returns, .method, line⟩
      ⟨name, qs, returns', .method, line⟩ := ⟨rfl, hparams, hw₂.receiver hreturns, rfl, rfl⟩
  refine (sim_addFunction hinfo).bind fun w₃ f k hw₃ hfk => (sim_seedParameters .none (forall₂_param_mono hparams hw₃) 0).bind
    fun w₄ unknown unknown' hw₄ hunknown => ?_
  refine (keeps_pushParameters (forall₂_param_mono hparams (hw₃.trans hw₄))).andThen
    fun w₅ _ _ hw₅ => (keeps_pushUnknowns (hunknown.imp fun _ _ h => hw₅.receiver h)).andThen
    fun w₆ _ _ hw₆ => (hx w₆).bind fun w₇ value value' hw₇ hvalue =>
    keeps_popUnknowns.andThen fun w₈ _ _ hw₈ => keeps_popFrame.andThen fun w₉ _ _ hw₉ => ?_
  -- all that has been made before the body is still paired after it
  have hbody := ((hw₅.trans hw₆).trans hw₇).trans (hw₈.trans hw₉)
  have hreturned := ((hw₂.trans hw₃).trans hw₄).trans hbody
  refine (keeps_addInput (hreturned.receiver hreturns) ((hw₈.trans hw₉).node hvalue)).andThen
    fun w₁₀ _ _ hw₁₀ => sim_constant (.function ?_)
  exact ((hw₄.trans hbody).trans hw₁₀).ofFunction hfk

mutual

theorem sim_expr (e : Expr) (w : Pairing) {u u' : Use} (hu : UseMatch w u u') :
    P.Sim (vs ++ [v]) ds w (expr e u) (expr e u') Pairing.node := by
  cases e with
  | name line id name =>
    cases hu with
    | load => exact sim_readName id name line
    | store hab =>
      exact (keeps_writeName id name line hab).andThen fun _ _ _ hw =>
        Sim.pure fun _ hw' => (hw.trans hw').node hab
    | bind hab =>
      exact (sim_addNode (.plain (.cons hab .nil)) line).toNode.bind fun _ _ _ _ hnode =>
        (keeps_bindInFrame name hnode).andThen fun _ _ _ hw =>
          Sim.pure fun _ hw' => (hw.trans hw').node hnode
  | tuple line items | list line items =>
    cases hu with
    | load =>
      exact (sim_values items w).discard.andThen fun _ _ _ _ => sim_constant (.fixed trivial)
    | store hab =>
      exact sim_unpack (sim_iterateNode line hab)
        (fun w' _ _ _ he => keeps_useAll items w' (.store he)) hab
    | bind hab =>
      exact sim_unpack (sim_addNode (.iterate hab) line).toNode
        (fun w' _ _ _ he => keeps_useAll items w' (.bind he)) hab
  | starred line inner =>
    cases hu with
    | load => exact sim_expr inner w .load
    | store hab => exact sim_listNode.bind fun w' _ _ _ h => sim_expr inner w' (.store h)
    | bind hab => exact sim_listNode.bind fun w' _ _ _ h => sim_expr inner w' (.bind h)
  | «attribute» line object attr =>
    refine (sim_expr object w .load).bind fun w' a b hw hab => ?_
    cases hu with
    | load => exact sim_readNode attr line hab
    | store hvalue | bind hvalue => exact (sim_addNode (.write attr hab (hw.node hvalue)) line).toNode
  | subscript line value index =>
    refine (sim_expr value w .load).bind fun w₁ a b _ hab =>
      (sim_expr index w₁ .load).bind fun w₂ i j hw₂ hij => ?_
    have hrestrict : P.Sim (vs ++ [v]) ds w₂ (do restrict a Kind.indexable; return a)
        (do restrict b Kind.indexable; return b) Pairing.node :=
      (keeps_restrict (hw₂.node hab) _).andThen fun _ _ _ hw₃ => Sim.pure fun _ hw₄ =>
        ((hw₂.trans hw₃).trans hw₄).node hab
    cases hu with
    | load => exact sim_subscriptNode line (hw₂.node hab) hij
    | store _ | bind _ => exact hrestrict
  | constant line c => exact sim_constant (.fixed (isFixed_literalType c))
  | binary line left op right =>
    exact (sim_expr left w .load).bind fun w₁ _ _ _ hl =>
      (sim_expr right w₁ .load).bind fun _ _ _ hw hr =>
        sim_binaryNode op line (hw.node hl) hr
  | unary line op operand =>
    exact (sim_expr operand w .load).bind fun _ _ _ _ h => sim_unaryNode op line h
  | bool line op operands =>
    exact (sim_values operands w).bind fun _ _ _ _ h => (sim_addNode (.plain h) line).toNode
  | compare line left ops comparators =>
    refine (sim_expr left w .load).bind fun w₁ _ _ _ hl =>
      (sim_comparisons line ops comparators w₁ _ _ hl).bind fun w₂ as bs _ hs => ?_
    rcases hs with - | ⟨hab, - | ⟨hcd, hs⟩⟩
    · exact (sim_addNode (.plain .nil) line).toNode
    · exact Sim.pure fun _ hw => hw.node hab
    · exact (sim_addNode (.plain (.cons hab (.cons hcd hs))) line).toNode
  | call line func args keywords =>
    exact (sim_expr func w .load).bind fun _ _ _ _ hc =>
      (keeps_restrict hc _).andThen fun w₂ _ _ hw₂ => (sim_arguments args w₂).bind
        fun w₃ _ _ hw₃ hp => (sim_keywordArguments keywords w₃).bind fun w₄ _ _ hw₄ hk =>
          sim_callNode line (((hw₂.trans hw₃).trans hw₄).node hc)
            (rel_append (hp.imp fun _ _ h => h.mono hw₄) hk)
  | slice line lower upper step =>
    exact (keeps_optional lower w).andThen fun w₁ _ _ _ => (keeps_optional upper w₁).andThen
      fun w₂ _ _ _ => (keeps_optional step w₂).andThen fun _ _ _ _ => sim_constant (.fixed trivial)
  | set line items =>
    exact (sim_values items w).discard.andThen fun _ _ _ _ => sim_constant (.fixed trivial)
  | dict line keys items =>
    exact (keeps_optionals keys w).andThen fun w₁ _ _ _ => (sim_values items w₁).discard.andThen
      fun _ _ _ _ => sim_constant (.fixed trivial)
  | formatted line parts =>
    exact (sim_values parts w).discard.andThen fun _ _ _ _ => sim_constant (.fixed trivial)
  | comprehension line kind element value gens =>
    refine (keeps_generators true gens w).andThen fun w₁ _ _ _ =>
      (sim_expr element w₁ .load).discard.andThen fun w₂ _ _ _ =>
        (keeps_optional value w₂).andThen fun w₃ _ _ _ => ?_
    have hlast : ∀ w', P.Sim (vs ++ [v]) ds w' (constant (comprehensionType kind))
        (constant (comprehensionType kind)) Pairing.node := fun w' =>
      sim_constant (.fixed (by cases kind <;> exact trivial))
    dsimp only
    split
    · exact hlast w₃
    · exact keeps_popFrame.andThen fun w' _ _ _ => hlast w'
  | lambda line params body =>
    obtain ⟨positional, vararg, keywordOnly, kwarg⟩ := params
    refine (sim_parameters .positional line positional w).bind fun w₁ ps ps' _ hps =>
      (sim_collector .varPositional line vararg).bind fun w₂ vs vs' hw₂ hvs =>
      (sim_parameters .keywordOnly line keywordOnly w₂).bind fun w₃ ks ks' hw₃ hks =>
      (sim_collector .varKeyword line kwarg).bind fun w₄ ws ws' hw₄ hws => ?_
    exact sim_lambda line (rel_append (rel_append (rel_append
      (forall₂_param_mono hps ((hw₂.trans hw₃).trans hw₄)) (forall₂_param_mono hvs (hw₃.trans hw₄)))
      (forall₂_param_mono hks hw₄)) hws) fun w' => sim_expr body w' .load
  | conditional line test body orelse =>
    exact (sim_expr test w .load).discard.andThen fun w₁ _ _ _ =>
      (sim_expr body w₁ .load).bind fun w₂ _ _ _ hb =>
        (sim_expr orelse w₂ .load).bind fun _ _ _ hw ho =>
          (sim_addNode (.plain (.cons (hw.node hb) (.cons ho .nil))) line).toNode
  | named line target value =>
    refine (sim_expr value w .load).bind fun w₁ a b _ hab => ?_
    have hdone : ∀ w', w₁.Grows w' →
        P.Sim (vs ++ [v]) ds w' (pure a) (pure b) Pairing.node :=
      fun w' hw' => Sim.pure fun w'' hw'' => (hw'.trans hw'').node hab
    dsimp only
    split
    · exact (keeps_writeName _ _ line hab).andThen fun w' _ _ hw' => hdone w' hw'
    · exact hdone w₁ (.refl w₁)
  | yield line value => exact (keeps_optional value w).andThen fun _ _ _ _ => sim_anyNode
  | yieldFrom line value | await line value =>
    exact (sim_expr value w .load).discard.andThen fun _ _ _ _ => sim_anyNode

theorem sim_values (es : List Expr) (w : Pairing) :
    P.Sim (vs ++ [v]) ds w (values es) (values es) fun w => Forall₂ w.node := by
  cases es with
  | nil => exact Sim.pure fun _ _ => .nil
  | cons e es =>
    exact (sim_expr e w .load).bind fun w₁ _ _ _ hab =>
      (sim_values es w₁).bind fun _ _ _ hw₂ hs => Sim.pure fun _ hw₃ =>
        .cons ((hw₂.trans hw₃).node hab) (hs.imp fun _ _ h => hw₃.node h)

theorem keeps_useAll (es : List Expr) (w : Pairing) {u u' : Use} (hu : UseMatch w u u') :
    P.Keeps (vs ++ [v]) ds w (useAll u es) (useAll u' es) := by
  cases es with
  | nil => exact Keeps.pure
  | cons e es =>
    exact (sim_expr e w hu).discard.andThen fun w' _ _ hw => keeps_useAll es w' (hu.mono hw)

theorem keeps_optional (e : Option Expr) (w : Pairing) :
    P.Keeps (vs ++ [v]) ds w (optional e) (optional e) := by
  cases e with
  | none => exact Keeps.pure
  | some e => exact (sim_expr e w .load).discard

theorem keeps_optionals (es : List (Option Expr)) (w : Pairing) :
    P.Keeps (vs ++ [v]) ds w (optionals es) (optionals es) := by
  cases es with
  | nil => exact Keeps.pure
  | cons e es => exact (keeps_optional e w).andThen fun w' _ _ _ => keeps_optionals es w'

theorem sim_comparisons (line : Nat) (ops : List BinaryOp) (es : List Expr) (w : Pairing)
    (a b : NodeId) (hab : w.node a b) :
    P.Sim (vs ++ [v]) ds w (comparisons line a ops es) (comparisons line b ops es)
      fun w => Forall₂ w.node := by
  cases es with
  | nil => exact Sim.pure fun _ _ => .nil
  | cons e es =>
    cases ops with
    | nil => exact Sim.pure fun _ _ => .nil
    | cons op ops =>
      exact (sim_expr e w .load).bind fun w₁ _ _ hw₁ hr =>
        (sim_binaryNode op line (hw₁.node hab) hr).bind fun w₂ _ _ hw₂ hlink =>
          (sim_comparisons line ops es w₂ _ _ (hw₂.node hr)).bind fun _ _ _ hw₃ hs =>
            Sim.pure fun _ hw₄ =>
              .cons ((hw₃.trans hw₄).node hlink) (hs.imp fun _ _ h => hw₄.node h)

theorem sim_arguments (es : List Expr) (w : Pairing) :
    P.Sim (vs ++ [v]) ds w (arguments es) (arguments es)
      fun w => Forall₂ w.ArgumentMatch := by
  cases es with
  | nil => exact Sim.pure fun _ _ => .nil
  | cons e es =>
    exact (sim_expr e w .load).bind fun w₁ _ _ _ hab =>
      (sim_arguments es w₁).bind fun _ _ _ hw₂ hs => Sim.pure fun _ hw₃ =>
        .cons ⟨(hw₂.trans hw₃).node hab, rfl⟩ (hs.imp fun _ _ h => h.mono hw₃)

theorem sim_keywordArguments (ks : List (Keyword Expr)) (w : Pairing) :
    P.Sim (vs ++ [v]) ds w (keywordArguments ks) (keywordArguments ks)
      fun w => Forall₂ w.ArgumentMatch := by
  cases ks with
  | nil => exact Sim.pure fun _ _ => .nil
  | cons keyword ks =>
    obtain ⟨name, e⟩ := keyword
    exact (sim_expr e w .load).bind fun w₁ _ _ _ hab =>
      (sim_keywordArguments ks w₁).bind fun _ _ _ hw₂ hs => Sim.pure fun _ hw₃ =>
        .cons ⟨(hw₂.trans hw₃).node hab, rfl⟩ (hs.imp fun _ _ h => h.mono hw₃)

theorem sim_parameters (mode : ParamMode) (line : Nat) (ps : List (Parameter Expr)) (w : Pairing) :
    P.Sim (vs ++ [v]) ds w (parameters mode line ps) (parameters mode line ps)
      fun w => Forall₂ w.ParamMatch := by
  cases ps with
  | nil => exact Sim.pure fun _ _ => .nil
  | cons param ps =>
    obtain ⟨name, default⟩ := param
    exact (sim_plain line).bind fun w₁ _ _ _ hab =>
      (keeps_defaultValue default w₁ _ _ hab).andThen fun w₂ _ _ hw₂ =>
        (sim_parameters mode line ps w₂).bind fun _ _ _ hw₃ hs => Sim.pure fun _ hw₄ =>
          .cons ⟨rfl, ((hw₂.trans hw₃).trans hw₄).receiver hab, rfl, rfl⟩
            (forall₂_param_mono hs hw₄)

theorem keeps_defaultValue (e : Option Expr) (w : Pairing) (a b : NodeId) (hab : w.receiver a b) :
    P.Keeps (vs ++ [v]) ds w (defaultValue a e) (defaultValue b e) := by
  cases e with
  | none => exact Keeps.pure
  | some e =>
    exact (sim_expr e w .load).bind fun _ _ _ hw h => keeps_addInput (hw.receiver hab) h

theorem keeps_generators (isFirst : Bool) (gens : List (Generator Expr)) (w : Pairing) :
    P.Keeps (vs ++ [v]) ds w (generators isFirst gens) (generators isFirst gens) := by
  cases gens with
  | nil => exact Keeps.pure
  | cons gen gens =>
    obtain ⟨target, iter, conditions⟩ := gen
    refine (sim_expr iter w .load).bind fun w₁ a b _ hab => ?_
    have hrest : ∀ w', w₁.Grows w' → P.Keeps (vs ++ [v]) ds w' (do
        let element ← iterateNode a iter.line
        discard (expr target (.bind element))
        discard (values conditions)
        generators false gens) (do
        let element ← iterateNode b iter.line
        discard (expr target (.bind element))
        discard (values conditions)
        generators false gens) := fun w' hw' =>
      (sim_iterateNode iter.line (hw'.node hab)).bind fun w₂ _ _ _ helement =>
        (sim_expr target w₂ (.bind helement)).discard.andThen fun w₃ _ _ _ =>
          (sim_values conditions w₃).discard.andThen fun w₄ _ _ _ => keeps_generators false gens w₄
    dsimp only
    split
    · exact (keeps_pushFrame .nil).andThen fun w' _ _ hw' => hrest w' hw'
    · exact hrest w₁ (.refl w₁)

end

theorem sim_load (e : Expr) : P.Sim (vs ++ [v]) ds w (load e) (load e) Pairing.node :=
  sim_expr e w .load

theorem keeps_assign (target : Expr) (h : w.node a b) :
    P.Keeps (vs ++ [v]) ds w (assign target a) (assign target b) :=
  (sim_expr target w (.store h)).discard

theorem sim_allParameters (p : Parameters Expr) (line : Nat) :
    P.Sim (vs ++ [v]) ds w (allParameters p line) (allParameters p line)
      fun w => Forall₂ w.ParamMatch := by
  refine (sim_parameters .positional line p.positional w).bind fun w₁ ps ps' _ hps =>
    (sim_collector .varPositional line p.vararg).bind fun w₂ vs vs' hw₂ hvs =>
    (sim_parameters .keywordOnly line p.keywordOnly w₂).bind fun w₃ ks ks' hw₃ hks =>
    (sim_collector .varKeyword line p.kwarg).bind fun w₄ ws ws' hw₄ hws => Sim.pure fun w₅ hw₅ => ?_
  have hfirst := rel_append (forall₂_param_mono hps hw₂) hvs
  have hsecond := rel_append (forall₂_param_mono hfirst hw₃) hks
  exact forall₂_param_mono (rel_append (forall₂_param_mono hsecond hw₄) hws) hw₅

/-! ### Simple statements -/

theorem keeps_assignAll (targets : List Expr) (h : w.node a b) :
    P.Keeps (vs ++ [v]) ds w (assignAll a targets) (assignAll b targets) := by
  induction targets generalizing w with
  | nil => exact Keeps.pure
  | cons target targets ih =>
    exact (keeps_assign target h).andThen fun _ _ _ hw => ih (hw.node h)

theorem keeps_assignPairs (pairs : List (Expr × Expr)) :
    P.Keeps (vs ++ [v]) ds w (assignPairs pairs) (assignPairs pairs) := by
  induction pairs generalizing w with
  | nil => exact Keeps.pure
  | cons pair pairs ih =>
    exact (sim_load pair.2).bind fun _ _ _ _ h => (keeps_assign pair.1 h).andThen fun _ _ _ _ => ih

theorem keeps_assignment (targets : List Expr) (value : Expr) :
    P.Keeps (vs ++ [v]) ds w (assignment targets value) (assignment targets value) := by
  unfold assignment
  dsimp only
  split
  · exact keeps_assignPairs _
  · exact (sim_load value).bind fun _ _ _ _ h => keeps_assignAll targets h

theorem keeps_augmentedAssignment (line : Nat) (target : Expr) (op : BinaryOp) (value : Expr) :
    P.Keeps (vs ++ [v]) ds w (augmentedAssignment line target op value)
      (augmentedAssignment line target op value) := by
  unfold augmentedAssignment
  split
  · exact (sim_readName _ _ line).bind fun _ _ _ _ hc => (sim_load value).bind
      fun _ _ _ hw ho => (sim_binaryNode op line (hw.node hc) ho).bind fun _ _ _ _ hr =>
        keeps_writeName _ _ line hr
  · exact (sim_load _).bind fun _ _ _ _ hobject => (sim_readNode _ line hobject).bind
      fun _ _ _ hw hc => (sim_load value).bind fun _ _ _ hw' ho =>
        (sim_binaryNode op line (hw'.node hc) ho).bind fun _ _ _ hw'' hr =>
          (sim_addNode (.write _ (((hw.trans hw').trans hw'').node hobject) hr) line).discard
  · exact (sim_load target).bind fun _ _ _ _ hc => (sim_load value).bind fun _ _ _ hw ho =>
      (sim_binaryNode op line (hw.node hc) ho).discard

theorem keeps_deletion (targets : List Expr) :
    P.Keeps (vs ++ [v]) ds w (deletion targets) (deletion targets) := by
  induction targets generalizing w with
  | nil => exact Keeps.pure
  | cons target targets ih =>
    unfold deletion
    dsimp only
    split
    · exact ih
    · exact (sim_load _).discard.andThen fun _ _ _ _ => ih
    · exact (sim_load target).discard.andThen fun _ _ _ _ => ih

/-! ### Imports -/

theorem leads_moduleNode (name : String) (line : Nat) (reported : Bool) :
    P.Leads vs ds (ds ++ if reported then missingReports P.left line name (P.left.imports.get? name) else [])
      w (moduleNode name line reported) (moduleNode name line reported) Pairing.node := by
  have hsilent : ∀ {w' : Pairing} {x y : Infer NodeId}, P.Sim vs ds w' x y (Pairing.node) →
      P.Leads vs ds (ds ++ if reported then [] else []) w' x y Pairing.node := fun h => by
    rw [ite_self, append_nil]
    exact h
  have hmissing : ∀ w', P.Leads vs ds
      (ds ++ if reported then [⟨P.left.name, line, .unresolvedImport name⟩] else []) w' (do
      if reported then report line (.unresolvedImport name) else pure ()
      anyNode) (do
      if reported then report line (.unresolvedImport name) else pure ()
      anyNode) Pairing.node := by
    intro w'
    cases reported with
    | true => exact Leads.bind (says_report line _) fun _ _ _ _ _ => sim_anyNode
    | false => exact hsilent sim_anyNode
  refine sim_read.bind fun w₁ c c' _ hcontexts => ?_
  obtain ⟨rfl, rfl⟩ := hcontexts
  intro w₂ s t hw₂ hst
  have hrel := hst.imports name
  generalize P.left.imports.get? name = a at hrel ⊢
  generalize P.right.imports.get? name = b at hrel ⊢
  suffices hleads : P.Leads vs ds (ds ++ if reported then missingReports P.left line name a else []) w₂ _ _
      Pairing.node from hleads w₂ s t (.refl w₂) hst
  cases hrel with
  | none => exact hmissing w₂
  | some htarget =>
    cases htarget with
    | module hm => exact hsilent (sim_constant (.moduleObject hm))
    | cyclic => exact hsilent sim_anyNode
    | missing => exact hmissing w₂

theorem says_importModules (line : Nat) (aliases : List Alias) :
    P.Says (vs ++ [v]) ds w (importReports P.left (.importModules line aliases))
      (importModules line aliases) (importModules line aliases) := by
  induction aliases generalizing ds w with
  | nil => exact Keeps.pure.mute
  | cons a aliases ih =>
    have hwrite : ∀ {ds w'} value value', w'.node value value' →
        P.Says (vs ++ [v]) ds w' (importReports P.left (.importModules line aliases)) (do
        writeName a.binder.id a.binder.name value line
        importModules line aliases) (do
        writeName a.binder.id a.binder.name value' line
        importModules line aliases) := fun value value' h =>
      (keeps_writeName _ _ line h).andThen fun _ _ _ _ => ih
    rw [Says, importReports_cons, ← append_assoc]
    refine Leads.bind (leads_moduleNode a.path line true) fun w₁ full full' _ hfull => ?_
    -- the topmost package is looked up without a word
    dsimp only
    rw [if_pos rfl]
    split
    · exact hwrite full full' hfull
    · have hquiet := @leads_moduleNode P (vs ++ [v]) (ds ++ missingReports P.left line a.path
        (P.left.imports.get? a.path)) w₁ ((Text.dotted a.path).headD a.path) line false
      rw [if_neg Bool.false_ne_true, append_nil] at hquiet
      exact hquiet.bind fun w₂ value value' _ h => hwrite value value' h

theorem sim_memberNode {a b : Option ImportTarget} (h : Option.Rel w.TargetMatch a b)
    (member : String) (line : Nat) :
    P.Sim vs ds w (memberNode a member line) (memberNode b member line) Pairing.node := by
  cases h with
  | none => exact sim_anyNode
  | some htarget =>
    cases htarget with
    | module hm =>
      exact (sim_constant (.moduleObject hm)).bind fun _ _ _ _ h =>
        sim_addChecked (.read member h) line
    | cyclic | missing => exact sim_anyNode

/-- Everything that a module exports is imported. -/
theorem keeps_addStar {m k : ModuleId} (h : w.ofModule m k) :
    P.Keeps vs ds w (modify fun s => { s with starImports := s.starImports ++ [m] })
      (modify fun s => { s with starImports := s.starImports ++ [k] }) :=
  keeps_modify fun _ _ _ hw hst =>
    { hst with starImports := rel_append hst.starImports (.cons (hw.ofModule h) .nil) }

theorem keeps_importMembers {a b : Option ImportTarget} (h : Option.Rel w.TargetMatch a b)
    (line : Nat) (aliases : List Alias) :
    P.Keeps (vs ++ [v]) ds w (importMembers a line aliases) (importMembers b line aliases) := by
  induction aliases generalizing w with
  | nil => exact Keeps.pure
  | cons first aliases ih =>
    have hrest : ∀ w', w.Grows w' → P.Keeps (vs ++ [v]) ds w' (importMembers a line aliases)
        (importMembers b line aliases) := fun w' hw' =>
      ih (optionRel_imp h fun h => h.mono hw')
    unfold importMembers
    dsimp only
    split
    · cases h with
      | none => exact hrest w (.refl w)
      | some htarget =>
        cases htarget with
        | module hm =>
          exact (keeps_addStar hm).andThen fun w' _ _ hw' => hrest w' hw'
        | cyclic | missing => exact hrest w (.refl w)
    · exact (sim_memberNode h first.path line).bind fun w₁ _ _ hw₁ hnode =>
        (keeps_writeName _ _ line hnode).andThen fun w₂ _ _ hw₂ => hrest w₂ (hw₁.trans hw₂)

theorem says_importFrom (line : Nat) (module : Option String) (aliases : List Alias) (level : Nat) :
    P.Says (vs ++ [v]) ds w (importReports P.left (.importFrom line module aliases level))
      (importFrom line module aliases level) (importFrom line module aliases level) := by
  have hmembers : ∀ {ds w' a b}, Option.Rel w'.TargetMatch a b → P.Keeps (vs ++ [v]) ds w'
      (importMembers a line aliases) (importMembers b line aliases) := fun hrel =>
    keeps_importMembers hrel line aliases
  have hreported : ∀ {w' a b} issue, Option.Rel w'.TargetMatch a b → P.Says (vs ++ [v]) ds w'
      [⟨P.left.name, line, issue⟩] (do report line issue; importMembers a line aliases)
      (do report line issue; importMembers b line aliases) := fun issue hrel =>
    (says_report line issue).andKeeps fun _ _ _ hw => hmembers (optionRel_imp hrel fun h => h.mono hw)
  refine sim_read.bind fun w₁ c c' _ hcontexts => ?_
  obtain ⟨rfl, rfl⟩ := hcontexts
  dsimp only [importReports]
  rw [P.agrees.name, P.agrees.isPackage]
  rcases Import.resolve? P.left.name P.left.isPackage module level with - | name
  · exact hreported _ .none
  · dsimp only [Option.bind_some]
    rw [← missingReports_get?]
    intro w₂ s t hw₂ hst
    have hrel := hst.imports name
    generalize P.left.imports.get? name = a at hrel ⊢
    generalize P.right.imports.get? name = b at hrel ⊢
    suffices hsays : P.Says (vs ++ [v]) ds w₂ (missingReports P.left line name a) _ _ from
      hsays w₂ s t (.refl w₂) hst
    cases hrel with
    | none => exact hreported _ .none
    | some htarget =>
      cases htarget with
      | module hm => exact (hmembers (.some (.module hm))).mute
      | cyclic => exact (hmembers (.some .cyclic)).mute
      | missing => exact hreported _ (.some .missing)

/-- **Only imports have something to say** among simple statements. -/
theorem says_simple (stmt : Stmt) :
    P.Says (vs ++ [v]) ds w (importReports P.left stmt) (simple stmt) (simple stmt) := by
  cases stmt with
  | assign line targets value => exact (keeps_assignment _ _).mute
  | augAssign line target op value => exact (keeps_augmentedAssignment _ _ _ _).mute
  | annAssign line target value =>
    rcases value with - | value
    · exact Keeps.pure.mute
    · exact Keeps.mute ((sim_load _).bind fun _ _ _ _ h => keeps_assign _ h)
  | delete line targets => exact (keeps_deletion _).mute
  | raise line exc cause =>
    exact Keeps.mute ((keeps_optional _ w).andThen fun w' _ _ _ => keeps_optional _ w')
  | assert line test message =>
    exact Keeps.mute ((sim_load _).discard.andThen fun w' _ _ _ => keeps_optional _ w')
  | importModules line aliases => exact says_importModules _ _
  | importFrom line module aliases level => exact says_importFrom _ _ _ _
  | expr line value => exact (sim_load _).discard.mute
  | _ => exact Keeps.pure.mute

end FlowTyping.Twin
