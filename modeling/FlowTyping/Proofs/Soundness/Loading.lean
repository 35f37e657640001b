/-
The node of an expression has the kinds to which the expression can evaluate.

The node of an expression gets some of its types later, since a loop may write what an expression in
it reads.  So what is shown is about all later states: if the nodes of the versions that the
expression reads have the kinds of a store, the node has the kind of the value (`Answers`), and the
same holds of all expressions inside of it (`parts`).  The proof goes along the recursion of `expr`;
each case is one lemma about the rule of the node that the case makes.
-/
import FlowTyping.Proofs.Soundness.Driver
import FlowTyping.Proofs.Soundness.Evaluation

namespace FlowTyping.Inference

open List Evaluation

variable {context : Context} {V : Versions} {s t u : State} {names : List String} {ρ : Store}
  {events events' : List Event} {e : Expr} {inputs : List NodeId} {n : NodeId} {g : Graph}
  {kind : Kind}

/-! ### Answers -/

/-- The versions that reads see have nodes with the kinds of a store. -/
def Sees (V : Versions) (u : State) (ρ : Store) (events : List Event) : Prop :=
  ∀ id x, .read id x ∈ events → ∀ k, ρ x = some k →
    ∃ v n, V.read? id = some (.version v) ∧ u.bound? x v = some n ∧ .base k ∈ u.graph.types n

theorem Sees.mono (h : Sees V u ρ events) (hsub : ∀ e ∈ events', e ∈ events) : Sees V u ρ events' :=
  fun id x hread => h id x (hsub _ hread)

theorem Sees.left (h : Sees V u ρ (events ++ events')) : Sees V u ρ events :=
  h.mono fun _ he => mem_append_left _ he

theorem Sees.right (h : Sees V u ρ (events ++ events')) : Sees V u ρ events' :=
  h.mono fun _ he => mem_append_right _ he

/-- In all states from some state on, a node has the kinds to which an expression evaluates. -/
def Answers (context : Context) (V : Versions) (t : State) (e : Expr) (n : NodeId) : Prop :=
  ∀ u, AtModule context V u → t.Leads u → ∀ ρ, Sees V u ρ (Event.ofExpr [] e) →
    ∀ k, Evaluates ρ e k → .base k ∈ u.graph.types n

theorem Answers.leads (h : Answers context V s e n) (hl : s.Leads t) :
    Answers context V t e n := fun u hu htu => h u hu (hl.trans htu)

def AnswersAll (context : Context) (V : Versions) (t : State) (es : List Expr) (nodes : List NodeId) : Prop :=
  Forall₂ (Answers context V t) es nodes

/-- One of the nodes has the kind of the operand that is chosen. -/
theorem AnswersAll.some {es : List Expr} {nodes : List NodeId} {k : Kind}
    (h : AnswersAll context V t es nodes) (hu : AtModule context V u) (hl : t.Leads u)
    (hsees : Sees V u ρ (Event.ofExprs [] es)) (heval : EvaluatesSome ρ es k) :
    ∃ n ∈ nodes, .base k ∈ u.graph.types n := by
  induction h with
  | nil => exact heval.elim
  | @cons e n es nodes hfirst _ ih =>
    rcases heval with heval | ⟨-, heval⟩
    · exact ⟨n, mem_cons_self, hfirst u hu hl ρ hsees.left k heval⟩
    · obtain ⟨n', hn', hk⟩ := ih hsees.right heval
      exact ⟨n', mem_cons_of_mem n hn', hk⟩

/-- Nodes of expressions that make up what some events belong to. -/
def Covers (context : Context) (V : Versions) (t : State) (events : List Event)
    (parts : List (Expr × NodeId)) : Prop :=
  ∀ u, AtModule context V u → t.Leads u → ∀ ρ, Sees V u ρ events → ∀ p ∈ parts, ∀ k,
    Evaluates ρ p.1 k → .base k ∈ u.graph.types p.2

namespace Covers

variable {ps qs : List (Expr × NodeId)}

theorem nil : Covers context V t events [] := fun _ _ _ _ _ _ hp => absurd hp not_mem_nil

theorem leads (h : Covers context V s events ps) (hl : s.Leads t) : Covers context V t events ps :=
  fun u hu htu => h u hu (hl.trans htu)

theorem cons {e : Expr} (h : Answers context V t e n)
    (hps : Covers context V t (Event.ofExpr [] e) ps) :
    Covers context V t (Event.ofExpr [] e) ((e, n) :: ps) := by
  intro u hu hl ρ hsees p hp
  rcases mem_cons.1 hp with rfl | hp
  · exact h u hu hl ρ hsees
  · exact hps u hu hl ρ hsees p hp

theorem append (hps : Covers context V t events ps) (hqs : Covers context V t events' qs) :
    Covers context V t (events ++ events') (ps ++ qs) := by
  intro u hu hl ρ hsees p hp
  rcases mem_append.1 hp with hp | hp
  · exact hps u hu hl ρ hsees.left p hp
  · exact hqs u hu hl ρ hsees.right p hp

theorem mono (h : Covers context V t events ps) (hsub : ∀ e ∈ events, e ∈ events') :
    Covers context V t events' ps := fun u hu hl ρ hsees => h u hu hl ρ (hsees.mono hsub)

end Covers

/-- The nodes of the links of a chain of comparisons that starts with some node. -/
def AnswersLink (context : Context) (V : Versions) (t : State) (previous : NodeId)
    (ops : List BinaryOp) (es : List Expr) (links : List NodeId) : Prop :=
  ∀ u, AtModule context V u → t.Leads u → ∀ ρ, Sees V u ρ (Event.ofExprs [] es) → ∀ l,
    .base l ∈ u.graph.types previous → ∀ k, EvaluatesLink ρ l ops es k →
      ∃ n ∈ links, .base k ∈ u.graph.types n

/-! ### Nodes -/

theorem hasType_literalType (c : Constant) : g.HasType (literalType c) := by
  cases c <;> exact trivial

section

variable (hs : AtModule context V s)
include hs

theorem answers_constant {c : Constant} {line : Nat} :
    Goes context (AtModule context V) (constant (literalType c)) s fun n t => t.graph.HasNode n ∧
      Answers context V t (.constant line c) n := by
  refine .aside hs ((goes_constant hs.toPlaced (hasType_literalType c)).mono fun n t _ _ h =>
    ⟨h.1, h.2.1, fun u hu htu ρ _ k hk => htu.later.types n _ ?_⟩)
  have htype : literalType c = .base k := by
    cases c <;> cases hk <;> rfl
  exact htype ▸ h.2.2

/-- A display is a constant, whatever its items are. -/
theorem answers_display (hkind : ∀ ρ k, Evaluates ρ e k → k = kind) :
    Goes context (AtModule context V) (constant (.base kind)) s fun n t => t.graph.HasNode n ∧
      Answers context V t e n := by
  have htype : s.graph.HasType (.base kind) := trivial
  refine .aside hs ((goes_constant hs.toPlaced htype).mono fun n t _ _ h =>
    ⟨h.1, h.2.1, fun u hu htu ρ _ k hk => htu.later.types n _ ?_⟩)
  rw [hkind ρ k hk]
  exact h.2.2

omit hs in
theorem feeds_of_extends {id a : NodeId} {r : Rule} (hr : g.rule? id = some r)
    (h : (Rule.plain inputs).Extends r) (ha : a ∈ inputs) : g.Feeds a id := by
  cases h with
  | refl => exact .plain hr ha
  | plain hmore => exact .plain hr (hmore a ha)

theorem goes_plain (h : ∀ n ∈ inputs, s.graph.HasNode n) (line : Nat) :
    Goes context (AtModule context V) (addNode (.plain inputs) line) s fun n t => t.graph.HasNode n ∧
      ∀ u, AtModule context V u → t.Leads u → ∀ a ∈ inputs, ∀ ty ∈ u.graph.types a, ty ∈ u.graph.types n := by
  refine .aside hs ((goes_addNode hs.toPlaced (ruleFits_plain h) line).mono fun n t _ _ hn =>
    ⟨hn.1, hn.2.1, fun u hu htu a ha ty hty => ?_⟩)
  obtain ⟨-, -, r, hr, hext⟩ := hn
  exact ((feeds_of_extends hr hext ha).later htu.later).types hu.sound hty

theorem goes_operator {op : BinaryOp} {left right : NodeId} (line : Nat) (hl : s.graph.HasNode left)
    (hr : s.graph.HasNode right) :
    Goes context (AtModule context V) (binaryNode op left right line) s fun n t => t.graph.HasNode n ∧
      ∀ u, AtModule context V u → t.Leads u → ∀ l r k, .base l ∈ u.graph.types left →
        .base r ∈ u.graph.types right → op.result? l r = some k → .base k ∈ u.graph.types n := by
  refine .aside hs ((goes_binaryNode hs.toPlaced line hl hr).mono fun n t _ _ hn =>
    ⟨hn.1, hn.2.1, fun u hu htu l r k hl hr hk => ?_⟩)
  obtain ⟨rule, hrule, hext⟩ := htu.later.rules n _ hn.2.2
  cases hext
  exact hu.sound.types_of_binary hrule hl hr hk

theorem goes_unary {op : UnaryOp} {operand : NodeId} (line : Nat) (h : s.graph.HasNode operand) :
    Goes context (AtModule context V) (unaryNode op operand line) s fun n t => t.graph.HasNode n ∧
      ∀ u, AtModule context V u → t.Leads u → ∀ l k, .base l ∈ u.graph.types operand →
        op.result? l = some k → .base k ∈ u.graph.types n := by
  refine .aside hs ((goes_unaryNode hs.toPlaced line h).mono fun n t _ _ hn =>
    ⟨hn.1, hn.2.1, fun u hu htu l k hl hk => ?_⟩)
  obtain ⟨rule, hrule, hext⟩ := htu.later.rules n _ hn.2.2
  cases hext
  exact hu.sound.types_of_unary hrule hl hk

end

/-! ### The parts of expressions -/

/-- An expression and the node that loading it in some state gives. -/
def loaded (context : Context) (e : Expr) (s : State) : Expr × NodeId := (e, (expr e .load context s).1)

def after (context : Context) (e : Expr) (s : State) : State := (expr e .load context s).2

mutual

/-- The nodes that loading an expression in some state gives to the expressions inside of it. -/
def parts (context : Context) : Expr → State → List (Expr × NodeId)
  | .binary _ left _ right, s =>
    (loaded context left s :: parts context left s) ++
      (loaded context right (after context left s) :: parts context right (after context left s))
  | .unary _ _ operand, s => loaded context operand s :: parts context operand s
  | .bool _ _ operands, s => partsOfAll context operands s
  | .compare line left ops comparators, s =>
    (loaded context left s :: parts context left s) ++
      partsOfLinks context line (loaded context left s).2 ops comparators (after context left s)
  | .list _ items, s => partsOfAll context items s
  | .tuple _ items, s => partsOfAll context items s
  | .set _ items, s => partsOfAll context items s
  | .dict _ keys items, s =>
    partsOfKeys context keys s ++ partsOfAll context items (optionals keys context s).2
  | .conditional _ test body orelse, s =>
    (loaded context test s :: parts context test s) ++
      (loaded context body (after context test s) :: parts context body (after context test s)) ++
      (loaded context orelse (after context body (after context test s)) ::
        parts context orelse (after context body (after context test s)))
  | _, _ => []

def partsOfAll (context : Context) : List Expr → State → List (Expr × NodeId)
  | [], _ => []
  | e :: es, s =>
    (loaded context e s :: parts context e s) ++ partsOfAll context es (after context e s)

def partsOfKey (context : Context) : Option Expr → State → List (Expr × NodeId)
  | none, _ => []
  | some e, s => loaded context e s :: parts context e s

def partsOfKeys (context : Context) : List (Option Expr) → State → List (Expr × NodeId)
  | [], _ => []
  | e :: es, s => partsOfKey context e s ++ partsOfKeys context es (optional e context s).2

def partsOfLinks (context : Context) (line : Nat) (previous : NodeId) (ops : List BinaryOp) :
    List Expr → State → List (Expr × NodeId)
  | [], _ => []
  | e :: es, s =>
    match ops with
    | [] => []
    | op :: ops =>
      (loaded context e s :: parts context e s) ++
        partsOfLinks context line (loaded context e s).2 ops es
          (binaryNode op previous (loaded context e s).2 line context (after context e s)).2

end

mutual

/-- Every expression that is evaluated for the sake of another one has been given a node. -/
theorem map_fst_parts (e : Expr) (s : State) :
    (parts context e s).map Prod.fst = inside e := by
  cases e with
  | binary line left op right =>
    simp only [parts, inside, loaded, map_append, map_cons, map_fst_parts left,
      map_fst_parts right]
  | unary line op operand => simp only [parts, inside, loaded, map_cons, map_fst_parts operand]
  | bool line op operands => exact map_fst_partsOfAll operands s
  | compare line left ops comparators =>
    simp only [parts, inside, loaded, map_append, map_cons, map_fst_parts left,
      map_fst_partsOfLinks line _ ops comparators]
  | list line items | tuple line items | set line items => exact map_fst_partsOfAll items s
  | dict line keys items =>
    simp only [parts, inside, map_append, map_fst_partsOfKeys keys, map_fst_partsOfAll items]
  | conditional line test body orelse =>
    simp only [parts, inside, loaded, map_append, map_cons, map_fst_parts test,
      map_fst_parts body, map_fst_parts orelse]
  | _ => rfl

theorem map_fst_partsOfAll (es : List Expr) (s : State) :
    (partsOfAll context es s).map Prod.fst = insideAll es := by
  cases es with
  | nil => rfl
  | cons e es =>
    simp only [partsOfAll, insideAll, loaded, map_append, map_cons, map_fst_parts e,
      map_fst_partsOfAll es]

theorem map_fst_partsOfKey (e : Option Expr) (s : State) :
    (partsOfKey context e s).map Prod.fst = insideKey e := by
  cases e with
  | none => rfl
  | some e => simp only [partsOfKey, insideKey, loaded, map_cons, map_fst_parts e]

theorem map_fst_partsOfKeys (es : List (Option Expr)) (s : State) :
    (partsOfKeys context es s).map Prod.fst = insideKeys es := by
  cases es with
  | nil => rfl
  | cons e es =>
    simp only [partsOfKeys, insideKeys, map_append, map_fst_partsOfKey e,
      map_fst_partsOfKeys es]

theorem map_fst_partsOfLinks (line : Nat) (previous : NodeId) (ops : List BinaryOp)
    (es : List Expr) (s : State) : (partsOfLinks context line previous ops es s).map Prod.fst = insideLinks ops es := by
  cases es with
  | nil => rfl
  | cons e es =>
    cases ops with
    | nil => rfl
    | cons op ops =>
      simp only [partsOfLinks, insideLinks, loaded, map_append, map_cons, map_fst_parts e,
        map_fst_partsOfLinks line _ ops es]

end

/-! ### Expressions -/

/-- Loading an expression has given a node that answers for it, and so have the nodes of its parts.
-/
structure Loads (context : Context) (V : Versions) (e : Expr) (s : State) (n : NodeId) (t : State) :
    Prop where
  node : t.graph.HasNode n
  answers : Answers context V t e n
  parts : Covers context V t (Event.ofExpr [] e) (parts context e s)

theorem Loads.covers (h : Loads context V e s n t) (hl : t.Leads u) :
    Covers context V u (Event.ofExpr [] e) ((e, n) :: Inference.parts context e s) :=
  (Covers.cons h.answers h.parts).leads hl

structure LoadsAll (context : Context) (V : Versions) (es : List Expr) (s : State)
    (nodes : List NodeId) (t : State) : Prop where
  node : ∀ n ∈ nodes, t.graph.HasNode n
  answers : AnswersAll context V t es nodes
  parts : Covers context V t (Event.ofExprs [] es) (partsOfAll context es s)

theorem goes_display {items : List Expr}
    (hitems : Goes context (AtModule context V) (values items) s (LoadsAll context V items s))
    (hparts : parts context e s = partsOfAll context items s)
    (hevents : Event.ofExpr [] e = Event.ofExprs [] items)
    (hkind : ∀ ρ k, Evaluates ρ e k → k = kind) :
    Goes context (AtModule context V) (do discard (values items); constant (.base kind)) s
      (Loads context V e s) := by
  refine hitems.discardThen fun _ t _ ht _ hnodes => ?_
  refine (answers_display ht hkind).mono fun n w _ htw hn => ⟨hn.1, hn.2, ?_⟩
  rw [hparts, hevents]
  exact hnodes.parts.leads htw

structure LoadsLinks (context : Context) (V : Versions) (line : Nat) (previous : NodeId)
    (ops : List BinaryOp) (es : List Expr) (s : State) (links : List NodeId) (t : State) : Prop where
  node : ∀ n ∈ links, t.graph.HasNode n
  answers : AnswersLink context V t previous ops es links
  parts : Covers context V t (Event.ofExprs [] es) (partsOfLinks context line previous ops es s)

mutual

/-- **Loading an expression makes a node that answers for it.** -/
theorem goes_expr (hnames : ∀ x ∈ names, x ∈ V.locals) (e : Expr) (he : isFlowExpr names e = true)
    (s : State) (hs : AtModule context V s) :
    Goes context (AtModule context V) (expr e .load) s (Loads context V e s) := by
  cases e with
  | name line id x =>
    have hx := hnames x (contains_iff_mem.1 he)
    refine (goes_readName hs id hx line).mono fun n t _ _ hn =>
      ⟨hn.1, fun u hu htu ρ hsees k hk => ?_, .nil⟩
    have hread : Event.read id x ∈ Event.ofExpr [] (.name line id x) := mem_singleton_self _
    obtain ⟨v, n', hv, hn', htype⟩ := hsees id x hread k hk
    -- the version still has the node that the read has found
    obtain rfl : n = n' := Option.some.inj ((htu.bound x v n (hn.2 v hv)).symm.trans hn')
    exact htype
  | constant line c => exact (answers_constant hs).mono fun n t _ _ hn => ⟨hn.1, hn.2, .nil⟩
  | binary line left op right =>
    obtain ⟨hleft, hright⟩ := Bool.and_eq_true_iff.1 he
    refine (goes_expr hnames left hleft s hs).andThen fun l t heq ht hst hl => ?_
    refine (goes_expr hnames right hright t ht).andThen fun r t' heq' ht' htt' hr => ?_
    refine (goes_operator ht' line (htt'.later.hasNode hl.node) hr.node).mono fun n w _ htw hn =>
      ⟨hn.1, fun u hu hwu ρ hsees k hk => ?_, ?_⟩
    · obtain ⟨a, b, ha, hb, hresult⟩ := hk
      exact hn.2 u hu hwu a b k (hl.answers u hu (htt'.trans (htw.trans hwu)) ρ hsees.left a ha)
        (hr.answers u hu (htw.trans hwu) ρ hsees.right b hb) hresult
    · simp only [parts, loaded, after, heq, heq']
      exact (hl.covers (htt'.trans htw)).append (hr.covers htw)
  | unary line op operand =>
    refine (goes_expr hnames operand he s hs).andThen fun l t heq ht hst hl => ?_
    refine (goes_unary ht line hl.node).mono fun n w _ htw hn =>
      ⟨hn.1, fun u hu hwu ρ hsees k hk => ?_, ?_⟩
    · obtain ⟨a, ha, hresult⟩ := hk
      exact hn.2 u hu hwu a k (hl.answers u hu (htw.trans hwu) ρ hsees a ha) hresult
    · simp only [parts, loaded, heq]
      exact hl.covers htw
  | bool line op operands =>
    refine (goes_values hnames operands he s hs).bind fun nodes t ht hst hnodes => ?_
    refine (goes_plain ht hnodes.node line).mono fun n w _ htw hn =>
      ⟨hn.1, fun u hu hwu ρ hsees k hk => ?_, hnodes.parts.leads htw⟩
    obtain ⟨a, ha, htype⟩ := hnodes.answers.some hu (htw.trans hwu) hsees hk
    exact hn.2 u hu hwu a ha _ htype
  | compare line left ops comparators =>
    obtain ⟨hleft, hright⟩ := Bool.and_eq_true_iff.1 he
    refine (goes_expr hnames left hleft s hs).andThen fun l t heq ht hst hl => ?_
    refine (goes_comparisons hnames line l ops comparators hright t ht hl.node).bind
      fun links t' ht' htt' hlinks => ?_
    have hlink : ∀ u, AtModule context V u → t'.Leads u → ∀ ρ,
        Sees V u ρ (Event.ofExpr [] (.compare line left ops comparators)) → ∀ k,
        Evaluates ρ (.compare line left ops comparators) k → ∃ a ∈ links, .base k ∈ u.graph.types a := by
      rintro u hu htu ρ hsees k ⟨a, ha, hk⟩
      have hfirst := hl.answers u hu (htt'.trans htu) ρ hsees.left a ha
      exact hlinks.answers u hu htu ρ hsees.right a hfirst k hk
    have hparts : Covers context V t' (Event.ofExpr [] (.compare line left ops comparators))
        (parts context (.compare line left ops comparators) s) := by
      simp only [parts, loaded, after, heq]
      exact (hl.covers htt').append hlinks.parts
    -- a single link is the comparison itself, several ones are joined
    split
    · next node =>
      refine .pure ht' ⟨hlinks.node node mem_cons_self, fun u hu htu ρ hsees k hk => ?_, hparts⟩
      obtain ⟨a, ha, htype⟩ := hlink u hu htu ρ hsees k hk
      exact mem_singleton.1 ha ▸ htype
    · refine (goes_plain ht' hlinks.node line).mono fun n w _ htw hn =>
        ⟨hn.1, fun u hu hwu ρ hsees k hk => ?_, hparts.leads htw⟩
      obtain ⟨a, ha, htype⟩ := hlink u hu (htw.trans hwu) ρ hsees k hk
      exact hn.2 u hu hwu a ha _ htype
  | list line items | tuple line items
  | set line items => exact goes_display (goes_values hnames items he s hs) rfl rfl fun ρ k hk => hk.2
  | dict line keys items =>
    obtain ⟨hkeys, hitems⟩ := Bool.and_eq_true_iff.1 he
    obtain ⟨hlength, hkeys⟩ := Bool.and_eq_true_iff.1 hkeys
    refine (goes_optionals hnames keys hkeys s hs).andThen fun _ t heq ht _ hcovers => ?_
    refine (goes_values hnames items hitems t ht).discardThen fun _ t' _ ht' htt' hnodes => ?_
    have hkind : ∀ ρ k, Evaluates ρ (.dict line keys items) k → k = .dict := fun ρ k hk => hk.2.2
    refine (answers_display ht' hkind).mono fun n w _ htw hn => ⟨hn.1, hn.2, ?_⟩
    -- all keys are loaded before the values, which does not matter for what they read
    simp only [parts, heq]
    refine ((hcovers.leads (htt'.trans htw)).append (hnodes.parts.leads htw)).mono fun e he => ?_
    rw [mem_ofExpr_dict (beq_iff_eq.1 hlength)]
    exact (mem_append.1 he).imp_left mem_flatMap.1
  | conditional line test body orelse =>
    obtain ⟨htest, hother⟩ := Bool.and_eq_true_iff.1 he
    obtain ⟨htest, hbody⟩ := Bool.and_eq_true_iff.1 htest
    refine (goes_expr hnames test htest s hs).discardThen fun c t heq ht _ hc => ?_
    refine (goes_expr hnames body hbody t ht).andThen fun b t' heq' ht' htt' hb => ?_
    refine (goes_expr hnames orelse hother t' ht').andThen fun o t'' heq'' ht'' hmid ho => ?_
    have hnodes : ∀ n ∈ [b, o], t''.graph.HasNode n := by
      intro n hn
      rcases mem_pair.1 hn with rfl | rfl
      · exact hmid.later.hasNode hb.node
      · exact ho.node
    refine (goes_plain ht'' hnodes line).mono fun n w _ htw hn =>
      ⟨hn.1, fun u hu hwu ρ hsees k hk => ?_, ?_⟩
    · rcases hk.2 with hk | hk
      · exact hn.2 u hu hwu b mem_cons_self _
          (hb.answers u hu (hmid.trans (htw.trans hwu)) ρ hsees.left.right k hk)
      · exact hn.2 u hu hwu o (mem_cons_of_mem _ mem_cons_self) _
          (ho.answers u hu (htw.trans hwu) ρ hsees.right k hk)
    · simp only [parts, loaded, after, heq, heq', heq'']
      exact ((hc.covers (htt'.trans (hmid.trans htw))).append (hb.covers (hmid.trans htw))).append
        (ho.covers htw)
  | _ => cases he

theorem goes_values (hnames : ∀ x ∈ names, x ∈ V.locals) (es : List Expr)
    (hes : isFlowExprs names es = true) (s : State) (hs : AtModule context V s) :
    Goes context (AtModule context V) (values es) s (LoadsAll context V es s) := by
  cases es with
  | nil => exact .pure hs ⟨fun n hn => absurd hn not_mem_nil, .nil, .nil⟩
  | cons e es =>
    obtain ⟨he, hes⟩ := Bool.and_eq_true_iff.1 hes
    refine (goes_expr hnames e he s hs).andThen fun n t heq ht _ hn => ?_
    refine (goes_values hnames es hes t ht).bind fun nodes t' ht' htt' hnodes => ?_
    refine .pure ht' ⟨fun a ha => ?_, .cons (hn.answers.leads htt') hnodes.answers, ?_⟩
    · rcases mem_cons.1 ha with rfl | ha
      · exact htt'.later.hasNode hn.node
      · exact hnodes.node a ha
    · simp only [partsOfAll, loaded, after, heq]
      exact (hn.covers htt').append hnodes.parts

theorem goes_optional (hnames : ∀ x ∈ names, x ∈ V.locals) (key : Option Expr)
    (hkey : isFlowKey names key = true) (s : State) (hs : AtModule context V s) :
    Goes context (AtModule context V) (optional key) s fun _ t =>
      Covers context V t (Event.ofOption [] key) (partsOfKey context key s) := by
  cases key with
  | none => exact .pure hs .nil
  | some e =>
    obtain ⟨ht, hl, hn⟩ := goes_expr hnames e hkey s hs
    exact ⟨ht, hl, hn.covers (.refl _)⟩

theorem goes_optionals (hnames : ∀ x ∈ names, x ∈ V.locals) (keys : List (Option Expr))
    (hkeys : isFlowKeys names keys = true) (s : State) (hs : AtModule context V s) :
    Goes context (AtModule context V) (optionals keys) s fun _ t =>
      Covers context V t (keys.flatMap (Event.ofOption [])) (partsOfKeys context keys s) := by
  cases keys with
  | nil => exact .pure hs .nil
  | cons key keys =>
    obtain ⟨hkey, hkeys⟩ := Bool.and_eq_true_iff.1 hkeys
    refine (goes_optional hnames key hkey s hs).andThen fun _ t heq ht _ hfirst => ?_
    refine (goes_optionals hnames keys hkeys t ht).mono fun _ w _ htw hrest => ?_
    simp only [partsOfKeys, heq]
    exact (hfirst.leads htw).append hrest

theorem goes_comparisons (hnames : ∀ x ∈ names, x ∈ V.locals) (line : Nat) (previous : NodeId)
    (ops : List BinaryOp) (es : List Expr) (hes : isFlowExprs names es = true) (s : State)
    (hs : AtModule context V s) (hprevious : s.graph.HasNode previous) :
    Goes context (AtModule context V) (comparisons line previous ops es) s
      (LoadsLinks context V line previous ops es s) := by
  -- where the comparators or the operators have come to an end
  have hnone : ∀ ops es, partsOfLinks context line previous ops es s = [] →
      (∀ ρ l k, ¬ EvaluatesLink ρ l ops es k) → LoadsLinks context V line previous ops es s [] s := by
    intro ops es hparts hstuck
    refine ⟨fun n hn => absurd hn not_mem_nil, fun u _ _ ρ _ l _ k hk => absurd hk (hstuck ρ l k), ?_⟩
    rw [hparts]
    exact .nil
  cases es with
  | nil => exact .pure hs (hnone ops [] rfl fun _ _ _ hk => hk)
  | cons e es =>
    obtain ⟨he, hes⟩ := Bool.and_eq_true_iff.1 hes
    cases ops with
    | nil => exact .pure hs (hnone [] (e :: es) rfl fun _ _ _ hk => hk)
    | cons op ops =>
      refine (goes_expr hnames e he s hs).andThen fun r t heq ht hst hr => ?_
      refine (goes_operator ht line (hst.later.hasNode hprevious) hr.node).andThen
        fun link t' heq' ht' htt' hlink => ?_
      refine (goes_comparisons hnames line r ops es hes t' ht' (htt'.later.hasNode hr.node)).bind
        fun links w hw htw hlinks => ?_
      refine .pure hw ⟨fun a ha => ?_, fun u hu hwu ρ hsees l hl k hk => ?_, ?_⟩
      · rcases mem_cons.1 ha with rfl | ha
        · exact htw.later.hasNode hlink.1
        · exact hlinks.node a ha
      · obtain ⟨b, c, hb, hresult, hk⟩ := hk
        have hright := hr.answers u hu (htt'.trans (htw.trans hwu)) ρ hsees.left b hb
        rcases hk with rfl | hk
        · exact ⟨link, mem_cons_self, hlink.2 u hu (htw.trans hwu) l b k hl hright hresult⟩
        · obtain ⟨n, hn, htype⟩ := hlinks.answers u hu hwu ρ hsees.right b hright k hk
          exact ⟨n, mem_cons_of_mem _ hn, htype⟩
      · simp only [partsOfLinks, loaded, after, heq, heq']
        exact (hr.covers (htt'.trans htw)).append hlinks.parts

end

end FlowTyping.Inference
