/-
Walking the items of a module.

An item loads its expressions and lets values flow into names.  What follows is about all later
states: if the reads of the item see the kinds of a store, the nodes of its expressions have the
kinds to which they evaluate, and what it assigns is found at the version that the write makes and
at the summary of the name (`Holds`).  The merges of the module come first; a kind that is found at
one of the definitions to which a version expands is found at the version itself (`Wired.expands`).
-/
import FlowTyping.Proofs.Soundness.Loading
import FlowTyping.Proofs.Version.Reaching

namespace FlowTyping.Inference

open List Evaluation

variable {context : Context} {V : Versions} {s t u : State} {names : List String} {ρ : Store}
  {k : Kind} {targets : List Expr} {value : NodeId} {x : String} {target : Expr} {id : NameId}

/-! ### Assignments -/

/-- The kind that a name has been assigned is found where the write puts it. -/
def Holds (V : Versions) (u : State) (w : Write) : Prop :=
  ∀ v, V.written? w.id = some v → ∃ n, u.bound? w.name v = some n ∧ .base w.kind ∈ u.graph.types n ∧
    ∃ total, u.total? w.name = some total ∧ .base w.kind ∈ u.graph.types total

theorem Stored.holds (h : Stored V t id x value) (hu : AtModule context V u)
    (hl : t.Leads u) (hk : .base k ∈ u.graph.types value) : Holds V u ⟨id, x, k⟩ := by
  intro v hv
  obtain ⟨n, hn, hvalue, total, htotal, hfeeds⟩ := h.leads hl v hv
  have hnode := hvalue.types hu.sound hk
  exact ⟨n, hn, hnode, total, htotal, hfeeds.types hu.sound hnode⟩

/-- A value has been stored into a target. -/
def Put (V : Versions) (t : State) (target : Expr) (value : NodeId) : Prop :=
  ∀ k w, writeTo? k target = some w → Stored V t w.id w.name value

theorem Put.leads (h : Put V s target value) (hl : s.Leads t) :
    Put V t target value := fun k w hw => (h k w hw).leads hl

theorem Put.holds {w : Write} (h : Put V t target value)
    (hw : writeTo? k target = some w) (hu : AtModule context V u) (hl : t.Leads u)
    (hk : .base k ∈ u.graph.types value) : Holds V u w := by
  have hstored := h k w hw
  cases target with
  | name line id x =>
    cases hw
    exact hstored.holds hu hl hk
  | _ => cases hw

theorem goes_assign (hs : AtModule context V s) (htarget : isName target = true)
    (hapart : Apart V (Event.ofTarget target)) (hvalue : s.graph.HasNode value) :
    Goes context (AtModule context V) (assign target value) s fun _ t => Put V t target value := by
  cases target with
  | name line id x =>
    obtain ⟨ht, hl, hstored⟩ := goes_writeName hs hapart line hvalue
    refine ⟨ht, hl, fun k w hw => ?_⟩
    cases hw
    exact hstored
  | _ => cases htarget

theorem Apart.mono {events events' : List Event} (h : Apart V events) (hsub : ∀ e ∈ events', e ∈ events) :
    Apart V events' := fun id x hwrite => h id x (hsub _ hwrite)

theorem goes_assignAll (hs : AtModule context V s) (htargets : targets.all isName = true)
    (hapart : Apart V (Event.ofTargets targets)) (hvalue : s.graph.HasNode value) :
    Goes context (AtModule context V) (assignAll value targets) s fun _ t =>
      ∀ target ∈ targets, Put V t target value := by
  induction targets generalizing s with
  | nil => exact .pure hs fun target ht => absurd ht not_mem_nil
  | cons target targets ih =>
    obtain ⟨htarget, htargets⟩ := Bool.and_eq_true_iff.1 htargets
    have hfirst := hapart.mono fun e he => mem_append_left (Event.ofTargets targets) he
    have hrest := hapart.mono fun e he => mem_append_right (Event.ofTarget target) he
    refine (goes_assign hs htarget hfirst hvalue).bind fun _ t ht hst hput => ?_
    refine (ih ht htargets hrest (hst.later.hasNode hvalue)).mono fun _ u _ htu hputs => ?_
    intro target' htarget'
    rcases mem_cons.1 htarget' with rfl | htarget'
    · exact hput.leads htu
    · exact hputs target' htarget'

/-! ### The expressions of items -/

def loadedByPairs (context : Context) : List (Expr × Expr) → State → List (Expr × NodeId)
  | [], _ => []
  | (target, value) :: pairs, s =>
    (loaded context value s :: parts context value s) ++
      loadedByPairs context pairs
        (assign target (loaded context value s).2 context (after context value s)).2

/-- The nodes that walking an item in some state gives to its expressions. -/
def loadedBy (context : Context) : Flow.Action → State → List (Expr × NodeId)
  | .test e, s => loaded context e s :: parts context e s
  | .simple (.expr _ e), s => loaded context e s :: parts context e s
  | .simple (.assign _ targets value), s =>
    match pairs? value targets with
    | some pairs => loadedByPairs context pairs s
    | none => loaded context value s :: parts context value s
  | .simple (.augAssign line (.name nameLine id x) _ value), s =>
    [(.name nameLine id x, (readName id x line context s).1)] ++
      (loaded context value (readName id x line context s).2 ::
        parts context value (readName id x line context s).2)
  | _, _ => []

theorem map_fst_loadedByPairs (context : Context) (pairs : List (Expr × Expr)) (s : State) :
    (loadedByPairs context pairs s).map Prod.fst = insideAll (pairs.map Prod.snd) := by
  induction pairs generalizing s with
  | nil => rfl
  | cons p pairs ih =>
    simp only [loadedByPairs, insideAll, loaded, map_append, map_cons, map_fst_parts, ih]

/-- Every expression that an item evaluates has been given a node. -/
theorem map_fst_loadedBy (context : Context) (a : Flow.Action) (s : State) :
    (loadedBy context a s).map Prod.fst = expressionsOf a := by
  cases a with
  | test e => exact congrArg (List.cons e) (map_fst_parts e s)
  | simple stmt =>
    cases stmt with
    | expr line e => exact congrArg (List.cons e) (map_fst_parts e s)
    | assign line targets value =>
      rcases hpairs : pairs? value targets with - | pairs
      · simp only [loadedBy, expressionsOf, hpairs]
        exact congrArg (List.cons value) (map_fst_parts value s)
      · simp only [loadedBy, expressionsOf, hpairs]
        exact map_fst_loadedByPairs context pairs s
    | augAssign line target op value =>
      cases target with
      | name nameLine id x =>
        exact congrArg (fun es => .name nameLine id x :: value :: es) (map_fst_parts value _)
      | _ => rfl
    | _ => rfl
  | _ => rfl

section

variable (hnames : ∀ x ∈ names, x ∈ V.locals) {value : Expr}
include hnames

theorem goes_assignPairs {pairs : List (Expr × Expr)} (hs : AtModule context V s)
    (hpairs : ∀ p ∈ pairs, isName p.1 = true ∧ isFlowExpr names p.2 = true)
    (hapart : Apart V (Event.ofTargets (pairs.map Prod.fst))) :
    Goes context (AtModule context V) (assignPairs pairs) s fun _ t =>
      Covers context V t (Event.ofExprs [] (pairs.map Prod.snd)) (loadedByPairs context pairs s) ∧
      ∀ u, AtModule context V u → t.Leads u → ∀ ρ, Sees V u ρ (Event.ofExprs [] (pairs.map Prod.snd)) →
        ∀ ws, AssignsPairs ρ pairs ws → ∀ w ∈ ws, Holds V u w := by
  induction pairs generalizing s with
  | nil =>
    refine .pure hs ⟨.nil, fun u _ _ ρ _ ws hws w hw => ?_⟩
    cases hws
    cases hw
  | cons p pairs ih =>
    obtain ⟨target, value⟩ := p
    obtain ⟨htarget, hvalue⟩ := hpairs (target, value) mem_cons_self
    have hfirst := hapart.mono fun e he => mem_append_left (Event.ofTargets (pairs.map Prod.fst)) he
    have hrest := hapart.mono fun e he => mem_append_right (Event.ofTarget target) he
    -- The target is stored into before the next value is loaded, but that does not change the versions
    -- that the next value reads.
    refine (goes_expr hnames value hvalue s hs).andThen fun n t heq ht hst hn => ?_
    refine (goes_assign ht htarget hfirst hn.node).andThen fun _ t' heq' ht' htt' hput => ?_
    refine (ih ht' (fun p hp => hpairs p (mem_cons_of_mem _ hp)) hrest).mono fun _ w _ htw h => ?_
    refine ⟨?_, fun u hu hwu ρ hsees ws hws w' hw' => ?_⟩
    · simp only [loadedByPairs, loaded, after, heq, heq']
      exact (hn.covers (htt'.trans htw)).append h.1
    · obtain ⟨k, ws', hk, hws', rfl⟩ := hws
      rcases mem_append.1 hw' with hw' | hw'
      · have htype := hn.answers u hu (htt'.trans (htw.trans hwu)) ρ hsees.left k hk
        exact hput.holds (Option.mem_toList.1 hw') hu (htw.trans hwu) htype
      · exact h.2 u hu hwu ρ hsees.right ws' hws' w' hw'

/-- Walking an item has given nodes to its expressions, and what it assigns is found. -/
structure Walks (context : Context) (V : Versions) (a : Flow.Action) (s t : State) : Prop where
  covers : Covers context V t (Event.ofAction a) (loadedBy context a s)
  holds : ∀ u, AtModule context V u → t.Leads u → ∀ ρ, Sees V u ρ (Event.ofAction a) → ∀ ws,
    Assigns ρ a ws → ∀ w ∈ ws, Holds V u w

omit hnames in
theorem Walks.leads {a : Flow.Action} (h : Walks context V a s t) (hl : t.Leads u) : Walks context V a s u :=
  ⟨h.covers.leads hl, fun w hw huw => h.holds w hw (hl.trans huw)⟩

theorem goes_assignment (line : Nat) (hs : AtModule context V s)
    (h : isFlowAssignment names targets value = true) (hapart : Apart V (Event.ofTargets targets)) :
    Goes context (AtModule context V) (assignment targets value) s fun _ t =>
      Walks context V (.simple (.assign line targets value)) s t := by
  show Goes context _ (match pairs? value targets with
    | some pairs => assignPairs pairs
    | none => load value >>= fun node => assignAll node targets) s _
  unfold isFlowAssignment at h
  rcases hpairs : pairs? value targets with - | pairs
  · rw [hpairs] at h
    obtain ⟨htargets, hvalue⟩ := Bool.and_eq_true_iff.1 h
    refine (goes_expr hnames value hvalue s hs).andThen fun n t heq ht hst hn => ?_
    refine (goes_assignAll ht htargets hapart hn.node).mono fun _ w _ htw hputs => ⟨?_, ?_⟩
    · simp only [loadedBy, hpairs, loaded, heq]
      exact (hn.covers htw).mono fun e he => mem_append_left _ he
    · intro u hu hwu ρ hsees ws hws w' hw'
      simp only [Assigns, hpairs] at hws
      obtain ⟨k, hk, rfl⟩ := hws
      obtain ⟨target, htarget, hwrite⟩ := mem_filterMap.1 hw'
      have htype := hn.answers u hu (htw.trans hwu) ρ hsees.left k hk
      exact (hputs target htarget).holds hwrite hu hwu htype
  · rw [hpairs] at h
    have hall : ∀ p ∈ pairs, isName p.1 = true ∧ isFlowExpr names p.2 = true := fun p hp =>
      Bool.and_eq_true_iff.1 (all_eq_true.1 h p hp)
    obtain ⟨hreads, hwrites⟩ := pairs?_eq_some hpairs
    refine (goes_assignPairs hnames hs hall (hwrites ▸ hapart)).mono fun _ w _ htw hw => ⟨?_, ?_⟩
    · simp only [loadedBy, hpairs]
      refine hw.1.mono fun e he => mem_append_left _ ?_
      rw [hreads]
      exact he
    · intro u hu hwu ρ hsees ws hws
      simp only [Assigns, hpairs] at hws
      exact hw.2 u hu hwu ρ (hreads ▸ hsees.left) ws hws

theorem goes_augmentedAssignment {op : BinaryOp} (line nameLine : Nat)
    (hs : AtModule context V s) (hx : x ∈ V.locals) (hvalue : isFlowExpr names value = true)
    (hapart : Apart V [.write id x]) :
    Goes context (AtModule context V) (augmentedAssignment line (.name nameLine id x) op value) s fun _ t =>
      Walks context V (.simple (.augAssign line (.name nameLine id x) op value)) s t := by
  refine (goes_readName hs id hx line).andThen fun c t heq ht hst hc => ?_
  refine (goes_expr hnames value hvalue t ht).andThen fun n t' heq' ht' htt' hn => ?_
  refine (goes_operator ht' line (htt'.later.hasNode hc.1) hn.node).bind fun r t'' ht'' hmid hr => ?_
  refine (goes_writeName ht'' hapart line hr.1).mono fun _ w _ htw hstored => ?_
  -- The name is read before the operator is applied.
  have hcurrent : ∀ u, AtModule context V u → t.Leads u → ∀ ρ k,
      Sees V u ρ [.read id x] → ρ x = some k → .base k ∈ u.graph.types c := by
    intro u hu htu ρ k hsees hk
    obtain ⟨v, n', hv, hn', htype⟩ := hsees id x mem_cons_self k hk
    obtain rfl : c = n' := Option.some.inj ((htu.bound x v c (hc.2 v hv)).symm.trans hn')
    exact htype
  have htw' := htt'.trans (hmid.trans htw)
  have hread : Covers context V w [.read id x] [(.name nameLine id x, c)] := by
    intro u hu hwu ρ hsees p hp k hk
    obtain rfl := mem_singleton.1 hp
    exact hcurrent u hu (htw'.trans hwu) ρ k hsees hk
  have hevents : Event.ofAction (.simple (.augAssign line (.name nameLine id x) op value)) =
      ([.read id x] ++ Event.ofExpr [] value) ++ [.write id x] := rfl
  refine ⟨?_, fun u hu hwu ρ hsees ws hws w' hw' => ?_⟩
  · simp only [loadedBy, loaded, heq, heq', hevents]
    exact (hread.append (hn.covers (hmid.trans htw))).mono fun e he => mem_append_left _ he
  · rw [hevents] at hsees
    obtain ⟨l, a, k, hl, ha, hresult, rfl⟩ := hws
    obtain rfl := mem_singleton.1 hw'
    have hleft := hcurrent u hu (htw'.trans hwu) ρ l hsees.left.left hl
    have hright := hn.answers u hu (hmid.trans (htw.trans hwu)) ρ hsees.left.right a ha
    exact hstored.holds hu hwu (hr.2 u hu (htw.trans hwu) l a k hleft hright hresult)

/-- **Walking an item finds what it evaluates and assigns.** -/
theorem goes_item (walk : Flow → Infer Unit) {i : Flow.Item} (hs : AtModule context V s)
    (hi : isFlowAction names i.action = true) (hapart : Apart V (Event.ofAction i.action)) :
    Goes context (AtModule context V) (item walk i) s fun _ t => Walks context V i.action s t := by
  have hload : ∀ e, isFlowExpr names e = true → ∀ a, Event.ofAction a = Event.ofExpr [] e →
      loadedBy context a s = loaded context e s :: parts context e s →
      (∀ ρ ws, Assigns ρ a ws → ws = []) →
      Goes context (AtModule context V) (discard (load e)) s fun _ t => Walks context V a s t := by
    intro e he a hevents hparts hws
    obtain ⟨ht, hl, hn⟩ := goes_expr hnames e he s hs
    refine ⟨ht, hl, ?_, fun u _ _ ρ _ ws h w hw => ?_⟩
    · rw [hevents, hparts]
      exact hn.covers (.refl _)
    · rw [hws ρ ws h] at hw
      cases hw
  obtain ⟨line, action⟩ := i
  change isFlowAction names action = true at hi
  unfold isFlowAction at hi
  split at hi
  · next e => exact hload e hi _ rfl rfl fun ρ ws h => h.2
  · next line e => exact hload e hi _ rfl rfl fun ρ ws h => h.2
  · next line targets value =>
    exact goes_assignment hnames line hs hi (hapart.mono fun e he => mem_append_right _ he)
  · next line target op value =>
    obtain ⟨htarget, hvalue⟩ := Bool.and_eq_true_iff.1 hi
    obtain ⟨hname, hread⟩ := Bool.and_eq_true_iff.1 htarget
    cases target with
    | name nameLine id x =>
      have hx := hnames x (contains_iff_mem.1 hread)
      refine goes_augmentedAssignment hnames line nameLine hs hx hvalue (hapart.mono fun e he => ?_)
      exact mem_append_right (.read id x :: Event.ofExpr [] value) he
    | _ => cases hname
  · cases hi

theorem goes_items (walk : Flow → Infer Unit) {is : List Flow.Item} (hs : AtModule context V s)
    (his : ∀ i ∈ is, isFlowAction names i.action = true)
    (hapart : ∀ i ∈ is, Apart V (Event.ofAction i.action)) :
    Goes context (AtModule context V) (items walk is) s fun _ t => ∀ before i after,
      is = before ++ i :: after → Walks context V i.action (items walk before context s).2 t := by
  induction is generalizing s with
  | nil => exact .pure hs fun before i after h => by simp at h
  | cons j is ih =>
    refine (goes_item hnames walk hs (his j mem_cons_self) (hapart j mem_cons_self)).andThen
      fun _ t heq ht hst hj => ?_
    refine (ih ht (fun i hi => his i (mem_cons_of_mem _ hi))
      fun i hi => hapart i (mem_cons_of_mem _ hi)).mono fun _ w _ htw hrest => ?_
    intro before i after hsplit
    cases before with
    | nil =>
      obtain ⟨rfl, rfl⟩ := List.cons.inj hsplit
      exact hj.leads htw
    | cons b before =>
      obtain ⟨rfl, htail⟩ := List.cons.inj hsplit
      have hstate : (items walk (j :: before) context s).2 = (items walk before context t).2 := by
        show (items walk before context (item walk j context s).2).2 = _
        rw [heq]
      rw [hstate]
      exact hrest before i after htail

end

/-! ### Merges -/

/-- Every merge has a node, which the nodes of its sources feed. -/
def Wired (V : Versions) (u : State) : Prop :=
  ∀ m ∈ V.merges, ∃ node, u.bound? m.name m.version = some node ∧
    ∀ w, .version w ∈ m.sources → ∃ n, u.bound? m.name w = some n ∧ u.graph.Feeds n node

theorem Wired.leads (h : Wired V s) (hl : s.Leads t) : Wired V t := by
  intro m hm
  obtain ⟨node, hnode, hsources⟩ := h m hm
  refine ⟨node, hl.bound _ _ _ hnode, fun w hw => ?_⟩
  obtain ⟨n, hn, hfeeds⟩ := hsources w hw
  exact ⟨n, hl.bound _ _ _ hn, hfeeds.later hl.later⟩

/-- **What is found at a definition is found at every version that expands to it.** -/
theorem Wired.expands {w v : Nat} {n : NodeId} (h : Wired V u) (hu : AtModule context V u)
    (hexpands : V.Expands x (.version w) (.version v)) (hn : u.bound? x v = some n)
    (hk : .base k ∈ u.graph.types n) :
    ∃ n', u.bound? x w = some n' ∧ .base k ∈ u.graph.types n' := by
  generalize hd : Definition.version w = d at hexpands
  generalize he : Definition.version v = e at hexpands
  induction hexpands generalizing w with
  | leaf _ =>
    cases Definition.version.inj (hd.trans he.symm)
    exact ⟨n, hn, hk⟩
  | @merge m s e hm hs hexpands ih =>
    cases Definition.version.inj hd
    obtain ⟨hmem, rfl⟩ := Merge.mem_named.1 hm
    obtain ⟨node, hnode, hsources⟩ := h m hmem
    cases s with
    | unbound =>
      -- A name without a value expands to nothing else.
      cases hexpands
      cases he
    | version w' =>
      obtain ⟨n', hn', hk'⟩ := ih rfl he
      obtain ⟨n'', hn'', hfeeds⟩ := hsources w' hs
      obtain rfl : n' = n'' := Option.some.inj (hn'.symm.trans hn'')
      exact ⟨node, hnode, hfeeds.types hu.sound hk'⟩

/-- A merge without sources. -/
def IsMerge (g : Graph) (id : NodeId) : Prop := ∃ incoming, g.rule? id = some (.merge incoming)

theorem IsMerge.later {g k : Graph} {id : NodeId} (h : IsMerge g id) (hl : g.Later k) : IsMerge k id := by
  obtain ⟨incoming, h⟩ := h
  obtain ⟨r, hr, hext⟩ := hl.rules id _ h
  cases hext with
  | refl | merge => exact ⟨_, hr⟩

theorem goes_mergeNodes (flow : Flow) {ms : List Merge} (hs : AtModule context V s)
    (hms : ∀ m ∈ ms, m ∈ V.merges) (hnew : ∀ m ∈ ms, s.bound? m.name m.version = none)
    (hdistinct : ms.Pairwise fun m m' => m.name = m'.name → m.version ≠ m'.version) :
    Goes context (AtModule context V) (mergeNodes flow ms) s fun pairs t => pairs.map Prod.fst = ms ∧
      ∀ p ∈ pairs, t.bound? p.1.name p.1.version = some p.2 ∧ IsMerge t.graph p.2 := by
  induction ms generalizing s with
  | nil => exact .pure hs ⟨rfl, fun p hp => absurd hp not_mem_nil⟩
  | cons m ms ih =>
    obtain ⟨hfirst, hdistinct⟩ := pairwise_cons.1 hdistinct
    refine Goes.bind (Q := fun node t => t.bound? = s.bound? ∧ t.graph.HasNode node ∧ IsMerge t.graph node)
      (.aside hs ((goes_addNode hs.toPlaced ruleFits_merge _).mono fun node t _ _ h => ⟨h.1, ?_⟩))
      fun node t ht hst hnode => ?_
    · obtain ⟨hscopes, hnode, r, hr, hext⟩ := h
      refine ⟨bound?_eq hscopes, hnode, ?_⟩
      cases hext with
      | refl | merge => exact ⟨_, hr⟩
    obtain ⟨hbound, hnode, hmerge⟩ := hnode
    have hunbound : t.bound? m.name m.version = none := by
      rw [hbound]
      exact hnew m mem_cons_self
    have hbind : Goes context (AtModule context V)
        (modifyScope fun scope => { scope with bindings := scope.bindings.insert (m.name, m.version) node }) t
        fun _ u => u.graph = t.graph ∧ ∀ y w, u.bound? y w =
          if (m.name, m.version) = (y, w) then some node else t.bound? y w := by
      obtain ⟨hu, hl, hgraph, -, hinsert⟩ := goes_insertBinding ht.toPlaced hnode hunbound
      refine ⟨⟨hu, fun y w n hn => ?_⟩, hl, hgraph, hinsert⟩
      rw [hinsert] at hn
      split at hn
      · next heq =>
        cases heq
        exact .inl ⟨m, hms m mem_cons_self, rfl, rfl⟩
      · exact (ht.bound y w n hn).imp_right fun h => h.leads hl
    refine hbind.bind fun _ u hu htu hinsert => ?_
    obtain ⟨hgraph, hinsert⟩ := hinsert
    refine (ih hu (fun m' hm' => hms m' (mem_cons_of_mem _ hm')) (fun m' hm' => ?_) hdistinct).bind
      fun pairs z hz huz hpairs => .pure hz ⟨congrArg (m :: ·) hpairs.1, fun p hp => ?_⟩
    · rw [hinsert, if_neg]
      · rw [hbound]
        exact hnew m' (mem_cons_of_mem _ hm')
      · intro heq
        exact hfirst m' hm' (congrArg Prod.fst heq) (congrArg Prod.snd heq)
    · rcases mem_cons.1 hp with rfl | hp
      · refine ⟨huz.bound _ _ _ ?_, hmerge.later (htu.later.trans huz.later)⟩
        rw [hinsert, if_pos rfl]
      · exact hpairs.2 p hp

theorem goes_incoming (hs : AtModule context V s) (x : String) (line : Nat) (ds : List Definition) :
    Goes context (AtModule context V) (incoming x line ds) s fun values t =>
      (∀ n, .value n ∈ values → t.graph.HasNode n) ∧
        ∀ w, .version w ∈ ds → ∃ n, t.bound? x w = some n ∧ .value n ∈ values := by
  induction ds generalizing s with
  | nil =>
    exact .pure hs ⟨fun n hn => absurd hn not_mem_nil, fun w hw => absurd hw not_mem_nil⟩
  | cons d ds ih =>
    cases d with
    | version v =>
      refine (goes_binding hs x v line).bind fun node t ht _ hnode => ?_
      refine (ih ht).bind fun values u hu htu hvalues => .pure hu ⟨fun n hn => ?_, fun w hw => ?_⟩
      · rcases mem_cons.1 hn with heq | hn
        · cases heq
          exact htu.later.hasNode (ht.hasNode _ _ _ hnode)
        · exact hvalues.1 n hn
      · rcases mem_cons.1 hw with heq | hw
        · cases heq
          exact ⟨node, htu.bound _ _ _ hnode, mem_cons_self⟩
        · obtain ⟨n, hn, hvalue⟩ := hvalues.2 w hw
          exact ⟨n, hn, mem_cons_of_mem _ hvalue⟩
    | unbound =>
      refine (ih hs).bind fun values u hu _ hvalues => .pure hu ⟨fun n hn => ?_, fun w hw => ?_⟩
      · rcases mem_cons.1 hn with heq | hn
        · cases heq
        · exact hvalues.1 n hn
      · rcases mem_cons.1 hw with heq | hw
        · cases heq
        · obtain ⟨n, hn, hvalue⟩ := hvalues.2 w hw
          exact ⟨n, hn, mem_cons_of_mem _ hvalue⟩

theorem goes_addToMerge {id : NodeId} {values : List Incoming} (hs : AtModule context V s)
    (hid : IsMerge s.graph id) (hvalues : ∀ n, .value n ∈ values → s.graph.HasNode n) :
    Goes context (AtModule context V) (changeGraph (·.addToMerge id values)) s fun _ t =>
      ∀ n, .value n ∈ values → t.graph.Feeds n id := by
  obtain ⟨incoming, hid⟩ := hid
  have hsound := hs.sound
  have hnode := Graph.hasNode_of_rule? hid
  exact .aside hs (goes_changed hs.toPlaced (hsound.addToMerge hnode hvalues)
    (s.graph.constants_run (r := .addToMerge id values) fun _ => Graph.Request.noConfusion) rfl
    fun n hn => Graph.feeds_addToMerge hsound hid hvalues hn)

theorem goes_connectMerges (flow : Flow) {pairs : List (Merge × NodeId)} (hs : AtModule context V s)
    (hpairs : ∀ p ∈ pairs, IsMerge s.graph p.2) :
    Goes context (AtModule context V) (connectMerges flow pairs) s fun _ t => ∀ p ∈ pairs,
      ∀ w, .version w ∈ p.1.sources → ∃ n, t.bound? p.1.name w = some n ∧ t.graph.Feeds n p.2 := by
  induction pairs generalizing s with
  | nil => exact .pure hs fun p hp => absurd hp not_mem_nil
  | cons p pairs ih =>
    obtain ⟨m, node⟩ := p
    refine (goes_incoming hs m.name (flow.line m.block) m.sources).bind fun values t ht hst hvalues => ?_
    have hnode := (hpairs (m, node) mem_cons_self).later hst.later
    refine (goes_addToMerge ht hnode hvalues.1).bind fun _ u hu htu hfeeds => ?_
    refine (ih hu fun p hp => (hpairs p (mem_cons_of_mem _ hp)).later
      (hst.later.trans htu.later)).mono fun _ z _ huz hrest p hp => ?_
    rcases mem_cons.1 hp with rfl | hp
    · intro w hw
      obtain ⟨n, hn, hvalue⟩ := hvalues.2 w hw
      exact ⟨n, huz.bound _ _ _ (htu.bound _ _ _ hn), (hfeeds n hvalue).later huz.later⟩
    · exact hrest p hp

/-- Making the merges of a module wires them. -/
theorem goes_merges (flow : Flow) (hs : AtModule context V s)
    (hnew : ∀ m ∈ V.merges, s.bound? m.name m.version = none)
    (hdistinct : V.merges.Pairwise fun m m' => m.name = m'.name → m.version ≠ m'.version) :
    Goes context (AtModule context V) (do connectMerges flow (← mergeNodes flow V.merges)) s
      fun _ t => Wired V t := by
  refine (goes_mergeNodes flow hs (fun m hm => hm) hnew hdistinct).bind fun pairs t ht hst hpairs => ?_
  refine (goes_connectMerges flow ht fun p hp => (hpairs.2 p hp).2).mono fun _ u _ htu hsources => ?_
  intro m hm
  rw [← hpairs.1] at hm
  obtain ⟨p, hp, rfl⟩ := mem_map.1 hm
  exact ⟨p.2, htu.bound _ _ _ (hpairs.2 p hp).1, hsources p hp⟩

end FlowTyping.Inference
