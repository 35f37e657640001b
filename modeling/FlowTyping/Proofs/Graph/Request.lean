/-
Graphs as they are built by requests, in any order.

A request is one of the operations of `Graph.Build` with its arguments, and it is given on a graph
if all that it mentions exists there.  It makes a change and, with few exceptions, works out the
nodes that wait then (`Request.run_eq`).  The change leaves a graph in which whatever is out of step
waits (`Sound.prepared_change`), so every graph that requests lead to is sound (`Reachable.sound`).
It follows that value nodes are settled after every request, that propagation halts, and that
nothing is taken back.
-/
import FlowTyping.Proofs.Graph.Aside

namespace FlowTyping

open List Option

def Rule.mentioned : Rule → List NodeId
  | .write object _ value => [object, value]
  | rule => rule.sources

/-- Whether a rule is the one that comes with a class. -/
def Rule.isMembers : Rule → Bool
  | .members _ => true
  | _ => false

theorem Rule.mem_mentioned_of_mem_sources {rule : Rule} {s : NodeId} (h : s ∈ rule.sources) :
    s ∈ rule.mentioned := by
  cases rule with
  | write object attr value =>
    rw [mem_singleton.1 h]
    exact mem_cons_self
  | _ => exact h

namespace Graph

variable {g g' : Graph} {c : ClassId} {r : Request} {id : NodeId} {n : Nat} {name : String}
  {m : Member}

instance (g : Graph) (t : Ty) : Decidable (g.HasType t) :=
  match t with
  | .classObject _ | .instanceOf _ | .function _ | .method _ | .moduleObject _ =>
    inferInstanceAs (Decidable (_ < _))
  | .any | .base _ | .builtinType _ | .builtinFunction _ | .builtinClass _ | .builtinMethod .. |
    .slice =>
    inferInstanceAs (Decidable True)

/-! ### Requests -/

/-- What can be asked of a graph. -/
inductive Request where
  | add (rule : Rule) (line : Nat)
  | constant (t : Ty)
  | addToMerge (id : NodeId) (values : List Incoming)
  | addInput (id input : NodeId)
  | seed (id : NodeId) (types : TypeSet)
  | addClass (name : String) (line : Nat)
  | setBases (c : ClassId) (bases : List NodeId)
  | addOwnMember (c : ClassId) (name : String) (node : NodeId)
  | addFunction (info : FunctionInfo)
  | addModule (name : String)
  | setExport (m : ModuleId) (name : String) (node : NodeId)
  | addSubmodule (parent : ModuleId) (name : String) (child : ModuleId)
  | repropagate

namespace Request

def run (g : Graph) : Request → Graph
  | add rule line => (g.add rule line).2
  | constant t => (g.constant t).2
  | addToMerge id values => g.addToMerge id values
  | addInput id input => g.addInput id input
  | seed id types => g.seed id types
  | addClass name line => (g.addClass name line).2
  | setBases c bases => g.setBases c bases
  | addOwnMember c name node => g.addOwnMember c name node
  | addFunction info => (g.addFunction info).2
  | addModule name => (g.addModule name).2
  | setExport m name node => g.setExport m name node
  | addSubmodule parent name child => g.addSubmodule parent name child
  | repropagate => g.repropagate.2

/-- Whether all nodes, classes, functions and modules that a request mentions exist.  The rule of
a class cannot be asked for; it comes with the class. -/
def Given (g : Graph) : Request → Prop
  | add rule _ => (∀ n ∈ rule.mentioned, g.HasNode n) ∧ rule.isMembers = false
  | constant t => g.HasType t
  | addToMerge id values => g.HasNode id ∧ ∀ n ∈ (Rule.merge values).sources, g.HasNode n
  | addInput id input => g.HasNode id ∧ g.HasNode input
  | seed id types => g.HasNode id ∧ ∀ t ∈ types.toList, g.HasType t
  | addClass .. => True
  | setBases c bases => c.index < g.classes.size ∧ ∀ b ∈ bases, g.HasNode b
  | addOwnMember c _ node => c.index < g.classes.size ∧ g.HasNode node
  | addFunction info => g.HasNode info.returns ∧ ∀ p ∈ info.params, g.HasNode p.node
  | addModule _ => True
  | setExport m _ node => m.index < g.modules.size ∧ g.HasNode node
  | addSubmodule parent _ child => parent.index < g.modules.size ∧ child.index < g.modules.size
  | repropagate => True

instance (g : Graph) (r : Request) : Decidable (r.Given g) :=
  match r with
  | add .. | addToMerge .. | addInput .. | seed .. | setBases .. | addOwnMember .. | addFunction _ |
    setExport .. | addSubmodule .. => inferInstanceAs (Decidable (_ ∧ _))
  | constant t => inferInstanceAs (Decidable (g.HasType t))
  | addClass .. | addModule _ | repropagate => inferInstanceAs (Decidable True)

/-- What a request makes of a graph before any node is worked out. -/
def change (g : Graph) : Request → Graph
  | add rule line => (g.push rule line).2
  | addToMerge id values =>
    if values.isEmpty || g.isMerge id then (values.foldl (addIncoming id) g).schedule id else g
  | addInput id input => g.connect id input
  | seed id types => g.withTypes id types
  | addClass name line => g.withClass name line
  | setBases c bases => ((g.class? c).map fun info => g.withBases c info.node bases).getD g
  | addOwnMember c name node => g.withOwnMember c name node
  | repropagate => g.allScheduled
  | request => request.run g

/-- Whether a request works out the nodes that wait after its change. -/
def drains (g : Graph) : Request → Bool
  | constant _ | addFunction _ | addModule _ | setExport .. | addSubmodule .. => false
  | addToMerge id values => values.isEmpty || g.isMerge id
  | setBases c _ => (g.class? c).isSome
  | _ => true

/-- **A request is a change**, after which waiting nodes are worked out if it asks for that. -/
theorem run_eq (g : Graph) (r : Request) :
    r.run g = if r.drains g then (r.change g).propagate else r.change g := by
  cases r with
  | addToMerge id values =>
    simp only [run, drains, change, Graph.addToMerge]
    split <;> rfl
  | seed id types => exact seed_eq g id types
  | setBases c bases =>
    rcases hc : g.class? c with - | info
    · simp [run, drains, change, Graph.setBases, hc]
    · simp [run, drains, change, setBases_eq hc, hc]
  | addOwnMember c name node => exact addOwnMember_eq g c name node
  | _ => rfl

/-- Whether a request concerns only nodes and what classes say about them. -/
def isInner : Request → Bool
  | constant _ | addFunction _ | addModule _ | setExport .. | addSubmodule .. => false
  | _ => true

end Request

section

variable {β : Type} {view : Graph → β}

theorem Aside.change (h : Aside view) (hr : r.isInner) (g : Graph) : view (r.change g) = view g := by
  cases r with
  | add rule line => exact h.push g rule line
  | addToMerge id values =>
    simp only [Request.change]
    split
    · rw [h.schedule]
      exact foldl_keeps view (h.addIncoming id) values g
    · rfl
  | addInput id input => exact h.connect g id input
  | seed id types =>
    simp only [Request.change, withTypes]
    split
    · rfl
    · rw [h.touch]
      exact h.nodes g _
  | addClass name line => exact ((h.classes _ _).trans (h.nodes _ _)).trans (h.push g _ line)
  | setBases c bases =>
    simp only [Request.change]
    rcases g.class? c with - | info
    · rfl
    · rw [Option.map_some, Option.getD_some, withBases, h.schedule]
      exact (h.classes _ _).trans (foldl_keeps view (h.subscribe · info.node ·) bases g)
  | addOwnMember c name node =>
    rw [Request.change, withOwnMember, h.touchClass]
    unfold joinReplaced
    split
    · split
      · exact (h.link _ c _ _).trans (h.classes g _)
      · exact h.classes g _
    · exact h.classes g _
  | repropagate =>
    rw [Request.change, allScheduled_eq]
    exact h.worklist g _
  | _ => cases hr

/-- **From aside an inner request is not seen**, unless recomputations are counted. -/
theorem Aside.run (h : Aside view) (hcount : ∀ g : Graph, view g.tick = view g) (hr : r.isInner)
    (g : Graph) : view (r.run g) = view g := by
  rw [Request.run_eq]
  split
  · rw [h.propagate hcount, h.change hr]
  · exact h.change hr g

end

/-- Only asking for a constant changes the list of constants. -/
theorem constants_run (g : Graph) (hne : ∀ t, r ≠ .constant t) : (r.run g).constants = g.constants := by
  by_cases hr : r.isInner
  · exact aside_constants.run (fun _ => rfl) hr g
  · cases r with
    | constant t => exact absurd rfl (hne t)
    | addFunction _ | addModule _ | setExport _ _ _ | addSubmodule _ _ _ => rfl
    | _ => exact absurd rfl hr

/-- What a request makes of a sound graph, without working anything out. -/
theorem Reached.prepared (h : Reached g g') : Prepared g g' :=
  ⟨h.sound.valid, h.sound.settled.covered, h.later⟩

theorem class?_of_lt (h : c.index < g.classes.size) : ∃ info, g.class? c = some info :=
  ⟨_, Array.getElem?_eq_getElem h⟩

theorem hasNode_of_sources {values : List Incoming}
    (h : ∀ n ∈ (Rule.merge values).sources, g.HasNode n) (n : NodeId) (hn : .value n ∈ values) :
    g.HasNode n :=
  h n (mem_filterMap.2 ⟨.value n, hn, rfl⟩)

/-- **Every change is announced**: whatever it puts out of step waits. -/
theorem Sound.prepared_change (h : g.Sound) (hr : r.Given g) : Prepared g (r.change g) := by
  cases r with
  | add rule line =>
    obtain ⟨hnodes, hmembers⟩ := hr
    apply h.prepared_push line
    · exact fun s hs => hnodes s (Rule.mem_mentioned_of_mem_sources hs)
    · rintro object attr value rfl
      exact hnodes value (by simp [Rule.mentioned])
    · rintro c rfl
      cases hmembers
  | constant t => exact (h.constant hr).prepared
  | addToMerge id values =>
    simp only [Request.change]
    split
    · exact h.prepared_incoming hr.1 (hasNode_of_sources hr.2)
    · exact h.reached.prepared
  | addInput id input => exact h.prepared_connect hr.2 id
  | seed id types => exact h.prepared_withTypes id hr.2
  | addClass name line => exact h.prepared_withClass name line
  | setBases c bases =>
    obtain ⟨info, hc⟩ := class?_of_lt hr.1
    simp only [Request.change, hc]
    exact h.prepared_withBases hc hr.2
  | addOwnMember c name node => exact h.prepared_withOwnMember hr.2 c name
  | addFunction info => exact (h.addFunction hr.1).prepared
  | addModule name => exact (h.addModule name).prepared
  | setExport m name node => exact (h.setExport hr.2 m name).prepared
  | addSubmodule parent name child => exact (h.addSubmodule hr.2 parent name).prepared
  | repropagate => exact h.prepared_allScheduled

/-- A request that works nothing out leaves a graph that has come to rest. -/
theorem Sound.request (h : g.Sound) (hr : r.Given g) : Reached g (r.run g) := by
  cases r with
  | constant t => exact h.constant hr
  | addToMerge id values => exact h.addToMerge hr.1 (hasNode_of_sources hr.2)
  | setBases c bases => exact h.setBases c hr.2
  | addFunction info => exact h.addFunction hr.1
  | addModule name => exact h.addModule name
  | setExport m name node => exact h.setExport hr.2 m name
  | addSubmodule parent name child => exact h.addSubmodule hr.2 parent name
  | _ =>
    rw [Request.run_eq]
    exact (h.prepared_change hr).reached

/-! ### Reachable graphs -/

/-- The graphs that given requests lead to. -/
inductive Reachable : Graph → Prop
  | empty (unboundAsNone : Bool) : Reachable (.empty unboundAsNone)
  | request {g : Graph} {r : Request} (h : Reachable g) (hr : r.Given g) : Reachable (r.run g)

theorem Reachable.sound (h : Reachable g) : g.Sound := by
  induction h with
  | empty u => exact sound_empty u
  | request _ hr ih => exact (ih.request hr).sound

def Request.runAll (g : Graph) (rs : List Request) : Graph := rs.foldl Request.run g

/-- Whether each request of a sequence is given when its turn comes. -/
def Request.AllGiven (g : Graph) : List Request → Prop
  | [] => True
  | r :: rs => r.Given g ∧ AllGiven (r.run g) rs

instance Request.decidableAllGiven (g : Graph) : (rs : List Request) → Decidable (AllGiven g rs)
  | [] => inferInstanceAs (Decidable True)
  | r :: rs =>
    have := decidableAllGiven (r.run g) rs
    inferInstanceAs (Decidable (_ ∧ _))

theorem Reachable.runAll {rs : List Request} (h : Reachable g) (hrs : Request.AllGiven g rs) :
    Reachable (Request.runAll g rs) := by
  induction rs generalizing g with
  | nil => exact h
  | cons r rs ih => exact ih (h.request hrs.1) hrs.2

/-- Two classes that are bases of each other, an attribute that both get while nodes are worked out,
a member that replaces it and is joined with it, two functions that call each other, and a module.
-/
def tangledRequests : List Request :=
  [.addClass "A" 1, .addClass "B" 2, .setBases ⟨0⟩ [⟨1⟩], .setBases ⟨1⟩ [⟨0⟩],
    .constant (.instanceOf ⟨0⟩), .constant (.base .int), .add (.write ⟨2⟩ "x" ⟨3⟩) 3,
    .add (.read ⟨2⟩ "x") 4, .add (.plain []) 5, .addOwnMember ⟨1⟩ "x" ⟨7⟩,
    .add (.plain []) 6, .add (.plain []) 7, .addFunction ⟨"f", [], ⟨8⟩, .method, 6⟩,
    .addFunction ⟨"g", [], ⟨9⟩, .method, 7⟩, .constant (.function ⟨0⟩), .constant (.function ⟨1⟩),
    .add (.call ⟨11⟩ []) 6, .add (.call ⟨10⟩ []) 7, .addInput ⟨8⟩ ⟨12⟩, .addInput ⟨9⟩ ⟨13⟩,
    .addInput ⟨7⟩ ⟨6⟩, .seed ⟨9⟩ (.single (.base .str)), .addModule "m", .setExport ⟨0⟩ "x" ⟨7⟩]

def tangled : Graph := Request.runAll (.empty true) tangledRequests

theorem reachable_tangled : Reachable tangled :=
  (Reachable.empty true).runAll (by decide +kernel)

/-! ### Value nodes are settled -/

/-- A shared constant that nothing has happened to since it was made. -/
def IsFresh (g : Graph) (id : NodeId) : Prop :=
  ∃ t, (t, id) ∈ g.constants ∧ g.rule? id = some (.plain []) ∧ g.types id = .single t

/-- The constant that a request makes, if it makes one. -/
def Request.made (g : Graph) : Request → List NodeId
  | .constant t => if (g.constants.lookup t).isSome then [] else [g.next]
  | _ => []

theorem isFresh_withConstant_next (g : Graph) (t : Ty) : (g.withConstant t).IsFresh g.next := by
  refine ⟨t, mem_cons_self, ?_, types_withConstant_next g t⟩
  rw [rule?_withConstant, if_pos rfl]

theorem IsFresh.withConstant (h : g.IsFresh id) (t : Ty) : (g.withConstant t).IsFresh id := by
  obtain ⟨u, hu, hr, ht⟩ := h
  have hne : id ≠ g.next := by
    rintro rfl
    exact g.not_hasNode_next (hasNode_of_rule? hr)
  rw [IsFresh, constants_withConstant, rule?_withConstant, if_neg hne, types_withConstant_of_ne hne]
  exact ⟨u, mem_cons_of_mem _ hu, hr, ht⟩

theorem worklist_withConstant (hv : g.Valid) (t : Ty) :
    (g.withConstant t).worklist = g.worklist ++ [g.next] := by
  show (g.push (.plain []) 0).2.worklist = _
  rw [push_eq, schedule_eq]
  show enqueue g.worklist g.next = _
  rw [enqueue, if_neg fun hmem => g.not_hasNode_next (hv.worklist _ hmem)]

/-- Who waits after a request that works nothing out: those who waited before, and a new constant.
-/
theorem worklist_run_of_not_drains (hv : g.Valid) (hr : r.drains g = false) :
    (r.run g).worklist = g.worklist ++ r.made g := by
  cases r with
  | constant t =>
    simp only [Request.run, Request.made, Graph.constant]
    split
    · next id hid => simp [hid]
    · next hid =>
      simp only [hid, isSome_none, Bool.false_eq_true, if_false]
      exact worklist_withConstant hv t
  | addToMerge id values =>
    change (values.isEmpty || g.isMerge id) = false at hr
    simp [Request.run, Request.made, Graph.addToMerge, hr]
  | setBases c bases =>
    change (g.class? c).isSome = false at hr
    rw [isSome_eq_false_iff, isNone_iff_eq_none] at hr
    simp [Request.run, Request.made, Graph.setBases, hr]
  | addFunction info | addModule name | setExport m name node
  | addSubmodule parent name child => exact (append_nil _).symm
  | _ => cases hr

theorem worklist_run (h : g.Sound) (hr : r.Given g) :
    (r.run g).worklist = if r.drains g then [] else g.worklist ++ r.made g := by
  split
  · next hd =>
    rw [Request.run_eq, if_pos hd]
    exact propagate_worklist (h.prepared_change hr).valid
  · next hd => exact worklist_run_of_not_drains h.valid (Bool.eq_false_of_not_eq_true hd)

/-- A request that works nothing out leaves fresh constants fresh, and the one that it makes is
fresh. -/
theorem IsFresh.request (hr : r.drains g = false) (h : g.IsFresh id ∨ id ∈ r.made g) :
    (r.run g).IsFresh id := by
  cases r with
  | constant t =>
    simp only [Request.run]
    rcases constant_cases g t with ⟨known, hknown, heq⟩ | heq
    · rcases h with h | h
      · rw [heq]
        exact h
      · have hsome : (g.constants.lookup t).isSome := by
          rw [lookup_isSome_iff]
          exact ⟨(t, known), hknown, beq_self_eq_true t⟩
        simp [Request.made, hsome] at h
    · rw [heq]
      rcases h with h | h
      · exact h.withConstant t
      · simp only [Request.made] at h
        split at h
        · cases h
        · rw [mem_singleton.1 h]
          exact isFresh_withConstant_next g t
  | addToMerge a values =>
    change (values.isEmpty || g.isMerge a) = false at hr
    simpa [Request.run, Graph.addToMerge, hr, Request.made] using h
  | setBases c bases =>
    change (g.class? c).isSome = false at hr
    rw [isSome_eq_false_iff, isNone_iff_eq_none] at hr
    simpa [Request.run, Graph.setBases, hr, Request.made] using h
  | addFunction info | addModule name | setExport m name node
  | addSubmodule parent name child => exact h.elim (fun h => h) fun h => absurd h not_mem_nil
  | _ => cases hr

theorem Reachable.fresh (h : Reachable g) : ∀ id ∈ g.worklist, g.IsFresh id := by
  induction h with
  | empty u => exact fun id hid => absurd hid not_mem_nil
  | @request g r hreach hr ih =>
    intro id hid
    rw [worklist_run hreach.sound hr] at hid
    split at hid
    · exact absurd hid not_mem_nil
    · next hd =>
      apply IsFresh.request (Bool.eq_false_of_not_eq_true hd)
      exact (mem_append.1 hid).imp_left (ih id)

/-- **Value nodes are settled after every request.**  Whatever the rule of a value node finds is in
its set, so working the node out changes no set, no rule and no table.  Nobody waits after a request
that works nodes out; otherwise only constants wait that nothing has happened to since they were
made. -/
theorem settled_after_request (g : Graph) (r : Request) (hg : Reachable g) (hr : r.Given g) :
    (∀ id rule, (r.run g).rule? id = some rule → (r.run g).IsValue rule →
      (∀ f, (r.run g).find? rule = some f → ∀ t ∈ f.types, t ∈ (r.run g).types id) ∧
        ((r.run g).recompute id).2 = false ∧ Same (r.run g) ((r.run g).recompute id).1) ∧
    (r.run g).worklist = (if r.drains g then [] else g.worklist ++ r.made g) ∧
    ∀ id ∈ (r.run g).worklist, (r.run g).IsFresh id := by
  have hsound : (r.run g).Sound := (hg.request hr).sound
  refine ⟨fun id rule hrule hvalue => ?_, worklist_run hg.sound hr, (hg.request hr).fresh⟩
  have hquiet := hsound.settled id rule hrule hvalue
  obtain ⟨hflag, hsame, -⟩ := (hsound.inStep hrule hvalue).recompute hrule
  exact ⟨fun f hf => (hquiet f hf).2, hflag, hsame⟩

/-- Put text into the member that replaced the attribute. -/
def tangledSeed : Request := .seed ⟨7⟩ (.single (.base .str))

theorem settled_after_request_tangled :
    tangledSeed.Given tangled ∧
      (∀ f, (tangledSeed.run tangled).find? (.read ⟨2⟩ "x") = some f →
        ∀ t ∈ f.types, t ∈ (tangledSeed.run tangled).types ⟨6⟩) ∧
      .base .str ∈ ((tangledSeed.run tangled).types ⟨6⟩).toList ∧
      (tangledSeed.run tangled).worklist = [] := by
  have hgiven : tangledSeed.Given tangled := by decide +kernel
  obtain ⟨hsettled, hwork, -⟩ := settled_after_request tangled _ reachable_tangled hgiven
  have hobject : ((tangledSeed.run tangled).types ⟨2⟩).toList = [.instanceOf ⟨0⟩] := by
    decide +kernel
  refine ⟨hgiven, (hsettled ⟨6⟩ (.read ⟨2⟩ "x") (by decide +kernel) fun m hm => ?_).1,
    by decide +kernel, hwork⟩
  have hm' : .moduleObject m ∈ ((tangledSeed.run tangled).types ⟨2⟩).toList := hm
  rw [hobject] at hm'
  cases mem_singleton.1 hm'

/-! ### Turns -/

/-- Some number of turns, each of which works out the node at the head of the work list. -/
inductive Turns : Nat → Graph → Graph → Prop
  | none (g : Graph) : Turns 0 g g
  | turn {n : Nat} {g g' : Graph} {id : NodeId} {rest : List NodeId} (hw : g.worklist = id :: rest)
      (h : Turns n (g.turn id rest) g') : Turns (n + 1) g g'

/-- With enough fuel, `drain` takes turns until the work list is empty, and not one more or less. -/
theorem turns_drain (fuel : Nat) (g : Graph) : ∃ n ≤ fuel, Turns n g (drain fuel g) := by
  induction fuel generalizing g with
  | zero => exact ⟨0, Nat.le_refl 0, .none g⟩
  | succ fuel ih =>
    rw [drain]
    split
    · exact ⟨0, Nat.zero_le _, .none g⟩
    · next id rest hw =>
      obtain ⟨n, hn, hturns⟩ := ih (g.turn id rest)
      exact ⟨n + 1, Nat.succ_le_succ hn, .turn hw hturns⟩

/-- Turns are determined by the graph, so no sequence of turns is longer than one that empties the
work list. -/
theorem Turns.le {m : Nat} {k : Graph} (h : Turns m g k) (h' : Turns n g g')
    (hempty : g'.worklist = []) : m ≤ n := by
  induction h generalizing n with
  | none g => exact Nat.zero_le n
  | turn hw _ ih =>
    cases h' with
    | none => rw [hw] at hempty; cases hempty
    | turn hw' h' =>
      rw [hw] at hw'
      cases hw'
      exact Nat.succ_le_succ (ih h')

/-! ### A turn counts one recomputation -/

theorem recomputations_turn (g : Graph) (id : NodeId) (rest : List NodeId) :
    (g.turn id rest).recomputations = g.recomputations + 1 := aside_recomputations.turn g id rest

theorem Turns.recomputations (h : Turns n g g') : g'.recomputations = g.recomputations + n := by
  induction h with
  | none g => rfl
  | turn hw _ ih => rw [ih, recomputations_turn, add_assoc, add_comm 1]

/-! ### Propagation halts -/

/-- Whether propagation empties the work list after finitely many turns, each of which works out one
node: there is no longer sequence of turns, so fuel never cuts one short. -/
def Halts (g : Graph) : Prop :=
  ∃ n, Turns n g g.propagate ∧ g.propagate.worklist = [] ∧
    g.propagate.recomputations = g.recomputations + n ∧ ∀ m k, Turns m g k → m ≤ n

theorem Valid.halts (hv : g.Valid) : g.Halts := by
  obtain ⟨n, -, hturns⟩ := turns_drain g.budget g
  have hempty := propagate_worklist hv
  exact ⟨n, hturns, hempty, hturns.recomputations, fun m k hm => hm.le hturns hempty⟩

/-- **Propagation always halts**, from every graph that requests lead to, and from what any further
request makes of it; and what the request returns is what propagation ends with. -/
theorem every_request_halts (g : Graph) (hg : Reachable g) :
    g.Halts ∧ ∀ r : Request, r.Given g → (r.change g).Halts ∧
      r.run g = if r.drains g then (r.change g).propagate else r.change g := by
  refine ⟨hg.sound.valid.halts, fun r hr => ⟨?_, Request.run_eq g r⟩⟩
  exact (hg.sound.prepared_change hr).valid.halts

theorem every_request_halts_tangled :
    tangled.Halts ∧ (tangledSeed.change tangled).Halts ∧
      (tangledSeed.change tangled).worklist = [⟨5⟩] := by
  obtain ⟨hhalts, hrequests⟩ := every_request_halts tangled reachable_tangled
  exact ⟨hhalts, (hrequests _ (by decide +kernel)).1, by decide +kernel⟩

/-! ### What changes the table of a class -/

/-- Sets and all other classes stay, and the class changes as `R` says. -/
structure Alters (R : ClassInfo → ClassInfo → Prop) (c : ClassId) (g g' : Graph) : Prop where
  types : g'.types = g.types
  others : ∀ d, c ≠ d → g'.class? d = g.class? d
  changed : ∀ info, g.class? c = some info → ∃ info', g'.class? c = some info' ∧ R info info'

section

variable {R R' R'' : ClassInfo → ClassInfo → Prop} {c : ClassId} {g'' : Graph}

theorem Alters.refl (h : ∀ info, g.class? c = some info → R info info) : Alters R c g g :=
  ⟨rfl, fun _ _ => rfl, fun info hc => ⟨info, hc, h info hc⟩⟩

theorem Alters.of_views (h : Alters R c g g') (htypes : g''.types = g'.types)
    (hclass : g''.class? = g'.class?) : Alters R c g g'' :=
  ⟨htypes.trans h.types, hclass ▸ h.others, hclass ▸ h.changed⟩

theorem Alters.trans (h : Alters R c g g') (h' : Alters R' c g' g'')
    (hR : ∀ i i' i'', g.class? c = some i → R i i' → R' i' i'' → R'' i i'') : Alters R'' c g g'' := by
  refine ⟨h'.types.trans h.types, fun d hd => (h'.others d hd).trans (h.others d hd), fun info hc => ?_⟩
  obtain ⟨info', hc', hi⟩ := h.changed info hc
  obtain ⟨info'', hc'', hi'⟩ := h'.changed info' hc'
  exact ⟨info'', hc'', hR _ _ _ hc hi hi'⟩

theorem Alters.imp (h : Alters R c g g') (hR : ∀ i i', g.class? c = some i → R i i' → R' i i') :
    Alters R' c g g' := by
  refine ⟨h.types, h.others, fun info hc => ?_⟩
  obtain ⟨info', hc', hi⟩ := h.changed info hc
  exact ⟨info', hc', hR _ _ hc hi⟩

theorem alters_modifyClass {f : ClassInfo → ClassInfo}
    (h : ∀ info, g.class? c = some info → R info (f info)) : Alters R c g (g.modifyClass c f) := by
  refine ⟨rfl, fun d hd => ?_, fun info hc => ⟨f info, ?_, h info hc⟩⟩
  · rw [class?_modifyClass, if_neg hd]
  · rw [class?_modifyClass, if_pos rfl, hc]
    rfl

end

theorem classes_connect (g : Graph) (a b : NodeId) : (g.connect a b).classes = g.classes := by
  rcases connect_cases g a b with heq | ⟨inputs, -, -, -, heq⟩
  · rw [heq]
  · rw [heq]
    exact (Same.schedule _ _).classes

theorem types_connect (g : Graph) (a b : NodeId) : (g.connect a b).types = g.types := by
  rcases connect_cases g a b with heq | ⟨inputs, -, -, -, heq⟩
  · rw [heq]
  · rw [heq, (Same.schedule _ _).types, (Same.subscribe _ _ _).types, types_setRule]

/-- The graph in which a class has noted two nodes as joined. -/
def noteLinked (g : Graph) (c : ClassId) (a b : NodeId) : Graph :=
  g.modifyClass c fun info => { info with linked := ordered a b :: info.linked }

theorem link_cases (g : Graph) (c : ClassId) (a b : NodeId) :
    (g.link c a b = g ∧ ∀ info, g.class? c = some info → ordered a b ∈ info.linked) ∨
      g.link c a b = ((g.noteLinked c a b).connect a b).connect b a := by
  unfold link
  split
  · next hc => exact .inl ⟨rfl, fun info hinfo => absurd (hc.symm.trans hinfo) nofun⟩
  · next info hc =>
    split
    · next hmem =>
      refine .inl ⟨rfl, fun info' hc' => ?_⟩
      rw [hc] at hc'
      cases hc'
      exact hmem
    · exact .inr rfl

/-- Linking two nodes makes the class note them, and changes nothing else of it. -/
theorem alters_link (g : Graph) (c : ClassId) (a b : NodeId) :
    Alters (fun i i' => i.Keeps i' ∧ i'.members = i.members ∧ ordered a b ∈ i'.linked) c g (g.link c a b) := by
  rcases link_cases g c a b with ⟨heq, hlinked⟩ | heq
  · rw [heq]
    exact .refl fun info hc => ⟨.refl info, rfl, hlinked info hc⟩
  · have hnote : Alters (fun i i' => i.Keeps i' ∧ i'.members = i.members ∧ ordered a b ∈ i'.linked) c g
        (g.noteLinked c a b) :=
      alters_modifyClass fun info _ => ⟨⟨rfl, rfl, fun _ => mem_cons_of_mem _⟩, rfl, mem_cons_self⟩
    rw [heq]
    exact hnote.of_views (by rw [types_connect, types_connect])
      ((tables_congr (classes_connect _ b a)).1.trans (tables_congr (classes_connect _ a b)).1)

/-- A declaration gives a class the member, and changes nothing else of its table. -/
theorem alters_withOwnMember (g : Graph) (c : ClassId) (name : String) (node : NodeId) :
    Alters (fun i i' => i.Keeps i' ∧ ∀ n, i'.members.get? n =
      if name = n then some ⟨node, .own⟩ else i.members.get? n) c g (g.withOwnMember c name node) := by
  have hset : Alters (fun i i' => i.Keeps i' ∧ i'.members = i.members.insert name ⟨node, .own⟩) c g
      (g.setMember c name ⟨node, .own⟩) := alters_modifyClass fun info _ => ⟨⟨rfl, rfl, fun _ hp => hp⟩, rfl⟩
  have hjoin : ∀ k previous, Alters (fun i i' => i.Keeps i' ∧ i'.members = i.members) c k
      (k.joinReplaced c name node previous) := by
    intro k previous
    have hsame : Alters (fun i i' => i.Keeps i' ∧ i'.members = i.members) c k k :=
      .refl fun info _ => ⟨.refl info, rfl⟩
    unfold joinReplaced
    split
    · split
      · exact (alters_link k c _ _).imp fun _ _ _ h => ⟨h.1, h.2.1⟩
      · exact hsame
    · exact hsame
  refine (hset.trans (hjoin _ (g.member? c name)) fun i i' i'' _ h h' => ?_).of_views
    (Same.touchClass _ c).types (Same.touchClass _ c).class?
  exact ⟨h.1.trans h'.1, fun n => by rw [h'.2, h.2, Table.get?_insert]⟩

theorem member?_withOwnMember {info : ClassInfo} (hc : g.class? c = some info) (name n : String)
    (node : NodeId) : (g.withOwnMember c name node).member? c n =
      if name = n then some ⟨node, .own⟩ else g.member? c n := by
  obtain ⟨info', hc', -, htable⟩ := (alters_withOwnMember g c name node).changed info hc
  rw [member?, member?, hc, hc']
  exact htable n

/-- What a change makes of a class.  It may make the class, give it bases, or declare a member of
it. -/
inductive Request.Revises (g : Graph) (c : ClassId) : Request → Option ClassInfo → Option ClassInfo → Prop
  | kept (r : Request) (old : Option ClassInfo) : Revises g c r old old
  | made (name : String) (line : Nat) :
    Revises g c (.addClass name line) none (some ⟨name, g.next, [], .empty, false, []⟩)
  | based (bases : List NodeId) (old : ClassInfo) :
    Revises g c (.setBases c bases) (some old) (some { old with bases })
  | declared {old new : ClassInfo} (name : String) (node : NodeId) (keeps : old.Keeps new)
    (table : ∀ n, new.members.get? n = if name = n then some ⟨node, .own⟩ else old.members.get? n) :
    Revises g c (.addOwnMember c name node) (some old) (some new)

theorem class?_withBases (g : Graph) (c d : ClassId) (node : NodeId) (bases : List NodeId) :
    (g.withBases c node bases).class? d =
      if c = d then (g.class? d).map fun info => { info with bases } else g.class? d := by
  have hsame : Same g (bases.foldl (fun g base => g.subscribe node base) g) :=
    Same.foldl (fun g b => Same.subscribe g node b) _ _
  rw [withBases, (Same.schedule _ _).class?, class?_modifyClass, hsame.class?]

/-- **What a change does to the classes.** -/
theorem revises_change (h : g.Sound) (hr : r.Given g) (c : ClassId) :
    r.Revises g c (g.class? c) ((r.change g).class? c) := by
  have hsame : (r.change g).classes = g.classes → r.Revises g c (g.class? c) ((r.change g).class? c) := by
    intro hclasses
    rw [(tables_congr hclasses).1]
    exact .kept r _
  cases r with
  | add rule line => exact hsame (classes_push g rule line)
  | constant t =>
    apply hsame
    show (g.constant t).2.classes = g.classes
    rcases constant_cases g t with ⟨id, -, heq⟩ | heq
    · rw [heq]
    · rw [heq]
      exact classes_withConstant g t
  | addToMerge id values =>
    apply hsame
    simp only [Request.change]
    split
    · exact (Same.schedule _ id).classes.trans
        (mergeGrown_foldl h.valid id (hasNode_of_sources hr.2)).classes
    · rfl
  | addInput id input => exact hsame (classes_connect g id input)
  | seed id types =>
    apply hsame
    simp only [Request.change, withTypes]
    split
    · rfl
    · exact (Same.touch _ id).classes
  | addClass name line =>
    rw [Request.change, class?_withClass]
    split
    · next hnew =>
      rw [class?, Array.getElem?_eq_none hnew.ge]
      exact .made name line
    · exact .kept _ _
  | setBases d bases =>
    obtain ⟨info, hd⟩ := class?_of_lt hr.1
    simp only [Request.change, hd, map_some, getD_some, class?_withBases]
    split
    · next hcd =>
      subst hcd
      rw [hd]
      exact .based bases info
    · exact .kept _ _
  | addOwnMember d name node =>
    by_cases hcd : d = c
    · subst hcd
      obtain ⟨info, hc⟩ := class?_of_lt hr.1
      obtain ⟨info', hc', hkeeps, htable⟩ := (alters_withOwnMember g d name node).changed info hc
      rw [Request.change, hc, hc']
      exact .declared name node hkeeps htable
    · rw [Request.change, (alters_withOwnMember g d name node).others c hcd]
      exact .kept _ _
  | repropagate => exact hsame (Same.allScheduled g).classes
  | _ => exact hsame rfl

/-! ### Nothing is taken back -/

/-- Working out nodes never touches what a class has of its own. -/
theorem Extends.ownMember (h : Extends g g')
    (hm : g.member? c name = some m) (hown : m.origin = .own) : g'.member? c name = some m := by
  obtain ⟨info, hc, hget⟩ := bind_eq_some_iff.1 hm
  obtain ⟨info', hc', hext⟩ := h.classes c info hc
  obtain ⟨m', hm', -, hsame⟩ := hext.members name m hget
  rw [hsame hown] at hm'
  exact bind_eq_some_iff.2 ⟨info', hc', hm'⟩

/-- What a class has of its own keeps its node under every change, except where it is declared anew.
-/
theorem ownMember_change (h : g.Sound) (hr : r.Given g) (hm : g.member? c name = some m) :
    (r.change g).member? c name = some m ∨
      ∃ node, r = .addOwnMember c name node ∧ (r.change g).member? c name = some ⟨node, .own⟩ := by
  obtain ⟨info, hc, hget⟩ := bind_eq_some_iff.1 hm
  have hrevises := revises_change h hr c
  rw [hc] at hrevises
  rw [member?]
  generalize (r.change g).class? c = new at hrevises ⊢
  cases hrevises with
  | kept | based bases => exact .inl hget
  | declared n node _ htable =>
    by_cases hname : n = name
    · exact .inr ⟨node, hname ▸ rfl, (htable name).trans (if_pos hname)⟩
    · exact .inl (((htable name).trans (if_neg hname)).trans hget)

/-- **Nothing is taken back.**  After every request all nodes, classes, functions and modules are
there under their numbers: sets, dependents, inputs and values of merges have grown, classes have
all their members and stay open if they were, and what is a class's own stays its own, with the node
that it had unless the request declares this member of this class anew. -/
theorem request_takes_nothing_back (g : Graph) (r : Request) (hg : Reachable g) (hr : r.Given g) :
    Later g (r.run g) ∧
      ∀ c name m, g.member? c name = some m → m.origin = .own →
        (r.run g).member? c name = some m ∨
          ∃ node, r = .addOwnMember c name node ∧ (r.run g).member? c name = some ⟨node, .own⟩ := by
  have hprepared := hg.sound.prepared_change hr
  refine ⟨(hg.sound.request hr).later, fun c name m hm hown => ?_⟩
  have hchange := ownMember_change hg.sound hr hm
  rw [Request.run_eq]
  split
  · have hdrain : Extends (r.change g) (r.change g).propagate := drain_extends _ hprepared.valid
    refine hchange.imp (fun hc => hdrain.ownMember hc hown) ?_
    rintro ⟨node, hreq, hc⟩
    exact ⟨node, hreq, hdrain.ownMember hc rfl⟩
  · exact hchange

/-- The attribute that was made while nodes were worked out is declared anew in the body of
its class, and the members of the other class keep their nodes. -/
theorem request_takes_nothing_back_tangled :
    (Request.addOwnMember ⟨0⟩ "x" ⟨8⟩).Given tangled ∧
      Later tangled (tangled.addOwnMember ⟨0⟩ "x" ⟨8⟩) ∧
      tangled.member? ⟨0⟩ "x" = some ⟨⟨5⟩, .own⟩ ∧
      (tangled.addOwnMember ⟨0⟩ "x" ⟨8⟩).member? ⟨0⟩ "x" = some ⟨⟨8⟩, .own⟩ ∧
      (tangled.addOwnMember ⟨0⟩ "x" ⟨8⟩).member? ⟨1⟩ "x" = some ⟨⟨7⟩, .own⟩ := by
  have hgiven : (Request.addOwnMember ⟨0⟩ "x" ⟨8⟩).Given tangled := by decide +kernel
  obtain ⟨hlater, hown⟩ := request_takes_nothing_back tangled _ reachable_tangled hgiven
  refine ⟨hgiven, hlater, by decide +kernel, by decide +kernel, ?_⟩
  rcases hown ⟨1⟩ "x" ⟨⟨7⟩, .own⟩ (by decide +kernel) rfl with hkeep | ⟨node, hreq, -⟩
  · exact hkeep
  · cases hreq

end Graph

end FlowTyping
