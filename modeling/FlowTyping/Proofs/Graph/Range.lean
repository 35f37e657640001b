/-
Every number that is stored in a graph is the number of something.

`InRange` lists the places where numbers are kept: rules, sets of types, dependents, the work list,
the list of constants, and the tables of classes, functions and modules.  A valid graph that is
clean has no other numbers (`Valid.inRange`), and both hold after every single turn.  So every graph
that comes about along a history of proper requests is in range (`Proper.inRange`).
-/
import FlowTyping.Proofs.Graph.Clean

namespace FlowTyping.Graph

variable {g g' start : Graph} {n : Nat} {rs : List Request} {r : Request}

/-! ### Numbers -/

structure ClassInRange (g : Graph) (info : ClassInfo) : Prop where
  node : g.HasNode info.node
  bases : ∀ b ∈ info.bases, g.HasNode b
  members : ∀ e ∈ info.members.entries, g.HasNode e.2.node
  linked : ∀ p ∈ info.linked, g.HasNode p.1 ∧ g.HasNode p.2

/-- All numbers that a graph holds are below the sizes of the arrays that they point into. -/
structure InRange (g : Graph) : Prop where
  rules : ∀ id r, g.rule? id = some r → ∀ n ∈ r.mentioned, g.HasNode n
  owners : ∀ id c, g.rule? id = some (.members c) → c.index < g.classes.size
  types : ∀ id t, t ∈ g.types id → g.HasType t
  dependents : ∀ id d, d ∈ g.dependents id → g.HasNode d
  worklist : ∀ id ∈ g.worklist, g.HasNode id
  constants : ∀ t id, (t, id) ∈ g.constants → g.HasType t ∧ g.HasNode id
  classes : ∀ c info, g.class? c = some info → g.ClassInRange info
  functions : ∀ f info, g.function? f = some info →
    g.HasNode info.returns ∧ ∀ p ∈ info.params, g.HasNode p.node
  modules : ∀ m info, g.module? m = some info → g.ModuleValid info

theorem Valid.hasNode_mentioned {id : NodeId} {r : Rule} {n : NodeId} (hv : g.Valid)
    (hr : g.rule? id = some r) (hn : n ∈ r.mentioned) : g.HasNode n := by
  cases r with
  | write object attr value =>
    rcases List.mem_cons.1 hn with rfl | hn
    · exact hv.hasNode_source hr List.mem_cons_self
    · rw [List.mem_singleton.1 hn]
      exact hv.values id object attr value hr
  | _ => exact hv.hasNode_source hr hn

theorem Valid.classInRange {c : ClassId} {info : ClassInfo} (hv : g.Valid)
    (hc : g.class? c = some info) : g.ClassInRange info where
  node := hv.hasNode_class hc
  bases b hb := hasNode_of_mem_dependents ((hv.classes c info hc).bases b hb)
  members := (hv.classes c info hc).members
  linked := (hv.classes c info hc).linked

/-- **A valid graph that is clean is in range.** -/
theorem Valid.inRange (hv : g.Valid) (h : g.Clean) : g.InRange where
  rules _ _ hr _ hn := hv.hasNode_mentioned hr hn
  owners id c hr := by
    obtain ⟨info, hc, -⟩ := (hv.owner id c).1 hr
    exact (Array.getElem?_eq_some_iff.1 hc).1
  types := hv.types
  dependents := hv.dependents
  worklist := hv.worklist
  constants t id ht := by
    -- the type of a constant is in its set, and those types exist
    refine ⟨hv.types id t ?_, hv.constants _ ht⟩
    rw [(h.constants t id ht).2]
    exact TypeSet.mem_single.2 rfl
  classes _ _ hc := hv.classInRange hc
  functions f info hf := ⟨hv.functions f info hf, fun p hp => (h.params f info hf p hp).1⟩
  modules := hv.modules

/-- Whatever turns are taken, the numbers stay in range. -/
theorem Turns.inRange (hturns : Turns n g g') (hv : g.Valid) (h : g.Clean) : g'.InRange := by
  induction hturns with
  | none g => exact hv.inRange h
  | turn hw _ ih => exact ih (hv.turn hw) (h.turn _ _)

/-! ### Histories -/

/-- Requests each of which is proper when its turn comes: what it mentions exists, and no constant
is to receive anything. -/
def Request.Proper (g : Graph) : List Request → Prop
  | [] => True
  | r :: rs => r.Given g ∧ r.Spares g ∧ Proper (r.run g) rs

/-- A graph to which a history leads from another one, in good order. -/
structure Since (start g : Graph) : Prop where
  sound : g.Sound
  clean : g.Clean
  history : ∃ rs, Request.Proper start rs ∧ Request.runAll start rs = g

theorem Request.runAll_concat (g : Graph) (rs : List Request) (r : Request) :
    Request.runAll g (rs ++ [r]) = r.run (Request.runAll g rs) := by
  rw [Request.runAll, List.foldl_append]
  rfl

theorem Request.proper_append {rs' : List Request} : Request.Proper g (rs ++ rs') ↔
    Request.Proper g rs ∧ Request.Proper (Request.runAll g rs) rs' := by
  induction rs generalizing g with
  | nil => exact ⟨fun h => ⟨trivial, h⟩, And.right⟩
  | cons r rs ih =>
    show r.Given g ∧ r.Spares g ∧ Request.Proper (r.run g) (rs ++ rs') ↔
      (r.Given g ∧ r.Spares g ∧ Request.Proper (r.run g) rs) ∧ _
    rw [ih, and_assoc, and_assoc]
    rfl

theorem Since.refl (hs : g.Sound) (h : g.Clean) : Since g g := ⟨hs, h, [], trivial, rfl⟩

theorem Since.request (h : Since start g) (hr : r.Given g)
    (hspares : r.Spares g) : Since start (r.run g) := by
  obtain ⟨rs, hrs, rfl⟩ := h.history
  refine ⟨(h.sound.request hr).sound, h.clean.request h.sound hr hspares, rs ++ [r], ?_,
    Request.runAll_concat start rs r⟩
  exact Request.proper_append.2 ⟨hrs, hr, hspares, trivial⟩

theorem Since.trans {middle : Graph} (h : Since start middle) (h' : Since middle g) :
    Since start g := by
  obtain ⟨rs, hrs, rfl⟩ := h.history
  obtain ⟨rs', hrs', rfl⟩ := h'.history
  refine ⟨h'.sound, h'.clean, rs ++ rs', Request.proper_append.2 ⟨hrs, hrs'⟩, ?_⟩
  rw [Request.runAll, List.foldl_append]
  rfl

/-- Nothing is taken back along a history, and no node that exists is made a constant. -/
theorem Since.later (h : Since start g) (hs : start.Sound) : Later start g ∧
    ∀ id, start.HasNode id → g.Shared id → start.Shared id := by
  obtain ⟨rs, hrs, rfl⟩ := h.history
  clear h
  induction rs generalizing start with
  | nil => exact ⟨.refl start, fun _ _ hid => hid⟩
  | cons r rs ih =>
    obtain ⟨hr, -, hrs⟩ := hrs
    have hfirst := hs.request hr
    obtain ⟨hlater, hshared⟩ := ih hfirst.sound hrs
    refine ⟨hfirst.later.trans hlater, fun id hid hend => ?_⟩
    exact (hshared id (lt_of_lt_of_le hid hfirst.later.size) hend).of_request hid

/-- The graphs along a history are in good order. -/
theorem Request.Proper.since (hrs : Request.Proper g rs) (hs : g.Sound)
    (h : g.Clean) : Since g (Request.runAll g rs) := by
  induction rs generalizing g with
  | nil => exact .refl hs h
  | cons r rs ih =>
    obtain ⟨hr, hspares, hrs⟩ := hrs
    have hfirst := (Since.refl hs h).request hr hspares
    exact hfirst.trans (ih hrs hfirst.sound hfirst.clean)

/-- **Along a history every number is in range**, before a request is answered and after each of the
turns that it takes to answer it. -/
theorem Request.Proper.inRange {before after : List Request} {k : Graph}
    (hrs : Request.Proper g (before ++ r :: after)) (hs : g.Sound) (h : g.Clean)
    (hturns : Turns n (r.change (Request.runAll g before)) k) : k.InRange := by
  obtain ⟨hbefore, hr, hspares, -⟩ := Request.proper_append.1 hrs
  have hthere := hbefore.since hs h
  exact hturns.inRange (hthere.sound.prepared_change hr).valid
    (hthere.clean.change hthere.sound hr hspares)

end FlowTyping.Graph
