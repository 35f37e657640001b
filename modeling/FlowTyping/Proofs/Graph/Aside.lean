/-
What stands aside when nodes are worked out.

Working out a node changes nodes, classes and the work list, and it counts; everything else stays as
it is.  A view of a graph is `Aside` if it shows none of what may change, and then every step keeps
it.  Only the count of recomputations goes up, by one in each turn, so the last lemmas say what a
view of it sees.
-/
import FlowTyping.Proofs.Graph.Repropagate

namespace FlowTyping.Graph

/-- A view that shows no node, no class, no work list and no count of growths. -/
structure Aside {β : Type} (view : Graph → β) : Prop where
  nodes : ∀ g nodes, view { g with nodes := nodes } = view g
  classes : ∀ g classes, view { g with classes := classes } = view g
  worklist : ∀ g worklist, view { g with worklist := worklist } = view g
  growths : ∀ g growths, view { g with growths := growths } = view g

theorem aside_modules : Aside Graph.modules := ⟨fun _ _ => rfl, fun _ _ => rfl, fun _ _ => rfl, fun _ _ => rfl⟩

theorem aside_constants : Aside Graph.constants :=
  ⟨fun _ _ => rfl, fun _ _ => rfl, fun _ _ => rfl, fun _ _ => rfl⟩

theorem aside_recomputations : Aside Graph.recomputations :=
  ⟨fun _ _ => rfl, fun _ _ => rfl, fun _ _ => rfl, fun _ _ => rfl⟩

namespace Aside

variable {β : Type} {view : Graph → β}

/-! ### Single steps -/

variable (h : Aside view)
include h

section

variable (g : Graph)
include g

theorem schedule (id : NodeId) : view (g.schedule id) = view g := by
  rw [schedule_eq]
  exact h.worklist g _

theorem touch (id : NodeId) : view (g.touch id) = view g := by
  rw [touch_eq]
  exact h.worklist g _

theorem touchClass (c : ClassId) : view (g.touchClass c) = view g := by
  unfold Graph.touchClass
  split
  · exact h.touch g _
  · rfl

theorem subscribe (dependent source : NodeId) :
    view (g.subscribe dependent source) = view g := h.nodes g _

theorem connect (id input : NodeId) : view (g.connect id input) = view g := by
  rcases connect_cases g id input with heq | ⟨inputs, -, -, -, heq⟩
  · rw [heq]
  · rw [heq, h.schedule, h.subscribe]
    exact h.nodes g _

theorem push (rule : Rule) (line : Nat) : view (g.push rule line).2 = view g := by
  rw [push_eq, h.schedule]
  have hfold := @foldl_keeps _ _ (fun g' source => g'.subscribe g.next source) view
    (fun g' source => h.subscribe g' g.next source) rule.sources (g.append rule line)
  exact hfold.trans (h.nodes g _)

omit g in
theorem addIncoming (id : NodeId) (g : Graph) (value : Incoming) :
    view (Graph.addIncoming id g value) = view g := by
  unfold Graph.addIncoming
  split
  · split
    · rfl
    · cases value with
      | value source => exact (h.subscribe _ id source).trans (h.nodes g _)
      | unbound => exact h.nodes g _
  · rfl

theorem link (c : ClassId) (a b : NodeId) : view (g.link c a b) = view g := by
  unfold Graph.link
  split
  · rfl
  · split
    · rfl
    · rw [h.connect, h.connect]
      exact h.classes g _

theorem ensureMember (c : ClassId) (name : String) (line : Nat) :
    view (g.ensureMember c name line).2 = view g := by
  rw [Graph.ensureMember]
  split
  · rfl
  · rw [h.touchClass]
    exact (h.classes _ _).trans (h.push g _ line)

omit g in
theorem writeTo (attr : String) (value : NodeId) (line : Nat) (g : Graph) (t : Ty) :
    view (Graph.writeTo attr value line g t) = view g := by
  cases t with
  | instanceOf c | classObject c => exact (h.connect _ _ _).trans (h.ensureMember g c attr line)
  | moduleObject m =>
    simp only [Graph.writeTo]
    split
    · exact h.connect g _ value
    · rfl
  | _ => rfl

omit g in
theorem takeUp (c : ClassId) (state : Graph × Bool) (offer : Offer) :
    view (Graph.takeUp c state offer).1 = view state.1 :=
  takeUp_induction (P := fun k => view k = view state.1) rfl (h.classes _ _) fun _ _ _ => h.link _ c _ _

theorem mergeBases (c : ClassId) : view (g.mergeBases c).1 = view g := by
  have htaken : ∀ (offers : List Offer) (state : Graph × Bool),
      view (offers.foldl (Graph.takeUp c) state).1 = view state.1 := by
    intro offers
    induction offers with
    | nil => exact fun _ => rfl
    | cons offer offers ih => exact fun state => (ih _).trans (h.takeUp c state offer)
  have hparents : view (g.subscribeToParents c) = view g := subscribeToParents_keeps view h.subscribe c
  have hall := (htaken (g.offers c) (g.subscribeToParents c, false)).trans hparents
  unfold Graph.mergeBases
  simp only
  split
  · exact (h.classes _ _).trans hall
  · exact hall

/-! ### Turns -/

/-- Working out a node is counted, and that is all that a view from aside can see of it. -/
theorem recompute (id : NodeId) : view (g.recompute id).1 = view g.tick := by
  rcases hr : g.rule? id with - | r
  · rw [recompute_of_none hr]
  · by_cases hfinds : r.Finds
    · rw [recompute_of_finds hr hfinds]
      rcases g.tick.find? r with - | f
      · rfl
      · have hkeeps := @foldl_keeps _ _ (fun g source => g.subscribe id source) view
          (fun g source => h.subscribe g id source) f.watched g.tick
        simp only [Option.elim_some, grow]
        split
        · exact hkeeps
        · exact ((h.growths _ _).trans (h.nodes _ _)).trans hkeeps
    · cases r with
      | write object attr value =>
        rw [recompute_of_write hr]
        exact foldl_keeps view (h.writeTo attr value _) _ g.tick
      | members c =>
        rw [recompute_of_members hr]
        exact h.mergeBases g.tick c
      | _ => exact absurd trivial hfinds

theorem turn (id : NodeId) (rest : List NodeId) : view (g.turn id rest) = view g.tick := by
  have hrecompute := h.recompute { g with worklist := rest } id
  have htick : view ({ g with worklist := rest } : Graph).tick = view g.tick := h.worklist g.tick rest
  unfold Graph.turn
  simp only
  split
  · rw [h.touch, hrecompute, htick]
  · rw [hrecompute, htick]

end

theorem propagate (hcount : ∀ g : Graph, view g.tick = view g) (g : Graph) :
    view g.propagate = view g := by
  have hdrain : ∀ fuel (g : Graph), view (drain fuel g) = view g := by
    intro fuel
    induction fuel with
    | zero => exact fun _ => rfl
    | succ fuel ih =>
      intro g
      rw [drain]
      split
      · rfl
      · rw [ih, h.turn, hcount]
  exact hdrain g.budget g

end Aside

/-! ### The names of the modules -/

/-- What a change of an entry leaves alone looks the same in the whole list. -/
theorem map_modify_of_eq {α β : Type} {f : α → α} {view : α → β} (h : ∀ a, view (f a) = view a)
    (i : Nat) (xs : List α) : (xs.modify i f).map view = xs.map view := by
  apply List.ext_getElem?
  intro j
  rw [List.getElem?_map, List.getElem?_map, List.getElem?_modify]
  rcases xs[j]? with - | x
  · rfl
  · by_cases hj : i = j
    · simp [hj, h]
    · simp [hj]

def moduleNames (g : Graph) : List String := g.modules.toList.map (·.name)

theorem moduleNames_modifyModule (g : Graph) (m : ModuleId) {f : ModuleInfo → ModuleInfo}
    (hf : ∀ info, (f info).name = info.name) :
    (g.modifyModule m f).moduleNames = g.moduleNames := by
  rw [moduleNames, modifyModule, Array.toList_modify]
  exact map_modify_of_eq hf _ _

theorem moduleNames_addModule (g : Graph) (name : String) :
    (g.addModule name).2.moduleNames = g.moduleNames ++ [name] := by
  show (g.modules.push _).toList.map (·.name) = _
  rw [Array.toList_push, List.map_append]
  rfl

end FlowTyping.Graph
