/-
**The analysis of a module is sound**: whatever its expressions evaluate to, and whatever its names
are assigned, along any execution, is found at the nodes that the analysis has made for them.

Items are evaluated along paths of the flow graph (`exists_arrives_of_executes`).  Along a path, a
read sees a version that expands to the last write (`Versions.read_expands_iff`), so the kinds of a
store are found at the versions of the last writes if the writes have been found (`Typed`).  And
walking an item finds what it writes if its reads have been found (`Walks`).  The types in question
are those at the very end, so an execution may go round a loop as often as it likes, although every
item is walked once only.
-/
import FlowTyping.Proofs.Flow.Trace
import FlowTyping.Proofs.Soundness.Items
import FlowTyping.Proofs.Version.Distinct

namespace FlowTyping

open List Evaluation Inference
open FlowTyping.Flow (Item Outcome ExecutesAll itemsOfAll)

/-! ### Versions -/

namespace Versions

variable {flow : Flow} {params : List String} {x : String} {id : NameId} {v : Nat}

theorem mem_firstOccurrences {names : List String} : x ∈ firstOccurrences names ↔ x ∈ names := by
  rw [firstOccurrences, mem_foldl_new]
  simp

/-- No two merges of a name make the same version. -/
theorem pairwise_merges (flow : Flow) (params : List String) :
    (ofFlow flow params).merges.Pairwise fun m m' => m.name = m'.name → m.version ≠ m'.version := by
  have hfilled : (filled flow params).Pairwise fun m m' => m.name = m'.name → m.version ≠ m'.version :=
    pairwise_map.2 (issued_spec flow params).distinct
  rw [merges_ofFlow, pairwise_map]
  exact hfilled.filter _

/-- A write does not make the version of a merge. -/
theorem version_ne_of_written (h : DistinctOccurrences flow) (hx : x ∈ localsOf flow params)
    (hid : WrittenAt flow x id) (hv : (ofFlow flow params).written? id = some v) :
    ∀ m ∈ (ofFlow flow params).merges, m.name = x → m.version ≠ v := by
  obtain ⟨b, hb, hwrite⟩ := hid
  obtain ⟨before, after, hevents⟩ := append_of_mem hwrite
  rw [append_cons] at hevents
  obtain ⟨w, hw⟩ := (walked_spec flow params).2 b hb
  obtain ⟨htracks, hrecords⟩ := tracks_foldl hw hevents
  have hlast : Event.lastWrite x (before ++ [.write id x]) = some id :=
    Event.lastWrite_eq_some_iff.2 ⟨before, [], rfl, rfl⟩
  obtain ⟨v', -, hmem, hgiven⟩ := htracks.written x hx id hlast
  have hwritten := hrecords.writes _ ((records_foldl_take _ after).writes _ hmem)
  rw [written?_ofFlow, lookup_eq_some_iff_mem (nodup_walked h params).2] at hv
  obtain rfl := eq_of_mem_writes h hwritten hv
  intro m hm hname hversion
  rw [merges_ofFlow] at hm
  obtain ⟨m', hm', rfl⟩ := mem_map.1 hm
  have hnamed := Merge.mem_named.2 ⟨(mem_filter.1 hm').1, hname⟩
  exact not_merge_of_given_lt hgiven m' hnamed (congrArg Definition.version hversion.symm)

end Versions

namespace Inference

variable {context : Context} {g : Graph} {body : List Stmt} {i : Item} {b : BlockId} {s u : State}
  {xs ys : List Item} {ρ : Store} {names : List String} {V : Versions} {a : Flow.Action}
  {ws : List Write} {x : String} {flow : Flow} {id : NameId} {events : List Event}

abbrev versionsOf (body : List Stmt) : Versions := .ofFlow (.ofModule body) []

/-! ### Items of a module -/

theorem mem_items_of_mem_block (hi : i ∈ flow.items b) :
    i ∈ flow.blocks.toList.flatMap (·.items) := by
  unfold Flow.items at hi
  split at hi
  · next block hblock =>
    exact mem_flatMap.2 ⟨block, Array.mem_toList_iff.2 (Array.mem_of_getElem? hblock), hi⟩
  · cases hi

section

variable (hflow : isFlowStmts names body = true)
include hflow

theorem isFlowAction_of_mem_blocks (hi : i ∈ (Flow.ofModule body).blocks.toList.flatMap (·.items)) :
    isFlowAction names i.action = true :=
  isFlowAction_of_mem_itemsOfAll false 0 body hflow ((Flow.items_laidOut false body).mem_iff.1 hi)

/-- Nothing is declared global or nonlocal. -/
theorem declares_nothing : (versionsOf body).globals = [] ∧ (versionsOf body).nonlocals = [] := by
  have haction : ∀ a, isFlowAction names a = true → Event.globalNames a = [] ∧ Event.nonlocalNames a = [] := by
    intro a ha
    unfold isFlowAction at ha
    split at ha
    · exact ⟨rfl, rfl⟩
    · exact ⟨rfl, rfl⟩
    · exact ⟨rfl, rfl⟩
    · exact ⟨rfl, rfl⟩
    · cases ha
  have hall : ∀ a ∈ (Flow.ofModule body).blocks.toList.flatMap (fun block => block.items.map (·.action)),
      Event.globalNames a = [] ∧ Event.nonlocalNames a = [] := by
    intro a ha
    obtain ⟨block, hblock, ha⟩ := mem_flatMap.1 ha
    obtain ⟨i, hi, rfl⟩ := mem_map.1 ha
    exact haction _ (isFlowAction_of_mem_blocks hflow (mem_flatMap.2 ⟨block, hblock, hi⟩))
  constructor
  · exact congrArg Versions.firstOccurrences (flatMap_eq_nil_iff.2 fun a ha => (hall a ha).1)
  · exact congrArg Versions.firstOccurrences (flatMap_eq_nil_iff.2 fun a ha => (hall a ha).2)

/-- The names that are assigned in a module are its locals. -/
theorem mem_locals_of_assigned (hx : x ∈ assignedNames body) : x ∈ (versionsOf body).locals := by
  obtain ⟨hglobals, hnonlocals⟩ := declares_nothing hflow
  have hnames : (Versions.blockEvents (.ofModule body)).flatten.Perm (Event.ofItems (itemsOfAll false 0 body)) := by
    rw [Versions.flatten_blockEvents]
    exact (Flow.items_laidOut false body).flatMap_right _
  show x ∈ (Versions.firstOccurrences ([] ++ (Versions.blockEvents (.ofModule body)).flatten.filterMap
    Event.written?)).filter fun x => x ∉ (versionsOf body).globals ∧ x ∉ (versionsOf body).nonlocals
  rw [mem_filter, Versions.mem_firstOccurrences, nil_append, hglobals, hnonlocals]
  exact ⟨(hnames.filterMap _).mem_iff.2 hx, by simp⟩

omit hflow in
theorem mem_assignedNames_of_write (hi : i ∈ (Flow.ofModule body).items b)
    (hwrite : .write id x ∈ Event.ofAction i.action) : x ∈ assignedNames body := by
  have hitem : i ∈ itemsOfAll false 0 body :=
    (Flow.items_laidOut false body).mem_iff.1 (mem_items_of_mem_block hi)
  exact mem_filterMap.2 ⟨.write id x, mem_flatMap.2 ⟨i, hitem, hwrite⟩, rfl⟩

theorem apart_of_mem_items (hdistinct : Versions.DistinctOccurrences (.ofModule body))
    (hb : b ∈ (Flow.ofModule body).reachable) (hi : i ∈ (Flow.ofModule body).items b) :
    Apart (versionsOf body) (Event.ofAction i.action) := by
  intro id x hwrite v hv
  have hx := mem_locals_of_assigned hflow (mem_assignedNames_of_write hi hwrite)
  exact Versions.version_ne_of_written hdistinct hx ⟨b, hb, mem_flatMap.2 ⟨i, hi, hwrite⟩⟩ hv

end

/-! ### Opening a module -/

def enterModule (body : List Stmt) : Infer Unit := do
  reportFlow (.ofModule body)
  pushScope (.ofVersions .module (versionsOf body))
  summaries 0 (versionsOf body).locals

def makeMerges (flow : Flow) (merges : List Merge) : Infer Unit := do
  connectMerges flow (← mergeNodes flow merges)

/-- All that happens before the first item of a module is walked. -/
def openModule (body : List Stmt) : Infer Unit := do
  enterModule body
  makeMerges (.ofModule body) (versionsOf body).merges

theorem bind_apply {α β : Type} (x : Infer α) (f : α → Infer β) (s : State) :
    (x >>= f) context s = f (x context s).1 context (x context s).2 := rfl

theorem openModule_apply (body : List Stmt) (s : State) : (openModule body context s).2 =
      (makeMerges (.ofModule body) (versionsOf body).merges context (enterModule body context s).2).2 := by
  rw [openModule, bind_apply]

theorem walkModule_apply (body : List Stmt) (s : State) : (walkModule body context s).2 =
      (walk (nestingOfAll body + 1) (.ofModule body) context (enterModule body context s).2).2 := by
  have hwalk : walkModule body = enterModule body >>= fun _ => walk (nestingOfAll body + 1) (.ofModule body) := by
    simp only [walkModule, enterModule, bind_assoc]
  rw [hwalk, bind_apply]

theorem walk_succ_apply (n : Nat) (flow : Flow) (s : State) : (walk (n + 1) flow context s).2 =
      (items (walk n) ((currentScope context s).1.versions.reachable.flatMap flow.items) context
        (makeMerges flow (currentScope context s).1.versions.merges context
          (currentScope context s).2).2).2 := rfl

/-- Reports are not seen by what follows. -/
theorem reportFlow_apply (flow : Flow) (s : State) :
    ∃ diagnostics, reportFlow flow context s = ((), { s with diagnostics }) := by
  have hall : ∀ (ms : List Flow.Misplaced) (s : State),
      ∃ diagnostics, reportMisplaced ms context s = ((), { s with diagnostics }) := by
    intro ms
    induction ms with
    | nil => exact fun s => ⟨s.diagnostics, rfl⟩
    | cons m ms ih =>
      intro s
      exact ih (report m.line (.construction m.message) context s).2
  show ∃ diagnostics, (if context.config.reportConstructionErrors then reportMisplaced flow.misplaced
    else pure () : Infer Unit) context s = _
  split
  · exact hall flow.misplaced s
  · exact ⟨s.diagnostics, rfl⟩

theorem goes_summaries (xs : List String) (hs : Placed context V s) :
    Goes context (Placed context V) (summaries 0 xs) s fun _ t => t.bound? = s.bound? := by
  induction xs generalizing s with
  | nil => exact .pure hs rfl
  | cons x xs ih =>
    refine (goes_summary hs x).discardThen fun _ t _ ht _ hx => ?_
    exact (ih ht).mono fun _ u _ _ hu => hu.trans hx.1

/-- The scope of a module is new. -/
theorem placed_pushScope (hg : g.Sound) (hstocked : g.Stocked)
    (himports : ∀ name id, context.imports.get? name = some (.module id) → id.index < g.modules.size)
    (hglobals : V.globals = []) (hnonlocals : V.nonlocals = []) (diagnostics : List Diagnostic) :
    Placed context V { State.start g with scopes := #[.ofVersions .module V], diagnostics } where
  sound := hg
  imports := himports
  stocked := hstocked
  size := rfl
  kind := rfl
  versions := rfl
  frames := rfl
  slots := rfl
  globals := hglobals
  nonlocals := hnonlocals
  hasNode _ _ _ hn := nomatch hn
  total _ _ hn := nomatch hn

section

variable (hflow : isFlowStmts names body = true) (hg : g.Sound) (hstocked : g.Stocked)
  (himports : ∀ name id, context.imports.get? name = some (.module id) → id.index < g.modules.size)

include hflow hg hstocked himports

/-- In a module that has just been entered no version has a node. -/
theorem entered_module : Placed context (versionsOf body) (enterModule body context (.start g)).2 ∧
    ∀ x v, (enterModule body context (.start g)).2.bound? x v = none := by
  obtain ⟨hglobals, hnonlocals⟩ := declares_nothing hflow
  obtain ⟨diagnostics, hreport⟩ := @reportFlow_apply context (.ofModule body) (.start g)
  have hplaced := placed_pushScope hg hstocked himports hglobals hnonlocals diagnostics
  obtain ⟨ht, -, hbound⟩ := goes_summaries (versionsOf body).locals hplaced
  have hstate : (enterModule body context (.start g)).2 =
      (summaries 0 (versionsOf body).locals context
        { State.start g with scopes := #[.ofVersions .module (versionsOf body)], diagnostics }).2 := by
    rw [enterModule, bind_apply, bind_apply, hreport]
    rfl
  rw [hstate]
  refine ⟨ht, fun x v => ?_⟩
  rw [hbound]
  rfl

/-- **Opening a module wires its merges.** -/
theorem opened_module : AtModule context (versionsOf body) (openModule body context (.start g)).2 ∧
    Wired (versionsOf body) (openModule body context (.start g)).2 := by
  obtain ⟨hplaced, hnone⟩ := entered_module hflow hg hstocked himports
  have hmodule : AtModule context (versionsOf body) (enterModule body context (.start g)).2 := by
    refine ⟨hplaced, fun x v n hn => ?_⟩
    rw [hnone] at hn
    cases hn
  have hgoes : Goes context (AtModule context (versionsOf body))
      (makeMerges (.ofModule body) (versionsOf body).merges) (enterModule body context (.start g)).2
      fun _ t => Wired (versionsOf body) t :=
    goes_merges (.ofModule body) hmodule (fun m _ => hnone m.name m.version) (Versions.pairwise_merges _ _)
  rw [openModule_apply]
  exact ⟨hgoes.1, hgoes.2.2⟩

/-! ### Walking a module -/

/-- The items of a module in the order in which they are walked. -/
def walkedItems (body : List Stmt) : List Item :=
  (Flow.ofModule body).reachable.flatMap (Flow.ofModule body).items

/-- The state in which the analysis stands when some items have been walked. -/
def stateAfter (context : Context) (body : List Stmt) (g : Graph) (is : List Item) : State :=
  (items (walk (nestingOfAll body)) is context (openModule body context (.start g)).2).2

/-- The state at the end knows all about the items of a module. -/
structure Finished (context : Context) (body : List Stmt) (g : Graph) (u : State) : Prop where
  atModule : AtModule context (versionsOf body) u
  wired : Wired (versionsOf body) u
  walks : ∀ before i after, walkedItems body = before ++ i :: after →
    Walks context (versionsOf body) i.action (stateAfter context body g before) u

/-- The walk opens the module and then goes over its items. -/
theorem walkModule_eq :
    (walkModule body context (.start g)).2 = stateAfter context body g (walkedItems body) := by
  obtain ⟨hplaced, -⟩ := entered_module hflow hg hstocked himports
  have hscope : currentScope context (enterModule body context (.start g)).2 =
      ((enterModule body context (.start g)).2.scope, (enterModule body context (.start g)).2) :=
    currentScope_apply hplaced.size
  rw [walkModule_apply, walk_succ_apply, hscope, hplaced.versions, stateAfter, openModule_apply]
  rfl

/-- **All items are walked**, and at the end the merges are wired. -/
theorem finished_walkModule (hdistinct : Versions.DistinctOccurrences (.ofModule body))
    (hnames : ∀ x ∈ names, x ∈ assignedNames body) :
    Finished context body g (walkModule body context (.start g)).2 := by
  obtain ⟨hmodule, hwired⟩ := opened_module hflow hg hstocked himports
  have hlocals : ∀ x ∈ names, x ∈ (versionsOf body).locals := fun x hx =>
    mem_locals_of_assigned hflow (hnames x hx)
  have hblock : ∀ i ∈ walkedItems body, ∃ b ∈ (Flow.ofModule body).reachable, i ∈ (Flow.ofModule body).items b :=
    fun i hi => mem_flatMap.1 hi
  have hgoes := goes_items hlocals (walk (nestingOfAll body)) hmodule
    (fun i hi => by
      obtain ⟨b, -, hi⟩ := hblock i hi
      exact isFlowAction_of_mem_blocks hflow (mem_items_of_mem_block hi))
    (fun i hi => by
      obtain ⟨b, hb, hi⟩ := hblock i hi
      exact apart_of_mem_items hflow hdistinct hb hi)
  obtain ⟨hend, hleads, hwalks⟩ := hgoes
  rw [walkModule_eq hflow hg hstocked himports]
  exact ⟨hend, hwired.leads hleads, hwalks⟩

end

theorem exports_ofModule (body : List Stmt) (g : Graph) (x : String) :
    (Analysis.ofModule context body g).1.exports.get? x = (walkModule body context (.start g)).2.total? x := by
  unfold Analysis.ofModule ReaderT.run
  rcases walkModule body context (.start g) with ⟨⟨⟩, s⟩
  dsimp only
  rw [State.total?, State.scope]
  rcases s.scopes[0]? with - | scope <;> rfl

/-! ### Stores -/

/-- The kinds of a store are found at the versions of the last writes. -/
def Typed (V : Versions) (u : State) (events : List Event) (ρ : Store) : Prop :=
  ∀ x k, ρ x = some k → ∃ id v n, Event.lastWrite x events = some id ∧ V.written? id = some v ∧
    u.bound? x v = some n ∧ .base k ∈ u.graph.types n

/-- A name has the kind of the last value that it was assigned, or the one that it had. -/
theorem put_eq_some {k : Kind} (h : ρ.put ws x = some k) :
    (∃ w ∈ ws, w.name = x ∧ w.kind = k ∧ Event.lastWrite x (ws.map Write.event) = some w.id) ∨
      Event.lastWrite x (ws.map Write.event) = none ∧ ρ x = some k := by
  induction ws using List.reverseRecOn with
  | nil => exact .inr ⟨rfl, h⟩
  | append_singleton ws w ih =>
    have hput : ρ.put (ws ++ [w]) = Function.update (ρ.put ws) w.name (some w.kind) := by
      rw [Store.put, foldl_append]
      rfl
    rw [hput, Function.update_apply] at h
    rw [map_append, map_singleton, Event.lastWrite_append, Event.lastWrite_singleton]
    show (∃ w' ∈ ws ++ [w], _ ∧ _ ∧ (if w.name = x then some w.id else none).or _ = _) ∨
      (if w.name = x then some w.id else none).or _ = none ∧ _
    by_cases hx : x = w.name
    · rw [if_pos hx] at h
      rw [if_pos hx.symm, Option.some_or]
      exact .inl ⟨w, mem_append_right ws mem_cons_self, hx.symm, Option.some.inj h, rfl⟩
    · rw [if_neg hx] at h
      rw [if_neg (Ne.symm hx), Option.none_or]
      refine (ih h).imp_left ?_
      rintro ⟨w', hw', hrest⟩
      exact ⟨w', mem_append_left _ hw', hrest⟩

theorem lastWrite_of_isRead (h : ∀ e ∈ events, IsRead names e) (x : String) :
    Event.lastWrite x events = none := by
  refine Event.lastWrite_eq_none_iff.2 fun id hwrite => ?_
  obtain ⟨_, _, -, heq⟩ := h _ hwrite
  cases heq

/-- Before an item reads a name it does not write it. -/
theorem split_read (ha : isFlowAction names a = true) (hread : .read id x ∈ Event.ofAction a) :
    x ∈ names ∧ ∃ before after, Event.ofAction a = before ++ .read id x :: after ∧
      Event.lastWrite x before = none := by
  obtain ⟨reads, writes, hevents, hreads, hwrites, -⟩ := ofAction_eq ha
  have hmem : .read id x ∈ reads := by
    rw [hevents] at hread
    rcases mem_append.1 hread with hread | hwrite
    · exact hread
    · obtain ⟨id', x', heq⟩ := hwrites _ hwrite
      cases heq
  obtain ⟨_, _, hx, heq⟩ := hreads _ hmem
  cases heq
  obtain ⟨before, after, rfl⟩ := append_of_mem hmem
  refine ⟨hx, before, after ++ writes, by rw [hevents, append_assoc, cons_append], ?_⟩
  exact lastWrite_of_isRead (fun e he => hreads e (mem_append_left _ he)) x

/-- **Along a path, reads see the kinds of the store.** -/
theorem sees_of_typed {k : Nat} {path : List Item}
    (hdistinct : Versions.DistinctOccurrences flow) (hlocals : ∀ x ∈ names, x ∈ Versions.localsOf flow [])
    (harrives : flow.Arrives b path) (hi : (flow.items b)[k]? = some i)
    (ha : isFlowAction names i.action = true) (hu : AtModule context (.ofFlow flow []) u)
    (hwired : Wired (.ofFlow flow []) u)
    (htyped : Typed (.ofFlow flow []) u (Event.ofItems (path ++ (flow.items b).take k)) ρ) :
    Sees (.ofFlow flow []) u ρ (Event.ofAction i.action) := by
  intro id x hread κ hκ
  obtain ⟨hx, before, after, hevents, hnone⟩ := split_read ha hread
  -- the events of the block up to the read
  have hblock : Event.ofItems (flow.items b) = (Event.ofItems ((flow.items b).take k) ++ before) ++
      .read id x :: (after ++ Event.ofItems ((flow.items b).drop (k + 1))) := by
    have hsplit : flow.items b = (flow.items b).take k ++ (i :: (flow.items b).drop (k + 1)) := by
      obtain ⟨hk, rfl⟩ := List.getElem?_eq_some_iff.1 hi
      rw [← drop_eq_getElem_cons hk, take_append_drop]
    have hcons : Event.ofItems (i :: (flow.items b).drop (k + 1)) =
        Event.ofAction i.action ++ Event.ofItems ((flow.items b).drop (k + 1)) := flatMap_cons
    conv_lhs => rw [hsplit, Event.ofItems_append, hcons, hevents]
    simp only [append_assoc, cons_append]
  have hb : b ∈ flow.reachable := Flow.mem_reachable_iff.2 ⟨path, harrives⟩
  obtain ⟨d, hd, hexpands⟩ := Versions.read_expands_iff hdistinct hb hblock (hlocals x hx)
  -- along this path, the last write before the item is the last one before the read
  obtain ⟨wid, v, n, hlast, hv, hn, htype⟩ := htyped x κ hκ
  have hreaching : Versions.Reaching (.ofFlow flow []) [] x
      (Event.ofItems path ++ (Event.ofItems ((flow.items b).take k) ++ before)) (.version v) := by
    obtain ⟨pre, post, hpath, hpost⟩ := Event.lastWrite_eq_some_iff.1 hlast
    rw [Event.ofItems_append] at hpath
    rw [← append_assoc, hpath, append_assoc, cons_append]
    refine .written rfl (Event.lastWrite_eq_none_iff.1 ?_) hv
    rw [Event.lastWrite_append, hnone, hpost]
    rfl
  have hversion := (hexpands _).2 ⟨path, harrives, hreaching⟩
  cases d with
  | unbound => cases hversion
  | version w =>
    obtain ⟨n', hn', htype'⟩ := hwired.expands hu hversion hn htype
    exact ⟨w, n', hd, hn', htype'⟩

/-- **Assigning names keeps the store in step with the writes.** -/
theorem Typed.put (h : Typed V u events ρ) (ha : isFlowAction names a = true)
    (hws : Assigns ρ a ws) (hholds : ∀ w ∈ ws, Holds V u w)
    (hversion : ∀ w ∈ ws, ∃ v, V.written? w.id = some v) :
    Typed V u (events ++ Event.ofAction a) (ρ.put ws) := by
  intro x k hk
  obtain ⟨reads, writes, hevents, hreads, -, hwrites⟩ := ofAction_eq ha
  rw [hevents, ← hwrites ρ ws hws, Event.lastWrite_append, Event.lastWrite_append,
    lastWrite_of_isRead hreads, Option.or_none]
  rcases put_eq_some hk with ⟨w, hw, rfl, rfl, hlast⟩ | ⟨hlast, hold⟩
  · obtain ⟨v, hv⟩ := hversion w hw
    obtain ⟨n, hn, htype, -⟩ := hholds w hw v hv
    exact ⟨w.id, v, n, by rw [hlast, Option.some_or], hv, hn, htype⟩
  · rw [hlast, Option.none_or]
    exact h x k hold

/-! ### Executions -/

section

variable (hflow : isFlowStmts (assignedNames body) body = true)
  (hdistinct : Versions.DistinctOccurrences (.ofModule body)) (hu : Finished context body g u)
  {o : Outcome}

include hflow hdistinct hu

/-- An item that is evaluated in an execution is walked, and its reads see the store that it finds.
-/
theorem sees_executed (hrun : ExecutesAll false false 0 body (xs ++ i :: ys) o)
    (htyped : Typed (versionsOf body) u (Event.ofItems xs) ρ) :
    i ∈ walkedItems body ∧ Sees (versionsOf body) u ρ (Event.ofAction i.action) := by
  obtain ⟨b, path, k, harrives, hi, rfl⟩ :=
    Flow.exists_arrives_of_executes false (tryFreeAll_of_isFlowStmts body hflow) hrun
  change ((Flow.ofModule body).items b)[k]? = some i at hi
  have hmem : i ∈ (Flow.ofModule body).items b := mem_of_getElem? hi
  have hb : b ∈ (Flow.ofModule body).reachable := Flow.mem_reachable_iff.2 ⟨path, harrives⟩
  have ha := isFlowAction_of_mem_blocks hflow (mem_items_of_mem_block hmem)
  exact ⟨mem_flatMap.2 ⟨b, hb, hmem⟩, sees_of_typed hdistinct
    (fun x hx => mem_locals_of_assigned hflow hx) harrives hi ha hu.atModule hu.wired htyped⟩

/-- What a walked item assigns is found if its reads have been. -/
theorem holds_walked {ws : List Write} {w : Write} (hi : i ∈ walkedItems body)
    (hsees : Sees (versionsOf body) u ρ (Event.ofAction i.action)) (hws : Assigns ρ i.action ws) (hw : w ∈ ws) :
    Holds (versionsOf body) u w ∧ ∃ v, (versionsOf body).written? w.id = some v := by
  obtain ⟨before, after, hsplit⟩ := append_of_mem hi
  refine ⟨(hu.walks before i after hsplit).holds u hu.atModule (.refl u) ρ hsees ws hws w hw, ?_⟩
  obtain ⟨b, hb, hi⟩ := mem_flatMap.1 hi
  have hevent : w.event ∈ Event.ofAction i.action := by
    obtain ⟨reads, writes, hevents, -, -, hwrites⟩ :=
      ofAction_eq (isFlowAction_of_mem_blocks hflow (mem_items_of_mem_block hi))
    rw [hevents, ← hwrites ρ ws hws]
    exact mem_append_right reads (mem_map_of_mem hw)
  have hx := mem_locals_of_assigned hflow (mem_assignedNames_of_write hi hevent)
  obtain ⟨v, hv, -⟩ := (Versions.writesApart hdistinct hx).exists_version w.id
    ⟨b, hb, mem_flatMap.2 ⟨i, hi, hevent⟩⟩
  exact ⟨v, hv⟩

/-- **Every store along an execution is found.** -/
theorem typed_of_storeAfter (hstore : StoreAfter xs ρ)
    (hrun : ExecutesAll false false 0 body (xs ++ ys) o) :
    Typed (versionsOf body) u (Event.ofItems xs) ρ := by
  induction hstore generalizing ys with
  | start => exact fun x k hk => nomatch hk
  | @item xs ρ i ws _ hws ih =>
    -- the item is evaluated in the store that the items before it leave
    rw [append_assoc] at hrun
    have htyped := ih hrun
    obtain ⟨hwalked, hsees⟩ := sees_executed hflow hdistinct hu hrun htyped
    have hwrites := fun w hw => holds_walked hflow hdistinct hu hwalked hsees hws (w := w) hw
    obtain ⟨b, -, hi⟩ := mem_flatMap.1 hwalked
    have ha := isFlowAction_of_mem_blocks hflow (mem_items_of_mem_block hi)
    rw [Event.ofItems_append, Event.ofItems_single]
    exact htyped.put ha hws (fun w hw => (hwrites w hw).1) fun w hw => (hwrites w hw).2

end

/-- **The analysis is sound.**  Take a module of assignments to names, expressions, branches,
`while` loops and jumps, and any execution of it, up to the evaluation of some item in some store.
The analysis has walked the item and made a node for every expression that it evaluates; if the
expression evaluates to a kind in this store, the node has the kind at the end.  If the item assigns
a kind to a name, both the node of the version that the write makes and the node that the module
exports for the name have it. -/
theorem evaluated_kinds_are_found (name text : String) (tree : List Parse.Stmt) (context : Context)
    (hbody : body = (Module.ofParse name text tree).body)
    (hflow : isFlowStmts (assignedNames body) body = true) (hg : g.Reachable)
    (himports : ∀ name id, context.imports.get? name = some (.module id) → id.index < g.modules.size)
    {o : Outcome} (hrun : ExecutesAll false false 0 body (xs ++ i :: ys) o) (hstore : StoreAfter xs ρ) :
    (walkModule body context (.start g)).2 = stateAfter context body g (walkedItems body) ∧
    i ∈ walkedItems body ∧
    (∀ before after, walkedItems body = before ++ i :: after →
      (loadedBy context i.action (stateAfter context body g before)).map Prod.fst = expressionsOf i.action ∧
      ∀ p ∈ loadedBy context i.action (stateAfter context body g before), ∀ k, Evaluates ρ p.1 k →
        .base k ∈ (Analysis.ofModule context body g).2.types p.2) ∧
    ∀ ws, Assigns ρ i.action ws → ∀ w ∈ ws, ∃ v n total,
      (versionsOf body).written? w.id = some v ∧
      (walkModule body context (.start g)).2.bound? w.name v = some n ∧
      .base w.kind ∈ (Analysis.ofModule context body g).2.types n ∧
      (Analysis.ofModule context body g).1.exports.get? w.name = some total ∧
      .base w.kind ∈ (Analysis.ofModule context body g).2.types total := by
  -- numbering has given every occurrence of a name a number of its own
  have hdistinct : Versions.DistinctOccurrences (.ofModule body) := by
    have hnodup := Body.nodup_of_mem_bodies name text tree mem_cons_self
    rw [hbody]
    exact @Versions.distinct_ofBody ⟨[], .module, [], _⟩ hnodup
  have hend := walkModule_eq hflow hg.sound hg.stocked himports
  have hu := finished_walkModule hflow hg.sound hg.stocked himports hdistinct fun x hx => hx
  have htyped := typed_of_storeAfter hflow hdistinct hu hstore hrun
  obtain ⟨hwalked, hsees⟩ := sees_executed hflow hdistinct hu hrun htyped
  rw [Analysis.ofModule_graph]
  refine ⟨hend, hwalked, fun before after hsplit => ?_, fun ws hws w hw => ?_⟩
  · exact ⟨map_fst_loadedBy context i.action _,
      (hu.walks before i after hsplit).covers _ hu.atModule (.refl _) ρ hsees⟩
  · obtain ⟨hholds, v, hv⟩ := holds_walked hflow hdistinct hu hwalked hsees hws hw
    obtain ⟨n, hn, htype, total, htotal, htypes⟩ := hholds v hv
    exact ⟨v, n, total, hv, hn, htype, (exports_ofModule body g w.name).trans htotal, htypes⟩

/-- `a, b = 1, 2.5`, then `while a: a, b = b, a`. -/
def swapping : Module :=
  .ofParse "swapping" "a, b = 1, 2.5\nwhile a:\n  a, b = b, a"
    [.assign 0 [.tuple 0 [.name 0 "a", .name 3 "b"]]
      (.tuple 7 [.constant 7 .int, .constant 10 .float]), .whileLoop 14 (.name 20 "a")
        [.assign 25 [.tuple 25 [.name 25 "a", .name 28 "b"]] (.tuple 32 [.name 32 "b", .name 35 "a"])] []]

/-- The lines of its text. -/
def swappingLine : Nat → Nat := (Lines.ofText "a, b = 1, 2.5\nwhile a:\n  a, b = b, a").line

def swappingStart : Item :=
  ⟨swappingLine 0, .simple (.assign (swappingLine 0)
    [.tuple (swappingLine 0) [.name (swappingLine 0) ⟨0⟩ "a", .name (swappingLine 3) ⟨1⟩ "b"]]
    (.tuple (swappingLine 7) [.constant (swappingLine 7) .int, .constant (swappingLine 10) .float]))⟩

def swappingTest : Item := ⟨swappingLine 14, .test (.name (swappingLine 20) ⟨2⟩ "a")⟩

def swappingSwap : Item :=
  ⟨swappingLine 25, .simple (.assign (swappingLine 25)
    [.tuple (swappingLine 25) [.name (swappingLine 25) ⟨5⟩ "a", .name (swappingLine 28) ⟨6⟩ "b"]]
    (.tuple (swappingLine 32) [.name (swappingLine 32) ⟨3⟩ "b", .name (swappingLine 35) ⟨4⟩ "a"]))⟩

def swappingContext : Context := ⟨.standard, .empty, "swapping", ⟨0⟩, false⟩

/-- The store after one round: the values have been swapped once. -/
def swappedOnce : Store :=
  (Store.put (fun _ => none) [⟨⟨0⟩, "a", .int⟩, ⟨⟨1⟩, "b", .float⟩]).put [⟨⟨5⟩, "a", .float⟩, ⟨⟨6⟩, "b", .int⟩]

theorem storeAfter_swapping :
    StoreAfter [swappingStart, swappingTest, swappingSwap, swappingTest] swappedOnce := by
  have hstart : Assigns (fun _ => none) swappingStart.action [⟨⟨0⟩, "a", .int⟩, ⟨⟨1⟩, "b", .float⟩] :=
    ⟨.int, _, rfl, ⟨.float, _, rfl, rfl, rfl⟩, rfl⟩
  have hswap : Assigns (Store.put (fun _ => none) [⟨⟨0⟩, "a", .int⟩, ⟨⟨1⟩, "b", .float⟩]) swappingSwap.action
      [⟨⟨5⟩, "a", .float⟩, ⟨⟨6⟩, "b", .int⟩] :=
    ⟨.float, _, rfl, ⟨.int, _, rfl, rfl, rfl⟩, rfl⟩
  exact (((StoreAfter.start.item hstart).item (i := swappingTest) ⟨⟨.int, rfl⟩, rfl⟩).item hswap).item
    (i := swappingTest) ⟨⟨.float, rfl⟩, rfl⟩

theorem executes_swapping : ExecutesAll false false 0 swapping.body
    ([swappingStart, swappingTest, swappingSwap, swappingTest] ++ [swappingSwap]) .halted := by
  have hround : ∀ o, o = .normal ∨ o = .halted → ExecutesAll false true 0
      [.assign (swappingLine 25)
        [.tuple (swappingLine 25) [.name (swappingLine 25) ⟨5⟩ "a", .name (swappingLine 28) ⟨6⟩ "b"]]
        (.tuple (swappingLine 32) [.name (swappingLine 32) ⟨3⟩ "b", .name (swappingLine 35) ⟨4⟩ "a"])]
      [swappingSwap] o := by
    rintro o (rfl | rfl)
    · exact .inr (.inl ⟨_, [], ⟨rfl, rfl⟩, .inr ⟨rfl, rfl⟩, rfl⟩)
    · exact .inr (.inl ⟨_, [], ⟨rfl, rfl⟩, .inl ⟨rfl, rfl⟩, rfl⟩)
  refine .inr (.inl ⟨[swappingStart], _, ⟨rfl, rfl⟩, .inr (.inr ⟨?_, Outcome.noConfusion⟩), rfl⟩)
  exact .again (hround _ (.inl rfl)) (.inl rfl) (.left (hround _ (.inr rfl)) (.inr rfl))

theorem evaluated_kinds_are_found_swapping :
    isFlowStmts (assignedNames swapping.body) swapping.body = true ∧
    ExecutesAll false false 0 swapping.body
      ([swappingStart, swappingTest, swappingSwap, swappingTest] ++ [swappingSwap]) .halted ∧
    StoreAfter [swappingStart, swappingTest, swappingSwap, swappingTest] swappedOnce ∧
    swappingSwap ∈ walkedItems swapping.body ∧
    (∀ before after, walkedItems swapping.body = before ++ swappingSwap :: after →
      ∃ p ∈ loadedBy swappingContext swappingSwap.action
          (stateAfter swappingContext swapping.body (.empty true) before),
        p.1 = .name (swappingLine 35) ⟨4⟩ "a" ∧
          .base .float ∈ (Analysis.ofModule swappingContext swapping.body (.empty true)).2.types p.2) ∧
    ∃ total, (Analysis.ofModule swappingContext swapping.body (.empty true)).1.exports.get? "b" = some total ∧
      .base .float ∈ (Analysis.ofModule swappingContext swapping.body (.empty true)).2.types total := by
  have hflow : isFlowStmts (assignedNames swapping.body) swapping.body = true := by decide
  obtain ⟨-, hwalked, hloaded, hassigned⟩ := evaluated_kinds_are_found "swapping" _ _ swappingContext rfl hflow
    (.empty true) (fun _ _ h => nomatch h) executes_swapping storeAfter_swapping
  have hswap : Assigns swappedOnce swappingSwap.action [⟨⟨5⟩, "a", .int⟩, ⟨⟨6⟩, "b", .float⟩] :=
    ⟨.int, _, rfl, ⟨.float, _, rfl, rfl, rfl⟩, rfl⟩
  obtain ⟨_, _, total, -, -, -, htotal, htype⟩ :=
    hassigned _ hswap ⟨⟨6⟩, "b", .float⟩ (mem_cons_of_mem _ mem_cons_self)
  refine ⟨hflow, executes_swapping, storeAfter_swapping, hwalked, fun before after hsplit => ?_, total, htotal, htype⟩
  obtain ⟨hexpressions, htypes⟩ := hloaded before after hsplit
  have hread : .name (swappingLine 35) ⟨4⟩ "a" ∈ expressionsOf swappingSwap.action :=
    mem_cons_of_mem _ mem_cons_self
  rw [← hexpressions] at hread
  obtain ⟨p, hp, heq⟩ := mem_map.1 hread
  exact ⟨p, hp, heq, htypes p hp .float (heq ▸ rfl)⟩

end Inference

end FlowTyping
