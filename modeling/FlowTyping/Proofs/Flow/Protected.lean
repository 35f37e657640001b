/-
Which blocks of a protected body lead to its handlers.

No empty block leads to a handler only, so folding keeps the edges to handlers as they are
(`mem_exits_fold_iff`), and the flow graph of a body has exactly the edges that the stretches of
its protected bodies say (`exists_catches_ofBody`).  Not all of them are there: the condition of a
`while` has a block that no handler is reached from (`not_forall_exits_to_handlers`).
-/
import FlowTyping.Proofs.Flow.Advance
import FlowTyping.Proofs.Flow.Trace

namespace FlowTyping.Flow

variable {r : Region} {fn : Bool}

/-! ### Whole bodies -/

/-- **Every protected body** of a body has its stretches spread over blocks, and no empty block
leads to one of its handlers only. -/
theorem Builder.shown_body (fn : Bool) (ss : List Stmt) (hr : r ∈ regionsOfAll false 0 ss) :
    ∃ ids, Shown fn ((body ss (start fn)).fallTo last) r ids ∧
      ∀ t ∈ ids, ∀ x, passes? (laidBlocks fn ss) x ≠ some t := by
  obtain ⟨K, hrun⟩ := run_body fn ss
  have hgood := hrun.good (good_start fn)
  obtain ⟨ids, hids, hshown⟩ := (hrun.advances (good_start fn)).shown r hr
  have hl := leads_fallTo hgood.lt hgood.isOpen last
  have hlast : last ∉ K := (hgood.stands (stands_head ending rfl [] _)).2.2
  -- the last edge does not lead to a handler
  have hexits : ∀ x, ∀ t ∈ ids,
      (t ∈ ((body ss (start fn)).fallTo last).exitsAt x ↔ t ∈ (body ss (start fn)).exitsAt x) := by
    intro x t ht
    by_cases hx : x = (body ss (start fn)).current
    · subst hx
      rw [hl.self]
      exact or_iff_left fun hmem => hlast (List.mem_singleton.1 hmem ▸ (hids t ht).1)
    · rw [hl.exits_of_ne hx]
  refine ⟨ids, ⟨hshown.nodup, hshown.heads.imp fun id h hhead => ?_,
    hshown.stretches.imp fun x s hs => ?_⟩, fun t ht x hpasses => ?_⟩
  · rw [hl.items]
    exact hhead
  · refine hs.mono ?_ (hexits x)
    rw [hl.items]
  · exact hgood.complete.firm t (hids t ht).1 x (items_of_passes hpasses) (exits_of_passes hpasses)

/-! ### Folded blocks -/

section Folded

variable {blocks : Array Block} {e t t' x x' : BlockId}

theorem eq_of_follow_eq (hfirm : ∀ x, passes? blocks x ≠ some t) {n : Nat} (h : follow blocks n e = t) : e = t := by
  induction n generalizing e with
  | zero => exact h
  | succ n ih =>
    rw [follow] at h
    split at h
    · next target htarget => exact absurd (ih h ▸ htarget) (hfirm e)
    · exact h

/-- Folding adds no edges to a block that no dropped block leads to. -/
theorem mem_exits_fold_iff (hx : number? blocks x = some x') (ht : number? blocks t = some t')
    (hfirm : ∀ x, passes? blocks x ≠ some t) :
    t' ∈ (chartOf (fold blocks)).exits x' ↔ t ∈ (chartOf blocks).exits x := by
  rw [mem_exits_chartOf_fold hx]
  constructor
  · rintro ⟨y, hy, hfolded⟩
    rw [← eq_of_follow_eq hfirm (number?_inj hfolded ht)]
    exact hy
  · intro h
    refine ⟨t, h, ?_⟩
    rw [folded?, follow_of_isKept (number?_eq_some_iff.1 ht).1]
    exact ht

theorem mem_exits_finish_iff {ss : List Stmt} (hx : number? (laidBlocks fn ss) x = some x')
    (ht : number? (laidBlocks fn ss) t = some t') (hfirm : ∀ x, passes? (laidBlocks fn ss) x ≠ some t) :
    t' ∈ (finish (Builder.body ss (.start fn))).exits x' ↔ t ∈ (chartOf (laidBlocks fn ss)).exits x := by
  rw [← mem_exits_fold_iff hx ht hfirm]
  exact iff_of_eq (congrArg (fun G : Chart => t' ∈ G.exits x') (chart_eq (finish (Builder.body ss (.start fn)))))

/-- The new number of a block, if it is kept. -/
def place (blocks : Array Block) (x : BlockId) : BlockId := ⟨(List.range x.index).countP fun i => isKept blocks ⟨i⟩⟩

theorem number?_of_items (h : (chartOf blocks).items x ≠ []) : number? blocks x = some (place blocks x) := by
  refine if_pos (isKept_of_item (List.getElem?_eq_getElem (List.length_pos_iff.2 h)))

end Folded

/-! ### Edges to handlers -/

open Stretch

/-- The handlers of a region start the blocks `Hs` of a flow graph, and the stretches of its body
are in different blocks that lead to all of them or to none, as the stretches say. -/
structure Catches (flow : Flow) (fn : Bool) (r : Region) (Hs : List BlockId) : Prop where
  nodup : Hs.Nodup
  heads : List.Forall₂ (fun H h => (flow.items H).head? = some ⟨h.line, .handler h⟩) Hs r.handlers
  stretches : Spread (fun B s => (∀ i ∈ s.items, i ∈ flow.items B) ∧
    ∀ H ∈ Hs, (H ∈ flow.exits B ↔ s.caught = true)) (r.stretches fn)

/-- What may raise leads to all handlers. -/
theorem Catches.exists_block {flow : Flow} {Hs : List BlockId} (h : Catches flow fn r Hs)
    {i : Item} (hi : i ∈ exposedOfAll fn r.loop r.body) (hguarded : i.action.isGuarded = true) :
    ∃ B, i ∈ flow.items B ∧ ∀ H ∈ Hs, H ∈ flow.exits B := by
  obtain ⟨hperm, hcovers⟩ := r.lists_stretches fn
  obtain ⟨s, hs, his⟩ := List.mem_flatMap.1 (hperm.mem_iff.2 hi)
  obtain ⟨B, hitems, hexits⟩ := h.stretches.exists_block hs (List.ne_nil_of_mem his)
  refine ⟨B, hitems i his, fun H hH => (hexits H hH).2 ?_⟩
  by_contra hnot
  rw [hcovers s hs (Bool.eq_false_iff.2 hnot) i his] at hguarded
  cases hguarded

theorem catches_finish (fn : Bool) (ss : List Stmt) (hr : r ∈ regionsOfAll false 0 ss) :
    ∃ Hs, Catches (finish (Builder.body ss (.start fn))) fn r Hs := by
  obtain ⟨ids, hshown, hfirm⟩ := Builder.shown_body fn ss hr
  set blocks := laidBlocks fn ss with hblocks
  have hkept : ∀ id ∈ ids, number? blocks id = some (place blocks id) := by
    have hheads : List.Forall₂ (fun id _ => number? blocks id = some (place blocks id) ∧ True) ids r.handlers :=
      hshown.heads.imp fun id h hhead => ⟨number?_of_items (List.ne_nil_of_mem (List.mem_of_mem_head? hhead)), trivial⟩
    exact ((List.forall₂_and_left _ _).1 hheads).1
  have hinj : ∀ x y, number? blocks x = some (place blocks x) → number? blocks y = some (place blocks y) →
      place blocks x = place blocks y → x = y := fun x y hx hy heq => number?_inj hx (heq ▸ hy)
  -- all blocks in question have items, so they are kept and have new numbers
  refine ⟨ids.map (place blocks), ?_, ?_, hshown.stretches.items_ne_nil.map (place blocks) ?_ hinj⟩
  · exact hshown.nodup.map_on fun x hx y hy => hinj x y (hkept x hx) (hkept y hy)
  · refine List.forall₂_map_left_iff.2 (((List.forall₂_and_left _ _).2 ⟨hkept, hshown.heads⟩).imp fun id h hid => ?_)
    rw [items_of_number? hid.1]
    exact hid.2
  · rintro x s ⟨hne, hitems, hexits⟩
    obtain ⟨i, hi⟩ := List.exists_mem_of_ne_nil _ hne
    have hx : number? blocks x = some (place blocks x) := number?_of_items (List.ne_nil_of_mem (hitems i hi))
    refine ⟨hx, fun i hi => ?_, fun H hH => ?_⟩
    · rw [items_of_number? hx]
      exact hitems i hi
    · obtain ⟨id, hid, rfl⟩ := List.mem_map.1 hH
      rw [← hexits id hid]
      exact mem_exits_finish_iff hx (hkept id hid) (hfirm id hid)

/-- **Edges from a protected body to its handlers**: the items of the body are divided into
stretches that have a block each, and such a block leads to all handlers or to none, as its stretch
says.  All that is not a condition, the target of a loop or an inner handler is in a block that
leads to all of them. -/
theorem exists_catches_ofBody (body : Body) (r : Region) (hr : r ∈ regionsOfAll false 0 (laidOut body)) :
    (listed (r.stretches (body.kind = .function))).Perm (exposedOfAll (body.kind = .function) r.loop r.body) ∧
      ∃ Hs, Catches (ofBody body) (body.kind = .function) r Hs ∧
        ∀ i ∈ exposedOfAll (body.kind = .function) r.loop r.body, i.action.isGuarded = true →
          ∃ B, i ∈ (ofBody body).items B ∧ ∀ H ∈ Hs, H ∈ (ofBody body).exits B := by
  have hcatches : ∃ Hs, Catches (ofBody body) (body.kind = .function) r Hs := by
    obtain ⟨path, kind, params, ss⟩ := body
    cases kind with
    | module => exact catches_finish false ss hr
    | function => exact catches_finish true ss hr
    | classBody => exact catches_finish false (constructorsFirst ss) hr
  obtain ⟨Hs, h⟩ := hcatches
  exact ⟨(r.lists_stretches _).1, Hs, h, fun i hi hguarded => h.exists_block hi hguarded⟩

/-- A loop until a condition holds that may raise. -/
def retryLoop : Stmt :=
  .whileLoop 2 (.name 2 ⟨0⟩ "c") [.assign 3 [.name 3 ⟨1⟩ "x"] (.constant 3 .int)] []

def retryHandler : Handler Stmt :=
  ⟨4, some (.name 4 ⟨2⟩ "E"), none, [.assign 5 [.name 5 ⟨3⟩ "y"] (.constant 5 .int)]⟩

def retryBody : Body := ⟨[], .module, [], [.tryBlock 1 [retryLoop] [retryHandler] [] []]⟩

def retryRegion : Region := ⟨[retryHandler], false, 0, [retryLoop]⟩

theorem exists_catches_retryBody :
    retryRegion ∈ regionsOfAll false 0 (laidOut retryBody) ∧ ∃ Hs, Catches (ofBody retryBody) false retryRegion Hs := by
  have hr : retryRegion ∈ regionsOfAll false 0 (laidOut retryBody) := List.mem_singleton_self retryRegion
  obtain ⟨-, Hs, h, -⟩ := exists_catches_ofBody retryBody retryRegion hr
  exact ⟨hr, Hs, h⟩

/-- The condition of the loop is in a block that does not lead to the handler. -/
theorem not_forall_exits_to_handlers :
    ¬ ∀ (body : Body), ∀ r ∈ regionsOfAll false 0 (laidOut body),
      ∀ i ∈ exposedOfAll (body.kind = .function) r.loop r.body, ∀ B, i ∈ (ofBody body).items B →
        ∀ h ∈ r.handlers, ∀ H, ((ofBody body).items H).head? = some ⟨h.line, .handler h⟩ →
          H ∈ (ofBody body).exits B := by
  intro hall
  have hitems : (ofBody retryBody).items ⟨3⟩ = [⟨2, .test (.name 2 ⟨0⟩ "c")⟩] := rfl
  have hedge := hall retryBody retryRegion (List.mem_singleton_self _) ⟨2, .test (.name 2 ⟨0⟩ "c")⟩
    List.mem_cons_self ⟨3⟩ (hitems ▸ List.mem_singleton_self _) retryHandler (List.mem_singleton_self _) ⟨2⟩ rfl
  have hexits : (ofBody retryBody).exits ⟨3⟩ = [⟨4⟩, ⟨1⟩] := by decide +kernel
  rw [hexits] at hedge
  exact absurd hedge (by decide)

end FlowTyping.Flow
