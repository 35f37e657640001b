/-
How the body of a `try` is spread over blocks.

What may raise gets a block of its own in a protected region, with edges to the handlers.  The
condition of an `if` goes into the block that is the current one, and the condition of a `while` and
the target of a `for` stand in blocks that the loop makes for them.  So whether the block of such an
item leads to the handlers depends on what comes before it and, for a target, on what follows it:
entering a `try` gives the block where that happens the edges, too.

A `Stretch` is what one block gets of a protected body.  `stretchesOf` goes over a statement as
control does and keeps the stretches so far, the current one first.  Of a `try` with a `finally`
clause only the clause itself counts, since exceptions go there (`exposedOf`).
-/
import FlowTyping.Proofs.Flow.Laid

namespace FlowTyping.Flow

open List

/-! ### Stretches -/

/-- Items that are put into one block. -/
structure Stretch where
  items : List Item
  /-- Whether the block leads to the handlers. -/
  caught : Bool
deriving Inhabited

namespace Stretch

/-- Go on in another block. -/
def next (st : List Stretch) : List Stretch := ⟨[], false⟩ :: st

def note (i : Item) : List Stretch → List Stretch
  | [] => []
  | s :: st => { s with items := s.items ++ [i] } :: st

/-- The current block gets the edges to the handlers. -/
def shield : List Stretch → List Stretch
  | [] => []
  | s :: st => { s with caught := true } :: st

/-- Items that may raise have a block each. -/
def alone (items : List Item) (st : List Stretch) : List Stretch :=
  items.foldl (fun st i => shield (note i (next st))) st

end Stretch

open Stretch

mutual

/-- The stretches of a statement in a protected region, in a loop or not, with `for` loops numbered
from `n` on. -/
def stretchesOf (fn : Bool) : Bool → Nat → Stmt → List Stretch → List Stretch
  | _, n, .ret line value, st => if fn then next (alone (itemsOf fn n (.ret line value)) st) else st
  | _, n, .raise line exc cause, st => next (alone (itemsOf fn n (.raise line exc cause)) st)
  | inLoop, _, .break _, st => if inLoop then next st else st
  | inLoop, _, .continue _, st => if inLoop then next st else st
  | inLoop, n, .ifThen line test body orelse, st =>
    next (stretchesOfAll fn inLoop (n + loopsOfAll body) orelse
      (next (stretchesOfAll fn inLoop n body (next (note ⟨line, .test test⟩ st)))))
  | inLoop, n, .whileLoop line test body orelse, st =>
    next (stretchesOfAll fn inLoop (n + loopsOfAll body) orelse
      (next (stretchesOfAll fn true n body (next (note ⟨line, .test test⟩ (next st))))))
  | inLoop, n, .forLoop line target iter body orelse, st =>
    next (stretchesOfAll fn inLoop (n + 1 + loopsOfAll body) orelse
      (next (stretchesOfAll fn true (n + 1) body
        (note ⟨line, .forTarget ⟨n⟩ target⟩ (next (next (alone [⟨line, .forIter ⟨n⟩ iter⟩] st)))))))
  | inLoop, n, .withBlock line items body, st =>
    stretchesOfAll fn inLoop n body (alone (items.map fun item => ⟨line, .withEnter item⟩) st)
  | inLoop, n, .tryBlock _ body handlers orelse finalbody, st =>
    if finalbody.isEmpty then
      next (stretchesOfHandlers fn inLoop (n + loopsOfAll body + loopsOfAll orelse) handlers
        (stretchesOfAll fn inLoop (n + loopsOfAll body) orelse
          (stretchesOfAll fn inLoop n body (shield st))))
    else
      next (stretchesOfAll fn inLoop
        (n + loopsOfAll body + loopsOfAll orelse + loopsOfHandlers handlers) finalbody (next st))
  | _, n, s, st => alone (itemsOf fn n s) st

def stretchesOfAll (fn : Bool) : Bool → Nat → List Stmt → List Stretch → List Stretch
  | _, _, [], st => st
  | inLoop, n, s :: ss, st =>
    stretchesOfAll fn inLoop (n + loopsOf s) ss (stretchesOf fn inLoop n s st)

def stretchesOfHandlers (fn : Bool) : Bool → Nat → List (Handler Stmt) → List Stretch → List Stretch
  | _, _, [], st => st
  | inLoop, n, ⟨line, type, name, body⟩ :: hs, st =>
    stretchesOfHandlers fn inLoop (n + loopsOfAll body) hs
      (stretchesOfAll fn inLoop n body (note ⟨line, .handler ⟨line, type, name, body⟩⟩ (next st)))

end

/-! ### Protected bodies -/

/-- The body of a `try` and its handlers. -/
structure Region where
  handlers : List (Handler Stmt)
  inLoop : Bool
  /-- The number of the next `for` loop. -/
  loop : Nat
  body : List Stmt

/-- The stretches of a protected body.  It starts in a block that has the edges to the handlers. -/
def Region.stretches (fn : Bool) (r : Region) : List Stretch :=
  stretchesOfAll fn r.inLoop r.loop r.body (shield (next []))

mutual

/-- The bodies in a statement that handlers protect. -/
def regionsOf : Bool → Nat → Stmt → List Region
  | inLoop, n, .ifThen _ _ body orelse =>
    regionsOfAll inLoop n body ++ regionsOfAll inLoop (n + loopsOfAll body) orelse
  | inLoop, n, .whileLoop _ _ body orelse =>
    regionsOfAll true n body ++ regionsOfAll inLoop (n + loopsOfAll body) orelse
  | inLoop, n, .forLoop _ _ _ body orelse =>
    regionsOfAll true (n + 1) body ++ regionsOfAll inLoop (n + 1 + loopsOfAll body) orelse
  | inLoop, n, .withBlock _ _ body => regionsOfAll inLoop n body
  | inLoop, n, .tryBlock _ body handlers orelse finalbody =>
    (if handlers.isEmpty then [] else [⟨handlers, inLoop, n, body⟩]) ++ regionsOfAll inLoop n body ++
      regionsOfAll inLoop (n + loopsOfAll body) orelse ++
      regionsOfHandlers inLoop (n + loopsOfAll body + loopsOfAll orelse) handlers ++
      regionsOfAll inLoop (n + loopsOfAll body + loopsOfAll orelse + loopsOfHandlers handlers) finalbody
  | _, _, _ => []

def regionsOfAll : Bool → Nat → List Stmt → List Region
  | _, _, [] => []
  | inLoop, n, s :: ss => regionsOf inLoop n s ++ regionsOfAll inLoop (n + loopsOf s) ss

def regionsOfHandlers : Bool → Nat → List (Handler Stmt) → List Region
  | _, _, [] => []
  | inLoop, n, ⟨_, _, _, body⟩ :: hs =>
    regionsOfAll inLoop n body ++ regionsOfHandlers inLoop (n + loopsOfAll body) hs

end

/-! ### The items of a protected body -/

/-- Whether an action has a block of its own in a protected region. -/
def Action.isGuarded : Action → Bool
  | .test _ => false
  | .forTarget _ _ => false
  | .handler _ => false
  | _ => true

mutual

/-- The items of a statement whose exceptions do not meet a `finally` clause of the statement. -/
def exposedOf (fn : Bool) : Nat → Stmt → List Item
  | n, .ifThen line test body orelse =>
    ⟨line, .test test⟩ :: (exposedOfAll fn n body ++ exposedOfAll fn (n + loopsOfAll body) orelse)
  | n, .whileLoop line test body orelse =>
    ⟨line, .test test⟩ :: (exposedOfAll fn n body ++ exposedOfAll fn (n + loopsOfAll body) orelse)
  | n, .forLoop line target iter body orelse =>
    ⟨line, .forIter ⟨n⟩ iter⟩ :: ⟨line, .forTarget ⟨n⟩ target⟩ ::
      (exposedOfAll fn (n + 1) body ++ exposedOfAll fn (n + 1 + loopsOfAll body) orelse)
  | n, .withBlock line items body =>
    items.map (fun item => ⟨line, .withEnter item⟩) ++ exposedOfAll fn n body
  | n, .tryBlock _ body handlers orelse finalbody =>
    if finalbody.isEmpty then
      exposedOfAll fn n body ++ exposedOfAll fn (n + loopsOfAll body) orelse ++
        exposedOfHandlers fn (n + loopsOfAll body + loopsOfAll orelse) handlers
    else
      exposedOfAll fn (n + loopsOfAll body + loopsOfAll orelse + loopsOfHandlers handlers) finalbody
  | n, s => itemsOf fn n s

def exposedOfAll (fn : Bool) : Nat → List Stmt → List Item
  | _, [] => []
  | n, s :: ss => exposedOf fn n s ++ exposedOfAll fn (n + loopsOf s) ss

def exposedOfHandlers (fn : Bool) : Nat → List (Handler Stmt) → List Item
  | _, [] => []
  | n, ⟨line, type, name, body⟩ :: hs =>
    ⟨line, .handler ⟨line, type, name, body⟩⟩ :: exposedOfAll fn n body ++
      exposedOfHandlers fn (n + loopsOfAll body) hs

end

namespace Stretch

variable {R R' : BlockId → Stretch → Prop} {s : Stretch} {st : List Stretch}

def listed (st : List Stretch) : List Item := st.flatMap (·.items)

/-- The stretches that have items. -/
def used (st : List Stretch) : List Stretch := st.filter fun s => !s.items.isEmpty

/-- The stretches that have items are in different blocks, each of them as `R` says. -/
def Spread (R : BlockId → Stretch → Prop) (st : List Stretch) : Prop :=
  ∃ xs : List BlockId, xs.Nodup ∧ Forall₂ R xs (used st)

theorem Spread.imp (h : Spread R st) (hR : ∀ x s, R x s → R' x s) : Spread R' st := by
  obtain ⟨xs, hnodup, hall⟩ := h
  exact ⟨xs, hnodup, hall.imp hR⟩

theorem Spread.cons {x : BlockId} (h : Spread R st) (hR : ∀ y s', R y s' → y ≠ x ∧ R' y s')
    (hx : R' x s) : Spread R' (s :: st) := by
  obtain ⟨xs, hnodup, hall⟩ := h
  obtain ⟨hne, hall⟩ := (forall₂_and_left _ _).1 (hall.imp hR)
  rw [Spread, used, filter_cons]
  split
  · exact ⟨x :: xs, nodup_cons.2 ⟨fun hmem => hne x hmem rfl, hnodup⟩, .cons hx hall⟩
  · exact ⟨xs, hnodup, hall⟩

theorem Spread.items_ne_nil (h : Spread R st) : Spread (fun x s => s.items ≠ [] ∧ R x s) st := by
  obtain ⟨xs, hnodup, hall⟩ := h
  have hitems : ∀ s ∈ used st, s.items ≠ [] := fun s hs hnil => by
    have hused := (mem_filter.1 hs).2
    rw [hnil] at hused
    cases hused
  exact ⟨xs, hnodup, ((forall₂_and_left _ _).2 ⟨hitems, hall.flip⟩).flip⟩

theorem Spread.exists_block (h : Spread R st) (hs : s ∈ st) (hitems : s.items ≠ []) :
    ∃ x, R x s := by
  obtain ⟨xs, -, hall⟩ := h
  have hused : s ∈ used st := mem_filter.2 ⟨hs, by simpa using hitems⟩
  have hboth : Forall₂ (fun s _ => (∃ x, R x s) ∧ True) (used st) xs :=
    (hall.imp fun x _ hx => ⟨⟨x, hx⟩, trivial⟩).flip
  exact ((forall₂_and_left _ _).1 hboth).1 s hused

theorem Spread.map {P : BlockId → Prop} (g : BlockId → BlockId) (h : Spread R st)
    (hR : ∀ x s, R x s → P x ∧ R' (g x) s) (hg : ∀ x y, P x → P y → g x = g y → x = y) :
    Spread R' st := by
  obtain ⟨xs, hnodup, hall⟩ := h
  obtain ⟨hP, hall⟩ := (forall₂_and_left _ _).1 (hall.imp hR)
  refine ⟨xs.map g, hnodup.map_on fun x hx y hy => hg x y (hP x hx) (hP y hy), ?_⟩
  exact forall₂_map_left_iff.2 hall

/-- Only conditions, targets of loops and inner handlers may be in blocks that do not lead to the
handlers. -/
def Covers (st : List Stretch) : Prop := ∀ s ∈ st, s.caught = false → ∀ i ∈ s.items, i.action.isGuarded = false

/-- A way to go on with stretches that puts some items. -/
structure Lists (f : List Stretch → List Stretch) (items : List Item) : Prop where
  ne_nil : ∀ st, st ≠ [] → f st ≠ []
  perm : ∀ st, st ≠ [] → (listed (f st)).Perm (listed st ++ items)
  covers : ∀ st, Covers st → Covers (f st)

variable {f g : List Stretch → List Stretch} {items items' : List Item}

theorem Lists.comp (h : Lists f items) (h' : Lists g items') :
    Lists (fun st => g (f st)) (items ++ items') where
  ne_nil st hst := h'.ne_nil _ (h.ne_nil st hst)
  perm st hst := by
    refine (h'.perm _ (h.ne_nil st hst)).trans ?_
    rw [← append_assoc]
    exact (h.perm st hst).append_right items'
  covers st hst := h'.covers _ (h.covers st hst)

theorem Lists.pass : Lists (fun st => st) [] :=
  ⟨fun _ h => h, fun _ _ => by rw [append_nil], fun _ h => h⟩

theorem covers_cons :
    Covers (s :: st) ↔ (s.caught = false → ∀ i ∈ s.items, i.action.isGuarded = false) ∧ Covers st :=
  forall_mem_cons

theorem lists_next : Lists next [] :=
  ⟨fun _ _ => cons_ne_nil _ _, fun st _ => by rw [append_nil]; rfl,
    fun _ hst => covers_cons.2 ⟨fun _ => List.forall_mem_nil _, hst⟩⟩

theorem lists_note {i : Item} (hi : i.action.isGuarded = false) : Lists (note i) [i] := by
  refine ⟨?_, ?_, ?_⟩
  · rintro (- | ⟨s, st⟩) hst
    · exact absurd rfl hst
    · exact cons_ne_nil _ _
  · rintro (- | ⟨s, st⟩) hst
    · exact absurd rfl hst
    · show (s.items ++ [i] ++ listed st).Perm (s.items ++ listed st ++ [i])
      rw [append_assoc, append_assoc]
      exact perm_append_comm.append_left _
  · rintro (- | ⟨s, st⟩) hst
    · exact hst
    · obtain ⟨hs, hst⟩ := covers_cons.1 hst
      refine covers_cons.2 ⟨fun hcaught j hj => ?_, hst⟩
      rcases mem_append.1 hj with hj | hj
      · exact hs hcaught j hj
      · rw [mem_singleton.1 hj]
        exact hi

theorem lists_shield : Lists shield [] := by
  refine ⟨?_, ?_, ?_⟩
  · rintro (- | ⟨s, st⟩) hst
    · exact absurd rfl hst
    · exact cons_ne_nil _ _
  · rintro (- | ⟨s, st⟩) hst
    · exact absurd rfl hst
    · rw [append_nil]
      rfl
  · rintro (- | ⟨s, st⟩) hst
    · exact hst
    · exact covers_cons.2 ⟨fun hcaught => Bool.noConfusion hcaught, (covers_cons.1 hst).2⟩

theorem lists_alone (items : List Item) : Lists (alone items) items := by
  have hone : ∀ i, Lists (fun st => shield (note i (next st))) [i] := fun i =>
    ⟨fun _ _ => cons_ne_nil _ _, fun _ _ => perm_append_comm,
      fun _ hst => covers_cons.2 ⟨fun hcaught => Bool.noConfusion hcaught, hst⟩⟩
  induction items with
  | nil => exact .pass
  | cons i items ih => exact (hone i).comp ih

theorem Lists.congr (h : Lists f items) (hitems : items = items') : Lists f items' := hitems ▸ h

theorem lists_jump (taken : Bool) : Lists (fun st => if taken then next st else st) [] := by
  cases taken with
  | true => exact lists_next
  | false => exact .pass

mutual

/-- The stretches of a statement divide its exposed items. -/
theorem lists_stretchesOf (fn inLoop : Bool) (n : Nat) (s : Stmt) :
    Lists (stretchesOf fn inLoop n s) (exposedOf fn n s) := by
  cases s with
  | ret line value =>
    cases fn with
    | true => exact (lists_alone [⟨line, .ret value⟩]).comp lists_next
    | false => exact .pass
  | raise line exc cause => exact (lists_alone [⟨line, .simple (.raise line exc cause)⟩]).comp lists_next
  | «break» line | «continue» line => exact lists_jump inLoop
  | ifThen line test body orelse =>
    have hbody := ((@lists_note ⟨line, .test test⟩ rfl).comp lists_next).comp (lists_stretchesOfAll fn inLoop n body)
    have hall := ((hbody.comp lists_next).comp
      (lists_stretchesOfAll fn inLoop (n + loopsOfAll body) orelse)).comp lists_next
    exact hall.congr (by simp [exposedOf])
  | whileLoop line test body orelse =>
    have hbody := ((lists_next.comp (@lists_note ⟨line, .test test⟩ rfl)).comp lists_next).comp
      (lists_stretchesOfAll fn true n body)
    have hall := ((hbody.comp lists_next).comp
      (lists_stretchesOfAll fn inLoop (n + loopsOfAll body) orelse)).comp lists_next
    exact hall.congr (by simp [exposedOf])
  | forLoop line target iter body orelse =>
    have hbody := ((((lists_alone [⟨line, .forIter ⟨n⟩ iter⟩]).comp lists_next).comp lists_next).comp
      (@lists_note ⟨line, .forTarget ⟨n⟩ target⟩ rfl)).comp (lists_stretchesOfAll fn true (n + 1) body)
    have hall := ((hbody.comp lists_next).comp
      (lists_stretchesOfAll fn inLoop (n + 1 + loopsOfAll body) orelse)).comp lists_next
    exact hall.congr (by simp [exposedOf])
  | withBlock line items body =>
    exact (lists_alone (items.map fun item => ⟨line, .withEnter item⟩)).comp (lists_stretchesOfAll fn inLoop n body)
  | tryBlock line body handlers orelse finalbody =>
    cases finalbody with
    | nil =>
      have hbody := lists_shield.comp (lists_stretchesOfAll fn inLoop n body)
      have hall := ((hbody.comp (lists_stretchesOfAll fn inLoop (n + loopsOfAll body) orelse)).comp
        (lists_stretchesOfHandlers fn inLoop (n + loopsOfAll body + loopsOfAll orelse) handlers)).comp lists_next
      exact hall.congr (by simp [exposedOf])
    | cons s ss =>
      have hall := (lists_next.comp (lists_stretchesOfAll fn inLoop
        (n + loopsOfAll body + loopsOfAll orelse + loopsOfHandlers handlers) (s :: ss))).comp lists_next
      exact hall.congr (by simp [exposedOf])
  | pass line => exact .pass
  | _ => exact lists_alone [_]

theorem lists_stretchesOfAll (fn inLoop : Bool) (n : Nat) (ss : List Stmt) :
    Lists (stretchesOfAll fn inLoop n ss) (exposedOfAll fn n ss) := by
  cases ss with
  | nil => exact .pass
  | cons s ss =>
    exact (lists_stretchesOf fn inLoop n s).comp (lists_stretchesOfAll fn inLoop (n + loopsOf s) ss)

theorem lists_stretchesOfHandlers (fn inLoop : Bool) (n : Nat) (hs : List (Handler Stmt)) :
    Lists (stretchesOfHandlers fn inLoop n hs) (exposedOfHandlers fn n hs) := by
  cases hs with
  | nil => exact .pass
  | cons h hs =>
    obtain ⟨line, type, name, body⟩ := h
    have hbody := (lists_next.comp (@lists_note ⟨line, .handler ⟨line, type, name, body⟩⟩ rfl)).comp
      (lists_stretchesOfAll fn inLoop n body)
    have hall := hbody.comp (lists_stretchesOfHandlers fn inLoop (n + loopsOfAll body) hs)
    exact hall.congr (by simp [exposedOfHandlers])

end

end Stretch

/-- The stretches of a protected body divide its items, and only conditions, targets of loops and
inner handlers may be in those that are not caught. -/
theorem Region.lists_stretches (fn : Bool) (r : Region) :
    (listed (r.stretches fn)).Perm (exposedOfAll fn r.loop r.body) ∧ Covers (r.stretches fn) := by
  have hlists := lists_stretchesOfAll fn r.inLoop r.loop r.body
  refine ⟨hlists.perm (shield (next [])) (cons_ne_nil _ _), hlists.covers _ fun s hs hcaught => ?_⟩
  cases mem_singleton.1 hs
  cases hcaught

end FlowTyping.Flow
