/-
No statement is lost in a flow graph, and none is there twice.

The items of all blocks are those of the statements of the body, each once.  The two items of a
`for` have the same number, and different loops have different numbers, since a list of statements
uses up the numbers from its first one on (`numbered_itemsOfAll`).  The statements of a class are
laid out with its constructors first; a constructor is a single item without a number, so this
changes neither the items nor their numbers.
-/
import FlowTyping.Proofs.Flow.Fold

namespace FlowTyping.Flow

open List

def allItems (flow : Flow) : List Item := flow.blocks.toList.flatMap (·.items)

/-! ### Numbers of loops -/

/-- The loop whose iterable an item evaluates. -/
def Item.iterLoop? (item : Item) : Option LoopId :=
  match item.action with
  | .forIter loop _ => some loop
  | _ => none

/-- The loop whose target an item binds. -/
def Item.targetLoop? (item : Item) : Option LoopId :=
  match item.action with
  | .forTarget loop _ => some loop
  | _ => none

def iterLoops (items : List Item) : List LoopId := items.filterMap Item.iterLoop?

def targetLoops (items : List Item) : List LoopId := items.filterMap Item.targetLoop?

/-- The loops from `n` on, as many as given. -/
def loopsFrom (n count : Nat) : List LoopId := (List.range' n count).map LoopId.mk

theorem nodup_loopsFrom (n count : Nat) : (loopsFrom n count).Nodup :=
  List.Nodup.map (fun _ _ h => LoopId.mk.inj h) (nodup_range' (s := n) (n := count))

theorem loopsFrom_append (n k l : Nat) : loopsFrom n k ++ loopsFrom (n + k) l = loopsFrom n (k + l) := by
  simp [loopsFrom, ← map_append]

theorem loopsFrom_succ (n k : Nat) : loopsFrom n (1 + k) = ⟨n⟩ :: loopsFrom (n + 1) k := by
  simp [loopsFrom, add_comm 1 k, range'_succ]

/-- Items in which the loops from `n` on are numbered, each with an iterable and a target. -/
structure Numbered (n count : Nat) (items : List Item) : Prop where
  iters : iterLoops items = loopsFrom n count
  targets : targetLoops items = loopsFrom n count

variable {n count count' : Nat} {items items' : List Item}

theorem Numbered.append (h : Numbered n count items) (h' : Numbered (n + count) count' items') :
    Numbered n (count + count') (items ++ items') := by
  constructor
  · rw [iterLoops, filterMap_append, ← loopsFrom_append, ← h.iters, ← h'.iters]
    rfl
  · rw [targetLoops, filterMap_append, ← loopsFrom_append, ← h.targets, ← h'.targets]
    rfl

theorem Numbered.cons (h : Numbered n count items) {item : Item} (hiter : item.iterLoop? = none)
    (htarget : item.targetLoop? = none) : Numbered n count (item :: items) := by
  constructor
  · rw [iterLoops, filterMap_cons_none hiter]
    exact h.iters
  · rw [targetLoops, filterMap_cons_none htarget]
    exact h.targets

theorem Numbered.nil (n : Nat) : Numbered n 0 [] := ⟨rfl, rfl⟩

theorem Numbered.loop (h : Numbered (n + 1) count items) (line : Nat) (target iter : Expr) :
    Numbered n (1 + count) (⟨line, .forIter ⟨n⟩ iter⟩ :: ⟨line, .forTarget ⟨n⟩ target⟩ :: items) := by
  constructor
  · rw [loopsFrom_succ, ← h.iters]
    rfl
  · rw [loopsFrom_succ, ← h.targets]
    rfl

theorem numbered_withItems (n line : Nat) (items : List (WithItem Expr)) :
    Numbered n 0 (items.map fun item => ⟨line, .withEnter item⟩) := by
  induction items with
  | nil => exact .nil n
  | cons item items ih => exact ih.cons rfl rfl

mutual

theorem numbered_itemsOf (fn : Bool) (n : Nat) (s : Stmt) : Numbered n (loopsOf s) (itemsOf fn n s) := by
  cases s with
  | ret line value =>
    cases fn with
    | true => exact (Numbered.nil n).cons rfl rfl
    | false => exact .nil n
  | ifThen line test body orelse | whileLoop line test body orelse =>
    exact ((numbered_itemsOfAll fn n body).cons rfl rfl).append (numbered_itemsOfAll fn (n + loopsOfAll body) orelse)
  | forLoop line target iter body orelse =>
    have hbody := (numbered_itemsOfAll fn (n + 1) body).loop line target iter
    refine hbody.append ?_
    rw [← add_assoc]
    exact numbered_itemsOfAll fn (n + 1 + loopsOfAll body) orelse
  | withBlock line items body =>
    have hbody := (numbered_withItems n line items).append (numbered_itemsOfAll fn n body)
    rwa [zero_add] at hbody
  | tryBlock line body handlers orelse finalbody =>
    refine (((numbered_itemsOfAll fn n body).append (numbered_itemsOfAll fn _ orelse)).append ?_).append ?_
    · rw [← add_assoc]
      exact numbered_itemsOfHandlers fn _ handlers
    · rw [← add_assoc, ← add_assoc]
      exact numbered_itemsOfAll fn _ finalbody
  | pass line | «break» line | «continue» line => exact .nil n
  | _ => exact (Numbered.nil n).cons rfl rfl

/-- The loops of some statements take up the numbers from `n` on. -/
theorem numbered_itemsOfAll (fn : Bool) (n : Nat) (ss : List Stmt) :
    Numbered n (loopsOfAll ss) (itemsOfAll fn n ss) := by
  cases ss with
  | nil => exact .nil n
  | cons s ss => exact (numbered_itemsOf fn n s).append (numbered_itemsOfAll fn (n + loopsOf s) ss)

theorem numbered_itemsOfHandlers (fn : Bool) (n : Nat) (hs : List (Handler Stmt)) :
    Numbered n (loopsOfHandlers hs) (itemsOfHandlers fn n hs) := by
  cases hs with
  | nil => exact .nil n
  | cons h hs =>
    obtain ⟨line, type, name, body⟩ := h
    exact ((numbered_itemsOfAll fn n body).cons rfl rfl).append (numbered_itemsOfHandlers fn (n + loopsOfAll body) hs)

end

/-! ### Constructors -/

theorem constructor_items {s : Stmt} (h : isConstructor s = true) :
    loopsOf s = 0 ∧ ∀ fn n m, itemsOf fn n s = itemsOf fn m s := by
  cases s with
  | functionDef line fn => exact ⟨rfl, fun _ _ _ => rfl⟩
  | _ => cases h

theorem itemsOfAll_constructors (fn : Bool) (n m : Nat) (ss : List Stmt) :
    itemsOfAll fn n (ss.filter isConstructor) = itemsOfAll fn m (ss.filter isConstructor) ∧
      loopsOfAll (ss.filter isConstructor) = 0 := by
  induction ss with
  | nil => exact ⟨rfl, rfl⟩
  | cons s ss ih =>
    cases hs : isConstructor s with
    | true =>
      obtain ⟨hloops, hitems⟩ := constructor_items hs
      simp [hs, itemsOfAll, loopsOfAll, hloops, hitems fn n m, ih]
    | false => simpa [hs] using ih

theorem itemsOfAll_split (fn : Bool) (n : Nat) (ss : List Stmt) :
    (itemsOfAll fn n (ss.filter isConstructor) ++ itemsOfAll fn n (ss.filter (!isConstructor ·))).Perm
      (itemsOfAll fn n ss) := by
  induction ss generalizing n with
  | nil => exact .refl _
  | cons s ss ih =>
    cases hs : isConstructor s with
    | true =>
      have hloops := (constructor_items hs).1
      simp only [filter_cons, hs, if_true, Bool.not_true, Bool.false_eq_true, if_false, itemsOfAll,
        hloops, add_zero, append_assoc]
      exact (ih n).append_left _
    | false =>
      simp only [filter_cons, hs, Bool.false_eq_true, if_false, Bool.not_false, if_true, itemsOfAll]
      rw [(itemsOfAll_constructors fn n (n + loopsOf s) ss).1]
      exact perm_append_comm_assoc _ _ _ |>.trans ((ih (n + loopsOf s)).append_left _)

theorem itemsOfAll_append (fn : Bool) (n : Nat) (ss ss' : List Stmt) :
    itemsOfAll fn n (ss ++ ss') = itemsOfAll fn n ss ++ itemsOfAll fn (n + loopsOfAll ss) ss' := by
  induction ss generalizing n with
  | nil => rfl
  | cons s ss ih => simp [itemsOfAll, loopsOfAll, ih, add_assoc]

/-- Laying out the constructors first changes only the order of the items. -/
theorem itemsOfAll_constructorsFirst (fn : Bool) (n : Nat) (ss : List Stmt) :
    (itemsOfAll fn n (constructorsFirst ss)).Perm (itemsOfAll fn n ss) := by
  rw [constructorsFirst, itemsOfAll_append, (itemsOfAll_constructors fn n n ss).2]
  exact itemsOfAll_split fn n ss

/-! ### Flow graphs -/

/-- The items of a flow graph are those of some statements, and its loops are told apart by their
numbers. -/
structure Accounts (flow : Flow) (inFunction : Bool) (body : List Stmt) : Prop where
  items : flow.allItems.Perm (itemsOfAll inFunction 0 body)
  iters : (iterLoops flow.allItems).Nodup
  targets : (targetLoops flow.allItems).Perm (iterLoops flow.allItems)

theorem Accounts.of_perm {flow : Flow} {fn : Bool} {body : List Stmt}
    (h : flow.allItems.Perm (itemsOfAll fn 0 body)) : Accounts flow fn body := by
  have hnumbered := numbered_itemsOfAll fn 0 body
  have hiters : (iterLoops flow.allItems).Perm (loopsFrom 0 (loopsOfAll body)) :=
    hnumbered.iters ▸ h.filterMap Item.iterLoop?
  have htargets : (targetLoops flow.allItems).Perm (loopsFrom 0 (loopsOfAll body)) :=
    hnumbered.targets ▸ h.filterMap Item.targetLoop?
  exact ⟨h, hiters.nodup_iff.2 (nodup_loopsFrom _ _), htargets.trans hiters.symm⟩

/-- **No statement is lost or laid out twice**: the items of the flow graph of a module, a function
or a class are those of the statements of the body, each once, and the loops have different numbers,
which their two items share. -/
theorem flow_accounts_for_every_statement (body : List Stmt) :
    Accounts (ofModule body) false body ∧ Accounts (ofFunction body) true body ∧ Accounts (ofClass body) false body :=
  ⟨.of_perm (items_laidOut false body), .of_perm (items_laidOut true body),
    .of_perm ((items_laidOut false (constructorsFirst body)).trans (itemsOfAll_constructorsFirst false 0 body))⟩

end FlowTyping.Flow
