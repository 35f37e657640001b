/-
What a body does when its values are known by their kinds.

A store has the kinds of the names that have been assigned.  An expression evaluates to a kind if
all that it needs does: a name that has not been assigned has no value, and an operator stops where
it has no result.  An operand of `and`, `or` or a conditional is chosen freely, and so is the link
at which a chain of comparisons ends.  All this is meant for the part of the language without calls,
attributes and definitions (`isFlowStmts`).  There every item reads before it writes
(`ofAction_eq`), and what it writes is what it assigns.
-/
import FlowTyping.Inference.Statement
import FlowTyping.Proofs.Flow.Execution

namespace FlowTyping

open List

/-- The kind of a literal. -/
def Constant.kind? : Constant → Option Kind
  | .none => some .none
  | .bool => some .bool
  | .int => some .int
  | .float => some .float
  | .str => some .str
  | .bytes => some .bytes
  | .tuple => some .tuple
  | .complex | .ellipsis => .none

namespace Evaluation

open Inference
open FlowTyping.Flow (Item Action itemsOf itemsOfAll TryFree TryFreeAll)

variable {targets items : List Expr} {names : List String} {pairs : List (Expr × Expr)} {i : Item}

/-! ### Expressions -/

/-- The kinds of the names that have been assigned. -/
abbrev Store := String → Option Kind

mutual

/-- In a store, an expression can evaluate to a value of some kind. -/
def Evaluates (ρ : Store) : Expr → Kind → Prop
  | .name _ _ x, k => ρ x = some k
  | .constant _ c, k => c.kind? = some k
  | .binary _ left op right, k =>
    ∃ l r, Evaluates ρ left l ∧ Evaluates ρ right r ∧ op.result? l r = some k
  | .unary _ op operand, k => ∃ l, Evaluates ρ operand l ∧ op.result? l = some k
  | .bool _ _ operands, k => EvaluatesSome ρ operands k
  | .compare _ left ops comparators, k =>
    ∃ l, Evaluates ρ left l ∧ EvaluatesLink ρ l ops comparators k
  | .list _ items, k => EvaluatesEach ρ items ∧ k = .list
  | .tuple _ items, k => EvaluatesEach ρ items ∧ k = .tuple
  | .set _ items, k => EvaluatesEach ρ items ∧ k = .set
  | .dict _ keys values, k => EvaluatesKeys ρ keys ∧ EvaluatesEach ρ values ∧ k = .dict
  | .conditional _ test body orelse, k =>
    (∃ t, Evaluates ρ test t) ∧ (Evaluates ρ body k ∨ Evaluates ρ orelse k)
  | _, _ => False

def EvaluatesEach (ρ : Store) : List Expr → Prop
  | [] => True
  | e :: es => (∃ k, Evaluates ρ e k) ∧ EvaluatesEach ρ es

/-- Operands evaluate one after the other up to the one that is chosen. -/
def EvaluatesSome (ρ : Store) : List Expr → Kind → Prop
  | [], _ => False
  | e :: es, k => Evaluates ρ e k ∨ (∃ l, Evaluates ρ e l) ∧ EvaluatesSome ρ es k

/-- The links of a chain of comparisons evaluate one after the other up to the one at which it ends.
-/
def EvaluatesLink (ρ : Store) (previous : Kind) (ops : List BinaryOp) : List Expr → Kind → Prop
  | [], _ => False
  | e :: es, k =>
    match ops with
    | [] => False
    | op :: ops => ∃ r link, Evaluates ρ e r ∧ op.result? previous r = some link ∧
      (k = link ∨ EvaluatesLink ρ r ops es k)

def EvaluatesKey (ρ : Store) : Option Expr → Prop
  | none => True
  | some e => ∃ k, Evaluates ρ e k

def EvaluatesKeys (ρ : Store) : List (Option Expr) → Prop
  | [] => True
  | e :: es => EvaluatesKey ρ e ∧ EvaluatesKeys ρ es

end

/-! ### Items -/

/-- A name that is assigned at an occurrence, and the kind of the value. -/
structure Write where
  id : NameId
  name : String
  kind : Kind
deriving DecidableEq, Repr

def Write.event (w : Write) : Event := .write w.id w.name

/-- A value of some kind goes to a target. -/
def writeTo? (k : Kind) : Expr → Option Write
  | .name _ id x => some ⟨id, x, k⟩
  | _ => none

/-- The items of an assignment whose target and value are displays that can be paired. -/
def pairs? (value : Expr) : List Expr → Option (List (Expr × Expr))
  | [target] => pairing? target value
  | _ => none

/-- Values are all evaluated in the same store, and then go to their targets. -/
def AssignsPairs (ρ : Store) : List (Expr × Expr) → List Write → Prop
  | [], ws => ws = []
  | (target, value) :: pairs, ws =>
    ∃ k rest, Evaluates ρ value k ∧ AssignsPairs ρ pairs rest ∧ ws = (writeTo? k target).toList ++ rest

/-- In a store, an action can be evaluated and assigns some names, one after the other. -/
def Assigns (ρ : Store) : Action → List Write → Prop
  | .test e, ws => (∃ k, Evaluates ρ e k) ∧ ws = []
  | .simple (.expr _ e), ws => (∃ k, Evaluates ρ e k) ∧ ws = []
  | .simple (.assign _ targets value), ws =>
    match pairs? value targets with
    | some pairs => AssignsPairs ρ pairs ws
    | none => ∃ k, Evaluates ρ value k ∧ ws = targets.filterMap (writeTo? k)
  | .simple (.augAssign _ (.name _ id x) op value), ws =>
    ∃ l r k, ρ x = some l ∧ Evaluates ρ value r ∧ op.result? l r = some k ∧ ws = [⟨id, x, k⟩]
  | _, _ => False

def Store.put (ρ : Store) (ws : List Write) : Store :=
  ws.foldl (fun ρ w => Function.update ρ w.name (some w.kind)) ρ

/-- Evaluating items one after the other, with no name assigned at first, leaves a store. -/
inductive StoreAfter : List Item → Store → Prop
  | start : StoreAfter [] fun _ => none
  | item {xs : List Item} {ρ : Store} {i : Item} {ws : List Write} (h : StoreAfter xs ρ)
      (hi : Assigns ρ i.action ws) : StoreAfter (xs ++ [i]) (ρ.put ws)

mutual

/-- The expressions that are evaluated for the sake of an expression. -/
def inside : Expr → List Expr
  | .binary _ left _ right => (left :: inside left) ++ (right :: inside right)
  | .unary _ _ operand => operand :: inside operand
  | .bool _ _ operands => insideAll operands
  | .compare _ left ops comparators => (left :: inside left) ++ insideLinks ops comparators
  | .list _ items => insideAll items
  | .tuple _ items => insideAll items
  | .set _ items => insideAll items
  | .dict _ keys values => insideKeys keys ++ insideAll values
  | .conditional _ test body orelse =>
    (test :: inside test) ++ (body :: inside body) ++ (orelse :: inside orelse)
  | _ => []

/-- Expressions and all that is evaluated for their sake. -/
def insideAll : List Expr → List Expr
  | [] => []
  | e :: es => (e :: inside e) ++ insideAll es

def insideKey : Option Expr → List Expr
  | none => []
  | some e => e :: inside e

def insideKeys : List (Option Expr) → List Expr
  | [] => []
  | e :: es => insideKey e ++ insideKeys es

def insideLinks (ops : List BinaryOp) : List Expr → List Expr
  | [] => []
  | e :: es =>
    match ops with
    | [] => []
    | _ :: ops => (e :: inside e) ++ insideLinks ops es

end

/-- The expressions that an action evaluates.  Displays that are paired are not evaluated, only
their items. -/
def expressionsOf : Action → List Expr
  | .test e => e :: inside e
  | .simple (.expr _ e) => e :: inside e
  | .simple (.assign _ targets value) =>
    match pairs? value targets with
    | some pairs => insideAll (pairs.map Prod.snd)
    | none => value :: inside value
  | .simple (.augAssign _ (.name line id x) _ value) => .name line id x :: value :: inside value
  | _ => []

/-! ### The part of the language -/

mutual

/-- Literals, displays, operators, conditionals, and names out of some list. -/
def isFlowExpr (names : List String) : Expr → Bool
  | .name _ _ x => names.contains x
  | .constant _ c => c.kind?.isSome
  | .binary _ left _ right => isFlowExpr names left && isFlowExpr names right
  | .unary _ _ operand => isFlowExpr names operand
  | .bool _ _ operands => isFlowExprs names operands
  | .compare _ left _ comparators => isFlowExpr names left && isFlowExprs names comparators
  | .list _ items => isFlowExprs names items
  | .tuple _ items => isFlowExprs names items
  | .set _ items => isFlowExprs names items
  | .dict _ keys values =>
    keys.length == values.length && isFlowKeys names keys && isFlowExprs names values
  | .conditional _ test body orelse =>
    isFlowExpr names test && isFlowExpr names body && isFlowExpr names orelse
  | _ => false

def isFlowExprs (names : List String) : List Expr → Bool
  | [] => true
  | e :: es => isFlowExpr names e && isFlowExprs names es

def isFlowKey (names : List String) : Option Expr → Bool
  | none => true
  | some e => isFlowExpr names e

def isFlowKeys (names : List String) : List (Option Expr) → Bool
  | [] => true
  | e :: es => isFlowKey names e && isFlowKeys names es

end

def isName : Expr → Bool
  | .name .. => true
  | _ => false

/-- Assignments to names, one by one or display by display. -/
def isFlowAssignment (names : List String) (targets : List Expr) (value : Expr) : Bool :=
  match pairs? value targets with
  | some pairs => pairs.all fun (target, value) => isName target && isFlowExpr names value
  | none => targets.all isName && isFlowExpr names value

mutual

/-- Assignments to names, expressions, branches, `while` loops, and jumps inside of loops. -/
def isFlowStmt (names : List String) : Stmt → Bool
  | .assign _ targets value => isFlowAssignment names targets value
  | .augAssign _ target _ value => isName target && isFlowExpr names target && isFlowExpr names value
  | .expr _ value => isFlowExpr names value
  | .ifThen _ test body orelse =>
    isFlowExpr names test && isFlowStmts names body && isFlowStmts names orelse
  | .whileLoop _ test body orelse =>
    isFlowExpr names test && isFlowStmts names body && isFlowStmts names orelse
  | .break _ | .continue _ | .pass _ => true
  | _ => false

def isFlowStmts (names : List String) : List Stmt → Bool
  | [] => true
  | s :: ss => isFlowStmt names s && isFlowStmts names ss

end

/-- The names that are assigned somewhere in the body of a module. -/
def assignedNames (body : List Stmt) : List String :=
  (Event.ofItems (itemsOfAll false 0 body)).filterMap Event.written?

def isFlowAction (names : List String) : Action → Bool
  | .test e => isFlowExpr names e
  | .simple (.expr _ e) => isFlowExpr names e
  | .simple (.assign _ targets value) => isFlowAssignment names targets value
  | .simple (.augAssign _ target _ value) =>
    isName target && isFlowExpr names target && isFlowExpr names value
  | _ => false

/-! ### Events -/

/-- An event that reads one of some names. -/
def IsRead (names : List String) (e : Event) : Prop := ∃ id, ∃ x ∈ names, e = .read id x

theorem ofEach_eq (hidden : List String) (es : List Expr) :
    Event.ofEach hidden es = es.map (Event.ofExpr hidden) := by
  induction es with
  | nil => rfl
  | cons e es ih => rw [Event.ofEach, ih, map_cons]

theorem ofEachKey_eq (hidden : List String) (keys : List (Option Expr)) :
    Event.ofEachKey hidden keys = keys.map (Event.ofOption hidden) := by
  induction keys with
  | nil => rfl
  | cons key keys ih => rw [Event.ofEachKey, ih, map_cons]

theorem ofExprs_eq (hidden : List String) (es : List Expr) :
    Event.ofExprs hidden es = es.flatMap (Event.ofExpr hidden) := by
  induction es with
  | nil => rfl
  | cons e es ih => rw [Event.ofExprs, ih, flatMap_cons]

/-- The events of a dictionary are those of its keys and values, which it evaluates in turns. -/
theorem mem_flatten_zipWith {α : Type} {a : α} {ks vs : List (List α)} (h : ks.length = vs.length) :
    a ∈ (List.zipWith (· ++ ·) ks vs).flatten ↔ a ∈ ks.flatten ∨ a ∈ vs.flatten := by
  induction ks generalizing vs with
  | nil =>
    rw [length_nil] at h
    rw [eq_nil_of_length_eq_zero h.symm]
    simp
  | cons k ks ih =>
    cases vs with
    | nil => cases h
    | cons v vs =>
      rw [zipWith_cons_cons, flatten_cons, flatten_cons, flatten_cons, mem_append,
        mem_append, mem_append, mem_append, ih (Nat.succ.inj h)]
      tauto

theorem mem_ofExpr_dict {line : Nat} {keys : List (Option Expr)} {e : Event}
    (h : keys.length = items.length) :
    e ∈ Event.ofExpr [] (.dict line keys items) ↔
      (∃ key ∈ keys, e ∈ Event.ofOption [] key) ∨ e ∈ Event.ofExprs [] items := by
  show e ∈ (List.zipWith (· ++ ·) (Event.ofEachKey [] keys) (Event.ofEach [] items)).flatten ↔ _
  rw [ofEachKey_eq, ofEach_eq, mem_flatten_zipWith (by simpa using h), ofExprs_eq, flatMap_def]
  simp

mutual

theorem isRead_ofExpr (e : Expr) (h : isFlowExpr names e = true) :
    ∀ ev ∈ Event.ofExpr [] e, IsRead names ev := by
  intro ev hev
  cases e with
  | name line id x =>
    have hread : ev = .read id x := by simpa [Event.ofExpr, Event.reading] using hev
    exact ⟨id, x, contains_iff_mem.1 h, hread⟩
  | constant line c => cases hev
  | binary line left op right =>
    obtain ⟨hl, hr⟩ := Bool.and_eq_true_iff.1 h
    rcases mem_append.1 hev with hev | hev
    · exact isRead_ofExpr left hl ev hev
    · exact isRead_ofExpr right hr ev hev
  | unary line op operand => exact isRead_ofExpr operand h ev hev
  | bool line op operands => exact isRead_ofExprs operands h ev hev
  | compare line left ops comparators =>
    obtain ⟨hl, hr⟩ := Bool.and_eq_true_iff.1 h
    rcases mem_append.1 hev with hev | hev
    · exact isRead_ofExpr left hl ev hev
    · exact isRead_ofExprs comparators hr ev hev
  | list line items | tuple line items | set line items => exact isRead_ofExprs items h ev hev
  | dict line keys items =>
    obtain ⟨hkeys, hitems⟩ := Bool.and_eq_true_iff.1 h
    obtain ⟨hlength, hkeys⟩ := Bool.and_eq_true_iff.1 hkeys
    rcases (mem_ofExpr_dict (beq_iff_eq.1 hlength)).1 hev with ⟨key, hkey, hev⟩ | hev
    · exact isRead_ofKeys keys hkeys key hkey ev hev
    · exact isRead_ofExprs items hitems ev hev
  | conditional line test body orelse =>
    obtain ⟨htest, hother⟩ := Bool.and_eq_true_iff.1 h
    obtain ⟨htest, hbody⟩ := Bool.and_eq_true_iff.1 htest
    rcases mem_append.1 hev with hev | hev
    · rcases mem_append.1 hev with hev | hev
      · exact isRead_ofExpr test htest ev hev
      · exact isRead_ofExpr body hbody ev hev
    · exact isRead_ofExpr orelse hother ev hev
  | _ => cases h

theorem isRead_ofExprs (es : List Expr) (h : isFlowExprs names es = true) :
    ∀ ev ∈ Event.ofExprs [] es, IsRead names ev := by
  intro ev hev
  cases es with
  | nil => cases hev
  | cons e es =>
    obtain ⟨he, hes⟩ := Bool.and_eq_true_iff.1 h
    rcases mem_append.1 hev with hev | hev
    · exact isRead_ofExpr e he ev hev
    · exact isRead_ofExprs es hes ev hev

theorem isRead_ofKey (key : Option Expr) (h : isFlowKey names key = true) :
    ∀ ev ∈ Event.ofOption [] key, IsRead names ev := by
  intro ev hev
  cases key with
  | none => cases hev
  | some e => exact isRead_ofExpr e h ev hev

theorem isRead_ofKeys (keys : List (Option Expr)) (h : isFlowKeys names keys = true) :
    ∀ key ∈ keys, ∀ ev ∈ Event.ofOption [] key, IsRead names ev := by
  intro key hkey
  cases keys with
  | nil => cases hkey
  | cons first keys =>
    obtain ⟨hfirst, hkeys⟩ := Bool.and_eq_true_iff.1 h
    rcases mem_cons.1 hkey with heq | hkey
    · rw [heq]
      exact isRead_ofKey first hfirst
    · exact isRead_ofKeys keys hkeys key hkey

end

/-- Storing into names writes them one after the other. -/
theorem map_event_filterMap_writeTo? (h : targets.all isName = true) (k : Kind) :
    (targets.filterMap (writeTo? k)).map Write.event = Event.ofTargets targets := by
  induction targets with
  | nil => rfl
  | cons target targets ih =>
    obtain ⟨htarget, htargets⟩ := Bool.and_eq_true_iff.1 h
    cases target with
    | name line id x => exact congrArg (Event.write id x :: ·) (ih htargets)
    | _ => cases htarget

theorem isWrite_ofTargets (h : targets.all isName = true) :
    ∀ e ∈ Event.ofTargets targets, ∃ id x, e = .write id x := by
  intro e he
  -- whatever the kind of the value may be
  rw [← map_event_filterMap_writeTo? h .none] at he
  obtain ⟨w, -, rfl⟩ := mem_map.1 he
  exact ⟨w.id, w.name, rfl⟩

/-- The events of displays are those of their items. -/
theorem displayItems?_eq_some {e : Expr} (h : displayItems? e = some items) :
    Event.ofExpr [] e = Event.ofExprs [] items ∧ Event.ofTarget e = Event.ofTargets items := by
  cases e with
  | tuple line items' | list line items' =>
    cases h
    exact ⟨rfl, rfl⟩
  | _ => cases h

theorem pairs?_eq_some {value : Expr} (h : pairs? value targets = some pairs) :
    Event.ofExpr [] value = Event.ofExprs [] (pairs.map Prod.snd) ∧
      Event.ofTargets targets = Event.ofTargets (pairs.map Prod.fst) := by
  obtain ⟨target, rfl⟩ : ∃ target, targets = [target] := by
    unfold pairs? at h
    split at h
    · exact ⟨_, rfl⟩
    · cases h
  obtain ⟨names, hnames, h⟩ := Option.bind_eq_some_iff.1 (h : pairing? target value = some pairs)
  obtain ⟨items, hitems, h⟩ := Option.bind_eq_some_iff.1 h
  split at h
  · next hfits =>
    have hlength : names.length = items.length := of_decide_eq_true (Bool.and_eq_true_iff.1 hfits).1
    cases h
    rw [map_fst_zip hlength.le, map_snd_zip hlength.ge, ← (displayItems?_eq_some hitems).1,
      ← (displayItems?_eq_some hnames).2]
    exact ⟨rfl, append_nil _⟩
  · cases h

theorem AssignsPairs.events {ρ : Store} {ws : List Write}
    (h : AssignsPairs ρ pairs ws) (hnames : ∀ p ∈ pairs, isName p.1 = true) :
    ws.map Write.event = Event.ofTargets (pairs.map Prod.fst) := by
  induction pairs generalizing ws with
  | nil =>
    cases h
    rfl
  | cons p pairs ih =>
    obtain ⟨target, value⟩ := p
    obtain ⟨k, rest, -, hrest, rfl⟩ := h
    have hevents := ih hrest fun p hp => hnames p (mem_cons_of_mem _ hp)
    have htarget : isName target = true := hnames (target, value) mem_cons_self
    cases target with
    | name line id x => exact congrArg (Event.write id x :: ·) hevents
    | _ => cases htarget

theorem isRead_ofExprs_map_snd (h : ∀ p ∈ pairs, isFlowExpr names p.2 = true) :
    ∀ ev ∈ Event.ofExprs [] (pairs.map Prod.snd), IsRead names ev := by
  intro ev hev
  rw [ofExprs_eq] at hev
  obtain ⟨e, he, hev⟩ := mem_flatMap.1 hev
  obtain ⟨p, hp, rfl⟩ := mem_map.1 he
  exact isRead_ofExpr p.2 (h p hp) ev hev

/-- **An item reads before it writes**, and what it writes is what it assigns. -/
theorem ofAction_eq {a : Action} (h : isFlowAction names a = true) :
    ∃ reads writes, Event.ofAction a = reads ++ writes ∧ (∀ e ∈ reads, IsRead names e) ∧
      (∀ e ∈ writes, ∃ id x, e = .write id x) ∧ ∀ ρ ws, Assigns ρ a ws → ws.map Write.event = writes := by
  unfold isFlowAction at h
  split at h
  · next e =>
    refine ⟨_, [], (append_nil _).symm, isRead_ofExpr e h, fun e he => absurd he not_mem_nil, ?_⟩
    rintro ρ ws ⟨-, rfl⟩
    rfl
  · next line e =>
    refine ⟨_, [], (append_nil _).symm, isRead_ofExpr e h, fun e he => absurd he not_mem_nil, ?_⟩
    rintro ρ ws ⟨-, rfl⟩
    rfl
  · next line targets value =>
    refine ⟨Event.ofExpr [] value, Event.ofTargets targets, rfl, ?_⟩
    unfold isFlowAssignment at h
    rcases hpairs : pairs? value targets with - | pairs
    · rw [hpairs] at h
      obtain ⟨htargets, hvalue⟩ := Bool.and_eq_true_iff.1 h
      refine ⟨isRead_ofExpr value hvalue, isWrite_ofTargets htargets, fun ρ ws hws => ?_⟩
      simp only [Assigns, hpairs] at hws
      obtain ⟨k, -, rfl⟩ := hws
      exact map_event_filterMap_writeTo? htargets k
    · rw [hpairs] at h
      have hall : ∀ p ∈ pairs, isName p.1 = true ∧ isFlowExpr names p.2 = true := fun p hp =>
        Bool.and_eq_true_iff.1 (all_eq_true.1 h p hp)
      obtain ⟨hreads, hwrites⟩ := pairs?_eq_some hpairs
      rw [hreads, hwrites]
      refine ⟨isRead_ofExprs_map_snd fun p hp => (hall p hp).2, isWrite_ofTargets ?_, fun ρ ws hws => ?_⟩
      · rw [all_map, all_eq_true]
        exact fun p hp => (hall p hp).1
      simp only [Assigns, hpairs] at hws
      exact hws.events fun p hp => (hall p hp).1
  · next line target op value =>
    obtain ⟨htarget, hvalue⟩ := Bool.and_eq_true_iff.1 h
    obtain ⟨hname, hread⟩ := Bool.and_eq_true_iff.1 htarget
    cases target with
    | name line' id x =>
      refine ⟨.read id x :: Event.ofExpr [] value, [.write id x], rfl, fun e he => ?_,
        fun e he => ⟨id, x, mem_singleton.1 he⟩, ?_⟩
      · rcases mem_cons.1 he with rfl | he
        · exact ⟨id, x, contains_iff_mem.1 hread, rfl⟩
        · exact isRead_ofExpr value hvalue e he
      · rintro ρ ws ⟨l, r, k, -, -, -, rfl⟩
        rfl
    | _ => cases hname
  · cases h

/-! ### Statements -/

mutual

theorem tryFree_of_isFlowStmt (s : Stmt) (h : isFlowStmt names s = true) : TryFree s := by
  cases s with
  | ifThen line test body orelse | whileLoop line test body orelse =>
    obtain ⟨hbody, horelse⟩ := Bool.and_eq_true_iff.1 h
    exact ⟨tryFreeAll_of_isFlowStmts body (Bool.and_eq_true_iff.1 hbody).2,
      tryFreeAll_of_isFlowStmts orelse horelse⟩
  | forLoop line target iter body orelse | withBlock line items body
  | tryBlock line body handlers orelse finalbody => cases h
  | _ => exact trivial

theorem tryFreeAll_of_isFlowStmts (ss : List Stmt)
    (h : isFlowStmts names ss = true) : TryFreeAll ss := by
  cases ss with
  | nil => exact trivial
  | cons s ss =>
    obtain ⟨hs, hss⟩ := Bool.and_eq_true_iff.1 h
    exact ⟨tryFree_of_isFlowStmt s hs, tryFreeAll_of_isFlowStmts ss hss⟩

end

mutual

/-- The items of a statement are of the part of the language as well. -/
theorem isFlowAction_of_mem_itemsOf (fn : Bool) (n : Nat) (s : Stmt)
    (h : isFlowStmt names s = true) (hi : i ∈ itemsOf fn n s) : isFlowAction names i.action = true := by
  cases s with
  | assign line targets value | augAssign line target op value | expr line value =>
    rw [mem_singleton.1 hi]
    exact h
  | ifThen line test body orelse | whileLoop line test body orelse =>
    obtain ⟨htest, horelse⟩ := Bool.and_eq_true_iff.1 h
    obtain ⟨htest, hbody⟩ := Bool.and_eq_true_iff.1 htest
    rcases mem_append.1 hi with hi | hi
    · rcases mem_cons.1 hi with rfl | hi
      · exact htest
      · exact isFlowAction_of_mem_itemsOfAll fn _ body hbody hi
    · exact isFlowAction_of_mem_itemsOfAll fn _ orelse horelse hi
  | «break» line | «continue» line | pass line => cases hi
  | _ => cases h

theorem isFlowAction_of_mem_itemsOfAll (fn : Bool) (n : Nat)
    (ss : List Stmt) (h : isFlowStmts names ss = true) (hi : i ∈ itemsOfAll fn n ss) :
    isFlowAction names i.action = true := by
  cases ss with
  | nil => cases hi
  | cons s ss =>
    obtain ⟨hs, hss⟩ := Bool.and_eq_true_iff.1 h
    rcases mem_append.1 hi with hi | hi
    · exact isFlowAction_of_mem_itemsOf fn n s hs hi
    · exact isFlowAction_of_mem_itemsOfAll fn _ ss hss hi

end

end Evaluation

end FlowTyping
