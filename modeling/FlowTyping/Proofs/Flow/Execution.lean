/-
What executions of a body evaluate, statement by statement.

`Executes` is the structural semantics of statements without `try`: every test and every choice to
go on with a loop is free, a `break` passes over the `else` clause of its loop, and a jump that has
nowhere to go has no effect.  An execution is known by the items that it evaluates and by its
outcome.  It may be cut off where a list of statements starts; its outcome is then the same as after
a `raise`.

Beside it stand walks through a chart of blocks.  `Behaves` says that the walks from a position to
the last block are those that some executions allow, and that every execution is a walk.  Each way
of combining statements has one lemma about `Behaves`; how statements are laid out as blocks does
not come in yet.
-/
import FlowTyping.Proofs.Flow.Laid

namespace FlowTyping.Flow

open List

/-! ### Executions of statements -/

/-- How control leaves a statement. -/
inductive Outcome where
  /-- It goes on with what follows. -/
  | normal
  | broke
  | continued
  | returned
  /-- Nothing follows: an exception was raised, or the execution was cut off. -/
  | halted
deriving DecidableEq, Repr

/-- The items that executions evaluate, with their outcomes. -/
abbrev Traces := List Item → Outcome → Prop

namespace Traces

/-- Exactly these items, with this outcome. -/
def only (items : List Item) (outcome : Outcome) : Traces := fun xs o => xs = items ∧ o = outcome

def either (E F : Traces) : Traces := fun xs o => E xs o ∨ F xs o

/-- First some items and then an execution. -/
def after (items : List Item) (E : Traces) : Traces := fun xs o => ∃ ys, E ys o ∧ xs = items ++ ys

/-- One execution and, if it goes on, another one. -/
def seq (E F : Traces) : Traces := fun xs o =>
  (∃ ys zs, E ys .normal ∧ F zs o ∧ xs = ys ++ zs) ∨ (E xs o ∧ o ≠ .normal)

/-- The executions of a loop.  Each round starts with the items `head`, after which the loop either
ends with its `else` clause or goes on with the items `start` and its body. -/
inductive rounds (head start : List Item) (body orelse : Traces) : Traces
  | done {ys : List Item} {o : Outcome} (h : orelse ys o) : rounds head start body orelse (head ++ ys) o
  | again {ys zs : List Item} {o o' : Outcome} (h : body ys o) (ho : o = .normal ∨ o = .continued)
      (hrest : rounds head start body orelse zs o') :
      rounds head start body orelse (head ++ (start ++ (ys ++ zs))) o'
  | broke {ys : List Item} (h : body ys .broke) :
      rounds head start body orelse (head ++ (start ++ ys)) .normal
  | left {ys : List Item} {o : Outcome} (h : body ys o) (ho : o = .returned ∨ o = .halted) :
      rounds head start body orelse (head ++ (start ++ ys)) o

/-- An execution that may also be cut off at its start. -/
def cut (E : Traces) : Traces := either (only [] .halted) E

end Traces

mutual

/-- The executions of a statement without `try`, inside of a loop or not; `for` loops are numbered
from `n` on.  A statement that is neither a jump nor compound evaluates its items and goes on. -/
def Executes (inFunction : Bool) : Bool → Nat → Stmt → Traces
  | _, _, .ret line value =>
    if inFunction then .only [⟨line, .ret value⟩] .returned else .only [] .normal
  | _, _, .raise line exc cause => .only [⟨line, .simple (.raise line exc cause)⟩] .halted
  | inLoop, _, .break _ => .only [] (if inLoop then .broke else .normal)
  | inLoop, _, .continue _ => .only [] (if inLoop then .continued else .normal)
  | inLoop, n, .ifThen line test body orelse =>
    .after [⟨line, .test test⟩] (.either (ExecutesAll inFunction inLoop n body)
      (ExecutesAll inFunction inLoop (n + loopsOfAll body) orelse))
  | inLoop, n, .whileLoop line test body orelse =>
    .rounds [⟨line, .test test⟩] [] (ExecutesAll inFunction true n body)
      (ExecutesAll inFunction inLoop (n + loopsOfAll body) orelse)
  | inLoop, n, .forLoop line target iter body orelse =>
    .after [⟨line, .forIter ⟨n⟩ iter⟩]
      (.rounds [] [⟨line, .forTarget ⟨n⟩ target⟩] (ExecutesAll inFunction true (n + 1) body)
        (ExecutesAll inFunction inLoop (n + 1 + loopsOfAll body) orelse))
  | inLoop, n, .withBlock line items body =>
    .after (items.map fun item => ⟨line, .withEnter item⟩) (ExecutesAll inFunction inLoop n body)
  | _, _, .tryBlock .. => fun _ _ => False
  | _, n, s => .only (itemsOf inFunction n s) .normal

def ExecutesAll (inFunction : Bool) : Bool → Nat → List Stmt → Traces
  | _, _, [] => .cut (.only [] .normal)
  | inLoop, n, s :: ss =>
    .cut (.seq (Executes inFunction inLoop n s) (ExecutesAll inFunction inLoop (n + loopsOf s) ss))

end

/-- The items that a complete execution of a body evaluates: it falls off the end or returns. -/
def Completes (inFunction : Bool) (body : List Stmt) (xs : List Item) : Prop :=
  ExecutesAll inFunction false 0 body xs .normal ∨ ExecutesAll inFunction false 0 body xs .returned

mutual

/-- Whether a statement has no `try`, nested functions and classes left out. -/
def TryFree : Stmt → Prop
  | .ifThen _ _ body orelse | .whileLoop _ _ body orelse | .forLoop _ _ _ body orelse =>
    TryFreeAll body ∧ TryFreeAll orelse
  | .withBlock _ _ body => TryFreeAll body
  | .tryBlock .. => False
  | _ => True

def TryFreeAll : List Stmt → Prop
  | [] => True
  | s :: ss => TryFree s ∧ TryFreeAll ss

end

/-! ### Walks -/

/-- The items of blocks, and the blocks to which they lead. -/
structure Chart where
  items : BlockId → List Item
  exits : BlockId → List BlockId

/-- A place between two items of a block. -/
structure Position where
  block : BlockId
  passed : Nat

def startOf (block : BlockId) : Position := ⟨block, 0⟩

/-- A walk of some number of steps from one position to another, past some items. -/
inductive Walk (G : Chart) : Nat → Position → List Item → Position → Prop
  | stay (p : Position) : Walk G 0 p [] p
  | item {n k : Nat} {b : BlockId} {i : Item} {xs : List Item} {q : Position}
      (hi : (G.items b)[k]? = some i) (h : Walk G n ⟨b, k + 1⟩ xs q) : Walk G (n + 1) ⟨b, k⟩ (i :: xs) q
  | exit {n k : Nat} {b c : BlockId} {xs : List Item} {q : Position} (hk : k = (G.items b).length)
      (hc : c ∈ G.exits b) (h : Walk G n ⟨c, 0⟩ xs q) : Walk G (n + 1) ⟨b, k⟩ xs q

variable {G : Chart} {p q r : Position} {xs ys : List Item} {n m : Nat} {b : BlockId}

theorem Walk.trans (h : Walk G n p xs q) (h' : Walk G m q ys r) : ∃ l, Walk G l p (xs ++ ys) r := by
  induction h with
  | stay p => exact ⟨m, h'⟩
  | item hi _ ih =>
    obtain ⟨l, hl⟩ := ih h'
    exact ⟨l + 1, .item hi hl⟩
  | exit hk hc _ ih =>
    obtain ⟨l, hl⟩ := ih h'
    exact ⟨l + 1, .exit hk hc hl⟩

/-- A walk that evaluates an item stands before it at some time. -/
theorem Walk.before {i : Item} (h : Walk G n p (xs ++ i :: ys) q) :
    ∃ m r, Walk G m p xs r ∧ (G.items r.block)[r.passed]? = some i := by
  generalize hzs : xs ++ i :: ys = zs at h
  induction h generalizing xs with
  | stay p => simp at hzs
  | @item n k b j zs q hj _ ih =>
    cases xs with
    | nil =>
      obtain ⟨rfl, -⟩ := List.cons.inj hzs
      exact ⟨0, ⟨b, k⟩, .stay _, hj⟩
    | cons x xs =>
      obtain ⟨rfl, htail⟩ := List.cons.inj hzs
      obtain ⟨m, r, hw, hi⟩ := ih htail
      exact ⟨m + 1, r, .item hj hw, hi⟩
  | exit hk hc _ ih =>
    obtain ⟨m, r, hw, hi⟩ := ih hzs
    exact ⟨m + 1, r, .exit hk hc hw, hi⟩

theorem walk_items {before items : List Item} (h : before ++ items <+: G.items b) :
    Walk G items.length ⟨b, before.length⟩ items ⟨b, before.length + items.length⟩ := by
  induction items generalizing before with
  | nil => exact .stay _
  | cons i items ih =>
    have hrest := @ih (before ++ [i]) (by rw [append_assoc]; exact h)
    rw [length_append, length_singleton, add_assoc, add_comm 1] at hrest
    refine .item ?_ hrest
    obtain ⟨after, hafter⟩ := h
    rw [← hafter, append_assoc, List.getElem?_append_right (Nat.le_refl _), Nat.sub_self]
    rfl

/-- A walk to the last block goes past an item or, at the end of a block, along an edge. -/
theorem walk_cases {k : Nat} (hb : b ≠ last) (hw : Walk G n ⟨b, k⟩ xs (startOf last)) :
    (∃ i ys m, (G.items b)[k]? = some i ∧ xs = i :: ys ∧ m < n ∧
      Walk G m ⟨b, k + 1⟩ ys (startOf last)) ∨
    ∃ c m, k = (G.items b).length ∧ c ∈ G.exits b ∧ m < n ∧ Walk G m (startOf c) xs (startOf last) := by
  generalize hq : startOf last = q at hw
  cases hw with
  | stay =>
    cases hq
    exact absurd rfl hb
  | item hi hw => exact .inl ⟨_, _, _, hi, rfl, Nat.lt_succ_self _, hq ▸ hw⟩
  | exit hk hc hw => exact .inr ⟨_, _, hk, hc, Nat.lt_succ_self _, hq ▸ hw⟩

/-- A walk to the last block that starts in front of items goes past them. -/
theorem walk_items_inv {before items : List Item} (hb : b ≠ last)
    (h : before ++ items <+: G.items b) (hw : Walk G n ⟨b, before.length⟩ xs (startOf last)) :
    ∃ ys m, xs = items ++ ys ∧ m ≤ n ∧ Walk G m ⟨b, before.length + items.length⟩ ys (startOf last) := by
  induction items generalizing before xs n with
  | nil => exact ⟨xs, n, rfl, le_rfl, hw⟩
  | cons i items ih =>
    have hi : (G.items b)[before.length]? = some i := by
      obtain ⟨after, hafter⟩ := h
      rw [← hafter, append_assoc, List.getElem?_append_right (Nat.le_refl _), Nat.sub_self]
      rfl
    rcases walk_cases hb hw with ⟨j, ys, m, hj, rfl, hm, hwalk⟩ | ⟨c, m, hk, -, -, -⟩
    · rw [hi] at hj
      cases hj
      have hpre : (before ++ [i]) ++ items <+: G.items b := by
        rw [append_assoc]
        exact h
      have hlen : before.length + 1 = (before ++ [i]).length := by simp
      rw [hlen] at hwalk
      obtain ⟨zs, l, rfl, hl, hrest⟩ := ih hpre hwalk
      rw [length_append, length_singleton, add_assoc, add_comm 1] at hrest
      exact ⟨zs, l, rfl, hl.trans hm.le, hrest⟩
    · rw [List.getElem?_eq_none (le_of_eq hk.symm)] at hi
      cases hi

/-- A walk to the last block from the end of a block goes on along an edge. -/
theorem walk_exit_inv {k : Nat} (hb : b ≠ last) (hk : k = (G.items b).length)
    (hw : Walk G n ⟨b, k⟩ xs (startOf last)) :
    ∃ c m, c ∈ G.exits b ∧ m < n ∧ Walk G m (startOf c) xs (startOf last) := by
  rcases walk_cases hb hw with ⟨i, ys, m, hi, -⟩ | ⟨c, m, -, hrest⟩
  · rw [List.getElem?_eq_none (le_of_eq hk.symm)] at hi
    cases hi
  · exact ⟨c, m, hrest⟩

/-! ### Charts that behave as executions say -/

/-- The walks from a position to the last block are those that executions allow, which leave for `d
o` with outcome `o`; and every execution is a walk. -/
structure Behaves (G : Chart) (p : Position) (E : Traces) (d : Outcome → Option Position) : Prop where
  runs : ∀ xs o, E xs o → ∃ n q, Walk G n p xs q ∧ ∀ r, d o = some r → q = r
  only : ∀ n xs, Walk G n p xs (startOf last) → ∃ ys zs o q m, E ys o ∧ d o = some q ∧
    xs = ys ++ zs ∧ m ≤ n ∧ Walk G m q zs (startOf last)

namespace Behaves

variable {E F : Traces} {d d' : Outcome → Option Position} {b c : BlockId} {k : Nat}

theorem here {o : Outcome} (h : d o = some p) : Behaves G p (.only [] o) d where
  runs := by
    rintro xs o' ⟨rfl, rfl⟩
    refine ⟨0, p, .stay p, fun r hr => ?_⟩
    rw [h] at hr
    exact Option.some.inj hr
  only n xs hw := ⟨[], xs, o, p, n, ⟨rfl, rfl⟩, h, rfl, Nat.le_refl n, hw⟩

/-- Executions that are cut off before anything is evaluated may be added. -/
theorem cut (h : Behaves G p E d) (hd : d .halted = none) : Behaves G p (.cut E) d where
  runs := by
    rintro xs o (⟨rfl, rfl⟩ | hE)
    · refine ⟨0, p, .stay p, fun r hr => ?_⟩
      rw [hd] at hr
      cases hr
    · exact h.runs xs o hE
  only n xs hw := by
    obtain ⟨ys, zs, o, q, m, hE, hrest⟩ := h.only n xs hw
    exact ⟨ys, zs, o, q, m, .inr hE, hrest⟩

theorem stuck (hb : b ≠ last) (hk : k = (G.items b).length) (hexits : ∀ e, e ∉ G.exits b)
    (hd : d .halted = none) : Behaves G ⟨b, k⟩ (.only [] .halted) d where
  runs := by
    rintro xs o ⟨rfl, rfl⟩
    refine ⟨0, _, .stay _, fun r hr => ?_⟩
    rw [hd] at hr
    cases hr
  only n xs hw := by
    obtain ⟨c, m, hc, -⟩ := walk_exit_inv hb hk hw
    exact absurd hc (hexits c)

theorem after {before items : List Item} (hb : b ≠ last) (hitems : before ++ items <+: G.items b)
    (h : Behaves G ⟨b, before.length + items.length⟩ E d) :
    Behaves G ⟨b, before.length⟩ (.after items E) d where
  runs := by
    rintro xs o ⟨ys, hE, rfl⟩
    obtain ⟨n, q, hw, hq⟩ := h.runs ys o hE
    obtain ⟨l, hl⟩ := (walk_items hitems).trans hw
    exact ⟨l, q, hl, hq⟩
  only n xs hw := by
    obtain ⟨rest, m, rfl, hm, hw⟩ := walk_items_inv hb hitems hw
    obtain ⟨ys, zs, o, q, l, hE, hq, rfl, hl, hw⟩ := h.only m rest hw
    exact ⟨items ++ ys, zs, o, q, l, ⟨ys, hE, rfl⟩, hq, (append_assoc ..).symm, hl.trans hm, hw⟩

theorem fork {c' : BlockId} (hb : b ≠ last) (hk : k = (G.items b).length)
    (hexits : ∀ e, e ∈ G.exits b ↔ e ∈ [c, c']) (h : Behaves G (startOf c) E d)
    (h' : Behaves G (startOf c') F d) :
    Behaves G ⟨b, k⟩ (.either E F) d where
  runs := by
    rintro xs o (hE | hF)
    · obtain ⟨n, q, hw, hq⟩ := h.runs xs o hE
      exact ⟨n + 1, q, .exit hk (by simp [hexits]) hw, hq⟩
    · obtain ⟨n, q, hw, hq⟩ := h'.runs xs o hF
      exact ⟨n + 1, q, .exit hk (by simp [hexits]) hw, hq⟩
  only n xs hw := by
    obtain ⟨e, m, he, hm, hw⟩ := walk_exit_inv hb hk hw
    rw [hexits, mem_cons, mem_singleton] at he
    rcases he with rfl | rfl
    · obtain ⟨ys, zs, o, q, l, hE, hq, hxs, hl, hw⟩ := h.only m xs hw
      exact ⟨ys, zs, o, q, l, .inl hE, hq, hxs, hl.trans hm.le, hw⟩
    · obtain ⟨ys, zs, o, q, l, hF, hq, hxs, hl, hw⟩ := h'.only m xs hw
      exact ⟨ys, zs, o, q, l, .inr hF, hq, hxs, hl.trans hm.le, hw⟩

theorem jump (hb : b ≠ last) (hk : k = (G.items b).length) (hexits : ∀ e, e ∈ G.exits b ↔ e ∈ [c])
    (h : Behaves G (startOf c) E d) : Behaves G ⟨b, k⟩ E d := by
  have heither : Traces.either E E = E := funext₂ fun _ _ => propext or_self_iff
  rw [← heither]
  exact .fork hb hk (by simpa using hexits) h h

/-- Executions that go on do so from where they leave for. -/
theorem seq (h : Behaves G p E d) (hq : d .normal = some q) (h' : Behaves G q F d')
    (hd : ∀ o, o ≠ .normal → d' o = d o) : Behaves G p (.seq E F) d' where
  runs := by
    rintro xs o (⟨ys, zs, hE, hF, rfl⟩ | ⟨hE, ho⟩)
    · obtain ⟨n, q', hw, hq'⟩ := h.runs ys .normal hE
      cases hq' q hq
      obtain ⟨m, r, hw', hr⟩ := h'.runs zs o hF
      obtain ⟨l, hl⟩ := hw.trans hw'
      exact ⟨l, r, hl, hr⟩
    · obtain ⟨n, q', hw, hq'⟩ := h.runs xs o hE
      refine ⟨n, q', hw, fun r hr => hq' r ?_⟩
      rw [← hd o ho]
      exact hr
  only n xs hw := by
    obtain ⟨ys, zs, o, q', m, hE, hq', rfl, hm, hw⟩ := h.only n xs hw
    by_cases ho : o = .normal
    · subst ho
      rw [hq] at hq'
      cases hq'
      obtain ⟨us, vs, o', r, l, hF, hr, rfl, hl, hw⟩ := h'.only m zs hw
      exact ⟨ys ++ us, vs, o', r, l, .inl ⟨ys, us, hE, hF, rfl⟩, hr, (append_assoc ..).symm,
        hl.trans hm, hw⟩
    · refine ⟨ys, zs, o, q', m, .inr ⟨hE, ho⟩, ?_, rfl, hm, hw⟩
      rw [hd o ho]
      exact hq'

theorem seq_only_nil (E : Traces) : Traces.seq E (.only [] .normal) = E := by
  funext xs o
  apply propext
  constructor
  · rintro (⟨ys, zs, hE, ⟨rfl, rfl⟩, rfl⟩ | ⟨hE, -⟩)
    · rw [append_nil]
      exact hE
    · exact hE
  · intro hE
    by_cases ho : o = .normal
    · subst ho
      exact .inl ⟨xs, [], hE, ⟨rfl, rfl⟩, (append_nil xs).symm⟩
    · exact .inr ⟨hE, ho⟩

/-- Executions that go on at the end of a block whose only edge leads to another block. -/
theorem andJump (h : Behaves G p E d) (hq : d .normal = some ⟨b, k⟩) (hb : b ≠ last)
    (hk : k = (G.items b).length) (hexits : ∀ e, e ∈ G.exits b ↔ e ∈ [c]) (hd' : d' .normal = some (startOf c))
    (hd : ∀ o, o ≠ .normal → d' o = d o) : Behaves G p E d' := by
  rw [← seq_only_nil E]
  exact h.seq hq (.jump hb hk hexits (.here hd')) hd

/-- **A loop.**  From its header the walks are the rounds of the loop, where the body leaves for the
header again and a `break` for where the loop goes on. -/
theorem loop {next : BlockId} {start : List Item} {body orelse : Traces} (hb : b ≠ last)
    (hc : c ≠ last) (hexits : ∀ e, e ∈ G.exits b ↔ e ∈ [c, next]) (hstart : start <+: G.items c)
    (hbody : Behaves G ⟨c, start.length⟩ body d') (horelse : Behaves G (startOf next) orelse d)
    (hnormal : d' .normal = some (startOf b)) (hcontinued : d' .continued = some (startOf b))
    (hbroke : d' .broke = d .normal) (hreturned : d' .returned = d .returned)
    (hhalted : d' .halted = none) (hhalted' : d .halted = none) :
    Behaves G (startOf b) (.rounds (G.items b) start body orelse) d where
  runs := by
    have hhead : Walk G (G.items b).length (startOf b) (G.items b) ⟨b, (G.items b).length⟩ := by
      simpa [startOf] using @walk_items G b [] (G.items b) prefix_rfl
    -- the way from the header to the body, for an execution of the body
    have henter : ∀ ys o, body ys o → ∃ n q, Walk G n (startOf b) (G.items b ++ (start ++ ys)) q ∧
        ∀ r, d' o = some r → q = r := by
      intro ys o hE
      obtain ⟨n, q, hw, hq⟩ := hbody.runs ys o hE
      have hfirst := @walk_items G c [] start (by simpa using hstart)
      simp only [length_nil, zero_add] at hfirst
      obtain ⟨l, hl⟩ := hfirst.trans hw
      obtain ⟨l', hl'⟩ := hhead.trans (.exit rfl (by simp [hexits]) hl)
      exact ⟨l', q, hl', hq⟩
    intro xs o hE
    induction hE with
    | @done ys o hF =>
      obtain ⟨n, q, hw, hq⟩ := horelse.runs ys o hF
      obtain ⟨l, hl⟩ := hhead.trans (.exit rfl (by simp [hexits]) hw)
      exact ⟨l, q, hl, hq⟩
    | @again ys zs o o' hE ho _ ih =>
      obtain ⟨n, q, hw, hq⟩ := henter ys o hE
      have hback : d' o = some (startOf b) := by
        rcases ho with rfl | rfl
        · exact hnormal
        · exact hcontinued
      cases hq _ hback
      obtain ⟨m, r, hw', hr⟩ := ih
      obtain ⟨l, hl⟩ := hw.trans hw'
      refine ⟨l, r, ?_, hr⟩
      simpa only [append_assoc] using hl
    | @broke ys hE =>
      obtain ⟨n, q, hw, hq⟩ := henter ys .broke hE
      refine ⟨n, q, hw, fun r hr => hq r ?_⟩
      rw [hbroke]
      exact hr
    | @left ys o hE ho =>
      obtain ⟨n, q, hw, hq⟩ := henter ys o hE
      refine ⟨n, q, hw, fun r hr => hq r ?_⟩
      rcases ho with rfl | rfl
      · rw [hreturned]
        exact hr
      · rw [hhalted'] at hr
        cases hr
  only n xs hw := by
    -- every round takes at least one step, the one into the body
    induction n using Nat.strong_induction_on generalizing xs with
    | _ n ih =>
    have hhead : ([] : List Item) ++ G.items b <+: G.items b := prefix_rfl
    obtain ⟨rest, m, rfl, hm, hw⟩ := walk_items_inv hb hhead hw
    simp only [length_nil, zero_add] at hw
    obtain ⟨e, l, he, hl, hw⟩ := walk_exit_inv hb rfl hw
    rw [hexits, mem_cons, mem_singleton] at he
    rcases he with rfl | rfl
    · have hfirst : ([] : List Item) ++ start <+: G.items e := by simpa using hstart
      obtain ⟨rest', m', rfl, hm', hw⟩ := walk_items_inv hc hfirst hw
      simp only [length_nil, zero_add] at hw
      obtain ⟨ys, zs, o, q, l', hE, hq, rfl, hl', hw⟩ := hbody.only m' rest' hw
      have hlt : l' < n := by omega
      have hround : (o = .normal ∨ o = .continued) → ∃ us vs o' q' j,
          Traces.rounds (G.items b) start body orelse us o' ∧ d o' = some q' ∧
            G.items b ++ (start ++ (ys ++ zs)) = us ++ vs ∧ j ≤ n ∧ Walk G j q' vs (startOf last) := by
        intro ho
        have hback : d' o = some (startOf b) := by
          rcases ho with rfl | rfl
          · exact hnormal
          · exact hcontinued
        rw [hback] at hq
        cases hq
        obtain ⟨us, vs, o', q', j, hE', hq', rfl, hj, hw⟩ := ih l' hlt zs hw
        exact ⟨_, vs, o', q', j, .again hE ho hE', hq', by simp only [append_assoc], by omega, hw⟩
      cases o with
      | normal => exact hround (.inl rfl)
      | continued => exact hround (.inr rfl)
      | broke =>
        rw [hbroke] at hq
        exact ⟨_, zs, .normal, q, l', .broke hE, hq, by simp only [append_assoc], hlt.le, hw⟩
      | returned =>
        rw [hreturned] at hq
        exact ⟨_, zs, .returned, q, l', .left hE (.inl rfl), hq, by simp only [append_assoc],
          hlt.le, hw⟩
      | halted =>
        rw [hhalted] at hq
        cases hq
    · obtain ⟨ys, zs, o, q, j, hF, hq, rfl, hj, hw⟩ := horelse.only l rest hw
      exact ⟨_, zs, o, q, j, .done hF, hq, by simp only [append_assoc], by omega, hw⟩

end Behaves

end FlowTyping.Flow
