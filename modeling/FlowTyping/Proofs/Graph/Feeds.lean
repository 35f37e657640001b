/-
How types get from one node to another.

A node feeds a plain node or a merge that has it as an input.  In a graph that has come to rest all
types follow, and no later graph takes the connection away, so a proof about a walk that builds a
graph can collect such facts on its way.  For an operator, kinds of the operands give the kind of
the result.  A shared constant is found again by its type, so it is to have the type (`Stocked`).
-/
import FlowTyping.Proofs.Graph.Request

namespace FlowTyping.Graph

open List

variable {g k : Graph} {a b id : NodeId} {t : Ty} {incoming values : List Incoming}
  {kind l r operand : Kind}

/-! ### Plain nodes and merges -/

/-- A node whose types are those of its inputs. -/
def IsPlain (g : Graph) (id : NodeId) : Prop := ∃ inputs, g.rule? id = some (.plain inputs)

/-- A node is the same as another one or one of its inputs. -/
inductive Feeds (g : Graph) (a : NodeId) : NodeId → Prop
  | refl : Feeds g a a
  | plain {b : NodeId} {inputs : List NodeId} (h : g.rule? b = some (.plain inputs))
      (ha : a ∈ inputs) : Feeds g a b
  | merge {b : NodeId} {incoming : List Incoming} (h : g.rule? b = some (.merge incoming))
      (ha : .value a ∈ incoming) : Feeds g a b

theorem IsPlain.later (h : g.IsPlain id) (hl : g.Later k) : k.IsPlain id := by
  obtain ⟨inputs, h⟩ := h
  obtain ⟨r, hr, hext⟩ := hl.rules id _ h
  cases hext with
  | refl | plain => exact ⟨_, hr⟩

namespace Feeds

theorem later (h : g.Feeds a b) (hl : g.Later k) : k.Feeds a b := by
  cases h with
  | refl => exact .refl
  | plain h ha =>
    obtain ⟨r, hr, hext⟩ := hl.rules b _ h
    cases hext with
    | refl => exact .plain hr ha
    | plain hmore => exact .plain hr (hmore a ha)
  | merge h ha =>
    obtain ⟨r, hr, hext⟩ := hl.rules b _ h
    cases hext with
    | refl => exact .merge hr ha
    | merge hmore => exact .merge hr (hmore _ ha)

/-- **In a graph at rest all types follow.** -/
theorem types (h : g.Feeds a b) (hs : g.Sound) (ht : t ∈ g.types a) : t ∈ g.types b := by
  cases h with
  | refl => exact ht
  | plain h ha =>
    apply (hs.settled b _ h trivial _ rfl).2
    exact mem_foldl_union.2 (.inr ⟨a, ha, ht⟩)
  | merge h ha =>
    apply (hs.settled b _ h trivial _ rfl).2
    exact mem_foldl_union.2 (.inr ⟨.value a, ha, ht⟩)

end Feeds

/-! ### Operators -/

theorem mem_types_binary {op : BinaryOp} (h : op.result? l r = some kind) :
    .base kind ∈ (g.binary op (.base l) (.base r)).types := by
  have hsingle : ∀ k : Kind, k = kind → .base kind ∈ (Finding.givesType (.base k)).types := by
    rintro k rfl
    exact TypeSet.mem_single.2 rfl
  have htable : ∀ op' : BinaryOp, op'.result? l r = some kind →
      .base kind ∈ (Finding.ofOption ((op'.result? l r).map .base)).types := by
    intro op' h'
    rw [h']
    exact TypeSet.mem_single.2 rfl
  have hmember : r.accepts l = true → kind = .bool →
      .base kind ∈ ((Finding.givesIf (g.searchable (.base l) (.base r)) (.base .bool)).watching
        (g.decidingNodes (.base r))).types := by
    rintro haccepts rfl
    exact Finding.mem_types_givesIf.2 ⟨haccepts, rfl⟩
  cases op with
  | eq | notEq | is | isNot => exact hsingle _ (Option.some.inj h)
  | mem | notMem =>
    simp only [BinaryOp.result?, Option.ite_none_right_eq_some, Option.some.injEq] at h
    exact hmember h.1 h.2.symm
  | _ => exact htable _ h

theorem mem_types_unary {op : UnaryOp} (h : op.result? operand = some kind) :
    .base kind ∈ (g.unary op (.base operand)).types := by
  cases op with
  | not =>
    cases h
    exact TypeSet.mem_single.2 rfl
  | _ =>
    simp only [unary, h]
    exact TypeSet.mem_single.2 rfl

namespace Sound

theorem types_of_binary {op : BinaryOp} (hs : g.Sound)
    (h : g.rule? id = some (.binary op a b)) (hl : .base l ∈ g.types a) (hr : .base r ∈ g.types b)
    (hkind : op.result? l r = some kind) : .base kind ∈ g.types id := by
  -- neither operand is without types, so all pairs are tried
  have hfind : g.find? (.binary op a b) =
      some (.join ((g.types a).toList.flatMap fun l => (g.types b).toList.map fun r => g.binary op l r)) := by
    rw [find?, isEmpty_eq_false_of_mem hl, isEmpty_eq_false_of_mem hr]
    rfl
  apply (hs.settled id _ h trivial _ hfind).2
  refine Finding.mem_types_join.2 ⟨g.binary op (.base l) (.base r), ?_, mem_types_binary hkind⟩
  exact mem_flatMap.2 ⟨_, hl, mem_map_of_mem hr⟩

theorem types_of_unary {op : UnaryOp} (hs : g.Sound)
    (h : g.rule? id = some (.unary op a)) (ha : .base operand ∈ g.types a)
    (hkind : op.result? operand = some kind) : .base kind ∈ g.types id := by
  obtain ⟨f, hf, ht⟩ := exists_forEach.2 ⟨_, ha, mem_types_unary hkind⟩
  exact (hs.settled id _ h trivial f hf).2 _ ht

end Sound

/-! ### Building -/

theorem rule?_add {rule : Rule} (line : Nat) (hv : (g.push rule line).2.Valid) :
    ∃ r, (g.add rule line).2.rule? (g.add rule line).1 = some r ∧ rule.Extends r := by
  apply (drain_extends (g.push rule line).2.budget hv).rules
  show (g.push rule line).2.rule? g.next = some rule
  rw [rule?_push, if_pos rfl]

theorem feeds_addInput (h : g.Sound) (ha : g.HasNode a) (hb : g.IsPlain b) :
    (g.addInput b a).Feeds a b := by
  have hprepared := h.prepared_connect ha b
  -- working the graph out again only adds to rules
  suffices hconnect : (g.connect b a).Feeds a b from
    hconnect.later ((Later.refl _).propagate hprepared.valid)
  obtain ⟨inputs, hb⟩ := hb
  simp only [connect, hb]
  split
  · next hold =>
    rcases hold with rfl | hold
    · exact .refl
    · exact .plain hb hold
  · refine @Feeds.plain _ a b (inputs ++ [a]) ?_ (mem_append_right _ mem_cons_self)
    have hsame := (Same.subscribe (g.setRule b (.plain (inputs ++ [a]))) b a).trans (Same.schedule _ b)
    rw [← Graph.setRule, hsame.rule?, rule?_setRule, if_pos rfl, hb]
    rfl

theorem rule?_addIncoming {value : Incoming} (h : g.rule? id = some (.merge incoming)) :
    ∃ more, (addIncoming id g value).rule? id = some (.merge more) ∧ value ∈ more ∧
      ∀ i ∈ incoming, i ∈ more := by
  unfold addIncoming
  rw [h]
  dsimp only
  split
  · next hold => exact ⟨incoming, h, hold, fun i hi => hi⟩
  · refine ⟨incoming ++ [value], ?_, mem_append_right _ mem_cons_self,
      fun i hi => mem_append_left _ hi⟩
    have hset : (g.setRule id (.merge (incoming ++ [value]))).rule? id =
        some (.merge (incoming ++ [value])) := by
      rw [rule?_setRule, if_pos rfl, h]
      rfl
    cases value with
    | value source => exact (congrFun (Same.subscribe _ id source).rule? id).trans hset
    | unbound => exact hset

theorem rule?_foldl_addIncoming (h : g.rule? id = some (.merge incoming)) :
    ∃ more, (values.foldl (addIncoming id) g).rule? id = some (.merge more) ∧
      (∀ i ∈ values, i ∈ more) ∧ ∀ i ∈ incoming, i ∈ more := by
  induction values generalizing g incoming with
  | nil => exact ⟨incoming, h, fun i hi => absurd hi not_mem_nil, fun i hi => hi⟩
  | cons value values ih =>
    obtain ⟨some, hsome, hvalue, hkept⟩ := @rule?_addIncoming g id incoming value h
    obtain ⟨more, hmore, hvalues, hkept'⟩ := ih hsome
    refine ⟨more, hmore, fun i hi => ?_, fun i hi => hkept' i (hkept i hi)⟩
    rcases mem_cons.1 hi with rfl | hi
    · exact hkept' i hvalue
    · exact hvalues i hi

theorem feeds_addToMerge (h : g.Sound)
    (hid : g.rule? id = some (.merge incoming)) (hvalues : ∀ n, .value n ∈ values → g.HasNode n)
    (ha : .value a ∈ values) : (g.addToMerge id values).Feeds a id := by
  have hprepared := h.prepared_incoming (hasNode_of_rule? hid) hvalues
  have hmerge : (values.isEmpty || g.isMerge id) = true := by
    rw [isMerge, hid]
    exact Bool.or_true _
  rw [addToMerge, if_pos hmerge]
  obtain ⟨more, hmore, hnew, -⟩ := @rule?_foldl_addIncoming g id incoming values hid
  have hfeeds : ((values.foldl (addIncoming id) g).schedule id).Feeds a id :=
    .merge ((congrFun (Same.schedule _ id).rule? id).trans hmore) (hnew _ ha)
  exact hfeeds.later ((Later.refl _).propagate hprepared.valid)

/-! ### Constants -/

def Stocked (g : Graph) : Prop := ∀ e ∈ g.constants, e.1 ∈ g.types e.2

theorem Stocked.later (h : g.Stocked) (hl : g.Later k) (heq : k.constants = g.constants) : k.Stocked := by
  intro e he
  rw [heq] at he
  exact hl.types _ _ (h e he)

theorem Stocked.constant (h : g.Stocked) (t : Ty) :
    (g.constant t).2.Stocked ∧ t ∈ (g.constant t).2.types (g.constant t).1 := by
  rcases constant_cases g t with ⟨id, hid, heq⟩ | heq
  · rw [heq]
    exact ⟨h, h _ hid⟩
  · rw [heq]
    have hnew : t ∈ (g.withConstant t).types g.next := mem_types_withConstant.2 (.inr ⟨rfl, rfl⟩)
    refine ⟨fun e he => ?_, hnew⟩
    rw [constants_withConstant] at he
    rcases mem_cons.1 he with rfl | he
    · exact hnew
    · exact (Later.withConstant g t).types _ _ (h e he)

/-- **In every graph that requests lead to, shared constants have their types.** -/
theorem Reachable.stocked (h : Reachable g) : g.Stocked := by
  induction h with
  | empty u => exact fun e he => absurd he not_mem_nil
  | @request g r hg hr ih =>
    by_cases hconstant : ∃ t, r = .constant t
    · obtain ⟨t, rfl⟩ := hconstant
      exact (ih.constant t).1
    · exact ih.later (hg.sound.request hr).later (constants_run g fun t ht => hconstant ⟨t, ht⟩)

end FlowTyping.Graph
