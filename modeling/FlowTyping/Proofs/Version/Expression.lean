/-
What an expression does to the definitions that reach it.

An expression is one run of reads and writes in the order of evaluation.  Operands that may be
skipped are part of the run like all others (`MaySkip.isInfix`), so an assignment expression counts
wherever it stands: behind the expression a name has the definition of the last assignment to it,
and what was written before does not get there through the expression (`read_behind_expression`).
-/
import FlowTyping.Proofs.Version.Distinct

namespace FlowTyping

open List

variable {w : NameId}

/-! ### Paths between blocks -/

namespace Flow

variable {flow : Flow} {a b : BlockId} {items : List Item}

/-- Some path leads from the start of a block to the start of another, past some items. -/
inductive Passes (flow : Flow) (a : BlockId) : BlockId → List Item → Prop where
  | here : Passes flow a a []
  | step {b c : BlockId} {items : List Item} (h : Passes flow a b items)
      (hexit : c ∈ flow.exits b) : Passes flow a c (items ++ flow.items b)

theorem Arrives.passes {before : List Item} (h : flow.Arrives a before)
    (hp : flow.Passes a b items) : flow.Arrives b (before ++ items) := by
  induction hp with
  | here => rwa [append_nil]
  | step _ hexit ih =>
    rw [← append_assoc]
    exact ih.step hexit

theorem Arrives.writtenAt {x : String} (h : flow.Arrives b items)
    (hw : .write w x ∈ Event.ofItems items) : Versions.WrittenAt flow x w := by
  induction h with
  | entry => cases hw
  | @step a b items h hexit ih =>
    rw [Event.ofItems, flatMap_append] at hw
    rcases mem_append.1 hw with hw | hw
    · exact ih hw
    · exact ⟨a, mem_reachable_iff.2 ⟨items, h⟩, hw⟩

end Flow

/-! ### Operands that may be skipped -/

namespace Event

variable {hidden inside : List String} {e o : Expr}

/-- The operands that the evaluation of an expression may skip, with the names that are hidden in
them. -/
inductive MaySkip (hidden : List String) : Expr → List String → Expr → Prop where
  | operand {line : Nat} {op : BoolOp} {first o : Expr} {rest : List Expr} (ho : o ∈ rest) :
      MaySkip hidden (.bool line op (first :: rest)) hidden o
  | comparator {line : Nat} {left first o : Expr} {ops : List BinaryOp} {rest : List Expr}
      (ho : o ∈ rest) : MaySkip hidden (.compare line left ops (first :: rest)) hidden o
  | body (line : Nat) (test body orelse : Expr) : MaySkip hidden (.conditional line test body orelse) hidden body
  | orelse (line : Nat) (test body orelse : Expr) :
      MaySkip hidden (.conditional line test body orelse) hidden orelse
  | element (line : Nat) (kind : ComprehensionKind) (element : Expr) (value : Option Expr)
      (generators : List (Generator Expr)) :
      MaySkip hidden (.comprehension line kind element value generators) (hidden ++ hiddenBy generators) element
  | value (line : Nat) (kind : ComprehensionKind) (element value : Expr) (generators : List (Generator Expr)) :
      MaySkip hidden (.comprehension line kind element (some value) generators)
        (hidden ++ hiddenBy generators) value
  | condition {line : Nat} {kind : ComprehensionKind} {element target iter o : Expr} {value : Option Expr}
      {before after : List (Generator Expr)} {conditions : List Expr} (ho : o ∈ conditions) :
      MaySkip hidden (.comprehension line kind element value (before ++ ⟨target, iter, conditions⟩ :: after))
        (hidden ++ hiddenBy before ++ boundNames target) o

theorem isInfix_ofExprs {es : List Expr} (ho : o ∈ es) : ofExpr hidden o <:+: ofExprs hidden es := by
  induction es with
  | nil => cases ho
  | cons e es ih =>
    rw [ofExprs]
    rcases mem_cons.1 ho with rfl | ho
    · exact (prefix_append _ _).isInfix
    · exact (ih ho).trans (suffix_append _ _).isInfix

theorem isInfix_ofGenerators {target iter : Expr} {conditions : List Expr} (ho : o ∈ conditions)
    (before after : List (Generator Expr)) (isFirst : Bool) (hidden : List String) :
    ofExpr (hidden ++ hiddenBy before ++ boundNames target) o <:+:
      ofGenerators isFirst hidden (before ++ ⟨target, iter, conditions⟩ :: after) := by
  induction before generalizing isFirst hidden with
  | nil =>
    simp only [hiddenBy, append_nil, nil_append, ofGenerators]
    exact ((isInfix_ofExprs ho).trans (suffix_append _ _).isInfix).trans (prefix_append _ _).isInfix
  | cons g before ih =>
    obtain ⟨bound, iterable, filters⟩ := g
    rw [hiddenBy, cons_append, ofGenerators, ← append_assoc hidden]
    exact (ih false (hidden ++ boundNames bound)).trans (suffix_append _ _).isInfix

/-- **What may be skipped counts like everything else.** -/
theorem MaySkip.isInfix (h : MaySkip hidden e inside o) : ofExpr inside o <:+: ofExpr hidden e := by
  cases h with
  | operand ho => exact (isInfix_ofExprs ho).trans (suffix_append _ _).isInfix
  | comparator ho =>
    exact ((isInfix_ofExprs ho).trans (suffix_append _ _).isInfix).trans (suffix_append _ _).isInfix
  | body | element => exact (suffix_append _ _).isInfix.trans (prefix_append _ _).isInfix
  | orelse | value => exact (suffix_append _ _).isInfix
  | condition ho =>
    exact ((isInfix_ofGenerators ho _ _ true hidden).trans (prefix_append _ _).isInfix).trans
      (prefix_append _ _).isInfix

end Event

/-! ### Behind an expression -/

namespace Versions

variable {v : Versions} {params : List String} {x : String} {events more : List Event} {d : Definition}

theorem Reaching.append (h : v.Reaching params x events d) (hmore : ∀ w, .write w x ∉ more) :
    v.Reaching params x (events ++ more) d := by
  have hnone : (∀ w, .write w x ∉ events) → ∀ w, .write w x ∉ events ++ more := fun hnot w hw =>
    (mem_append.1 hw).elim (hnot w) (hmore w)
  cases h with
  | @written before after id n hevents hlast hversion =>
    have hevents' : events ++ more = before ++ .write id x :: (after ++ more) := by simp [hevents]
    exact .written hevents' (fun w hw => (mem_append.1 hw).elim (hlast w) (hmore w)) hversion
  | initial hnot hparam => exact .initial (hnone hnot) hparam
  | unbound hnot hparam => exact .unbound (hnone hnot) hparam

theorem reaching_of_lastWrite {n : Nat} (hlast : Event.lastWrite x events = some w)
    (hversion : v.written? w = some n) : v.Reaching params x events d ↔ d = .version n := by
  constructor
  · intro h
    cases h with
    | written hevents hnot hversion' =>
      rw [Event.lastWrite_eq_some_iff.2 ⟨_, _, hevents, Event.lastWrite_eq_none_iff.2 hnot⟩] at hlast
      cases hlast
      exact congrArg _ (Option.some_inj.1 (hversion'.symm.trans hversion))
    | initial hnot | unbound hnot => cases (Event.lastWrite_eq_none_iff.2 hnot).symm.trans hlast
  · rintro rfl
    obtain ⟨before, after, hevents, hnone⟩ := Event.lastWrite_eq_some_iff.1 hlast
    exact .written hevents (Event.lastWrite_eq_none_iff.1 hnone) hversion

/-- **Definitions get past an expression to a read, unless it assigns the name.**  If it does, then
on a path through the expression its last assignment arrives at the read and nothing else.  An
assignment in an operand that may be skipped is one of the expression. -/
theorem read_behind_expression (name text : String) (tree : List Parse.Stmt) {body : Body}
    (hbody : body ∈ (Module.ofParse name text tree).bodies) (params : List String) {a b : BlockId}
    {items : List Flow.Item} {start before between after : List Event} {hidden : List String} {e : Expr}
    {id : NameId} {x : String} (ha : a ∈ (Flow.ofBody body).reachable) (hpath : (Flow.ofBody body).Passes a b items)
    (hread : Event.ofItems ((Flow.ofBody body).items b) = start ++ .read id x :: after)
    (hrun : Event.ofItems items ++ start = before ++ Event.ofExpr hidden e ++ between)
    (hbetween : ∀ w, .write w x ∉ between) (hx : x ∈ (ofFlow (.ofBody body) params).locals) :
    ∃ d, (ofFlow (.ofBody body) params).read? id = some d ∧
      ((∀ w, .write w x ∉ Event.ofExpr hidden e) → ∀ earlier d', (Flow.ofBody body).Arrives a earlier →
        (ofFlow (.ofBody body) params).Reaching params x (Event.ofItems earlier ++ before) d' →
        (ofFlow (.ofBody body) params).Expands x d d') ∧
      (∀ w, .write w x ∈ Event.ofExpr hidden e →
        ∃ last n, Event.lastWrite x (Event.ofExpr hidden e) = some last ∧
          (ofFlow (.ofBody body) params).written? last = some n ∧
          (ofFlow (.ofBody body) params).Expands x d (.version n) ∧
          ∀ earlier d', (Flow.ofBody body).Arrives a earlier →
            ((ofFlow (.ofBody body) params).Reaching params x
              (Event.ofItems (earlier ++ items) ++ start) d' ↔ d' = .version n)) ∧
      ∀ inside o w, Event.MaySkip hidden e inside o → .write w x ∈ Event.ofExpr inside o →
        .write w x ∈ Event.ofExpr hidden e := by
  have hdistinct := distinct_ofBody (Body.nodup_of_mem_bodies name text tree hbody)
  obtain ⟨first, hfirst⟩ := Flow.mem_reachable_iff.1 ha
  have hb : b ∈ (Flow.ofBody body).reachable := Flow.mem_reachable_iff.2 ⟨_, hfirst.passes hpath⟩
  have hall : ∀ earlier, Event.ofItems (earlier ++ items) ++ start =
      Event.ofItems earlier ++ before ++ Event.ofExpr hidden e ++ between := by
    intro earlier
    rw [Event.ofItems, flatMap_append, append_assoc]
    exact (congrArg _ hrun).trans (by simp only [append_assoc]; rfl)
  obtain ⟨d, hd, hiff⟩ := read_expands_iff hdistinct hb hread hx
  refine ⟨d, hd, fun hnone earlier d' harrives hreach => ?_, fun w hw => ?_,
    fun inside o w hskip hw => hskip.isInfix.subset hw⟩
  · refine (hiff d').2 ⟨_, harrives.passes hpath, ?_⟩
    rw [hall]
    exact (hreach.append hnone).append hbetween
  rcases hlast : Event.lastWrite x (Event.ofExpr hidden e) with - | last
  · exact absurd hw (Event.lastWrite_eq_none_iff.1 hlast w)
  have hlast' : ∀ earlier, Event.lastWrite x (Event.ofItems (earlier ++ items) ++ start) = some last := by
    intro earlier
    rw [hall, Event.lastWrite_append, Event.lastWrite_eq_none_iff.2 hbetween, Event.lastWrite_append, hlast]
    rfl
  have hwritten : WrittenAt (.ofBody body) x last := by
    obtain ⟨_, _, hevents, -⟩ := Event.lastWrite_eq_some_iff.1 (hlast' first)
    rcases mem_append.1 (hevents ▸ mem_append_right _ mem_cons_self) with hmem | hmem
    · exact (hfirst.passes hpath).writtenAt hmem
    · exact ⟨b, hb, hread ▸ mem_append_left _ hmem⟩
  obtain ⟨n, hn, -⟩ := (writesApart hdistinct hx).exists_version last hwritten
  refine ⟨last, n, rfl, hn, (hiff _).2 ⟨_, hfirst.passes hpath, ?_⟩, fun earlier d' _ => ?_⟩
  · exact (reaching_of_lastWrite (hlast' first) hn).2 rfl
  · exact reaching_of_lastWrite (hlast' earlier) hn

/-- `x = 1`, then `c and (x := "s")`, then `x`. -/
def skipping : Module :=
  .ofParse "skipping" "x = 1\nc and (x := 's')\nx"
    [.assign 0 [.name 0 "x"] (.constant 4 .int),
      .expr 6 (.bool 6 .and [.name 6 "c", .named 13 (.name 13 "x") (.constant 18 .str)]), .expr 23 (.name 23 "x")]

/-- The second statement of `skipping`, and its operand that may be skipped. -/
def guarded (o : Expr) : Expr := .bool 2 .and [.name 2 ⟨1⟩ "c", o]

def assigning : Expr := .named 2 (.name 2 ⟨2⟩ "x") (.constant 2 .str)

theorem read_behind_expression_skipping :
    ∃ last n d, Event.lastWrite "x" (Event.ofExpr [] (guarded assigning)) = some last ∧
      (ofFlow (.ofModule skipping.body) []).written? last = some n ∧
      (ofFlow (.ofModule skipping.body) []).read? ⟨3⟩ = some d ∧
      (ofFlow (.ofModule skipping.body) []).Expands "x" d (.version n) := by
  have hentry : (⟨0⟩ : BlockId) ∈ (Flow.ofModule skipping.body).reachable := by decide +kernel
  have hbody : ⟨[], .module, [], skipping.body⟩ ∈ skipping.bodies := mem_cons_self
  have hread : Event.ofItems ((Flow.ofModule skipping.body).items ⟨0⟩) =
      [.write ⟨0⟩ "x", .read ⟨1⟩ "c", .write ⟨2⟩ "x"] ++ .read ⟨3⟩ "x" :: [] := by decide
  have hrun : Event.ofItems [] ++ [.write ⟨0⟩ "x", .read ⟨1⟩ "c", .write ⟨2⟩ "x"] =
      [.write ⟨0⟩ "x"] ++ Event.ofExpr [] (guarded assigning) ++ [] := by decide
  obtain ⟨d, hd, -, hassigned, hskip⟩ := read_behind_expression "skipping" _ _ hbody [] hentry
    .here hread hrun (by simp) (by decide)
  have hmem := hskip [] assigning ⟨2⟩ (.operand mem_cons_self) (by decide)
  obtain ⟨last, n, hlast, hn, hexpands, -⟩ := hassigned ⟨2⟩ hmem
  exact ⟨last, n, d, hlast, hn, hd, hexpands⟩

/-- The first write reaches the start of the expression, and the read behind it does not see it. -/
theorem skipped_assignment_hides :
    Event.MaySkip [] (guarded assigning) [] assigning ∧ .write ⟨2⟩ "x" ∈ Event.ofExpr [] assigning ∧
      Event.ofItems ((Flow.ofModule skipping.body).items ⟨0⟩) =
        [.write ⟨0⟩ "x"] ++ Event.ofExpr [] (guarded assigning) ++ [] ++ [.read ⟨3⟩ "x"] ∧
      (Flow.ofModule skipping.body).Arrives ⟨0⟩ [] ∧
      (ofFlow (.ofModule skipping.body) []).Reaching [] "x" [.write ⟨0⟩ "x"] (.version 2) ∧
      (ofFlow (.ofModule skipping.body) []).read? ⟨3⟩ = some (.version 3) ∧
      ¬ (ofFlow (.ofModule skipping.body) []).Expands "x" (.version 3) (.version 2) := by
  have hentry : (Flow.ofModule skipping.body).entry = ⟨0⟩ := by decide
  have hnone : Merge.named "x" (ofFlow (.ofModule skipping.body) []).merges = [] := by decide +kernel
  refine ⟨.operand mem_cons_self, by decide, by decide, hentry ▸ .entry, ?_, by decide +kernel, fun h => ?_⟩
  · exact (reaching_of_lastWrite rfl (by decide +kernel)).2 rfl
  · rw [Expands, hnone] at h
    cases eq_of_expands h fun m hm => absurd hm not_mem_nil

end Versions

end FlowTyping
