/-
No occurrence of a name is read twice or written twice.

The events of an expression or a statement take each occurrence in it at most once as a read and at
most once as a write (`Within`); an augmented assignment takes its target once as each.  The flow
graph of a body holds the items of its statements, each once, and the occurrences of a module are
numbered apart.  So in the flow graph of every body of a module the occurrences are distinct
(`distinct_ofBody`).
-/
import FlowTyping.Proofs.Flow.Fold
import FlowTyping.Proofs.Tree.Occurrence
import FlowTyping.Proofs.Version.Reaching

namespace FlowTyping

open List

/-! ### Events of expressions -/

namespace Event

/-- The occurrence that an event writes, or the one that it reads. -/
def touched : Bool → Event → Option NameId
  | true, write id _ => some id
  | false, read id _ => some id
  | _, _ => none

/-- Events take each occurrence at most as often as some list has it. -/
def Within (writes : Bool) (events : List Event) (occurrences : List NameId) : Prop :=
  ∀ id, (events.filterMap (touched writes)).count id ≤ occurrences.count id

variable {w : Bool} {es es' : List Event} {occ occ' : List NameId}

namespace Within

theorem nil (occ : List NameId) : Within w [] occ := fun _ => Nat.zero_le _

variable (h : Within w es occ)
include h

theorem append (h' : Within w es' occ') : Within w (es ++ es') (occ ++ occ') := by
  intro id
  rw [filterMap_append, count_append, count_append]
  exact add_le_add (h id) (h' id)

theorem left (occ' : List NameId) : Within w es (occ ++ occ') := by
  intro id
  rw [count_append]
  exact (h id).trans (Nat.le_add_right _ _)

theorem right (occ' : List NameId) : Within w es (occ' ++ occ) := by
  intro id
  rw [count_append]
  exact (h id).trans (Nat.le_add_left _ _)

theorem perm (hperm : occ.Perm occ') : Within w es occ' :=
  fun id => (h id).trans_eq (hperm.count_eq id)

theorem permEvents (hperm : es.Perm es') : Within w es' occ :=
  fun id => ((hperm.filterMap _).count_eq id) ▸ h id

omit h in
theorem one {e : Event} (id : NameId) (h : touched w e = none ∨ touched w e = some id) :
    Within w [e] [id] := by
  intro other
  rcases h with h | h <;> simp [h]

theorem nodup (hocc : occ.Nodup) : (es.filterMap (touched w)).Nodup :=
  nodup_iff_count_le_one.2 fun id => (h id).trans (nodup_iff_count_le_one.1 hocc id)

end Within

theorem readIds_eq (es : List Event) : readIds es = es.filterMap (touched false) := by
  refine congrArg (List.filterMap · es) (funext fun e => ?_)
  cases e <;> rfl

theorem writeIds_eq (es : List Event) : writeIds es = es.filterMap (touched true) := by
  refine congrArg (List.filterMap · es) (funext fun e => ?_)
  cases e <;> rfl

theorem within_reading (hidden : List String) (id : NameId) (name : String) :
    Within w (reading hidden id name) [id] := by
  rw [reading]
  split
  · exact .nil _
  · exact .one id (by cases w <;> simp [touched])

theorem within_zipWith {ks vs : List (List Event)} (hks : Within w ks.flatten occ)
    (hvs : Within w vs.flatten occ') :
    Within w (List.zipWith (· ++ ·) ks vs).flatten (occ ++ occ') := by
  have hcount : ∀ id, ((List.zipWith (· ++ ·) ks vs).flatten.filterMap (touched w)).count id ≤
      (ks.flatten.filterMap (touched w)).count id + (vs.flatten.filterMap (touched w)).count id := by
    intro id
    clear hks hvs
    induction ks generalizing vs with
    | nil => simp
    | cons k ks ih =>
      cases vs with
      | nil => simp
      | cons v vs =>
        simp only [zipWith_cons_cons, flatten_cons, filterMap_append, count_append]
        have := @ih vs
        omega
  intro id
  rw [count_append]
  exact (hcount id).trans (add_le_add (hks id) (hvs id))

mutual

theorem within_ofExpr {hidden : List String} (e : Expr) :
    Within w (ofExpr hidden e) (Occurrence.ofExpr e) := by
  cases e with
  | name line id name => exact within_reading hidden id name
  | constant line c => exact .nil _
  | binary line left op right => exact (within_ofExpr left).append (within_ofExpr right)
  | unary line op operand => exact within_ofExpr operand
  | bool line op values => exact within_ofExprs values
  | compare line left ops comparators =>
    exact (within_ofExpr left).append (within_ofExprs comparators)
  | call line func args keywords =>
    exact ((within_ofExpr func).append (within_ofExprs args)).append
      (within_ofKeywords keywords)
  | «attribute» line value attr | starred line value | await line value => exact within_ofExpr value
  | subscript line value index =>
    exact (within_ofExpr value).append (within_ofExpr index)
  | slice line lower upper step =>
    exact ((within_ofOption lower).append (within_ofOption upper)).append
      (within_ofOption step)
  | list line items | tuple line items | set line items => exact within_ofExprs items
  | dict line keys values =>
    exact within_zipWith (within_ofEachKey keys) (within_ofEach values)
  | comprehension line kind element value generators =>
    exact ((within_ofGenerators true generators).append
      (within_ofExpr element)).append (within_ofOption value)
  | lambda line params body =>
    obtain ⟨positional, vararg, keywordOnly, kwarg⟩ := params
    exact ((within_ofDefaults positional).append
      (within_ofDefaults keywordOnly)).left _
  | conditional line test body orelse =>
    exact ((within_ofExpr test).append (within_ofExpr body)).append
      (within_ofExpr orelse)
  | named line target value =>
    refine (within_ofExpr value).append ?_
    cases target with
    | name line id name => exact .one id (by cases w <;> simp [touched])
    | _ => exact .nil _
  | formatted line parts => exact within_ofExprs parts
  | yield line value =>
    have hvalue : Within w (ofOption hidden value) _ := within_ofOption value
    cases w <;> exact hvalue
  | yieldFrom line value =>
    have hvalue : Within w (ofExpr hidden value) _ := within_ofExpr value
    cases w <;> exact hvalue

theorem within_ofExprs {hidden : List String} (es : List Expr) :
    Within w (ofExprs hidden es) (Occurrence.ofExprs es) := by
  cases es with
  | nil => exact .nil _
  | cons e es => exact (within_ofExpr e).append (within_ofExprs es)

theorem within_ofOption {hidden : List String} (e : Option Expr) :
    Within w (ofOption hidden e) (Occurrence.ofOption e) := by
  cases e with
  | none => exact .nil _
  | some e => exact within_ofExpr e

theorem within_ofKeywords {hidden : List String} (ks : List (Keyword Expr)) :
    Within w (ofKeywords hidden ks) (Occurrence.ofKeywords ks) := by
  cases ks with
  | nil => exact .nil _
  | cons k ks =>
    obtain ⟨arg, value⟩ := k
    exact (within_ofExpr value).append (within_ofKeywords ks)

theorem within_ofDefaults {hidden : List String} (ps : List (Parameter Expr)) :
    Within w (ofDefaults hidden ps) (Occurrence.ofParameters ps) := by
  cases ps with
  | nil => exact .nil _
  | cons p ps =>
    obtain ⟨name, default⟩ := p
    exact (within_ofOption default).append (within_ofDefaults ps)

theorem within_ofEach {hidden : List String} (es : List Expr) :
    Within w (ofEach hidden es).flatten (Occurrence.ofExprs es) := by
  cases es with
  | nil => exact .nil _
  | cons e es => exact (within_ofExpr e).append (within_ofEach es)

theorem within_ofEachKey {hidden : List String} (ks : List (Option Expr)) :
    Within w (ofEachKey hidden ks).flatten (Occurrence.ofOptions ks) := by
  cases ks with
  | nil => exact .nil _
  | cons k ks => exact (within_ofOption k).append (within_ofEachKey ks)

theorem within_ofGenerators {hidden : List String} (isFirst : Bool) (gs : List (Generator Expr)) :
    Within w (ofGenerators isFirst hidden gs) (Occurrence.ofGenerators gs) := by
  cases gs with
  | nil => exact .nil _
  | cons g gs =>
    obtain ⟨target, iter, conditions⟩ := g
    have hiter : Within w (ofExpr (if isFirst then hidden else hidden ++ boundNames target) iter) _ :=
      within_ofExpr iter
    exact ((hiter.left (Occurrence.ofExpr target)).append
      (within_ofExprs conditions)).append (within_ofGenerators false gs)

end

/-! ### Events of statements -/

mutual

theorem within_ofTarget (e : Expr) : Within w (ofTarget e) (Occurrence.ofExpr e) := by
  cases e with
  | name line id name => exact .one id (by cases w <;> simp [touched])
  | tuple line items | list line items => exact within_ofTargets items
  | starred line value => exact within_ofTarget value
  | «attribute» line value attr => exact within_ofExpr value
  | subscript line value index => exact (within_ofExpr value).append (within_ofExpr index)
  | _ => exact within_ofExpr _

theorem within_ofTargets (es : List Expr) :
    Within w (ofTargets es) (Occurrence.ofExprs es) := by
  cases es with
  | nil => exact .nil _
  | cons e es => exact (within_ofTarget e).append (within_ofTargets es)

end

theorem within_ofAugAssign (target value : Expr) :
    Within w (ofAugAssign target value) (Occurrence.ofExpr value ++ Occurrence.ofExpr target) := by
  cases target with
  | name line id name =>
    have hboth : Within w [read id name, write id name] [id] := by
      intro other
      cases w <;> exact le_rfl
    exact ((within_ofExpr value).append hboth).permEvents perm_middle
  | _ => exact ((within_ofTarget _).append (within_ofExpr value)).perm perm_append_comm

theorem within_ofDelete (target : Expr) :
    Within w (ofDelete target) (Occurrence.ofExpr target) := by
  cases target with
  | name line id name => exact .nil _
  | _ => exact within_ofTarget _

theorem within_delete (targets : List Expr) :
    Within w (targets.flatMap ofDelete) (Occurrence.ofExprs targets) := by
  induction targets with
  | nil => exact .nil _
  | cons target targets ih => exact (within_ofDelete target).append ih

theorem within_ofBinder (b : Binder) : Within w [ofBinder b] [b.id] :=
  .one b.id (by cases w <;> simp [touched, ofBinder])

theorem within_ofAliases (aliases : List Alias) :
    Within w (ofAliases aliases) (aliases.flatMap Occurrence.ofAlias) := by
  induction aliases with
  | nil => exact .nil _
  | cons a aliases ih =>
    rw [ofAliases, filter_cons]
    split
    · exact (within_ofBinder a.binder).append ih
    · exact ih.right _

theorem within_ofParameters (params : Parameters Expr) :
    Within w (ofParameters params) (Occurrence.ofParameterList params) :=
  (within_ofDefaults params.positional).append (within_ofDefaults params.keywordOnly)

theorem within_withEnter (item : WithItem Expr) :
    Within w (ofAction (.withEnter item)) (Occurrence.ofWithItem item) := by
  obtain ⟨context, vars⟩ := item
  refine (within_ofExpr context).append ?_
  cases vars with
  | none => exact .nil _
  | some vars => exact within_ofTarget vars

theorem within_withItems (line : Nat) (items : List (WithItem Expr)) :
    Within w (ofItems (items.map fun item => ⟨line, .withEnter item⟩))
      (items.flatMap Occurrence.ofWithItem) := by
  induction items with
  | nil => exact .nil _
  | cons item items ih => exact (within_withEnter item).append ih

theorem within_functionDef (fn : FunctionDef Stmt) :
    Within w (ofAction (.functionDef fn))
      (Occurrence.ofExprs fn.decorators ++ Occurrence.ofParameterList fn.params ++ [fn.name.id]) :=
  ((within_ofExprs _).append (within_ofParameters _)).append (within_ofBinder _)

theorem within_classDef (cls : ClassDef Stmt) :
    Within w (ofAction (.classDef cls))
      ([cls.name.id] ++ Occurrence.ofExprs cls.bases ++ Occurrence.ofKeywords cls.keywords ++
        Occurrence.ofExprs cls.decorators) := by
  refine Within.perm ((((within_ofExprs cls.decorators).append (within_ofExprs cls.bases)).append
    (within_ofKeywords cls.keywords)).append (within_ofBinder cls.name)) ?_
  refine perm_append_comm.trans ?_
  rw [append_assoc, append_assoc, append_assoc]
  refine List.Perm.append_left _ (perm_append_comm.trans ?_)
  rw [append_assoc]

theorem within_handler (handler : Handler Stmt) :
    Within w (ofAction (.handler handler))
      (Occurrence.ofOption handler.type ++ Occurrence.ofBinder? handler.name) := by
  refine (within_ofOption handler.type).append ?_
  cases handler.name with
  | none => exact .nil _
  | some name => exact within_ofBinder name

/-! ### Events of the items of a body -/

theorem ofItems_append (items items' : List Flow.Item) :
    ofItems (items ++ items') = ofItems items ++ ofItems items' := flatMap_append

theorem ofItems_single (line : Nat) (action : Flow.Action) : ofItems [⟨line, action⟩] = ofAction action :=
  append_nil _

theorem Within.items {items items' : List Flow.Item} (h : Within w (ofItems items) occ)
    (h' : Within w (ofItems items') occ') : Within w (ofItems (items ++ items')) (occ ++ occ') := by
  rw [ofItems_append]
  exact h.append h'

theorem Within.single {action : Flow.Action} (line : Nat) (h : Within w (ofAction action) occ) :
    Within w (ofItems [⟨line, action⟩]) occ := by
  rw [ofItems_single]
  exact h

open FlowTyping.Flow (itemsOf itemsOfAll itemsOfHandlers)

variable {fn : Bool}

mutual

theorem within_itemsOf {n : Nat} (s : Stmt) :
    Within w (ofItems (itemsOf fn n s)) (Occurrence.ofStmt s) := by
  cases s with
  | functionDef line f => exact ((within_functionDef f).left _).single line
  | classDef line cls => exact ((within_classDef cls).left _).single line
  | ret line value =>
    cases fn with
    | true => exact (within_ofOption value).single line
    | false => exact .nil _
  | ifThen line test body orelse | whileLoop line test body orelse =>
    exact (((within_ofExpr test).single line).items (within_itemsOfAll body)).items
      (within_itemsOfAll orelse)
  | forLoop line target iter body orelse =>
    have hiter : Within w (ofItems [⟨line, .forIter ⟨n⟩ iter⟩]) _ := (within_ofExpr iter).single line
    have htarget : Within w (ofItems [⟨line, .forTarget ⟨n⟩ target⟩]) _ :=
      (within_ofTarget target).single line
    exact ((hiter.items htarget).items (within_itemsOfAll body)).items
      (within_itemsOfAll orelse)
  | withBlock line items body =>
    exact (within_withItems line items).items (within_itemsOfAll body)
  | tryBlock line body handlers orelse finalbody =>
    refine ((((within_itemsOfAll body).items (within_itemsOfAll orelse)).items
      (within_itemsOfHandlers handlers)).items (within_itemsOfAll finalbody)).perm ?_
    refine List.Perm.append_right _ ?_
    rw [append_assoc, append_assoc]
    exact List.Perm.append_left _ perm_append_comm
  | delete line targets => exact (within_delete targets).single line
  | assign line targets value =>
    exact ((within_ofExpr value).append (within_ofTargets targets)).single line
  | augAssign line target op value => exact (within_ofAugAssign target value).single line
  | annAssign line target value =>
    cases value with
    | none => exact .nil _
    | some value => exact ((within_ofExpr value).append (within_ofTarget target)).single line
  | raise line exc cause =>
    exact ((within_ofOption exc).append (within_ofOption cause)).single line
  | assert line test message =>
    exact ((within_ofExpr test).append (within_ofOption message)).single line
  | importModules line aliases | importFrom line module aliases level => exact (within_ofAliases aliases).single line
  | expr line value => exact (within_ofExpr value).single line
  | global line names | «nonlocal» line names | pass line | «break» line | «continue» line => exact .nil _

theorem within_itemsOfAll {n : Nat} (ss : List Stmt) :
    Within w (ofItems (itemsOfAll fn n ss)) (Occurrence.ofStmts ss) := by
  cases ss with
  | nil => exact .nil _
  | cons s ss => exact (within_itemsOf s).items (within_itemsOfAll ss)

theorem within_itemsOfHandlers {n : Nat} (hs : List (Handler Stmt)) :
    Within w (ofItems (itemsOfHandlers fn n hs)) (Occurrence.ofHandlers hs) := by
  cases hs with
  | nil => exact .nil _
  | cons h hs =>
    obtain ⟨line, type, name, body⟩ := h
    exact (((within_handler ⟨line, type, name, body⟩).single line).items
      (within_itemsOfAll body)).items (within_itemsOfHandlers hs)

end

end Event

/-! ### Bodies of a module -/

namespace Body

variable {body : Body}

/-- A body of one of two parts of a statement. -/
theorem sublist_of_mem_append {left right : List Body} {occ occ' : List NameId}
    (h : body ∈ left ++ right) (hleft : body ∈ left → (Occurrence.ofStmts body.stmts).Sublist occ)
    (hright : body ∈ right → (Occurrence.ofStmts body.stmts).Sublist occ') :
    (Occurrence.ofStmts body.stmts).Sublist (occ ++ occ') := by
  rcases mem_append.1 h with h | h
  · exact (hleft h).trans (sublist_append_left _ _)
  · exact (hright h).trans (sublist_append_right _ _)

mutual

/-- The occurrences in a body inside a statement are among those in the statement. -/
theorem sublist_of_mem_ofStmt (s : Stmt) {path : List String} (h : body ∈ ofStmt path s) :
    (Occurrence.ofStmts body.stmts).Sublist (Occurrence.ofStmt s) := by
  cases s with
  | functionDef line fn =>
    obtain ⟨name, params, decorators, ss⟩ := fn
    rcases mem_cons.1 h with rfl | h
    · exact sublist_append_right _ _
    · exact (sublist_of_mem_ofStmts ss h).trans (sublist_append_right _ _)
  | classDef line cls =>
    obtain ⟨name, bases, keywords, decorators, ss⟩ := cls
    rcases mem_cons.1 h with rfl | h
    · exact sublist_append_right _ _
    · exact (sublist_of_mem_ofStmts ss h).trans (sublist_append_right _ _)
  | forLoop line target iter ss orelse | whileLoop line test ss orelse | ifThen line test ss orelse =>
    exact sublist_of_mem_append h
      (fun h => (sublist_of_mem_ofStmts ss h).trans (sublist_append_right _ _))
      (sublist_of_mem_ofStmts orelse)
  | withBlock line items ss =>
    exact (sublist_of_mem_ofStmts ss h).trans (sublist_append_right _ _)
  | tryBlock line ss handlers orelse finalbody =>
    refine sublist_of_mem_append h (fun h => ?_) (sublist_of_mem_ofStmts finalbody)
    refine sublist_of_mem_append h (fun h => ?_) (sublist_of_mem_ofStmts orelse)
    exact sublist_of_mem_append h (sublist_of_mem_ofStmts ss) (sublist_of_mem_ofHandlers handlers)
  | _ => cases h

theorem sublist_of_mem_ofStmts (ss : List Stmt) {path : List String} (h : body ∈ ofStmts path ss) :
    (Occurrence.ofStmts body.stmts).Sublist (Occurrence.ofStmts ss) := by
  cases ss with
  | nil => cases h
  | cons s ss =>
    exact sublist_of_mem_append h (sublist_of_mem_ofStmt s) (sublist_of_mem_ofStmts ss)

theorem sublist_of_mem_ofHandlers (hs : List (Handler Stmt)) {path : List String}
    (h : body ∈ ofHandlers path hs) :
    (Occurrence.ofStmts body.stmts).Sublist (Occurrence.ofHandlers hs) := by
  cases hs with
  | nil => cases h
  | cons hd hs =>
    obtain ⟨line, type, name, ss⟩ := hd
    exact sublist_of_mem_append h
      (fun h => (sublist_of_mem_ofStmts ss h).trans (sublist_append_right _ _))
      (sublist_of_mem_ofHandlers hs)

end

/-- The occurrences in a body of a module are distinct. -/
theorem nodup_of_mem_bodies (name text : String) (tree : List Parse.Stmt)
    (h : body ∈ (Module.ofParse name text tree).bodies) :
    (Occurrence.ofStmts body.stmts).Nodup := by
  have hmodule := Occurrence.nodup_ofParse name text tree
  rcases mem_cons.1 h with rfl | h
  · exact hmodule
  · exact (sublist_of_mem_ofStmts _ h).nodup hmodule

theorem perm_occurrences {ss ss' : List Stmt} (h : ss.Perm ss') :
    (Occurrence.ofStmts ss).Perm (Occurrence.ofStmts ss') := by
  have hflat : ∀ ss : List Stmt, Occurrence.ofStmts ss = ss.flatMap Occurrence.ofStmt := by
    intro ss
    induction ss with
    | nil => rfl
    | cons s ss ih => rw [Occurrence.ofStmts, ih, flatMap_cons]
  rw [hflat, hflat]
  exact h.flatMap_right _

end Body

/-! ### Reads of a body -/

namespace Versions

theorem flatten_blockEvents (flow : Flow) :
    (blockEvents flow).flatten = Event.ofItems (flow.blocks.toList.flatMap (·.items)) := by
  rw [blockEvents, Event.ofItems, flatMap_assoc]
  rfl

theorem distinct_ofBody {body : Body} (h : (Occurrence.ofStmts body.stmts).Nodup) :
    DistinctOccurrences (Flow.ofBody body) := by
  have hwithin : ∀ w, Event.Within w (blockEvents (Flow.ofBody body)).flatten
      (Occurrence.ofStmts body.stmts) := by
    intro w
    rw [flatten_blockEvents]
    have hperm := (Flow.items_ofBody body).symm.flatMap_right fun item => Event.ofAction item.action
    exact ((Event.within_itemsOfAll (Flow.laidOut body)).permEvents hperm).perm
      (Body.perm_occurrences (Flow.laidOut_perm body))
  refine ⟨?_, ?_⟩
  · rw [Event.readIds_eq]
    exact (hwithin false).nodup h
  · rw [Event.writeIds_eq]
    exact (hwithin true).nodup h

/-- **A read resolves to exactly the definitions that reach it**, in every body of a module and for
every list of parameters; and the writes of the name have versions of their own, so that a version
says which write it is. -/
theorem read_resolves_to_reaching (name text : String) (tree : List Parse.Stmt) {body : Body}
    (hbody : body ∈ (Module.ofParse name text tree).bodies) (params : List String) {b : BlockId}
    (hb : b ∈ (Flow.ofBody body).reachable) {before after : List Event} {id : NameId} {x : String}
    (hevents : Event.ofItems ((Flow.ofBody body).items b) = before ++ .read id x :: after)
    (hx : x ∈ (ofFlow (Flow.ofBody body) params).locals) :
    (∃ d, (ofFlow (Flow.ofBody body) params).read? id = some d ∧
      ∀ e, (ofFlow (Flow.ofBody body) params).Expands x d e ↔
        ∃ items, (Flow.ofBody body).Arrives b items ∧
          (ofFlow (Flow.ofBody body) params).Reaching params x (Event.ofItems items ++ before) e) ∧
    WritesApart (Flow.ofBody body) params x := by
  have hdistinct := distinct_ofBody (Body.nodup_of_mem_bodies name text tree hbody)
  exact ⟨read_expands_iff hdistinct hb hevents hx, writesApart hdistinct hx⟩

/-- `x = 1`, then `while x: x = 2`. -/
def countdown : Module :=
  .ofParse "countdown" "x = 1\nwhile x:\n  x = 2"
    [.assign 0 [.name 0 "x"] (.constant 4 .int),
      .whileLoop 6 (.name 12 "x") [.assign 17 [.name 17 "x"] (.constant 21 .int)] []]

/-- The test of the loop sees the write before the loop and the one in it. -/
theorem read_resolves_to_reaching_countdown :
    (∃ d, (ofFlow (.ofModule countdown.body) []).read? ⟨1⟩ = some d ∧
      ∀ e, (ofFlow (.ofModule countdown.body) []).Expands "x" d e ↔
        ∃ items, (Flow.ofModule countdown.body).Arrives ⟨2⟩ items ∧
          (ofFlow (.ofModule countdown.body) []).Reaching [] "x" (Event.ofItems items ++ []) e) ∧
    WritesApart (.ofModule countdown.body) [] "x" := by
  have hentry : (Flow.ofModule countdown.body).entry = ⟨0⟩ := by decide
  have harrives : (Flow.ofModule countdown.body).Arrives ⟨0⟩ [] := hentry ▸ .entry
  have hloop : (⟨2⟩ : BlockId) ∈ (Flow.ofModule countdown.body).reachable :=
    Flow.mem_reachable_iff.2 ⟨_, harrives.step (by decide)⟩
  have hbody : ⟨[], .module, [], countdown.body⟩ ∈ countdown.bodies := mem_cons_self
  have hevents : Event.ofItems ((Flow.ofModule countdown.body).items ⟨2⟩) =
      [] ++ .read ⟨1⟩ "x" :: [] := by decide
  exact read_resolves_to_reaching "countdown" _ _ hbody [] hloop hevents (by decide)

end Versions

end FlowTyping
