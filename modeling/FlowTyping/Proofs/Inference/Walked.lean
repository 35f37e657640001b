/-
The statements that the walk over a module comes to.

A simple statement is walked if it stands in a block that can be reached, or in the body of a
definition that is walked, to any depth (`Walked`).  The bound on how deep definitions are nested is
never felt, since a definition is nested less deep inside than outside (`Within`).  So what the walk
reports about imports is what the import statements among the walked ones have to report
(`mem_walkReports`), and all of these are leaves of the tree of statements.
-/
import FlowTyping.Proofs.Flow.Fold
import FlowTyping.Proofs.Inference.Reports

namespace FlowTyping

open List Inference

/-! ### Leaves -/

mutual

/-- The statements without statements inside them in a statement, at any depth. -/
def leavesOf : Stmt → List Stmt
  | .functionDef _ ⟨_, _, _, body⟩ => leavesOfAll body
  | .classDef _ ⟨_, _, _, _, body⟩ => leavesOfAll body
  | .forLoop _ _ _ body orelse => leavesOfAll body ++ leavesOfAll orelse
  | .whileLoop _ _ body orelse => leavesOfAll body ++ leavesOfAll orelse
  | .ifThen _ _ body orelse => leavesOfAll body ++ leavesOfAll orelse
  | .withBlock _ _ body => leavesOfAll body
  | .tryBlock _ body handlers orelse finalbody =>
    leavesOfAll body ++ leavesOfHandlers handlers ++ leavesOfAll orelse ++ leavesOfAll finalbody
  | s => [s]

def leavesOfAll : List Stmt → List Stmt
  | [] => []
  | s :: ss => leavesOf s ++ leavesOfAll ss

def leavesOfHandlers : List (Handler Stmt) → List Stmt
  | [] => []
  | ⟨_, _, _, body⟩ :: hs => leavesOfAll body ++ leavesOfHandlers hs

end

namespace Flow

variable {flow : Flow} {i : Item} {fn : Bool} {leaves' ss ts : List Stmt} {depth depth' : Nat}

/-- How deep definitions are nested in an action. -/
def Action.nesting : Action → Nat
  | .functionDef fn => nestingOfAll fn.body + 1
  | .classDef cls => nestingOfAll cls.body + 1
  | _ => 0

/-- The leaves of the statements in an action. -/
def Action.leaves : Action → List Stmt
  | .simple stmt => [stmt]
  | .functionDef fn => leavesOfAll fn.body
  | .classDef cls => leavesOfAll cls.body
  | _ => []

/-- The definitions in an item are nested at most so deep, and the leaves in it are among these. -/
structure Within (i : Item) (depth : Nat) (leaves : List Stmt) : Prop where
  nesting : i.action.nesting ≤ depth
  leaves : i.action.leaves ⊆ leaves

theorem Within.left {leaves : List Stmt} (h : Within i depth leaves) :
    Within i (max depth depth') (leaves ++ leaves') :=
  ⟨h.nesting.trans (Nat.le_max_left _ _), fun _ ht => mem_append_left _ (h.leaves ht)⟩

theorem Within.right {leaves : List Stmt} (h : Within i depth' leaves') :
    Within i (max depth depth') (leaves ++ leaves') :=
  ⟨h.nesting.trans (Nat.le_max_right _ _), fun _ ht => mem_append_right _ (h.leaves ht)⟩

/-- An item in which there is neither a definition nor a simple statement. -/
theorem Within.of_plain {leaves : List Stmt} (hnesting : i.action.nesting = 0)
    (hleaves : i.action.leaves = []) : Within i depth leaves :=
  ⟨hnesting ▸ Nat.zero_le _, hleaves ▸ nil_subset _⟩

mutual

theorem within_itemsOf {n : Nat} (s : Stmt) (h : i ∈ itemsOf fn n s) : Within i (nesting s) (leavesOf s) := by
  cases s with
  | functionDef line f | classDef line cls =>
    rw [mem_singleton.1 h]
    exact ⟨le_rfl, List.Subset.refl _⟩
  | ret line value =>
    rw [itemsOf] at h
    split at h
    · rw [mem_singleton.1 h]
      exact .of_plain rfl rfl
    · cases h
  | ifThen line test body orelse | whileLoop line test body orelse =>
    rcases mem_cons.1 h with rfl | h
    · exact .of_plain rfl rfl
    · rcases mem_append.1 h with h | h
      · exact (within_itemsOfAll body h).left
      · exact (within_itemsOfAll orelse h).right
  | forLoop line target iter body orelse =>
    rcases mem_cons.1 h with rfl | h
    · exact .of_plain rfl rfl
    · rcases mem_cons.1 h with rfl | h
      · exact .of_plain rfl rfl
      · rcases mem_append.1 h with h | h
        · exact (within_itemsOfAll body h).left
        · exact (within_itemsOfAll orelse h).right
  | withBlock line items body =>
    rcases mem_append.1 h with h | h
    · obtain ⟨item, -, rfl⟩ := mem_map.1 h
      exact .of_plain rfl rfl
    · exact within_itemsOfAll body h
  | tryBlock line body handlers orelse finalbody =>
    show Within i (max _ _) _
    rw [leavesOf, append_assoc (_ ++ _)]
    rcases mem_append.1 h with h | h
    · rcases mem_append.1 h with h | h
      · rcases mem_append.1 h with h | h
        · exact (within_itemsOfAll body h).left.left
        · exact (within_itemsOfAll orelse h).left.right
      · exact (within_itemsOfHandlers handlers h).right.left
    · exact (within_itemsOfAll finalbody h).right.right
  | pass line | «break» line | «continue» line => cases h
  | _ =>
    rw [mem_singleton.1 h]
    exact ⟨Nat.zero_le _, List.Subset.refl _⟩

theorem within_itemsOfAll {n : Nat} (ss : List Stmt) (h : i ∈ itemsOfAll fn n ss) :
    Within i (nestingOfAll ss) (leavesOfAll ss) := by
  cases ss with
  | nil => cases h
  | cons s ss =>
    rcases mem_append.1 h with h | h
    · exact (within_itemsOf s h).left
    · exact (within_itemsOfAll ss h).right

theorem within_itemsOfHandlers {n : Nat} (hs : List (Handler Stmt))
    (h : i ∈ itemsOfHandlers fn n hs) : Within i (nestingOfHandlers hs) (leavesOfHandlers hs) := by
  cases hs with
  | nil => cases h
  | cons handler hs =>
    obtain ⟨line, type, name, body⟩ := handler
    rcases mem_cons.1 h with rfl | h
    · exact .of_plain rfl rfl
    · rcases mem_append.1 h with h | h
      · exact (within_itemsOfAll body h).left
      · exact (within_itemsOfHandlers hs h).right

end

/-- The order of the statements of a body does not matter. -/
theorem nestingOfAll_perm (h : ss.Perm ts) : nestingOfAll ss = nestingOfAll ts := by
  induction h with
  | nil => rfl
  | cons s _ ih => exact congrArg (max (Inference.nesting s)) ih
  | swap s t ss => exact Nat.max_left_comm _ _ _
  | trans _ _ ih ih' => exact ih.trans ih'

theorem leavesOfAll_perm (h : ss.Perm ts) : (leavesOfAll ss).Perm (leavesOfAll ts) := by
  induction h with
  | nil => rfl
  | cons s _ ih => exact ih.append_left _
  | swap s t ss =>
    show (leavesOf t ++ (leavesOf s ++ leavesOfAll ss)).Perm (leavesOf s ++ (leavesOf t ++ leavesOfAll ss))
    rw [← append_assoc, ← append_assoc]
    exact perm_append_comm.append_right _
  | trans _ _ ih ih' => exact ih.trans ih'

/-- The items of a body come from its statements. -/
theorem within_ofBody {body : Body} {b : BlockId} (h : i ∈ (ofBody body).items b) :
    Within i (nestingOfAll body.stmts) (leavesOfAll body.stmts) := by
  have hblock : i ∈ (ofBody body).blocks.toList.flatMap (·.items) := by
    rw [items] at h
    split at h
    · next block hblock => exact mem_flatMap.2 ⟨block, Array.mem_toList_iff.2 (Array.mem_of_getElem? hblock), h⟩
    · cases h
  have hwithin := within_itemsOfAll _ ((items_ofBody body).mem_iff.1 hblock)
  have hperm := laidOut_perm body
  exact ⟨nestingOfAll_perm hperm ▸ hwithin.nesting, fun t ht => (leavesOfAll_perm hperm).mem_iff.1 (hwithin.leaves ht)⟩

/-! ### Walked statements -/

/-- The walk over a body comes to a simple statement: it stands in a block that can be reached, or
in the body of a definition in such a block to which the walk comes. -/
inductive Walked : Flow → Stmt → Prop
  | here {flow : Flow} {b : BlockId} {line : Nat} {stmt : Stmt} (hb : b ∈ flow.reachable)
      (hi : ⟨line, .simple stmt⟩ ∈ flow.items b) : Walked flow stmt
  | inFunction {flow : Flow} {b : BlockId} {line : Nat} {f : FunctionDef Stmt} {stmt : Stmt}
      (hb : b ∈ flow.reachable) (hi : ⟨line, .functionDef f⟩ ∈ flow.items b)
      (h : Walked (.ofFunction f.body) stmt) : Walked flow stmt
  | inClass {flow : Flow} {b : BlockId} {line : Nat} {cls : ClassDef Stmt} {stmt : Stmt}
      (hb : b ∈ flow.reachable) (hi : ⟨line, .classDef cls⟩ ∈ flow.items b)
      (h : Walked (.ofClass cls.body) stmt) : Walked flow stmt

theorem Walked.mem_leaves {stmt : Stmt} {body : Body} (h : Walked (ofBody body) stmt) :
    stmt ∈ leavesOfAll body.stmts := by
  generalize hflow : ofBody body = flow at h
  induction h generalizing body with
  | here hb hi =>
    subst hflow
    exact (within_ofBody hi).leaves (mem_singleton_self _)
  | @inFunction _ b line f stmt hb hi h ih =>
    subst hflow
    exact (within_ofBody hi).leaves (@ih ⟨[], .function, [], f.body⟩ rfl)
  | @inClass _ b line cls stmt hb hi h ih =>
    subst hflow
    exact (within_ofBody hi).leaves (@ih ⟨[], .classBody, [], cls.body⟩ rfl)

/-! ### Reports about imports -/

variable {context : Context} {d : Diagnostic} {name : String}

theorem issue_misplacedReports (hd : d ∈ misplacedReports context flow) :
    d.issue ≠ .unresolvedImport name := by
  rw [misplacedReports] at hd
  split at hd
  · obtain ⟨m, -, rfl⟩ := mem_map.1 hd
    exact fun h => nomatch h
  · cases hd

/-- **What is reported about imports**: the walk over a body reports what the import statements have
to report to which it comes. -/
theorem mem_walkReports (hd : d.issue = .unresolvedImport name) (n : Nat) (body : Body)
    (hn : nestingOfAll body.stmts < n) :
    d ∈ walkReports context n (ofBody body) ↔
      ∃ stmt, Walked (ofBody body) stmt ∧ d ∈ importReports context stmt := by
  induction n generalizing body with
  | zero => exact absurd hn (Nat.not_lt_zero _)
  | succ n ih =>
    -- the walk into a definition in the body is a case of the induction hypothesis
    have hinner : ∀ {b : BlockId} {i : Item} (inner : Body), i ∈ (ofBody body).items b →
        i.action.nesting = nestingOfAll inner.stmts + 1 →
        (d ∈ misplacedReports context (ofBody inner) ++ walkReports context n (ofBody inner) ↔
          ∃ stmt, Walked (ofBody inner) stmt ∧ d ∈ importReports context stmt) := by
      intro b i inner hi hnesting
      have hle := (within_ofBody hi).nesting
      rw [mem_append, ih inner (by omega)]
      exact or_iff_right fun hmisplaced => issue_misplacedReports hmisplaced hd
    constructor
    · intro h
      obtain ⟨⟨line, action⟩, hi, hd'⟩ := mem_flatMap.1 h
      obtain ⟨b, hb, hi⟩ := mem_flatMap.1 hi
      cases action with
      | simple stmt => exact ⟨stmt, .here hb hi, hd'⟩
      | functionDef f =>
        obtain ⟨stmt, hwalked, hstmt⟩ := (hinner ⟨[], .function, [], f.body⟩ hi rfl).1 hd'
        exact ⟨stmt, .inFunction hb hi hwalked, hstmt⟩
      | classDef cls =>
        obtain ⟨stmt, hwalked, hstmt⟩ := (hinner ⟨[], .classBody, [], cls.body⟩ hi rfl).1 hd'
        exact ⟨stmt, .inClass hb hi hwalked, hstmt⟩
      | _ => cases hd'
    · rintro ⟨stmt, hwalked, hstmt⟩
      have hmem : ∀ {b : BlockId} {i : Item}, b ∈ (ofBody body).reachable → i ∈ (ofBody body).items b →
          d ∈ itemReports context (walkReports context n) i → d ∈ walkReports context (n + 1) (ofBody body) :=
        fun hb hi hd' => mem_flatMap.2 ⟨_, mem_flatMap.2 ⟨_, hb, hi⟩, hd'⟩
      cases hwalked with
      | here hb hi => exact hmem hb hi hstmt
      | @inFunction _ b line f _ hb hi hwalked =>
        exact hmem hb hi ((hinner ⟨[], .function, [], f.body⟩ hi rfl).2 ⟨stmt, hwalked, hstmt⟩)
      | @inClass _ b line cls _ hb hi hwalked =>
        exact hmem hb hi ((hinner ⟨[], .classBody, [], cls.body⟩ hi rfl).2 ⟨stmt, hwalked, hstmt⟩)

end Flow

end FlowTyping
