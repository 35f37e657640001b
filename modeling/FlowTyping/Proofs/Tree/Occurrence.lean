/-
The occurrences of names in a tree are numbered one after the other.

`Occurrence.ofStmts` lists the numbers of all names and binders of some statements, those of nested
functions and classes included.  `Numbers` is a judgment on computations that hand out numbers: what
comes out lists, after what was there before, exactly the numbers handed out.  It goes through
`bind`, so each kind of expression and statement is one line, and the occurrences of a module are 0,
1, 2, … without gap or repetition.
-/
import Mathlib
import FlowTyping.Tree.Numbering

namespace FlowTyping

open List

/-! ### Listing occurrences -/

namespace Occurrence

mutual

/-- The occurrences of names in an expression, in the order in which they are numbered. -/
def ofExpr : Expr → List NameId
  | .name _ id _ => [id]
  | .constant .. => []
  | .binary _ left _ right => ofExpr left ++ ofExpr right
  | .unary _ _ operand => ofExpr operand
  | .bool _ _ values => ofExprs values
  | .compare _ left _ comparators => ofExpr left ++ ofExprs comparators
  | .call _ func args keywords => ofExpr func ++ ofExprs args ++ ofKeywords keywords
  | .attribute _ value _ => ofExpr value
  | .subscript _ value index => ofExpr value ++ ofExpr index
  | .slice _ lower upper step => ofOption lower ++ ofOption upper ++ ofOption step
  | .list _ items => ofExprs items
  | .tuple _ items => ofExprs items
  | .set _ items => ofExprs items
  | .dict _ keys values => ofOptions keys ++ ofExprs values
  | .comprehension _ _ element value generators =>
    ofGenerators generators ++ ofExpr element ++ ofOption value
  | .lambda _ ⟨positional, _, keywordOnly, _⟩ body =>
    ofParameters positional ++ ofParameters keywordOnly ++ ofExpr body
  | .conditional _ test body orelse => ofExpr test ++ ofExpr body ++ ofExpr orelse
  | .named _ target value => ofExpr value ++ ofExpr target
  | .starred _ value => ofExpr value
  | .formatted _ parts => ofExprs parts
  | .yield _ value => ofOption value
  | .yieldFrom _ value => ofExpr value
  | .await _ value => ofExpr value

def ofExprs : List Expr → List NameId
  | [] => []
  | e :: es => ofExpr e ++ ofExprs es

def ofOption : Option Expr → List NameId
  | none => []
  | some e => ofExpr e

def ofOptions : List (Option Expr) → List NameId
  | [] => []
  | e :: es => ofOption e ++ ofOptions es

def ofKeywords : List (Keyword Expr) → List NameId
  | [] => []
  | ⟨_, value⟩ :: ks => ofExpr value ++ ofKeywords ks

def ofParameters : List (Parameter Expr) → List NameId
  | [] => []
  | ⟨_, default⟩ :: ps => ofOption default ++ ofParameters ps

def ofGenerators : List (Generator Expr) → List NameId
  | [] => []
  | ⟨target, iter, conditions⟩ :: gs =>
    ofExpr iter ++ ofExpr target ++ ofExprs conditions ++ ofGenerators gs

end

def ofParameterList (params : Parameters Expr) : List NameId :=
  ofParameters params.positional ++ ofParameters params.keywordOnly

def ofWithItem (item : WithItem Expr) : List NameId := ofExpr item.context ++ ofOption item.vars

def ofAlias (a : Alias) : List NameId := [a.binder.id]

def ofBinder? (b : Option Binder) : List NameId := (b.map (·.id)).toList

mutual

/-- The occurrences of names in a statement and in all that it holds. -/
def ofStmt : Stmt → List NameId
  | .functionDef _ ⟨name, params, decorators, body⟩ =>
    ofExprs decorators ++ ofParameterList params ++ [name.id] ++ ofStmts body
  | .classDef _ ⟨name, bases, keywords, decorators, body⟩ =>
    [name.id] ++ ofExprs bases ++ ofKeywords keywords ++ ofExprs decorators ++ ofStmts body
  | .ret _ value => ofOption value
  | .delete _ targets => ofExprs targets
  | .assign _ targets value => ofExpr value ++ ofExprs targets
  | .augAssign _ target _ value => ofExpr value ++ ofExpr target
  | .annAssign _ target value => ofOption value ++ ofExpr target
  | .forLoop _ target iter body orelse =>
    ofExpr iter ++ ofExpr target ++ ofStmts body ++ ofStmts orelse
  | .whileLoop _ test body orelse => ofExpr test ++ ofStmts body ++ ofStmts orelse
  | .ifThen _ test body orelse => ofExpr test ++ ofStmts body ++ ofStmts orelse
  | .withBlock _ items body => items.flatMap ofWithItem ++ ofStmts body
  | .raise _ exc cause => ofOption exc ++ ofOption cause
  | .tryBlock _ body handlers orelse finalbody =>
    ofStmts body ++ ofHandlers handlers ++ ofStmts orelse ++ ofStmts finalbody
  | .assert _ test message => ofExpr test ++ ofOption message
  | .importModules _ aliases => aliases.flatMap ofAlias
  | .importFrom _ _ aliases _ => aliases.flatMap ofAlias
  | .expr _ value => ofExpr value
  | .global .. => []
  | .nonlocal .. => []
  | .pass _ => []
  | .break _ => []
  | .continue _ => []

def ofStmts : List Stmt → List NameId
  | [] => []
  | s :: ss => ofStmt s ++ ofStmts ss

def ofHandlers : List (Handler Stmt) → List NameId
  | [] => []
  | ⟨_, type, name, body⟩ :: hs => ofOption type ++ ofBinder? name ++ ofStmts body ++ ofHandlers hs

end

end Occurrence

/-! ### Handing out numbers -/

namespace Numbering

open Occurrence

/-- The numbers from one up to another, which is left out. -/
def numbers (n m : Nat) : List NameId := (List.range' n (m - n)).map NameId.mk

theorem numbers_append {n m k : Nat} (h : n ≤ m) (h' : m ≤ k) :
    numbers n m ++ numbers m k = numbers n k := by
  have hk : k - n = (m - n) + (k - m) := by omega
  have hm : m = n + (m - n) := by omega
  rw [numbers, numbers, numbers, ← map_append, hk, ← List.range'_append_1, ← hm]

theorem nodup_numbers (n m : Nat) : (numbers n m).Nodup :=
  List.Nodup.map (fun _ _ h => NameId.mk.inj h) (nodup_range' ..)

/-- What a computation gives lists some occurrences and then exactly the numbers that it hands out.
-/
def Numbers {α : Type} (x : Numbered α) (before : List NameId) (list : α → List NameId) : Prop :=
  ∀ n, n ≤ (x n).2 ∧ list (x n).1 = before ++ numbers n (x n).2

section

variable {α β : Type} {before : List NameId}

theorem Numbers.pure {a : α} {list : α → List NameId} (h : list a = before) :
    Numbers (pure a) before list := by
  intro n
  refine ⟨Nat.le_refl n, ?_⟩
  show list a = before ++ (List.range' n (n - n)).map NameId.mk
  rw [Nat.sub_self, h]
  exact (append_nil before).symm

theorem Numbers.bind {x : Numbered α} {f : α → Numbered β} {list : α → List NameId}
    {list' : β → List NameId} (h : Numbers x [] list)
    (hf : ∀ a, Numbers (f a) (before ++ list a) list') : Numbers (x >>= f) before list' := by
  intro n
  obtain ⟨hle, hlist⟩ := h n
  obtain ⟨hle', hlist'⟩ := hf (x n).1 (x n).2
  refine ⟨hle.trans hle', ?_⟩
  show list' (f (x n).1 (x n).2).1 = before ++ numbers n (f (x n).1 (x n).2).2
  rw [hlist', hlist, nil_append, append_assoc, numbers_append hle hle']

/-- A computation after which nothing is numbered any more. -/
theorem Numbers.last {x : Numbered α} {f : α → β} {list : α → List NameId} {list' : β → List NameId}
    (h : Numbers x [] list) (hf : ∀ a, list' (f a) = before ++ list a := by intro; rfl) :
    Numbers (x >>= fun a => Pure.pure (f a)) before list' :=
  h.bind fun a => .pure (hf a)

theorem numbers_fresh : Numbers fresh [] fun id => [id] := by
  intro n
  refine ⟨Nat.le_succ n, ?_⟩
  show [(⟨n⟩ : NameId)] = [] ++ (List.range' n (n + 1 - n)).map NameId.mk
  rw [Nat.add_sub_cancel_left]
  rfl

theorem numbers_binder (name : String) : Numbers (binder name) [] fun b => [b.id] :=
  numbers_fresh.last

theorem numbers_optionalBinder (name : Option String) :
    Numbers (optionalBinder name) [] ofBinder? := by
  cases name with
  | none => exact .pure rfl
  | some name => exact (numbers_binder name).last

end

variable (lines : Lines)

theorem ofParameters_append (ps qs : List (Parameter Expr)) :
    ofParameters (ps ++ qs) = ofParameters ps ++ ofParameters qs := by
  induction ps with
  | nil => rfl
  | cons p ps ih =>
    obtain ⟨name, default⟩ := p
    rw [cons_append, ofParameters, ofParameters, ih, append_assoc]

mutual

theorem numbers_expr (e : Parse.Expr) : Numbers (expr lines e) [] ofExpr := by
  cases e with
  | bool o op values => exact (numbers_exprs values).last
  | named o target value =>
    exact (numbers_expr value).bind fun _ => (numbers_expr target).last
  | binary o left op right =>
    exact (numbers_expr left).bind fun _ => (numbers_expr right).last
  | unary o op operand => exact (numbers_expr operand).last
  | lambda o params body =>
    obtain ⟨positionalOnly, positional, vararg, keywordOnly, kwarg⟩ := params
    exact (numbers_parameters positionalOnly).bind fun _ => (numbers_parameters positional).bind
      fun _ => (numbers_parameters keywordOnly).bind fun _ => (numbers_expr body).bind fun _ =>
      .pure (by simp [ofExpr, ofParameters_append])
  | conditional o test body orelse =>
    exact (numbers_expr test).bind fun _ => (numbers_expr body).bind fun _ =>
      (numbers_expr orelse).last
  | dict o keys values =>
    exact (numbers_optionals keys).bind fun _ => (numbers_exprs values).last
  | set o items | list o items | tuple o items => exact (numbers_exprs items).last
  | comprehension o kind element value gens =>
    exact (numbers_generators gens).bind fun _ => (numbers_expr element).bind fun _ =>
      (numbers_optional value).last
  | await o value | yieldFrom o value | «attribute» o value attr | starred o value => exact (numbers_expr value).last
  | yield o value => exact (numbers_optional value).last
  | compare o left ops comparators =>
    exact (numbers_expr left).bind fun _ => (numbers_exprs comparators).last
  | call o func args kws =>
    exact (numbers_expr func).bind fun _ => (numbers_exprs args).bind fun _ =>
      (numbers_keywords kws).last
  | formatted o value =>
    exact (numbers_expr value).bind fun _ => .pure (by simp [ofExpr, ofExprs])
  | joined o values => exact (numbers_formattedParts values).last
  | constant o c => exact .pure rfl
  | subscript o value index =>
    exact (numbers_expr value).bind fun _ => (numbers_expr index).last
  | name o name => exact numbers_fresh.last
  | slice o lower upper step =>
    exact (numbers_optional lower).bind fun _ => (numbers_optional upper).bind fun _ =>
      (numbers_optional step).last

theorem numbers_exprs (es : List Parse.Expr) : Numbers (exprs lines es) [] ofExprs := by
  cases es with
  | nil => exact .pure rfl
  | cons e es =>
    exact (numbers_expr e).bind fun _ => (numbers_exprs es).last

theorem numbers_optional (e : Option Parse.Expr) : Numbers (optional lines e) [] ofOption := by
  cases e with
  | none => exact .pure rfl
  | some e => exact (numbers_expr e).last

theorem numbers_optionals (es : List (Option Parse.Expr)) :
    Numbers (optionals lines es) [] ofOptions := by
  cases es with
  | nil => exact .pure rfl
  | cons e es =>
    exact (numbers_optional e).bind fun _ => (numbers_optionals es).last

theorem numbers_parameters (ps : List (Parameter Parse.Expr)) :
    Numbers (parameters lines ps) [] ofParameters := by
  cases ps with
  | nil => exact .pure rfl
  | cons p ps =>
    obtain ⟨name, default⟩ := p
    exact (numbers_optional default).bind fun _ => (numbers_parameters ps).last

theorem numbers_generators (gs : List (Generator Parse.Expr)) :
    Numbers (generators lines gs) [] ofGenerators := by
  cases gs with
  | nil => exact .pure rfl
  | cons g gs =>
    obtain ⟨target, iter, conditions⟩ := g
    exact (numbers_expr iter).bind fun _ => (numbers_expr target).bind fun _ =>
      (numbers_exprs conditions).bind fun _ => (numbers_generators gs).last

theorem numbers_keywords (ks : List (Keyword Parse.Expr)) :
    Numbers (keywords lines ks) [] ofKeywords := by
  cases ks with
  | nil => exact .pure rfl
  | cons k ks =>
    obtain ⟨arg, value⟩ := k
    exact (numbers_expr value).bind fun _ => (numbers_keywords ks).last

theorem numbers_formattedParts (es : List Parse.Expr) :
    Numbers (formattedParts lines es) [] ofExprs := by
  cases es with
  | nil => exact .pure rfl
  | cons e es =>
    cases e with
    | formatted o value =>
      exact (numbers_expr value).bind fun _ => (numbers_formattedParts es).last
    | _ => exact numbers_formattedParts es

end

theorem numbers_parameterList (p : Parse.Parameters Parse.Expr) :
    Numbers (parameterList lines p) [] ofParameterList :=
  (numbers_parameters lines p.positionalOnly).bind fun _ =>
    (numbers_parameters lines p.positional).bind fun _ =>
    (numbers_parameters lines p.keywordOnly).bind fun _ =>
    .pure (by simp [ofParameterList, ofParameters_append])

theorem numbers_withItems (items : List (WithItem Parse.Expr)) :
    Numbers (withItems lines items) [] fun items => items.flatMap ofWithItem := by
  induction items with
  | nil => exact .pure rfl
  | cons item items ih =>
    exact (numbers_expr lines item.context).bind fun _ => (numbers_optional lines item.vars).bind
      fun _ => ih.bind fun _ => .pure (by simp [ofWithItem])

theorem numbers_moduleAliases (as : List Parse.Alias) :
    Numbers (moduleAliases as) [] fun as => as.flatMap ofAlias := by
  induction as with
  | nil => exact .pure rfl
  | cons a as ih =>
    exact (numbers_binder _).bind fun _ => ih.bind fun _ => .pure (by simp [ofAlias])

theorem numbers_memberAliases (as : List Parse.Alias) :
    Numbers (memberAliases as) [] fun as => as.flatMap ofAlias := by
  induction as with
  | nil => exact .pure rfl
  | cons a as ih =>
    exact (numbers_binder _).bind fun _ => ih.bind fun _ => .pure (by simp [ofAlias])

mutual

theorem numbers_stmt (around : Nat) (s : Parse.Stmt) : Numbers (stmt lines around s) [] ofStmt := by
  cases s with
  | functionDef o name params body decorators =>
    exact (numbers_exprs lines decorators).bind fun _ => (numbers_parameterList lines params).bind
      fun _ => (numbers_binder name).bind fun _ => (numbers_stmts (lines.line o) body).last
  | classDef o name bases kws body decorators =>
    exact (numbers_binder name).bind fun _ => (numbers_exprs lines bases).bind fun _ =>
      (numbers_keywords lines kws).bind fun _ => (numbers_exprs lines decorators).bind fun _ =>
      (numbers_stmts (lines.line o) body).last
  | ret o value => exact (numbers_optional lines value).last
  | delete o targets => exact (numbers_exprs lines targets).last
  | assign o targets value =>
    exact (numbers_expr lines value).bind fun _ => (numbers_exprs lines targets).last
  | augAssign o target op value =>
    exact (numbers_expr lines value).bind fun _ => (numbers_expr lines target).last
  | annAssign o target value =>
    exact (numbers_optional lines value).bind fun _ => (numbers_expr lines target).last
  | forLoop o target iter body orelse =>
    exact (numbers_expr lines iter).bind fun _ => (numbers_expr lines target).bind fun _ =>
      (numbers_stmts (lines.line o) body).bind fun _ =>
      (numbers_stmts (lines.line o) orelse).last
  | whileLoop o test body orelse | ifThen o test body orelse =>
    exact (numbers_expr lines test).bind fun _ => (numbers_stmts (lines.line o) body).bind fun _ =>
      (numbers_stmts (lines.line o) orelse).last
  | withBlock o items body =>
    exact (numbers_withItems lines items).bind fun _ => (numbers_stmts (lines.line o) body).last
  | raise o exc cause =>
    exact (numbers_optional lines exc).bind fun _ => (numbers_optional lines cause).last
  | tryBlock o body hs orelse finalbody =>
    exact (numbers_stmts (lines.line o) body).bind fun _ => (numbers_handlers hs).bind fun _ =>
      (numbers_stmts (lines.line o) orelse).bind fun _ =>
      (numbers_stmts (lines.line o) finalbody).last
  | assert o test message =>
    exact (numbers_expr lines test).bind fun _ => (numbers_optional lines message).last
  | importModules o aliases =>
    exact (numbers_moduleAliases aliases).last
  | importFrom o module aliases level =>
    exact (numbers_memberAliases aliases).last
  | global o names | nonlocal o names | pass o | «break» o | «continue» o | other => exact .pure rfl
  | expr o value => exact (numbers_expr lines value).last

theorem numbers_stmts (around : Nat) (ss : List Parse.Stmt) :
    Numbers (stmts lines around ss) [] ofStmts := by
  cases ss with
  | nil => exact .pure rfl
  | cons s ss =>
    exact (numbers_stmt around s).bind fun _ => (numbers_stmts around ss).last

theorem numbers_handlers (hs : List (Parse.Handler Parse.Stmt)) :
    Numbers (handlers lines hs) [] ofHandlers := by
  cases hs with
  | nil => exact .pure rfl
  | cons h hs =>
    obtain ⟨o, type, name, body⟩ := h
    exact (numbers_optional lines type).bind fun _ => (numbers_optionalBinder name).bind fun _ =>
      (numbers_stmts (lines.line o) body).bind fun _ => (numbers_handlers hs).last

end

end Numbering

/-- **The occurrences of a module are numbered from 0 on**, each with a number of its own. -/
theorem Occurrence.ofStmts_ofParse (name text : String) (body : List Parse.Stmt) :
    ∃ n, ofStmts (Module.ofParse name text body).body = Numbering.numbers 0 n := by
  obtain ⟨-, hlist⟩ := Numbering.numbers_stmts (.ofText text) 1 body 0
  exact ⟨_, hlist⟩

theorem Occurrence.nodup_ofParse (name text : String) (body : List Parse.Stmt) :
    (ofStmts (Module.ofParse name text body).body).Nodup := by
  obtain ⟨n, hlist⟩ := ofStmts_ofParse name text body
  rw [hlist]
  exact Numbering.nodup_numbers 0 n

/-- **Every occurrence has a number of its own, and no number is left out**: those of a module,
whatever its tree, are the numbers below their count. -/
theorem Occurrence.numbered_apart_without_gap (name text : String) (body : List Parse.Stmt) :
    let occurrences := ofStmts (Module.ofParse name text body).body
    occurrences.Nodup ∧ ∀ k : Nat, ⟨k⟩ ∈ occurrences ↔ k < occurrences.length := by
  intro occurrences
  obtain ⟨n, hlist⟩ : ∃ n, occurrences = Numbering.numbers 0 n := ofStmts_ofParse name text body
  rw [hlist]
  refine ⟨Numbering.nodup_numbers 0 n, fun k => ?_⟩
  simp [Numbering.numbers]

end FlowTyping
