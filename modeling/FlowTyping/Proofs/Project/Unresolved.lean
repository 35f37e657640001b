/-
Which imports are reported to lead nowhere.

A module is read twice: its import statements are gathered as candidates, of which those that are
other modules are loaded; later the walk comes to the import statements that can be reached and
looks up what each leads to.  The two readings agree on names (`Import.Asks`) as far as the
candidates go, so what is reported is missing in the source, with two exceptions
(`unresolvedImport_iff`): a package that imports from itself is not a candidate of its own, and a
name that starts with a dot is not put together again from its parts.
-/
import FlowTyping.Proofs.Inference.Walked
import FlowTyping.Proofs.Project.Diagnostics
import FlowTyping.Proofs.Project.Loading
import FlowTyping.Proofs.Twin.Reports

namespace FlowTyping

open List

variable {stmt : Stmt} {line : Nat} {name module : String} {m : Module} {a : Analysis} {g : Graph}

/-! ### Candidates -/

namespace Table

variable {κ α β : Type} {key : κ}

section

variable [DecidableEq κ]

theorem isSome_get?_iff {t : Table κ α} : (t.get? key).isSome ↔ key ∈ t.keys := by
  constructor
  · intro h
    obtain ⟨a, ha⟩ := Option.isSome_iff_exists.1 h
    exact mem_map_of_mem (mem_entries_of_get? ha)
  · intro h
    obtain ⟨⟨k, a⟩, he, rfl⟩ := mem_map.1 h
    obtain ⟨b, hb⟩ := isSome_get?_of_mem he
    rw [hb]
    rfl

theorem mem_keys_insert {t : Table κ α} {k : κ} {a : α} : key ∈ (t.insert k a).keys ↔ key ∈ t.keys ∨ key = k := by
  rw [← isSome_get?_iff, ← isSome_get?_iff, get?_insert]
  split
  · next h => simp [h]
  · next h => simp [Ne.symm h]

theorem mem_keys_insertNew {t : Table κ α} {k : κ} {a : α} :
    key ∈ (t.insertNew k a).keys ↔ key ∈ t.keys ∨ key = k := by
  rw [insertNew]
  split
  · next h =>
    refine ⟨.inl, ?_⟩
    rintro (hkey | rfl)
    · exact hkey
    · exact isSome_get?_iff.1 h
  · exact mem_keys_insert

end

/-- Whether a key is there after steps each of which may add it. -/
theorem mem_keys_foldl {f : Table κ α → β → Table κ α} {adds : β → Prop}
    (hf : ∀ t b, key ∈ (f t b).keys ↔ key ∈ t.keys ∨ adds b) (bs : List β) (t : Table κ α) :
    key ∈ (bs.foldl f t).keys ↔ key ∈ t.keys ∨ ∃ b ∈ bs, adds b := by
  induction bs generalizing t with
  | nil => simp
  | cons b bs ih =>
    rw [foldl_cons, ih, hf, or_assoc]
    simp

theorem mem_keys_foldl_map {f : Table κ α → β → Table κ α} {g : β → κ}
    (hf : ∀ t b, key ∈ (f t b).keys ↔ key ∈ t.keys ∨ key = g b) (bs : List β) (t : Table κ α) :
    key ∈ (bs.foldl f t).keys ↔ key ∈ t.keys ∨ key ∈ bs.map g := by
  rw [mem_keys_foldl hf, mem_map]
  simp only [eq_comm]

end Table

namespace Import

variable {importer key : String} {isPackage : Bool}

/-- The candidates that a simple statement adds. -/
def ofLeaf (importer : String) (isPackage : Bool) (found : Candidates) : Stmt → Candidates
  | .importModules _ aliases => ofModules found aliases
  | .importFrom _ module aliases level =>
    match resolve? importer isPackage module level with
    | some absolute => ofMembers found absolute aliases
    | none => found
  | _ => found

mutual

/-- The candidates are gathered from leaf to leaf. -/
theorem ofStmt_eq_foldl (found : Candidates) (s : Stmt) :
    ofStmt importer isPackage found s = (leavesOf s).foldl (ofLeaf importer isPackage) found := by
  cases s with
  | functionDef line f => exact ofBody_eq_foldl found f.body
  | classDef line cls => exact ofBody_eq_foldl found cls.body
  | forLoop line target iter body orelse | whileLoop line test body orelse | ifThen line test body orelse =>
    rw [leavesOf, foldl_append, ← ofBody_eq_foldl found body, ← ofBody_eq_foldl _ orelse]
    rfl
  | withBlock line items body => exact ofBody_eq_foldl found body
  | tryBlock line body handlers orelse finalbody =>
    rw [leavesOf, foldl_append, foldl_append, foldl_append, ← ofBody_eq_foldl found body,
      ← ofHandlers_eq_foldl _ handlers, ← ofBody_eq_foldl _ orelse, ← ofBody_eq_foldl _ finalbody]
    rfl
  | _ => rfl

theorem ofBody_eq_foldl (found : Candidates) (ss : List Stmt) :
    ofBody importer isPackage found ss = (leavesOfAll ss).foldl (ofLeaf importer isPackage) found := by
  cases ss with
  | nil => rfl
  | cons s ss =>
    rw [leavesOfAll, foldl_append, ← ofStmt_eq_foldl found s, ← ofBody_eq_foldl _ ss]
    rfl

theorem ofHandlers_eq_foldl (found : Candidates) (hs : List (Handler Stmt)) :
    ofHandlers importer isPackage found hs = (leavesOfHandlers hs).foldl (ofLeaf importer isPackage) found := by
  cases hs with
  | nil => rfl
  | cons handler hs =>
    obtain ⟨line, type, name, body⟩ := handler
    rw [leavesOfHandlers, foldl_append, ← ofBody_eq_foldl found body, ← ofHandlers_eq_foldl _ hs]
    rfl

end

/-- The names of the candidates of a simple statement. -/
def named (importer : String) (isPackage : Bool) : Stmt → List String
  | .importModules _ aliases => aliases.flatMap fun a => leadingNames a.path
  | .importFrom _ module aliases level =>
    match resolve? importer isPackage module level with
    | some absolute =>
      leadingNames absolute ++ (aliases.filter (·.binder.name ≠ "*")).map fun a => absolute ++ "." ++ a.path
    | none => []
  | _ => []

theorem mem_keys_ofLeaf (found : Candidates) (s : Stmt) :
    key ∈ (ofLeaf importer isPackage found s).keys ↔ key ∈ found.keys ∨ key ∈ named importer isPackage s := by
  cases s with
  | importModules line aliases =>
    have hadd : ∀ (t : Candidates) (n : String), key ∈ (t.insert n false).keys ↔ key ∈ t.keys ∨ key = n :=
      fun _ _ => Table.mem_keys_insert
    refine (Table.mem_keys_foldl_map hadd _ found).trans ?_
    rw [map_id']
    rfl
  | importFrom line module aliases level =>
    rw [ofLeaf, named]
    split
    · next absolute _ =>
      have hpackage : ∀ (t : Candidates) (n : String), key ∈ (t.insertNew n false).keys ↔ key ∈ t.keys ∨ key = n :=
        fun _ _ => Table.mem_keys_insertNew
      have hmember : ∀ (t : Candidates) (a : Alias),
          key ∈ (t.insertNew (absolute ++ "." ++ a.path) true).keys ↔ key ∈ t.keys ∨ key = absolute ++ "." ++ a.path :=
        fun _ _ => Table.mem_keys_insertNew
      refine (Table.mem_keys_foldl_map hmember _ _).trans ?_
      rw [Table.mem_keys_foldl_map hpackage, map_id', mem_append, or_assoc]
    · exact (or_iff_left not_mem_nil).symm
  | _ => exact (or_iff_left not_mem_nil).symm

theorem mem_keys_candidates (m : Module) :
    key ∈ (candidates m isPackage).keys ↔ ∃ s ∈ leavesOfAll m.body, key ∈ named m.name isPackage s := by
  rw [candidates, ofBody_eq_foldl, Table.mem_keys_foldl mem_keys_ofLeaf]
  exact or_iff_right not_mem_nil

theorem foldl_extend_mem_go (before part : String) (parts : List String) :
    (part :: parts).foldl extend before ∈ leadingNames.go before (part :: parts) := by
  induction parts generalizing before part with
  | nil => exact mem_singleton_self _
  | cons next parts ih => exact mem_cons_of_mem _ (ih (extend before part) next)

/-- Putting parts one by one behind a name that has some text. -/
theorem foldl_extend {before : String} (hne : before ≠ "") (parts : List String) :
    parts.foldl extend before = Text.undotted (before :: parts) := by
  induction parts generalizing before with
  | nil => exact String.ofList_toList.symm
  | cons part parts ih =>
    have hextend : extend before part = before ++ "." ++ part := by
      rw [extend, if_neg (by simpa using hne)]
    have hjoin : Text.undotted ((before ++ "." ++ part) :: parts) = Text.undotted (before :: part :: parts) := by
      rcases parts with - | ⟨next, parts⟩ <;>
        simp [Text.undotted, Text.join, Text.joinChars]
    rw [foldl_cons, hextend, ih, hjoin]
    simp

/-- **The leading names of a module include its own**, unless it starts with a dot. -/
theorem mem_leadingNames (name : String) : name ∈ leadingNames name ∨ name.toList.head? = some '.' := by
  obtain ⟨part, parts, hparts⟩ := exists_cons_of_ne_nil (Text.split_ne_nil '.' name)
  have hname : Text.undotted (part :: parts) = name := hparts ▸ Text.join_split '.' name
  have hmem : (part :: parts).foldl extend "" ∈ leadingNames name := by
    rw [leadingNames, Text.dotted, hparts]
    exact foldl_extend_mem_go "" part parts
  have hextend : extend "" part = part := rfl
  rw [foldl_cons, hextend] at hmem
  by_cases hpart : part = ""
  · subst hpart
    rcases parts with - | ⟨next, parts⟩
    · have hempty : name = "" := hname.symm.trans (by simp [Text.undotted, Text.join, Text.joinChars])
      left
      rw [hempty] at hmem ⊢
      exact hmem
    · right
      rw [← hname]
      simp [Text.undotted, Text.join, Text.joinChars]
  · left
    rwa [foldl_extend hpart, hname] at hmem

/-! ### What an import asks for -/

/-- A statement at some line asks for a module by its absolute name. -/
inductive Asks (importer : String) (isPackage : Bool) : Stmt → Nat → String → Prop
  | module {line : Nat} {aliases : List Alias} {a : Alias} (h : a ∈ aliases) :
      Asks importer isPackage (.importModules line aliases) line a.path
  | members {line level : Nat} {module : Option String} {aliases : List Alias} {name : String}
      (h : resolve? importer isPackage module level = some name) :
      Asks importer isPackage (.importFrom line module aliases level) line name

/-- A statement at some line imports from beyond the topmost package; all there is of the name is
how it is written. -/
inductive Escapes (importer : String) (isPackage : Bool) : Stmt → Nat → String → Prop
  | mk {line level : Nat} {module : Option String} {aliases : List Alias}
      (h : resolve? importer isPackage module level = none) :
      Escapes importer isPackage (.importFrom line module aliases level) line
        (Inference.writtenName module level)

theorem Asks.leadingNames_subset
    (h : Asks importer isPackage stmt line name) : leadingNames name ⊆ named importer isPackage stmt := by
  intro x hx
  cases h with
  | module ha => exact mem_flatMap.2 ⟨_, ha, hx⟩
  | members h =>
    rw [named, h]
    exact mem_append_left _ hx

/-- What a leaf of a module asks for is a candidate, unless it starts with a dot. -/
theorem Asks.mem_candidates
    (h : Asks m.name isPackage stmt line name) (hstmt : stmt ∈ leavesOfAll m.body)
    (hname : name.toList.head? ≠ some '.') : name ∈ (candidates m isPackage).keys := by
  rw [mem_keys_candidates]
  exact ⟨stmt, hstmt, h.leadingNames_subset ((mem_leadingNames name).resolve_right hname)⟩

end Import

namespace Inference

variable {context : Context}

/-- An import statement reports the modules that it asks for in vain, and the names that lead out.
-/
theorem mem_importReports : ⟨module, line, .unresolvedImport name⟩ ∈ importReports context stmt ↔
      module = context.name ∧ (Import.Asks context.name context.isPackage stmt line name ∧ Lacks context.imports name ∨
        Import.Escapes context.name context.isPackage stmt line name) := by
  constructor
  · intro h
    unfold importReports at h
    split at h
    · obtain ⟨a, ha, heq⟩ := mem_map.1 h
      obtain ⟨hmem, hlacks⟩ := mem_filter.1 ha
      cases heq
      exact ⟨rfl, .inl ⟨.module hmem, of_decide_eq_true hlacks⟩⟩
    · split at h
      · next absolute hresolve =>
        split at h
        · next hlacks =>
          cases mem_singleton.1 h
          exact ⟨rfl, .inl ⟨.members hresolve, hlacks⟩⟩
        · cases h
      · next hresolve =>
        cases mem_singleton.1 h
        exact ⟨rfl, .inr (.mk hresolve)⟩
    · cases h
  · rintro ⟨rfl, ⟨hasks, hlacks⟩ | hescapes⟩
    · cases hasks with
      | module ha => exact mem_map.2 ⟨_, mem_filter.2 ⟨ha, decide_eq_true hlacks⟩, rfl⟩
      | members hresolve =>
        rw [importReports, hresolve]
        dsimp only
        rw [if_pos hlacks]
        exact mem_singleton_self _
    · obtain ⟨hresolve⟩ := hescapes
      rw [importReports, hresolve]
      exact mem_singleton_self _

end Inference

namespace Project

open Inference

variable {source : Source} {name : String} {m : Module} {isPackage : Bool} {p p' : Project}
  {names : List String} {targets found : List ImportTarget} {candidate : String × Bool} {x : String}
  {target : ImportTarget}

/-! ### What imports lead to -/

/-- A target is missing exactly if the source has no well-formed module for the name. -/
def Tells (source : Source) (name : String) (target : ImportTarget) : Prop :=
  target = .missing ↔ source.module? name = none

def Truthful (source : Source) (p : Project) : Prop :=
  ∀ x state, p.states.get? x = some state → Tells source x state.target

theorem tells_of_isSome (hmodule : (source.module? name).isSome)
    (htarget : target ≠ .missing) : Tells source name target := by
  refine ⟨fun h => absurd h htarget, fun h => ?_⟩
  rw [h] at hmodule
  cases hmodule

theorem Ended.tells {state : LoadState} (h : Ended source name (some state)) : Tells source name state.target := by
  rcases h with ⟨heq, hmodule⟩ | ⟨id, heq, hmodule⟩
  · cases heq
    exact ⟨fun _ => hmodule, fun _ => rfl⟩
  · cases heq
    exact tells_of_isSome hmodule fun h => nomatch h

theorem Loading.truthful (h : Loading source p names targets p') (hp : Truthful source p) :
    Truthful source p' := by
  intro x state hx
  rcases h.becomes x with heq | ⟨-, hended⟩
  · exact hp x state (heq ▸ hx)
  · exact (hx ▸ hended).tells

theorem Truthful.insert (hp : Truthful source p) (state : LoadState) (htells : Tells source name state.target)
    (hstates : p'.states = p.states.insert name state) : Truthful source p' := by
  intro x state' hx
  rw [hstates, Table.get?_insert] at hx
  split at hx
  · next heq =>
    cases heq
    cases hx
    exact htells
  · exact hp x state' hx

/-- When the imports of a module have been loaded, what is known is true. -/
theorem Loading.truthful_imports {p₁ p₂ : Project} {before : List ImportTarget}
    (hp : Truthful source p) (hmodule : source.module? name = some (m, isPackage))
    (package : Loading source p (packages name) before p₁)
    (imports : Loading source (p₁.register name (p₁.package? name)) (imported m isPackage) found p₂) :
    Truthful source (p₁.register name (p₁.package? name)) ∧
      ∀ result, Truthful source (p₂.complete m p₁.nextId result) := by
  have hsome : (source.module? name).isSome := by rw [hmodule]; rfl
  have hregister : Truthful source (p₁.register name (p₁.package? name)) :=
    (package.truthful hp).insert (.inProgress p₁.nextId) (tells_of_isSome hsome fun h => nomatch h) rfl
  refine ⟨hregister, fun result => (imports.truthful hregister).insert (.done p₁.nextId)
    (tells_of_isSome hsome fun h => nomatch h) ?_⟩
  rw [← Source.name_of_module? hmodule]
  rfl

/-- **Loading tells the truth**: a name leads nowhere exactly if there is no module for it. -/
theorem Loading.tells (h : Loading source p names targets p') (hp : Truthful source p) :
    Forall₂ (Tells source) names targets := by
  induction h with
  | nil p => exact .nil
  | known hstate _ ih => exact .cons (hp _ _ hstate) (ih hp)
  | absent _ hmodule _ ih =>
    have htells : Tells source _ .missing := ⟨fun _ => hmodule, fun _ => rfl⟩
    exact .cons htells (ih (hp.insert .missing htells rfl))
  | loaded _ hmodule package imports _ _ _ ih =>
    refine .cons (tells_of_isSome (by rw [hmodule]; rfl) fun h => nomatch h) (ih ?_)
    exact (Loading.truthful_imports hp hmodule package imports).2 _

/-! ### The imports of a module -/

def TellsAll (source : Source) (imports : Table String ImportTarget) : Prop :=
  ∀ x target, imports.get? x = some target → Tells source x target

variable {imports : Table String ImportTarget}

theorem TellsAll.lacks (h : TellsAll source imports) (hmodule : source.module? x = none) :
    Lacks imports x := by
  rcases hx : imports.get? x with - | target
  · exact .inl hx
  · exact .inr (hx.trans (congrArg some ((h x target hx).2 hmodule)))

theorem TellsAll.note (h : TellsAll source imports) (htarget : Tells source candidate.1 target) :
    TellsAll source (note imports candidate target) := by
  rw [Project.note]
  split
  · exact h
  · intro x other hx
    rw [Table.get?_insert] at hx
    split at hx
    · next heq =>
      cases hx
      exact heq ▸ htarget
    · exact h x other hx

theorem lacks_note (h : TellsAll source imports) (htarget : Tells source candidate.1 target) :
    Lacks (note imports candidate target) x ↔
      Lacks imports x ∧ (x = candidate.1 → source.module? x = none) := by
  by_cases hx : x = candidate.1
  · subst hx
    rw [Project.note]
    split
    · next hskip => exact ⟨fun hl => ⟨hl, fun _ => htarget.1 hskip.2⟩, And.left⟩
    · rw [Lacks, Table.get?_insert_self]
      refine ⟨fun hl => ?_, fun hl => .inr (congrArg some (htarget.2 (hl.2 rfl)))⟩
      have hmissing := htarget.1 (Option.some.inj (hl.resolve_left (Option.some_ne_none _)))
      exact ⟨h.lacks hmissing, fun _ => hmissing⟩
  · have hsame : (note imports candidate target).get? x = imports.get? x := by
      rw [Project.note]
      split
      · rfl
      · rw [Table.get?_insert, if_neg (Ne.symm hx)]
    rw [Lacks, hsame]
    exact ⟨fun hl => ⟨hl, fun heq => absurd heq hx⟩, And.left⟩

/-- **What the imports of a module lack**: the names that are not loaded for it, and those without a
module. -/
theorem lacks_noteAll {candidates : List (String × Bool)}
    (h : Forall₂ (Tells source) (candidates.map (·.1)) found) (himports : TellsAll source imports)
    (x : String) : Lacks (noteAll imports candidates found) x ↔
      Lacks imports x ∧ (x ∈ candidates.map (·.1) → source.module? x = none) := by
  induction candidates generalizing imports found with
  | nil =>
    cases h
    exact (and_iff_left fun hx => nomatch hx).symm
  | cons candidate candidates ih =>
    cases h with
    | @cons _ target _ found htarget h =>
      refine (ih h (himports.note htarget)).trans ?_
      rw [lacks_note himports htarget, map_cons, mem_cons, and_assoc, ← or_imp]

theorem mem_imported :
    x ∈ imported m isPackage ↔ x ∈ (Import.candidates m isPackage).keys ∧ x ≠ m.name := by
  rw [imported, wanted, Table.keys]
  simp only [mem_map, mem_filter, decide_eq_true_eq]
  constructor
  · rintro ⟨e, ⟨he, hne⟩, rfl⟩
    exact ⟨⟨e, he, rfl⟩, hne⟩
  · rintro ⟨⟨e, he, rfl⟩, hne⟩
    exact ⟨e, ⟨he, hne⟩, rfl⟩

/-! ### Analyses -/

/-- An analysis of a module of the source, in which an import leads somewhere exactly if it leads to
a candidate other than the module itself for which there is a module. -/
def IsAnalysis (source : Source) (a : Analysis) : Prop :=
  ∃ m isPackage context g, source.module? a.name = some (m, isPackage) ∧
    a = (Analysis.ofModule context m.body g).1 ∧ context.name = m.name ∧ context.isPackage = isPackage ∧
    ∀ x, Lacks context.imports x ↔ (x ∈ imported m isPackage → source.module? x = none)

theorem isAnalysis_walked {id : ModuleId} (hmodule : source.module? name = some (m, isPackage))
    (h : Forall₂ (Tells source) (imported m isPackage) found) :
    IsAnalysis source (p.walked m isPackage id found).1 := by
  have hname : (p.walked m isPackage id found).1.name = name := by
    rw [walked, (Analysis.ofModule_reports _ _ _).1]
    exact Source.name_of_module? hmodule
  refine ⟨m, isPackage, contextOf p m isPackage id (noteAll .empty (wanted m isPackage) found),
    p.graph, hname ▸ hmodule, by rw [walked], rfl, rfl, fun x => ?_⟩
  have hempty : TellsAll source .empty := fun _ _ hx => nomatch hx
  exact (lacks_noteAll h hempty x).trans (and_iff_right (.inl rfl))

theorem Loading.isAnalysis (h : Loading source p names targets p') (hp : Truthful source p)
    (hanalyses : ∀ a ∈ p.analyses, IsAnalysis source a) : ∀ a ∈ p'.analyses, IsAnalysis source a := by
  induction h with
  | nil p => exact hanalyses
  | known _ _ ih => exact ih hp hanalyses
  | absent _ hmodule _ ih => exact ih (hp.insert .missing ⟨fun _ => hmodule, fun _ => rfl⟩ rfl) hanalyses
  | @loaded p p₁ p₂ p' name _ m isPackage _ found _ _ hmodule package imports _ ih₁ ih₂ ih₃ =>
    obtain ⟨hregister, hcomplete⟩ := Loading.truthful_imports hp hmodule package imports
    refine ih₃ (hcomplete _) fun a ha => ?_
    rcases mem_append.1 ha with ha | ha
    · exact ih₂ hregister (ih₁ hp hanalyses) a ha
    · rw [mem_singleton.1 ha]
      exact isAnalysis_walked hmodule (imports.tells hregister)

/-- **What an analysis reports about imports.** -/
theorem IsAnalysis.reports (h : IsAnalysis source a) :
    ∃ m isPackage, source.module? a.name = some (m, isPackage) ∧ ∀ module line name,
      (⟨module, line, .unresolvedImport name⟩ ∈ a.diagnostics ↔
        module = a.name ∧ ∃ stmt, Flow.Walked (.ofModule m.body) stmt ∧
          (Import.Asks a.name isPackage stmt line name ∧
              (name ∈ imported m isPackage → source.module? name = none) ∨
            Import.Escapes a.name isPackage stmt line name)) := by
  obtain ⟨m, isPackage, context, g, hmodule, ha, hname, hpackage, hlacks⟩ := h
  have haname : a.name = context.name := (Source.name_of_module? hmodule).symm.trans hname.symm
  refine ⟨m, isPackage, hmodule, fun module line name => ?_⟩
  have hwalk : ⟨module, line, .unresolvedImport name⟩ ∈
      walkReports context (nestingOfAll m.body + 1) (.ofModule m.body) ↔
        ∃ stmt, Flow.Walked (.ofModule m.body) stmt ∧
          ⟨module, line, .unresolvedImport name⟩ ∈ importReports context stmt :=
    Flow.mem_walkReports rfl _ ⟨[], .module, [], m.body⟩ (Nat.lt_succ_self _)
  have hreports : ⟨module, line, .unresolvedImport name⟩ ∈ a.diagnostics ↔
      ⟨module, line, .unresolvedImport name⟩ ∈ walkReports context (nestingOfAll m.body + 1) (.ofModule m.body) := by
    rw [ha, (Analysis.ofModule_reports _ _ _).2.1, moduleReports, mem_append]
    exact or_iff_right fun hmisplaced => Flow.issue_misplacedReports hmisplaced rfl
  rw [hreports, hwalk, haname, ← hpackage]
  simp only [mem_importReports, hlacks, hpackage]
  constructor
  · rintro ⟨stmt, hwalked, rfl, hstmt⟩
    exact ⟨rfl, stmt, hwalked, hstmt⟩
  · rintro ⟨rfl, stmt, hwalked, hstmt⟩
    exact ⟨stmt, hwalked, rfl, hstmt⟩

end Project

/-! ### Reports -/

/-- The issue of a node is never about an import. -/
theorem Graph.check_ne_unresolvedImport {id : NodeId} :
    g.check id ≠ some (.unresolvedImport name) := by
  intro h
  obtain ⟨rule, -, h⟩ := Option.bind_eq_some_iff.1 h
  cases rule with
  | members c =>
    obtain ⟨base, -, hissue⟩ := Option.map_eq_some_iff.1 h
    cases hissue
  | _ =>
    simp only [Graph.issue?] at h
    repeat' split at h
    all_goals cases h

namespace Report

/-- What is said of imports is said while walking. -/
theorem mem_diagnostics_ofAnalysis {config : Config} :
    ⟨module, line, .unresolvedImport name⟩ ∈ (ofAnalysis config g a).diagnostics ↔
      ⟨module, line, .unresolvedImport name⟩ ∈ a.diagnostics := by
  rw [(tells_ofAnalysis config g a).complete]
  refine or_iff_left ?_
  rintro (⟨id, -, issue, hissue, heq⟩ | ⟨-, c, -, hc⟩)
  · cases heq
    exact Graph.check_ne_unresolvedImport hissue
  · rw [constructorReturn?] at hc
    split at hc
    · cases hc
    · cases hc

end Report

namespace Project

/-- A walked statement asks for a name that is not loaded only if it asks for the module itself, or
for a name that starts with a dot and is no candidate. -/
theorem imported_of_asks {isPackage : Bool}
    (hwalked : Flow.Walked (.ofModule m.body) stmt)
    (hasks : Import.Asks m.name isPackage stmt line name) : name ∉ imported m isPackage ↔
      name = m.name ∨ name.toList.head? = some '.' ∧ name ∉ (Import.candidates m isPackage).keys := by
  have hleaf : stmt ∈ leavesOfAll m.body := @Flow.Walked.mem_leaves stmt ⟨[], .module, [], m.body⟩ hwalked
  rw [mem_imported]
  constructor
  · intro hnot
    by_cases hself : name = m.name
    · exact .inl hself
    · have hkey : name ∉ (Import.candidates m isPackage).keys := fun hkey => hnot ⟨hkey, hself⟩
      refine .inr ⟨?_, hkey⟩
      by_contra hdot
      exact hkey (hasks.mem_candidates hleaf hdot)
  · rintro (hself | ⟨-, hkey⟩) ⟨hmem, hne⟩
    · exact hne hself
    · exact hkey hmem

theorem ofModules_isAnalysis (modules : Table String SourceText) (config : Config) (names : List String) :
    ∀ a ∈ (ofModules modules config names).analyses, IsAnalysis (.ofModules modules) a := by
  obtain ⟨targets, hload⟩ := ofModules_loading modules config names
  exact hload.isAnalysis (fun x state hx => nomatch hx) fun a ha => nomatch ha

/-- **Which imports are reported.**  In the report of a module exactly those imports are said to
lead nowhere to which the walk comes and that ask for a name without a well-formed module, for the
module itself, or for a name that starts with a dot and is no candidate of the module; and, by the
way they are written, those that lead out of the topmost package. -/
theorem unresolvedImport_iff (modules : Table String SourceText) (config : Config)
    (names : List String) (r : Report) (hr : r ∈ (ofModules modules config names).finish) :
    ∃ m isPackage, (Source.ofModules modules).module? r.module = some (m, isPackage) ∧
      ∀ module line name, (⟨module, line, .unresolvedImport name⟩ ∈ r.diagnostics ↔
        module = r.module ∧ ∃ stmt, Flow.Walked (.ofModule m.body) stmt ∧
          (Import.Asks r.module isPackage stmt line name ∧
              ((Source.ofModules modules).module? name = none ∨ name = r.module ∨
                name.toList.head? = some '.' ∧ name ∉ (Import.candidates m isPackage).keys) ∨
            Import.Escapes r.module isPackage stmt line name)) := by
  obtain ⟨a, ha, rfl⟩ := mem_map.1 hr
  obtain ⟨m, isPackage, hmodule, hreports⟩ := (ofModules_isAnalysis modules config names a ha).reports
  refine ⟨m, isPackage, hmodule, fun module line name => ?_⟩
  rw [Report.mem_diagnostics_ofAnalysis, hreports]
  refine and_congr_right fun _ => exists_congr fun stmt => and_congr_right fun hwalked =>
    or_congr_left (and_congr_right fun hasks => ?_)
  have hname : a.name = m.name := (Source.name_of_module? hmodule).symm
  show (name ∈ imported m isPackage → _) ↔ _ ∨ name = a.name ∨ _
  rw [hname] at hasks ⊢
  rw [← imported_of_asks hwalked hasks, imp_iff_not_or, or_comm]

/-- A package that imports from itself. -/
def relativeImport : Table String SourceText :=
  ⟨[("pkg", ⟨"from . import sub\n", some [.importFrom 0 none [⟨"sub", none⟩] 1]⟩),
    ("pkg.sub", ⟨"x = 1\n", some [.assign 0 [.name 0 "x"] (.constant 4 .int)]⟩)]⟩

theorem exists_report_relativeImport : ∃ r ∈ (ofModules relativeImport .standard ["pkg"]).finish,
      r.module = "pkg" ∧ r.diagnostics = [⟨"pkg", 1, .unresolvedImport "pkg"⟩] := by
  decide +kernel

/-- The report of the package says that the package is not there. -/
theorem unresolvedImport_relativeImport :
    (∃ r ∈ (ofModules relativeImport .standard ["pkg"]).finish,
        r.module = "pkg" ∧ r.diagnostics = [⟨"pkg", 1, .unresolvedImport "pkg"⟩]) ∧
      ((Source.ofModules relativeImport).module? "pkg").isSome ∧
      Import.resolve? "pkg" true none 1 = some "pkg" := by
  exact ⟨exists_report_relativeImport, by decide +kernel, by decide +kernel⟩

theorem unresolvedImport_iff_relativeImport :
    ∃ r ∈ (ofModules relativeImport .standard ["pkg"]).finish, r.module = "pkg" ∧
      ∃ m isPackage, (Source.ofModules relativeImport).module? r.module = some (m, isPackage) ∧
        ∃ stmt, Flow.Walked (.ofModule m.body) stmt ∧
          (Import.Asks r.module isPackage stmt 1 "pkg" ∨ Import.Escapes r.module isPackage stmt 1 "pkg") := by
  obtain ⟨r, hr, hname, hdiagnostics⟩ := exists_report_relativeImport
  obtain ⟨m, isPackage, hmodule, hiff⟩ := unresolvedImport_iff relativeImport .standard ["pkg"] r hr
  obtain ⟨-, stmt, hwalked, hstmt⟩ := (hiff "pkg" 1 "pkg").1 (hdiagnostics ▸ mem_singleton_self _)
  exact ⟨r, hr, hname, m, isPackage, hmodule, stmt, hwalked, hstmt.imp_left And.left⟩

end Project

end FlowTyping
