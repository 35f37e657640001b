/-
What a star import makes known.

A star import notes the module from which everything is imported, and that is all it does
(`StarImport.run_eq`).  Reads of a name that the importer does not bind go to the first of the noted
modules that exports the name, and not to the last one (`first_star_import_wins`).
-/
import FlowTyping.Project.Report
import FlowTyping.Proofs.Project.Stages
import FlowTyping.Proofs.Soundness.Module
import FlowTyping.Proofs.Version.Assignment

namespace FlowTyping.Inference

open List

/-- An import of everything, `from module import *`. -/
structure StarImport where
  line : Nat
  module : Option String
  level : Nat
  id : NameId

namespace StarImport

def stmt (i : StarImport) : Stmt := .importFrom i.line i.module [⟨"*", ⟨i.id, "*"⟩, false⟩] i.level

def run (i : StarImport) : Infer Unit := simple i.stmt

def target? (context : Context) (i : StarImport) : Option ImportTarget :=
  (Import.resolve? context.name context.isPackage i.module i.level).bind context.imports.get?

def runAll : List StarImport → Infer Unit
  | [] => return ()
  | i :: is => do
    i.run
    runAll is

end StarImport

/-- A name that a module does not bind. -/
structure Scope.Lacks (scope : Scope) (id : NameId) (name : String) : Prop where
  framed : framed? name scope.frames = none
  nonlocal : scope.versions.nonlocals.contains name = false
  version : scope.versions.read? id = none
  isLocal : scope.isLocal name = false
  summary : scope.summaries.contains name = false

/-- The node of a name that no module has. -/
def builtinNode (name : String) : Infer NodeId := do
  if (← read).config.builtinsAsAny.contains name then anyNode
  else constant ((Builtin.lookup? name).getD .any)

variable {context : Context} {s after : State} {id : NameId} {name : String} {g : Graph}
  {i : StarImport} {is : List StarImport} {m : ModuleId} {ms : List ModuleId} {scope : Scope}

/-- The scope of a body lacks the names that the body does not write. -/
theorem Scope.Lacks.of_not_written (flow : Flow) (hflow : Versions.DistinctOccurrences flow)
    (hversions : scope.versions = .ofFlow flow []) (hframes : scope.frames = [])
    (hsummaries : ∀ e ∈ scope.summaries.entries, e.1 ∈ scope.versions.locals)
    (hread : ∀ x, .read id x ∈ Versions.reachableEvents flow → x = name)
    (hwrite : name ∉ (Versions.blockEvents flow).flatten.filterMap Event.written?)
    (hnonlocal : name ∉ scope.versions.nonlocals) : scope.Lacks id name := by
  have hlocal : name ∉ scope.versions.locals := fun h =>
    hwrite (Versions.mem_firstOccurrences.1 (mem_of_mem_filter (hversions ▸ h)))
  refine ⟨by rw [hframes]; rfl, by simpa using hnonlocal, ?_,
    by simpa [Scope.isLocal] using hlocal, ?_⟩
  · refine Option.eq_none_iff_forall_ne_some.2 fun d hd => hlocal ?_
    rw [hversions] at hd ⊢
    obtain ⟨x, hx, hevent, -⟩ := Versions.seen_ofFlow hflow (mem_of_lookup_eq_some hd)
    exact hread x hevent ▸ hx
  · refine Bool.eq_false_iff.2 fun h => hlocal ?_
    obtain ⟨node, hnode⟩ := Option.isSome_iff_exists.1 h
    exact hsummaries _ (Table.mem_entries_of_get? hnode)

/-- Star imports that stand one after the other in a body are walked one after the other. -/
theorem StarImport.items_eq_runAll (walk : Flow → Infer Unit) (is : List StarImport) :
    items walk (is.map fun i => ⟨i.line, .simple i.stmt⟩) = runAll is := by
  induction is with
  | nil => rfl
  | cons i is ih =>
    rw [map_cons, items, ih]
    rfl

/-- A star import of a module that is found notes the module. -/
theorem StarImport.run_eq (h : i.target? context = some (.module m)) :
    i.run context s = ((), { s with starImports := s.starImports ++ [m] }) := by
  obtain ⟨absolute, habsolute, himport⟩ := Option.bind_eq_some_iff.1 h
  show (importFrom _ _ _ _ : Infer Unit) context s = _
  unfold importFrom
  simp only [bind, ReaderT.bind, read, readThe, MonadReaderOf.read, ReaderT.read, pure, StateT.pure, StateT.bind]
  simp only [habsolute, Option.bind_some, himport]
  rfl

theorem StarImport.runAll_eq (h : Forall₂ (fun i m => i.target? context = some (.module m)) is ms) :
    runAll is context s = ((), { s with starImports := s.starImports ++ ms }) := by
  induction h generalizing s with
  | nil => simp [runAll]; rfl
  | @cons i m is ms hi _ ih =>
    show runAll is context (i.run context s).2 = _
    rw [run_eq hi, ih]
    simp

theorem exported?_eq_findSome? :
    exported? g name ms = ms.findSome? fun m => (g.module? m).bind (·.exports.get? name) := by
  induction ms with
  | nil => rfl
  | cons m ms ih =>
    rw [exported?, findSome?_cons, ih]
    cases (g.module? m).bind (·.exports.get? name) <;> rfl

theorem get_apply : (get : Infer State) context s = (s, s) := rfl

section

variable (hsize : s.scopes.size = 1) (h : s.scope.Lacks id name)
include hsize h

theorem global_of_lacks : global name context s =
    ((exported? s.graph name s.starImports).elim (builtinNode name) pure : Infer NodeId) context s := by
  unfold global
  simp only [bind, ReaderT.bind, StateT.bind, scopeAt_zero_apply hsize, h.isLocal, h.summary,
    Bool.or_self, Bool.false_eq_true, if_false, get_apply]
  cases exported? s.graph name s.starImports <;> rfl

/-- A name that a module does not bind comes from a star import or is built in. -/
theorem readName_of_lacks (line : Nat) : readName id name line context s =
    ((exported? s.graph name s.starImports).elim (builtinNode name) pure : Infer NodeId) context s := by
  have henclosing : enclosing? name context s = (none, s) := by
    unfold enclosing?
    simp only [bind, ReaderT.bind, StateT.bind, get_apply, depth_apply hsize]
    rfl
  rw [← global_of_lacks hsize h]
  unfold readName
  simp only [bind, ReaderT.bind, StateT.bind, currentScope_apply hsize, h.framed, h.nonlocal,
    h.version, h.isLocal, Bool.false_eq_true, if_false, outer]
  split
  · rfl
  · simp only [ReaderT.bind, bind, StateT.bind, henclosing]

end

/-- After some star imports, a name that the module does not bind is the one of the first module
from which everything is imported that exports it, and a built-in only if none does.  It is the one
of the last such module exactly if the two export the same node. -/
theorem first_star_import_wins (hsize : s.scopes.size = 1) (h : s.scope.Lacks id name)
    (his : Forall₂ (fun i m => i.target? context = some (.module m)) is ms)
    (hrun : StarImport.runAll is context s = ((), after)) (line : Nat) :
    (∀ node, exported? s.graph name (s.starImports ++ ms) = some node →
      readName id name line context after = (node, after)) ∧
    (exported? s.graph name (s.starImports ++ ms) = none →
      readName id name line context after = builtinNode name context after) ∧
    (∀ last, exported? s.graph name (s.starImports ++ ms).reverse = some last →
      ((readName id name line context after).1 = last ↔
        exported? s.graph name (s.starImports ++ ms) = some last)) := by
  rw [StarImport.runAll_eq his] at hrun
  cases hrun
  rw [readName_of_lacks (s := { s with starImports := s.starImports ++ ms }) hsize h]
  refine ⟨fun node hnode => ?_, fun hnone => ?_, fun last hlast => ?_⟩
  · simp only [hnode]; rfl
  · simp only [hnone]; rfl
  · cases hfirst : exported? s.graph name (s.starImports ++ ms) with
    | none =>
      rw [exported?_eq_findSome?, findSome?_eq_none_iff] at hfirst
      rw [exported?_eq_findSome?, findSome?_eq_none_iff.2 fun m hm => hfirst m (mem_reverse.1 hm)] at hlast
      cases hlast
    | some first => exact ⟨congrArg some, Option.some.inj⟩

/-- A module that imports everything from two modules, both of which bind the name that it reads. -/
def importer : SourceText :=
  ⟨"from a import *\nfrom b import *\ny = n\n", some [.importFrom 0 (some "a") [⟨"*", none⟩] 0,
    .importFrom 16 (some "b") [⟨"*", none⟩] 0, .assign 32 [.name 32 "y"] (.name 36 "n")]⟩

def twoStars : Table String SourceText :=
  ⟨[("a", ⟨"n = 1\n", some [.assign 0 [.name 0 "n"] (.constant 4 .int)]⟩),
    ("b", ⟨"n = ''\n", some [.assign 0 [.name 0 "n"] (.constant 4 .str)]⟩), ("main", importer)]⟩

def starBody : List Stmt := (Module.ofParse "main" importer.text (importer.tree.getD [])).body

def starContext : Context :=
  ⟨.standard, (Table.empty.insert "a" (.module ⟨0⟩)).insert "b" (.module ⟨1⟩), "main", ⟨2⟩, false⟩

/-- The two modules are there, and the walk over the importer begins. -/
def starState : State :=
  { State.start (Project.ofModules twoStars .standard ["a", "b"]).graph with
    scopes := #[.ofVersions .module (versionsOf starBody)] }

def stars : List StarImport := [⟨1, some "a", 0, ⟨0⟩⟩, ⟨2, some "b", 0, ⟨1⟩⟩]

theorem first_star_import_wins_two :
    ∃ after, items (walk 0) (((Flow.ofModule starBody).items ⟨0⟩).take 2) starContext starState = ((), after) ∧
      readName ⟨2⟩ "n" 3 starContext after = (⟨0⟩, after) := by
  have hitems : ((Flow.ofModule starBody).items ⟨0⟩).take 2 =
      stars.map fun i => ⟨i.line, .simple i.stmt⟩ := by cbv
  have hevents : Versions.reachableEvents (.ofModule starBody) =
      [.read ⟨2⟩ "n", .write ⟨3⟩ "y"] := by decide +kernel
  have hlacks : starState.scope.Lacks ⟨2⟩ "n" := .of_not_written (.ofModule starBody)
    ⟨by decide +kernel, by decide +kernel⟩ rfl rfl (forall_mem_nil _)
    (fun x hx => by simpa [hevents] using hx) (by decide +kernel) (by decide +kernel)
  have htargets : Forall₂ (fun i m => StarImport.target? starContext i = some (.module m))
      stars [⟨0⟩, ⟨1⟩] := .cons (by decide) (.cons (by decide) .nil)
  have hrun := StarImport.runAll_eq (s := starState) htargets
  rw [hitems, StarImport.items_eq_runAll]
  exact ⟨_, hrun, (first_star_import_wins rfl hlacks htargets hrun 3).1 ⟨0⟩ (by decide +kernel)⟩

/-- The second star import does not hide the first one. -/
theorem exists_report_twoStars : ∃ r ∈ (Project.ofModules twoStars .standard ["main"]).finish,
    r.module = "main" ∧ r.bindings = [⟨"y", ["int"]⟩] := by
  decide +kernel

end FlowTyping.Inference
