/-
The file of a module.

A file below the root of a project has a dotted module name, and loading a name looks for a file.
The two fit together if no directory on the way and no stem of a file has a dot in its name, since
then the parts of the dotted name are the names on the way.  One such file is not found all the
same: the `__init__` file of a directory `__init__` has the name of that directory, and so the
`__init__` file beside the directory comes first (`load?_moduleName?_iff`).
-/
import FlowTyping.FileTree.Basic
import FlowTyping.Proofs.Text.Dotted
import FlowTyping.Proofs.Table

namespace FlowTyping

open List

variable {parts dirs : List String} {part stem name : String} {l : Location}

/-! ### Plain names -/

namespace Path

/-- A name that is a part of dotted names. -/
def IsPlain (part : String) : Prop := part ≠ "" ∧ '.' ∉ part.toList

instance : DecidablePred IsPlain := fun _ => inferInstanceAs (Decidable (_ ∧ _))

theorem dotted_undotted (hne : parts ≠ []) (h : ∀ part ∈ parts, IsPlain part) :
    Text.dotted (Text.undotted parts) = parts :=
  Text.split_join hne fun part hpart => (h part hpart).2

theorem undotted_pair (stem : String) : Text.undotted [stem, "py"] = stem ++ ".py" :=
  String.toList_inj.1 (by simp [Text.undotted, Text.join, Text.joinChars])

theorem withExtension_of_isPlain (h : IsPlain part) : withExtension part "py" = part ++ ".py" := by
  have hparts : Text.dotted part = [part] := by
    have hone := dotted_undotted (cons_ne_nil part []) (forall_mem_singleton.2 h)
    rwa [show Text.undotted [part] = part from String.ofList_toList] at hone
  have hcut : cutExtension? part = none := by simp [cutExtension?, hparts]
  rw [withExtension, hcut, String.append_assoc]
  rfl

theorem cutExtension?_append (h : IsPlain stem) : cutExtension? (stem ++ ".py") = some (stem, "py") := by
  have hparts : Text.dotted (stem ++ ".py") = [stem, "py"] := by
    rw [← undotted_pair]
    exact Text.split_join (cons_ne_nil _ _) (by simpa using h.2)
  have hdots : stem ++ ".py" ≠ ".." := by
    intro heq
    rw [heq] at hparts
    have hlength : (Text.dotted "..").length = 2 := congrArg length hparts
    exact absurd hlength (by decide)
  have hstem : Text.undotted [stem] = stem := String.ofList_toList
  simp [cutExtension?, hparts, hdots, hstem, h.1]

end Path

/-! ### The name of a file -/

namespace Location

theorem moduleName?_append (h : Path.IsPlain stem) (dirs : List String) :
    moduleName? (dirs ++ [stem ++ ".py"]) = Path.moduleNameOfParts? (dirs ++ [stem]) := by
  have hdot : stem ≠ "." := by
    rintro rfl
    exact h.2 (by decide)
  have htext : (dirs.map Path.Component.name).map Path.Component.text = dirs := by
    rw [map_map]
    exact map_id _
  simp [moduleName?, Path.moduleNameBelow?, Path.isSource, Path.withoutExtension,
    Path.cutExtension?_append h, hdot, htext]

/-- Directories and a file whose names are those of packages and of a module. -/
def IsPlain (l : Location) : Prop :=
  ∃ dirs stem, l = dirs ++ [stem ++ ".py"] ∧ ∀ part ∈ dirs ++ [stem], Path.IsPlain part

end Location

/-! ### The file of a name -/

namespace Source

variable {t : FileTree} {root : Location}

/-- The names to which the parts of a dotted name lead. -/
def way (name : String) : List String := (Text.dotted name).filter (· ≠ "")

theorem isPlain_of_mem_way (h : part ∈ way name) : Path.IsPlain part := by
  obtain ⟨hpart, hne⟩ := mem_filter.1 h
  exact ⟨by simpa using hne, Text.not_mem_of_mem_split hpart⟩

theorem way_undotted (hne : parts ≠ []) (h : ∀ part ∈ parts, Path.IsPlain part) : way (Text.undotted parts) = parts := by
  rw [way, Path.dotted_undotted hne h]
  exact filter_eq_self.2 fun part hpart => by simpa using (h part hpart).1

theorem load?_eq (t : FileTree) (root : Location) (name : String) : (ofTree t root).load? name =
    (((moduleFile? (root ++ way name)).bind t.files.get?).map (⟨·, false⟩)).or
      ((t.files.get? (root ++ (way name ++ ["__init__.py"]))).map (⟨·, true⟩)) := by
  simp only [ofTree, way, packageFile, append_assoc]
  rcases (moduleFile? (root ++ (Text.dotted name).filter (· ≠ ""))).bind t.files.get? with - | source <;> rfl

theorem moduleFile?_append (h : Path.IsPlain stem) (root : Location) (dirs : List String) :
    moduleFile? (root ++ (dirs ++ [stem])) = some (root ++ (dirs ++ [stem ++ ".py"])) := by
  rw [← append_assoc, ← append_assoc, moduleFile?, getLast?_concat, dropLast_concat,
    Option.map_some, Path.withExtension_of_isPlain h]

/-- A location at which a name is looked for is plain. -/
theorem isPlain_of_looked (hl : l ≠ [])
    (h : moduleFile? (root ++ way name) = some (root ++ l) ∨ root ++ (way name ++ ["__init__.py"]) = root ++ l) :
    l.IsPlain := by
  rcases h with h | h
  · rcases eq_nil_or_concat' (way name) with hway | ⟨dirs, stem, hway⟩
    -- the root itself is not below the root
    · rcases eq_nil_or_concat' root with rfl | ⟨above, last, rfl⟩
      · simp [hway, moduleFile?] at h
      · simp [hway, moduleFile?] at h
        exact absurd h.2 hl
    · have hplain : ∀ part ∈ dirs ++ [stem], Path.IsPlain part := fun part hpart => isPlain_of_mem_way (hway ▸ hpart)
      rw [hway, moduleFile?_append (hplain stem (by simp))] at h
      exact ⟨dirs, stem, (append_cancel_left (Option.some.inj h)).symm, hplain⟩
  · refine ⟨way name, "__init__", (append_cancel_left h).symm, fun part hpart => ?_⟩
    rcases mem_append.1 hpart with hpart | hpart
    · exact isPlain_of_mem_way hpart
    · rw [mem_singleton.1 hpart]
      decide

/-- What is loaded depends on the file at a location only if the name is looked for there. -/
theorem load?_insert_of_not_looked {file : Location} (source : SourceText)
    (h : ¬ (moduleFile? (root ++ way name) = some file ∨ root ++ (way name ++ ["__init__.py"]) = file)) :
    (ofTree { t with files := t.files.insert file source } root).load? name = (ofTree t root).load? name := by
  rw [not_or] at h
  rw [load?_eq, load?_eq, Table.get?_insert, if_neg (Ne.symm h.2)]
  congr 2
  rcases hfile : moduleFile? (root ++ way name) with - | other
  · rfl
  · rw [hfile] at h
    rw [Option.bind_some, Option.bind_some, Table.get?_insert, if_neg fun heq => h.1 (congrArg some heq.symm)]

theorem way_of_package (h : ∀ part ∈ dirs, Path.IsPlain part)
    (hname : Location.moduleName? (dirs ++ ["__init__.py"]) = some name) :
    dirs ≠ [] ∧ Text.undotted dirs = name ∧ way name = dirs := by
  have hinit : Path.IsPlain "__init__" := by decide
  rw [show "__init__.py" = "__init__" ++ ".py" from rfl, Location.moduleName?_append hinit,
    Path.moduleNameOfParts?] at hname
  simp only [getLast?_concat, BEq.rfl, if_true, dropLast_concat, List.isEmpty_iff] at hname
  split at hname
  · cases hname
  · next hne =>
    cases hname
    exact ⟨hne, rfl, way_undotted hne h⟩

theorem undotted_of_module (hstem : Path.IsPlain stem) (hinit : stem ≠ "__init__") (dirs : List String) :
    Location.moduleName? (dirs ++ [stem ++ ".py"]) = some (Text.undotted (dirs ++ [stem])) := by
  simp [Location.moduleName?_append hstem, Path.moduleNameOfParts?, hinit]

/-- **File paths and module names.**  Let a file have a module name that no other file has.  Loading
the name reads that very file, whatever is in it, and tells whether it is that of a package, exactly
if its location is plain and it is not in a directory `__init__` beside another `__init__` file. -/
theorem load?_moduleName?_iff (t : FileTree) (root l : Location) (name : String)
    (hname : l.moduleName? = some name)
    (halone : ∀ l' : Location, t.isFile (root ++ l') → l'.moduleName? = some name → l' = l) :
    (∀ source, (ofTree { t with files := t.files.insert (root ++ l) source } root).load? name =
        some ⟨source, l.getLast? == some "__init__.py"⟩) ↔
      l.IsPlain ∧ ∀ dirs, l = dirs ++ ["__init__", "__init__.py"] → ¬ t.isFile (root ++ (dirs ++ ["__init__.py"])) := by
  have hl : l ≠ [] := by
    rintro rfl
    cases hname
  constructor
  · intro h
    have hlooked : moduleFile? (root ++ way name) = some (root ++ l) ∨
        root ++ (way name ++ ["__init__.py"]) = root ++ l := by
      by_contra hno
      -- then two different texts would be read as the same
      have hsame := (h ⟨"", none⟩).symm.trans (((load?_insert_of_not_looked _ hno).trans
        (load?_insert_of_not_looked ⟨"x", none⟩ hno).symm).trans (h ⟨"x", none⟩))
      simp at hsame
    have hplain := isPlain_of_looked hl hlooked
    refine ⟨hplain, ?_⟩
    rintro dirs rfl hfile
    obtain ⟨dirs', stem, heq, hparts⟩ := hplain
    obtain ⟨rfl, -⟩ := append_inj' ((append_assoc dirs ["__init__"] ["__init__.py"]).trans heq) rfl
    rw [append_cons] at hname
    obtain ⟨-, -, hway⟩ := way_of_package (fun part hpart => hparts part (mem_append_left _ hpart)) hname
    obtain ⟨other, hother⟩ := Option.isSome_iff_exists.1 hfile
    have hread := h ⟨"", none⟩
    rw [load?_eq, hway, moduleFile?_append (by decide), Option.bind_some, Table.get?_insert, if_neg] at hread
    · simp [hother] at hread
    · intro heq
      simpa using congrArg length heq
  · rintro ⟨⟨dirs, stem, rfl, hplain⟩, hbeside⟩ source
    have hstem : Path.IsPlain stem := hplain stem (by simp)
    by_cases hinit : stem = "__init__"
    · subst hinit
      rw [show "__init__" ++ ".py" = "__init__.py" from rfl] at hname halone hbeside ⊢
      obtain ⟨hne, hundotted, hway⟩ := way_of_package (fun part hpart => hplain part (mem_append_left _ hpart)) hname
      obtain ⟨above, last, rfl⟩ := (eq_nil_or_concat' dirs).resolve_left hne
      have hlast : Path.IsPlain last := hplain last (by simp)
      have hnone : t.files.get? (root ++ (above ++ [last ++ ".py"])) = none := by
        by_contra hsome
        have hfile : t.isFile (root ++ (above ++ [last ++ ".py"])) := Option.isSome_iff_ne_none.2 hsome
        by_cases hagain : last = "__init__"
        · subst hagain
          exact hbeside above (append_assoc _ _ _) hfile
        · have heq := halone _ hfile ((undotted_of_module hlast hagain above).trans (congrArg some hundotted))
          simpa using congrArg length heq
      rw [load?_eq, hway, moduleFile?_append hlast, Option.bind_some, Table.get?_insert,
        Table.get?_insert, if_neg, hnone, if_pos rfl]
      · simp
      · intro heq
        simpa using congrArg length heq
    · obtain rfl := Option.some.inj ((undotted_of_module hstem hinit dirs).symm.trans hname)
      rw [load?_eq, way_undotted (by simp) hplain, moduleFile?_append hstem, Option.bind_some,
        Table.get?_insert, if_pos rfl]
      have hfile : stem ++ ".py" ≠ "__init__.py" := fun heq => hinit ((String.append_left_inj ".py").1 heq)
      simp [hfile]

theorem load?_moduleName?_iff_package :
    (ofTree ⟨⟨[(["a.py"], ⟨"", none⟩), (["b", "__init__.py"], ⟨"x", none⟩)]⟩, [], "."⟩ []).load? "b" =
      some ⟨⟨"x", none⟩, true⟩ := by
  refine (load?_moduleName?_iff ⟨⟨[(["a.py"], ⟨"", none⟩)]⟩, [], "."⟩ [] ["b", "__init__.py"] "b" (by decide +kernel)
    (fun l' hfile hname => ?_)).2 ⟨⟨["b"], "__init__", rfl, by decide⟩, fun dirs hdirs => ?_⟩ ⟨"x", none⟩
  · obtain rfl : ["a.py"] = l' := by simpa [FileTree.isFile, Table.contains, Table.get?, Table.find?] using hfile
    exact absurd hname (by decide +kernel)
  · obtain rfl : dirs = [] := by simpa using congrArg length hdirs
    simp at hdirs

/-- The file `a.b.py` has the name of a module `b` in a package `a`, and is not found under it. -/
theorem load?_dotted_stem : Location.moduleName? ["a.b.py"] = some "a.b" ∧
    (ofTree ⟨⟨[(["a.b.py"], ⟨"", none⟩)]⟩, [], "."⟩ []).load? "a.b" = none :=
  ⟨by decide +kernel, rfl⟩

end Source

end FlowTyping
