/-
Parts of dotted names.

A part of a name holds no dot, so splitting undoes joining as well: a list of parts is the list of
parts of their dotted name.  The name of a package is the name of its modules without the last part
(`dotted_of_parent?`), so going from modules to their packages comes to an end.
-/
import Mathlib
import FlowTyping.Project.Basic

namespace FlowTyping

open List

namespace Text

variable {sep : Char} {run : List Char}

theorem not_mem_of_mem_splitChars {cs : List Char} (h : run ∈ splitChars sep cs) : sep ∉ run := by
  induction cs generalizing run with
  | nil =>
    rw [splitChars, mem_singleton] at h
    simp [h]
  | cons c cs ih =>
    rw [splitChars] at h
    split at h
    · rcases mem_cons.1 h with rfl | h
      · exact not_mem_nil
      · exact ih h
    · next hc =>
      obtain ⟨first, runs, hsplit⟩ := exists_cons_of_ne_nil (splitChars_ne_nil sep cs)
      rw [hsplit] at h ih
      rcases mem_cons.1 h with rfl | h
      · rw [mem_cons, not_or]
        exact ⟨fun heq => hc heq.symm, ih mem_cons_self⟩
      · exact ih (mem_cons_of_mem _ h)

theorem splitChars_of_not_mem (h : sep ∉ run) : splitChars sep run = [run] := by
  induction run with
  | nil => rfl
  | cons c cs ih =>
    rw [mem_cons, not_or] at h
    rw [splitChars, if_neg (fun heq => h.1 heq.symm), ih h.2]

theorem splitChars_append (h : sep ∉ run) (cs : List Char) :
    splitChars sep (run ++ sep :: cs) = run :: splitChars sep cs := by
  induction run with
  | nil => rw [nil_append, splitChars, if_pos rfl]
  | cons c run ih =>
    rw [mem_cons, not_or] at h
    rw [cons_append, splitChars, if_neg (fun heq => h.1 heq.symm), ih h.2]

/-- Splitting undoes joining. -/
theorem splitChars_joinChars {runs : List (List Char)} (hne : runs ≠ [])
    (h : ∀ run ∈ runs, sep ∉ run) : splitChars sep (joinChars sep runs) = runs := by
  induction runs with
  | nil => exact absurd rfl hne
  | cons run runs ih =>
    have hrun := h run mem_cons_self
    cases runs with
    | nil => exact splitChars_of_not_mem hrun
    | cons next runs =>
      rw [joinChars, splitChars_append hrun, ih (cons_ne_nil _ _)]
      · exact fun other hother => h other (mem_cons_of_mem _ hother)
      · exact cons_ne_nil _ _

/-- The parts of a text hold no separator. -/
theorem not_mem_of_mem_split {text part : String} (h : part ∈ split sep text) : sep ∉ part.toList := by
  obtain ⟨run, hrun, rfl⟩ := mem_map.1 h
  rw [String.toList_ofList]
  exact not_mem_of_mem_splitChars hrun

theorem split_join {parts : List String} (hne : parts ≠ [])
    (h : ∀ part ∈ parts, sep ∉ part.toList) : split sep (join sep parts) = parts := by
  have hruns : ∀ run ∈ parts.map String.toList, sep ∉ run := by
    intro run hrun
    obtain ⟨part, hpart, rfl⟩ := mem_map.1 hrun
    exact h part hpart
  have hid : String.ofList ∘ String.toList = id := funext fun _ => String.ofList_toList
  rw [split, join, String.toList_ofList, splitChars_joinChars (by simpa using hne) hruns, map_map,
    hid, map_id]

end Text

namespace Project

variable {name package leaf : String}

/-- The parts of a module's name are those of its package and one more. -/
theorem dotted_of_parent? (h : parent? name = some (package, leaf)) :
    Text.dotted name = Text.dotted package ++ [leaf] := by
  rw [parent?] at h
  split at h
  · cases h
  · next hlength =>
    have hparts : (Text.dotted name).dropLast ≠ [] := by
      rw [← length_pos_iff, length_dropLast]
      omega
    have hdot : ∀ part ∈ (Text.dotted name).dropLast, '.' ∉ part.toList := fun part hpart =>
      Text.not_mem_of_mem_split (mem_of_mem_dropLast hpart)
    obtain ⟨rfl, rfl⟩ := Prod.mk.inj (Option.some.inj h)
    have hpackage : Text.dotted (Text.undotted (Text.dotted name).dropLast) =
        (Text.dotted name).dropLast := Text.split_join hparts hdot
    have hne : Text.dotted name ≠ [] := Text.split_ne_nil '.' name
    rw [hpackage, getLastD_eq_getLast?, List.getLast?_eq_some_getLast hne, Option.getD_some,
      dropLast_append_getLast]

theorem length_dotted_of_parent? (h : parent? name = some (package, leaf)) :
    (Text.dotted name).length = (Text.dotted package).length + 1 := by
  rw [dotted_of_parent? h, length_append, length_singleton]

end Project

end FlowTyping
