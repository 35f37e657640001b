/-
The ten base kinds of built-in values.

A kind is what the operator tables and the parameter domains reason about: containers carry no
element types, so `list` is one kind whatever it holds.  The kinds are numbered in the order in
which they are listed everywhere (`Kind.index`), and `Kind.all` enumerates them in that order.
-/

namespace FlowTyping

/-- A base kind of built-in values. -/
inductive Kind where
  | bool
  | int
  | float
  | str
  | bytes
  | none
  | list
  | tuple
  | set
  | dict
deriving DecidableEq, Repr, Inhabited

namespace Kind

def all : List Kind := [bool, int, float, str, bytes, none, list, tuple, set, dict]

def index : Kind → Nat
  | bool => 0
  | int => 1
  | float => 2
  | str => 3
  | bytes => 4
  | none => 5
  | list => 6
  | tuple => 7
  | set => 8
  | dict => 9

/-- The kind's name in a program's text and in reports. -/
def name : Kind → String
  | bool => "bool"
  | int => "int"
  | float => "float"
  | str => "str"
  | bytes => "bytes"
  | none => "None"
  | list => "list"
  | tuple => "tuple"
  | set => "set"
  | dict => "dict"

def ofName? (name : String) : Option Kind := all.find? fun k => k.name == name

/-- Kinds that stand for whole numbers: `bool` counts as 0 and 1. -/
def isIntegral : Kind → Bool
  | bool | int => true
  | _ => false

def isNumeric : Kind → Bool
  | bool | int | float => true
  | _ => false

/-- Kinds that can be repeated and indexed by position. -/
def isSequence : Kind → Bool
  | str | bytes | list | tuple => true
  | _ => false

/-! ### The numbering -/

theorem index_lt (k : Kind) : k.index < 10 := by cases k <;> decide

theorem index_inj {a b : Kind} (h : a.index = b.index) : a = b := by
  cases a <;> cases b <;> simp [index] at h ⊢

theorem mem_all (k : Kind) : k ∈ all := by cases k <;> decide

theorem exists_index {i : Nat} (h : i < 10) : ∃ k : Kind, k.index = i := by
  match i, h with
  | 0, _ => exact ⟨bool, rfl⟩
  | 1, _ => exact ⟨int, rfl⟩
  | 2, _ => exact ⟨float, rfl⟩
  | 3, _ => exact ⟨str, rfl⟩
  | 4, _ => exact ⟨bytes, rfl⟩
  | 5, _ => exact ⟨none, rfl⟩
  | 6, _ => exact ⟨list, rfl⟩
  | 7, _ => exact ⟨tuple, rfl⟩
  | 8, _ => exact ⟨set, rfl⟩
  | 9, _ => exact ⟨dict, rfl⟩

end Kind

end FlowTyping
