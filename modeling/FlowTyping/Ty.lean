/-
The types that a value of a program may have.

Classes, functions and modules of the program are named by numbers: their descriptions live in the
constraint graph.  Types are listed in one order throughout: by constructor, then by the number or
kind they carry, then by name (`Ty.before`).  It is a strict total order, so that a set of types has
one sorted listing.
-/
import FlowTyping.Kind
import FlowTyping.Text.Order

namespace FlowTyping

structure ClassId where
  index : Nat
deriving DecidableEq, Repr, Inhabited

structure FunctionId where
  index : Nat
deriving DecidableEq, Repr, Inhabited

structure ModuleId where
  index : Nat
deriving DecidableEq, Repr, Inhabited

/-- One type that a value may have.  `any` is an ordinary type that every operation accepts. -/
inductive Ty where
  | any
  | base (kind : Kind)
  | slice
  /-- The class itself, as a value. -/
  | classObject (id : ClassId)
  | instanceOf (id : ClassId)
  | function (id : FunctionId)
  /-- A function reached through an instance: its first parameter is bound. -/
  | method (id : FunctionId)
  | moduleObject (id : ModuleId)
  | builtinFunction (name : String)
  /-- A built-in type such as `int`, as a value. -/
  | builtinType (kind : Kind)
  /-- `object` or a built-in exception class, as a value. -/
  | builtinClass (name : String)
  | builtinMethod (kind : Kind) (name : String)
deriving DecidableEq, Repr, Inhabited

namespace Ty

def kind? : Ty → Option Kind
  | base k => some k
  | _ => none

/-- Text of a type on its own, where classes, functions and modules only have their numbers. -/
def display : Ty → String
  | any => "Any"
  | base k => k.name
  | slice => "slice"
  | classObject c => "class#" ++ toString c.index
  | instanceOf c => "instance#" ++ toString c.index
  | function f => "function#" ++ toString f.index
  | method f => "method#" ++ toString f.index
  | moduleObject m => "module#" ++ toString m.index
  | builtinFunction name => "builtin " ++ name
  | builtinType k => "type[" ++ k.name ++ "]"
  | builtinClass name => "type[" ++ name ++ "]"
  | builtinMethod k name => k.name ++ "." ++ name

/-! ### The order of types -/

def tag : Ty → Nat
  | any => 0
  | base _ => 1
  | slice => 2
  | classObject _ => 3
  | instanceOf _ => 4
  | function _ => 5
  | method _ => 6
  | moduleObject _ => 7
  | builtinFunction _ => 8
  | builtinType _ => 9
  | builtinClass _ => 10
  | builtinMethod _ _ => 11

/-- The number or the kind's position that the type carries. -/
def number : Ty → Nat
  | base k | builtinType k | builtinMethod k _ => k.index
  | classObject c | instanceOf c => c.index
  | function f | method f => f.index
  | moduleObject m => m.index
  | any | slice | builtinFunction _ | builtinClass _ => 0

def label : Ty → String
  | builtinFunction name | builtinClass name | builtinMethod _ name => name
  | _ => ""

/-- Strict order: by constructor, then by number, then by name. -/
def before (a b : Ty) : Bool :=
  decide (a.tag < b.tag) ||
    (a.tag == b.tag &&
      (decide (a.number < b.number) || (a.number == b.number && Text.before a.label b.label)))

theorem before_iff {a b : Ty} :
    a.before b = true ↔
      a.tag < b.tag ∨
        a.tag = b.tag ∧
          (a.number < b.number ∨ a.number = b.number ∧ Text.before a.label b.label = true) := by
  simp [before]

theorem eq_of_keys {a b : Ty} (htag : a.tag = b.tag) (hnumber : a.number = b.number)
    (hlabel : a.label = b.label) : a = b := by
  cases a <;> cases b <;> simp only [tag] at htag <;> try exact absurd htag (by decide)
  case any.any => rfl
  case slice.slice => rfl
  case base.base => rw [Kind.index_inj hnumber]
  case classObject.classObject c d => cases c; cases d; cases hnumber; rfl
  case instanceOf.instanceOf c d => cases c; cases d; cases hnumber; rfl
  case function.function c d => cases c; cases d; cases hnumber; rfl
  case method.method c d => cases c; cases d; cases hnumber; rfl
  case moduleObject.moduleObject c d => cases c; cases d; cases hnumber; rfl
  case builtinFunction.builtinFunction => cases hlabel; rfl
  case builtinType.builtinType => rw [Kind.index_inj hnumber]
  case builtinClass.builtinClass => cases hlabel; rfl
  case builtinMethod.builtinMethod => cases hlabel; rw [Kind.index_inj hnumber]

theorem before_irrefl (a : Ty) : a.before a = false := by
  rw [Bool.eq_false_iff, ne_eq, before_iff]
  rintro (h | ⟨-, h | ⟨-, h⟩⟩)
  · exact Nat.lt_irrefl _ h
  · exact Nat.lt_irrefl _ h
  · rw [Text.before_irrefl] at h
    exact Bool.false_ne_true h

theorem before_trans {a b c : Ty} (hab : a.before b = true) (hbc : b.before c = true) :
    a.before c = true := by
  rw [before_iff] at *
  rcases hab with h₁ | ⟨e₁, h₁ | ⟨n₁, h₁⟩⟩ <;> rcases hbc with h₂ | ⟨e₂, h₂ | ⟨n₂, h₂⟩⟩
  · exact .inl (by omega)
  · exact .inl (by omega)
  · exact .inl (by omega)
  · exact .inl (by omega)
  · exact .inr ⟨by omega, .inl (by omega)⟩
  · exact .inr ⟨by omega, .inl (by omega)⟩
  · exact .inl (by omega)
  · exact .inr ⟨by omega, .inl (by omega)⟩
  · exact .inr ⟨by omega, .inr ⟨by omega, Text.before_trans h₁ h₂⟩⟩

theorem before_trichotomy (a b : Ty) : a.before b = true ∨ a = b ∨ b.before a = true := by
  rw [before_iff, before_iff]
  rcases Nat.lt_trichotomy a.tag b.tag with h | ht | h
  · exact .inl (.inl h)
  · rcases Nat.lt_trichotomy a.number b.number with h | hn | h
    · exact .inl (.inr ⟨ht, .inl h⟩)
    · rcases Text.before_trichotomy a.label b.label with h | hl | h
      · exact .inl (.inr ⟨ht, .inr ⟨hn, h⟩⟩)
      · exact .inr (.inl (eq_of_keys ht hn hl))
      · exact .inr (.inr (.inr ⟨ht.symm, .inr ⟨hn.symm, h⟩⟩))
    · exact .inr (.inr (.inr ⟨ht.symm, .inl h⟩))
  · exact .inr (.inr (.inl h))

end Ty

end FlowTyping
