/-
The misplaced jumps of a body.

Whether a jump has somewhere to go depends on the regions around it only: a `break` and a `continue`
need a loop, and a `return` always finds the end of the function.  Every layout leaves the regions
around as they were, so the misplaced jumps are read off the statements (`effectOf`), whether or not
control reaches them.
-/
import FlowTyping.Proofs.Flow.Fold

namespace FlowTyping.Flow

open List

theorem misplaced_finish (fn : Bool) (ss : List Stmt) :
    (finish (Builder.body ss (.start fn))).misplaced = misplacedAmong fn (jumpsOfAll false ss) :=
  congrArg (·.2.2) (Builder.laid_body fn ss).context

/-- A constructor is a function, and its jumps are its own. -/
theorem jumpsOf_constructor {s : Stmt} (h : isConstructor s = true) (looping : Bool) : jumpsOf looping s = [] := by
  cases s with
  | functionDef line fn => rfl
  | _ => cases h

theorem jumpsOfAll_eq (looping : Bool) (ss : List Stmt) : jumpsOfAll looping ss = ss.flatMap (jumpsOf looping) := by
  induction ss with
  | nil => rfl
  | cons s ss ih => simp [jumpsOfAll, ih]

theorem jumpsOfAll_constructorsFirst (looping : Bool) (ss : List Stmt) :
    jumpsOfAll looping (constructorsFirst ss) = jumpsOfAll looping ss := by
  induction ss with
  | nil => rfl
  | cons s ss ih =>
    simp only [jumpsOfAll_eq, constructorsFirst, flatMap_append] at ih ⊢
    cases hs : isConstructor s with
    | true => simpa [hs, jumpsOf_constructor hs] using ih
    | false =>
      have hnone : (ss.filter isConstructor).flatMap (jumpsOf looping) = [] := by
        simp only [flatMap_eq_nil_iff, mem_filter]
        exact fun s hs => jumpsOf_constructor hs.2 looping
      simp [hs, hnone] at ih ⊢
      exact ih

/-- **The misplaced jumps of a body** are those of its jump statements that have nowhere to go, each
with its line: a `break` or `continue` that is not inside the body of a loop, and outside of
functions every `return`. -/
theorem misplaced_are_jumps_without_target (body : List Stmt) :
    (ofModule body).misplaced = misplacedAmong false (jumpsOfAll false body) ∧
      (ofClass body).misplaced = misplacedAmong false (jumpsOfAll false body) ∧
      (ofFunction body).misplaced = misplacedAmong true (jumpsOfAll false body) ∧
      ∀ m ∈ (ofFunction body).misplaced, m.jump ≠ .ret := by
  have hfunction : (ofFunction body).misplaced = misplacedAmong true (jumpsOfAll false body) :=
    misplaced_finish true body
  refine ⟨misplaced_finish false body, ?_, hfunction, ?_⟩
  · rw [ofClass, misplaced_finish, jumpsOfAll_constructorsFirst]
  · rw [hfunction]
    intro m hm
    obtain ⟨site, hsite, rfl⟩ := mem_map.1 hm
    rintro hret
    simp [JumpSite.isPlaced, show site.jump = .ret from hret] at hsite

end FlowTyping.Flow
