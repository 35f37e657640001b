/-
The total of a measure over a list.

Loops of the project end because a total falls: the sizes of the domains of parameters, for one.
`total_set_lt` is the step: making one item smaller makes the total smaller.
-/

namespace FlowTyping

/-- The sum of a measure over the items of a list. -/
def total {α : Type} (measure : α → Nat) : List α → Nat
  | [] => 0
  | a :: as => measure a + total measure as

variable {α : Type} {measure : α → Nat}

@[simp]
theorem total_cons (a : α) (as : List α) :
    total measure (a :: as) = measure a + total measure as := rfl

theorem total_append (as bs : List α) :
    total measure (as ++ bs) = total measure as + total measure bs := by
  induction as with
  | nil => exact (Nat.zero_add _).symm
  | cons a as ih => rw [List.cons_append, total_cons, total_cons, ih, Nat.add_assoc]

/-- A smaller item in place of another makes the total smaller. -/
theorem total_set_lt {as : List α} {i : Nat} {a b : α} (ha : as[i]? = some a)
    (hlt : measure b < measure a) : total measure (as.set i b) < total measure as := by
  induction as generalizing i with
  | nil => exact absurd ha (by simp)
  | cons c cs ih =>
    cases i with
    | zero =>
      obtain rfl : c = a := by simpa using ha
      exact Nat.add_lt_add_right hlt _
    | succ i => exact Nat.add_lt_add_left (ih (by simpa using ha)) _

end FlowTyping
