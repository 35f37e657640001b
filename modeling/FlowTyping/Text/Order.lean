/-
The order in which names are listed, and the two ways of writing a list of names.

Names are compared code point by code point, a proper beginning before what it begins.  For
well-formed text this is also the order of the UTF-8 bytes, so a list sorted here is sorted
wherever text is compared byte by byte.  `before` is a strict total order (`before_irrefl`,
`before_trans`, `before_trichotomy`); every sorted listing of the project rests on it.
-/

namespace FlowTyping.Text

/-- Strict lexicographic order of two runs of characters by code point. -/
def charsBefore : List Char → List Char → Bool
  | _, [] => false
  | [], _ :: _ => true
  | a :: as, b :: bs => decide (a.toNat < b.toNat) || (a == b && charsBefore as bs)

/-- Strict order of names by code point. -/
def before (a b : String) : Bool := charsBefore a.toList b.toList

/-- Names in ascending order; equal names stay as often as they occur. -/
def sort (names : List String) : List String := names.mergeSort fun a b => !before b a

/-- Names separated by a comma and a blank. -/
def commaSeparated (names : List String) : String := ", ".intercalate names

/-- A list of names in braces: `\x7ba, b\x7d` for `a` and `b`. -/
def braced (names : List String) : String := "\x7b" ++ commaSeparated names ++ "\x7d"

/-! ### `before` is a strict total order -/

theorem charsBefore_irrefl (a : List Char) : charsBefore a a = false := by
  induction a with
  | nil => rfl
  | cons c cs ih => simp [charsBefore, ih]

theorem charsBefore_trans {a b c : List Char} (hab : charsBefore a b = true)
    (hbc : charsBefore b c = true) : charsBefore a c = true := by
  induction a generalizing b c with
  | nil =>
    cases b with
    | nil => simp [charsBefore] at hab
    | cons y ys =>
      cases c with
      | nil => simp [charsBefore] at hbc
      | cons z zs => rfl
  | cons x xs ih =>
    cases b with
    | nil => simp [charsBefore] at hab
    | cons y ys =>
      cases c with
      | nil => simp [charsBefore] at hbc
      | cons z zs =>
        simp only [charsBefore, Bool.or_eq_true, decide_eq_true_eq, Bool.and_eq_true,
          beq_iff_eq] at hab hbc ⊢
        rcases hab with hxy | ⟨rfl, hab⟩ <;> rcases hbc with hyz | ⟨rfl, hbc⟩
        · exact .inl (by omega)
        · exact .inl hxy
        · exact .inl hyz
        · exact .inr ⟨rfl, ih hab hbc⟩

theorem charsBefore_trichotomy (a b : List Char) :
    charsBefore a b = true ∨ a = b ∨ charsBefore b a = true := by
  induction a generalizing b with
  | nil => cases b <;> simp [charsBefore]
  | cons x xs ih =>
    cases b with
    | nil => simp [charsBefore]
    | cons y ys =>
      by_cases hxy : x = y
      · subst hxy
        simpa [charsBefore] using ih ys
      · have hne : x.toNat ≠ y.toNat := fun h => hxy (Char.toNat_inj.1 h)
        rcases Nat.lt_or_gt_of_ne hne with h | h <;> simp [charsBefore, h]

theorem before_irrefl (a : String) : before a a = false := charsBefore_irrefl _

theorem before_trans {a b c : String} (hab : before a b = true) (hbc : before b c = true) :
    before a c = true := charsBefore_trans hab hbc

theorem before_trichotomy (a b : String) : before a b = true ∨ a = b ∨ before b a = true := by
  rcases charsBefore_trichotomy a.toList b.toList with h | h | h
  · exact .inl h
  · exact .inr (.inl (String.toList_inj.1 h))
  · exact .inr (.inr h)

end FlowTyping.Text
