/-
Relative imports against the rule of the language.

A relative import counts its dots from the package of the importer: the first dot is that package,
and every further one leaves a package, so there must be as many packages as dots.  `resolve?` lets
one dot more through when an import names a module: it then takes that name as an absolute one
(`resolve?_topmost`).  Everywhere else the two agree.
-/
import FlowTyping.Proofs.Text.Dotted

namespace FlowTyping.Import

/-- The parts of the package from which the dots of an importer count. -/
def packageParts (importer : String) (isPackage : Bool) : List String :=
  if isPackage then Text.dotted importer else (Text.dotted importer).dropLast

def moduleParts (module : Option String) : List String := (module.map Text.dotted).getD []

/-- The module that an import means in the language. -/
def meant? (importer : String) (isPackage : Bool) (module : Option String) : Nat → Option String
  | 0 => module
  | left + 1 =>
    let package := packageParts importer isPackage
    if package.length ≤ left then none
    else some (Text.undotted (package.take (package.length - left) ++ moduleParts module))

variable {importer : String} {isPackage : Bool} {module : Option String} {level left : Nat}

theorem resolve?_succ : resolve? importer isPackage module (left + 1) =
    if (packageParts importer isPackage).length < left then none
    else
      let package := packageParts importer isPackage
      let parts := package.take (package.length - left) ++ moduleParts module
      if parts.isEmpty then none else some (Text.undotted parts) := rfl

/-- With one dot more than there are packages, an import means what it names. -/
theorem resolve?_topmost (h : level = (packageParts importer isPackage).length + 1) :
    resolve? importer isPackage module level = module := by
  subst h
  rw [resolve?_succ, if_neg (Nat.lt_irrefl _)]
  simp only [Nat.sub_self, List.take_zero, List.nil_append]
  cases module with
  | none => rfl
  | some name =>
    have hparts : moduleParts (some name) ≠ [] := Text.split_ne_nil '.' name
    rw [if_neg (by simpa using hparts)]
    exact congrArg some (Text.join_split '.' name)

theorem meant?_topmost (h : level = (packageParts importer isPackage).length + 1) :
    meant? importer isPackage module level = none := by
  subst h
  exact if_pos (Nat.le_refl _)

theorem resolve?_eq_meant? (h : level ≠ (packageParts importer isPackage).length + 1) :
    resolve? importer isPackage module level = meant? importer isPackage module level := by
  rcases level with - | left
  · rfl
  · rw [resolve?_succ, meant?]
    by_cases hout : (packageParts importer isPackage).length < left
    · rw [if_pos hout, if_pos (Nat.le_of_lt hout)]
    · have hin : ¬ (packageParts importer isPackage).length ≤ left := by omega
      -- a package is left to start from, so the parts cannot be empty
      have htake : (packageParts importer isPackage).take
          ((packageParts importer isPackage).length - left) ≠ [] := by
        rw [Ne, ← List.length_eq_zero_iff, List.length_take]
        omega
      rw [if_neg hout, if_neg hin, if_neg (by simp [htake])]

/-- An import means what the language says unless it names a module behind exactly one dot more than
there are packages; then it means that module, where the language has no answer. -/
theorem resolve?_eq_meant?_iff (importer : String) (isPackage : Bool) (module : Option String)
    (level : Nat) :
    resolve? importer isPackage module level =
      (if level = (packageParts importer isPackage).length + 1 then module
      else meant? importer isPackage module level) ∧
    (resolve? importer isPackage module level = meant? importer isPackage module level ↔
      ¬ (level = (packageParts importer isPackage).length + 1 ∧ module.isSome)) := by
  by_cases h : level = (packageParts importer isPackage).length + 1
  · refine ⟨by rw [if_pos h, resolve?_topmost h], ?_⟩
    rw [resolve?_topmost h, meant?_topmost h]
    cases module <;> simp [h]
  · exact ⟨by rw [if_neg h, resolve?_eq_meant? h],
      iff_of_true (resolve?_eq_meant? h) fun hboth => h hboth.1⟩

theorem resolve?_beside_topmost :
    resolve? "m" false (some "x") 1 = some "x" ∧ meant? "m" false (some "x") 1 = none := by
  have hlevel : 1 = (packageParts "m" false).length + 1 := by decide
  exact ⟨resolve?_topmost hlevel, meant?_topmost hlevel⟩

end FlowTyping.Import
