/-
Definitions of a name, merges of them, and folding merges that merge nothing.

A merge of a name stands where several definitions of it may arrive.  If, apart from the merge
itself, all definitions that arrive are one and the same, the merge is that definition, and if none
arrives the name has no value there.  Folding one merge may make another one foldable, so `folds`
goes through the merges of a name in rounds until nothing changes; every round but the last folds a
merge, so there are no more rounds than merges and one.
-/
import FlowTyping.Flow.Basic
import FlowTyping.Table

namespace FlowTyping

/-- The value that a name has at some point. -/
inductive Definition where
  /-- The value of the write, merge or parameter with this number. -/
  | version (number : Nat)
  /-- The name may not have been assigned. -/
  | unbound
deriving DecidableEq, Repr, Inhabited

/-- A merge of the definitions of a name at the start of a block. -/
structure Merge where
  name : String
  version : Nat
  block : BlockId
  sources : List Definition
deriving DecidableEq, Repr, Inhabited

namespace Merge

/-- What the folded merges of a name stand for, by version. -/
abbrev Folds := Table Nat Definition

/-- Follow folded merges for at most some steps. -/
def chase (folds : Folds) : Nat → Definition → Definition
  | 0, d => d
  | fuel + 1, .version v =>
    match folds.get? v with
    | some d => chase folds fuel d
    | none => .version v
  | _ + 1, .unbound => .unbound

def lookup (folds : Folds) (d : Definition) : Definition := chase folds (folds.size + 1) d

/-- The definitions that arrive at a merge, without itself and without repetitions. -/
def distinct (own : Nat) (ds : List Definition) : List Definition :=
  ds.foldl (fun seen d => if d = .version own ∨ d ∈ seen then seen else seen ++ [d]) []

/-- Fold a merge if it merges nothing. -/
def foldOne (folds : Folds) (m : Merge) : Folds :=
  if folds.contains m.version then folds
  else
    match distinct m.version (m.sources.map (lookup folds)) with
    | [] => folds.insert m.version .unbound
    | [d] => folds.insert m.version d
    | _ => folds

/-- Fold in rounds until a round changes nothing. -/
def foldRounds (merges : List Merge) : Nat → Folds → Folds
  | 0, folds => folds
  | fuel + 1, folds =>
    let next := merges.foldl foldOne folds
    if next.size = folds.size then folds else foldRounds merges fuel next

/-- What the foldable merges of one name stand for in the end. -/
def folds (merges : List Merge) : Folds :=
  let found := foldRounds merges (merges.length + 1) .empty
  ⟨found.entries.map fun (v, d) => (v, lookup found d)⟩

/-- What the foldable merges of every name stand for. -/
abbrev Substitution := Table String Folds

/-- Fold the merges of each name on its own. -/
def substitution (names : List String) (merges : List Merge) : Substitution :=
  names.foldl (fun s name => s.insert name (folds (merges.filter (·.name = name)))) .empty

def resolve (s : Substitution) (name : String) : Definition → Definition
  | .unbound => .unbound
  | .version v => (((s.get? name).bind (·.get? v)).getD (.version v))

def isKept (s : Substitution) (m : Merge) : Bool :=
  resolve s m.name (.version m.version) = .version m.version

def simplified (s : Substitution) (m : Merge) : Merge :=
  { m with sources := distinct m.version (m.sources.map (resolve s m.name)) }

end Merge

end FlowTyping
