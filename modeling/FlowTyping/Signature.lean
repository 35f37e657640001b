/-
Parameters of functions, arguments of calls, and how the two are matched.

`bind?` gives for each argument that meets a parameter of its own the pair of the argument's node
and the parameter's node, in the order of the arguments, or nothing where the call cannot fit.
Arguments that are unpacked may supply anything, so they lift the checks for missing arguments that
they could satisfy.
-/

namespace FlowTyping

structure NodeId where
  index : Nat
deriving DecidableEq, Repr, Inhabited

inductive ParamMode where
  | positional
  /-- Takes the positional arguments that are left over. -/
  | varPositional
  | keywordOnly
  /-- Takes the keywords that are left over. -/
  | varKeyword
deriving DecidableEq, Repr, Inhabited

/-- A parameter of a function in the constraint graph. -/
structure Param where
  name : String
  node : NodeId
  mode : ParamMode
  hasDefault : Bool
deriving DecidableEq, Repr, Inhabited

inductive Passing where
  | positional
  | keyword (name : String)
  /-- `*value` -/
  | unpacked
  /-- `**value` -/
  | unpackedMapping
deriving DecidableEq, Repr, Inhabited

structure Argument where
  value : NodeId
  passing : Passing
deriving DecidableEq, Repr, Inhabited

namespace Signature

/-- The parameters that a call's positional arguments meet in order.  A bound call has supplied the
first of them already. -/
def positional (params : List Param) (bound : Bool) : List Param :=
  (params.filter (·.mode = .positional)).drop (if bound then 1 else 0)

def has (mode : ParamMode) (params : List Param) : Bool := params.any (·.mode = mode)

/-- What is known after some arguments: which positional parameters and keyword-only names are
taken, how many positional arguments came, which unpacked arguments came, and the pairs so far. -/
structure Progress where
  filled : List Nat
  keywords : List String
  next : Nat
  unpacked : Bool
  unpackedMapping : Bool
  pairs : List (NodeId × NodeId)
deriving Repr

def Progress.start : Progress := ⟨[], [], 0, false, false, []⟩

/-- Take one more argument, or give up. -/
def take? (params positional : List Param) (p : Progress) (arg : Argument) : Option Progress :=
  match arg.passing with
  | .positional =>
    match positional[p.next]? with
    | some param =>
      some { p with
        filled := p.next :: p.filled
        next := p.next + 1
        pairs := p.pairs ++ [(arg.value, param.node)] }
    | none => if has .varPositional params then some p else none
  | .unpacked => some { p with unpacked := true }
  | .unpackedMapping => some { p with unpackedMapping := true }
  | .keyword name =>
    match positional.findIdx? (·.name = name) with
    | some i =>
      if i ∈ p.filled then none
      else
        some { p with
          filled := i :: p.filled
          pairs := p.pairs ++ (positional[i]?.map fun param => (arg.value, param.node)).toList }
    | none =>
      match params.find? fun q => q.mode = .keywordOnly ∧ q.name = name with
      | some param =>
        if name ∈ p.keywords then none
        else
          some { p with
            keywords := name :: p.keywords
            pairs := p.pairs ++ [(arg.value, param.node)] }
      | none => if has .varKeyword params then some p else none

def takeAll? (params positional : List Param) : Progress → List Argument → Option Progress
  | p, [] => some p
  | p, arg :: args =>
    match take? params positional p arg with
    | some p => takeAll? params positional p args
    | none => none

/-- Whether a positional parameter without a default is left without an argument. -/
def missingPositional (positional : List Param) (p : Progress) : Bool :=
  positional.zipIdx.any fun (param, i) => !param.hasDefault && !p.filled.contains i

/-- Whether a keyword-only parameter without a default is left without an argument. -/
def missingKeyword (params : List Param) (p : Progress) : Bool :=
  params.any fun param =>
    param.mode = .keywordOnly && !param.hasDefault && !p.keywords.contains param.name

/-- The pairs of argument and parameter of a call that fits, or nothing. -/
def bind? (params : List Param) (args : List Argument) (bound : Bool) :
    Option (List (NodeId × NodeId)) :=
  let positional := positional params bound
  match takeAll? params positional .start args with
  | none => none
  | some p =>
    if !p.unpacked && !p.unpackedMapping && missingPositional positional p then none
    else if !p.unpackedMapping && missingKeyword params p then none
    else some p.pairs

end Signature

end FlowTyping
