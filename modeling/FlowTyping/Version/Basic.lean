/-
Versions of local names: every write makes one, and every read sees one definition.

The locals of a body are its parameters and the names it writes, without those that it declares
global or nonlocal.  A merge is put at the start of every reachable block for each local that is
read or written there or later, and every write in a reachable block gets a version of its own;
versions count up from 1 for each name, merges first, and 0 is the value of a parameter on entry.
Then each read sees the last write before it in its block, or the merge at the start of the block,
and merges that merge nothing are folded away.
-/
import FlowTyping.Version.Event
import FlowTyping.Version.Fold

namespace FlowTyping

structure Versions where
  /-- The definition that each read of a local sees. -/
  reads : List (NameId × Definition)
  /-- The version that each write of a local makes. -/
  writes : List (NameId × Nat)
  merges : List Merge
  /-- The locals, parameters first, then in the order of their writes. -/
  locals : List String
  globals : List String
  nonlocals : List String
  /-- The blocks that can be reached, in depth-first preorder. -/
  reachable : List BlockId
  /-- Whether the body hands out values. -/
  hasYield : Bool
deriving Inhabited

namespace Versions

def initial : Nat := 0

/-- The list without repetitions, first occurrences kept. -/
def firstOccurrences (names : List String) : List String :=
  names.foldl (fun seen name => if name ∈ seen then seen else seen ++ [name]) []

def localNames (params globals nonlocals : List String) (events : List Event) : List String :=
  (firstOccurrences (params ++ events.filterMap Event.written?)).filter fun name =>
    name ∉ globals ∧ name ∉ nonlocals

/-! ### Merges at block entries -/

def blockEvents (flow : Flow) : List (List Event) :=
  flow.blocks.toList.map fun block => Event.ofItems block.items

/-- The locals whose value matters in a block or after it. -/
def mattering (flow : Flow) (events : List (List Event)) (locals : List String) (b : BlockId) :
    List String :=
  let later := Search.preorder (Flow.successors flow.blocks) b.index
  let names := firstOccurrences
    (later.flatMap fun c => (events[c]?.getD []).filterMap Event.name?)
  locals.filter (· ∈ names)

/-- The last version given to each name. -/
abbrev Counters := Table String Nat

/-- A version of a name that was not given before. -/
def fresh (counters : Counters) (name : String) : Nat × Counters :=
  let v := (counters.get? name).getD initial + 1
  (v, counters.insert name v)

/-- The merges of some locals at the start of a block, without their sources. -/
def mergesAt (b : BlockId) (counters : Counters) : List String → List Merge × Counters
  | [] => ([], counters)
  | name :: names =>
    let (v, counters) := fresh counters name
    let (merges, counters) := mergesAt b counters names
    (⟨name, v, b, []⟩ :: merges, counters)

/-- The merges of all reachable blocks, without their sources. -/
def entryMerges (matters : BlockId → List String) (counters : Counters) :
    List BlockId → List Merge × Counters
  | [] => ([], counters)
  | b :: bs =>
    let (here, counters) := mergesAt b counters (matters b)
    let (later, counters) := entryMerges matters counters bs
    (here ++ later, counters)

/-! ### Reads and writes -/

/-- The version of each local at some point. -/
abbrev Current := Table String Nat

/-- The state of a walk over the events of reachable blocks. -/
structure Walk where
  counters : Counters
  reads : List (NameId × String × Nat)
  writes : List (NameId × Nat)
  current : Current
deriving Inhabited

/-- Take one event: a read sees the current version of its name, a write makes a new one. -/
def Walk.take (locals : List String) (w : Walk) : Event → Walk
  | .read id name =>
    match w.current.get? name with
    | some v => { w with reads := (id, name, v) :: w.reads }
    | none => w
  | .write id name =>
    if name ∈ locals then
      let (v, counters) := fresh w.counters name
      { w with counters, writes := (id, v) :: w.writes, current := w.current.insert name v }
    else w
  | .yields => w

def atEntry (merges : List Merge) (b : BlockId) : Current :=
  ⟨(merges.filter (·.block = b)).map fun m => (m.name, m.version)⟩

/-- Walk over blocks; also gives the versions at the end of each of them. -/
def walkBlocks (events : List (List Event)) (locals : List String) (merges : List Merge)
    (w : Walk) : List BlockId → Walk × List (BlockId × Current)
  | [] => (w, [])
  | b :: bs =>
    let w := (events[b.index]?.getD []).foldl (Walk.take locals)
      { w with current := atEntry merges b }
    let (last, exits) := walkBlocks events locals merges w bs
    (last, (b, w.current) :: exits)

/-- The definitions that arrive at a merge: the value on entry, and the value at the end of each
block before it. -/
def sources (flow : Flow) (params : List String) (predecessors : List (List BlockId))
    (exits : List (BlockId × Current)) (m : Merge) : List Definition :=
  let onEntry : List Definition :=
    if m.block = flow.entry then [if m.name ∈ params then .version initial else .unbound] else []
  let arriving := (predecessors[m.block.index]?.getD []).filterMap fun p =>
    (exits.lookup p).map fun current =>
      match current.get? m.name with
      | some v => Definition.version v
      | none => .unbound
  (onEntry ++ arriving).foldl (fun seen d => if d ∈ seen then seen else seen ++ [d]) []

def ofFlow (flow : Flow) (params : List String) : Versions :=
  let actions := flow.blocks.toList.flatMap fun block => block.items.map (·.action)
  let globals := firstOccurrences (actions.flatMap Event.globalNames)
  let nonlocals := firstOccurrences (actions.flatMap Event.nonlocalNames)
  let events := blockEvents flow
  let locals := localNames params globals nonlocals events.flatten
  let reachable := flow.reachable
  let (bare, counters) := entryMerges (mattering flow events locals) .empty reachable
  let (walk, exits) := walkBlocks events locals bare ⟨counters, [], [], .empty⟩ reachable
  let predecessors := flow.predecessors
  let merges := bare.map fun m => { m with sources := sources flow params predecessors exits m }
  let substitution := Merge.substitution locals merges
  { reads := walk.reads.map fun (id, name, v) =>
      (id, Merge.resolve substitution name (.version v))
    writes := walk.writes
    merges := (merges.filter (Merge.isKept substitution)).map (Merge.simplified substitution)
    locals
    globals
    nonlocals
    reachable
    hasYield := events.any (·.contains .yields) }

def read? (v : Versions) (id : NameId) : Option Definition := v.reads.lookup id

def written? (v : Versions) (id : NameId) : Option Nat := v.writes.lookup id

end Versions

end FlowTyping
