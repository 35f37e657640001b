/-
Line numbers of byte offsets.

`Lines.ofText` lists the offsets at which the lines of a text start, and `Lines.line` finds the line
of an offset by bisection: it is the number of lines that start at or before the offset.  Offsets
count UTF-8 bytes, and only a line feed ends a line.  Here and in the other modules the numbers of
lines, names, versions and nodes have no bound: none of them is cut to a width of bits.
-/

namespace FlowTyping

/-- The byte offsets at which the lines of a text start, in ascending order. -/
structure Lines where
  starts : Array Nat
deriving Repr, Inhabited

namespace Lines

/-- Offsets just after the line feeds of a run of characters that starts at `offset`. -/
def startsAfter (offset : Nat) : List Char → List Nat
  | [] => []
  | c :: cs =>
    let next := offset + c.utf8Size
    if c = '\n' then next :: startsAfter next cs else startsAfter next cs

def ofText (text : String) : Lines := ⟨(0 :: startsAfter 0 text.toList).toArray⟩

/-- Looks for an offset among the starts from `low` on and before `high`: the position of the start
that it equals, or else the position of the first start beyond it. -/
def search (starts : Array Nat) (offset low high : Nat) : Except Nat Nat :=
  if low < high then
    let middle := (low + high) / 2
    let start := starts.getD middle 0
    if start = offset then .ok middle
    else if start < offset then search starts offset (middle + 1) high
    else search starts offset low middle
  else .error low
termination_by high - low

/-- How many starts are not beyond the offset, by where it was found. -/
def reached : Except Nat Nat → Nat
  | .ok i => i + 1
  | .error i => i

/-- The line of a byte offset, counted from one. -/
def line (l : Lines) (offset : Nat) : Nat := reached (search l.starts offset 0 l.starts.size)

end Lines

end FlowTyping
