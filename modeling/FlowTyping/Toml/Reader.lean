/-
Reading a TOML document.

A document is a sequence of lines: a key with its value, a header that opens a table, or a blank
line.  `parse?` gives the entries of the top table, or nothing if the text is ill formed or breaks
one of the rules for keys and tables.  Keys and values are nested less than 80 deep.
-/
import FlowTyping.Toml.Scalar

namespace FlowTyping.Toml

/-- Keys and values are nested less deep than this. -/
def depthLimit : Nat := 80

/-! ### Keys -/

def isKeyChar (c : Char) : Bool := c.isAlphanum || c = '_' || c = '-'

def keyPart? (cs : List Char) : Option (String × List Char) :=
  match cs with
  | '"' :: rest => basicString [] rest
  | '\'' :: rest => literalString [] rest
  | _ =>
    let name := cs.takeWhile isKeyChar
    if name.isEmpty then none else some (String.ofList name, cs.dropWhile isKeyChar)

/-- The parts of a key with the blanks around them. -/
def keyParts? : Nat → List Char → Option (List String × List Char)
  | 0, _ => none
  | fuel + 1, cs => do
    let (part, cs) ← keyPart? (skipBlanks cs)
    match skipBlanks cs with
    | '.' :: cs =>
      let (parts, cs) ← keyParts? fuel cs
      return (part :: parts, cs)
    | cs => return ([part], cs)

/-- A key: the path of its table and its last part. -/
structure Key where
  path : List String
  name : String

def key? (cs : List Char) : Option (Key × List Char) := do
  let (parts, cs) ← keyParts? (cs.length + 1) cs
  if depthLimit ≤ parts.length then none else return (⟨parts.dropLast, parts.getLastD ""⟩, cs)

/-! ### Values -/

mutual

/-- A value; the numbers bound the steps and the nesting. -/
def value? : Nat → Nat → List Char → Option (Value × List Char)
  | 0, _, _ => none
  | fuel + 1, depth, cs =>
    match cs with
    | '[' :: cs =>
      if depth + 1 < depthLimit then
        (items? fuel (depth + 1) cs).map fun (items, cs) => (.array items, cs)
      else none
    | '\x7b' :: cs =>
      if depth + 1 < depthLimit then
        match skipBlanks cs with
        | '\x7d' :: cs => some (.table .closed [], cs)
        | cs => (pairs? fuel (depth + 1) [] cs).map fun (entries, cs) => (.table .closed entries, cs)
      else none
    | 't' :: 'r' :: 'u' :: 'e' :: cs => some (.boolean true, cs)
    | 'f' :: 'a' :: 'l' :: 's' :: 'e' :: cs => some (.boolean false, cs)
    | '"' :: _ => (string? cs).map fun (text, cs) => (.string text, cs)
    | '\'' :: _ => (string? cs).map fun (text, cs) => (.string text, cs)
    | _ => numeric? cs

/-- The items of an array and its closing bracket. -/
def items? : Nat → Nat → List Char → Option (List Value × List Char)
  | 0, _, _ => none
  | fuel + 1, depth, cs =>
    match skipLines (cs.length + 1) cs with
    | ']' :: cs => some ([], cs)
    | cs => do
      let (item, cs) ← value? fuel depth cs
      match skipLines (cs.length + 1) cs with
      | ',' :: cs =>
        let (items, cs) ← items? fuel depth cs
        return (item :: items, cs)
      | ']' :: cs => return ([item], cs)
      | _ => none

/-- The entries of a table between braces and its closing brace. -/
def pairs? : Nat → Nat → Entries → List Char → Option (Entries × List Char)
  | 0, _, _, _ => none
  | fuel + 1, depth, entries, cs => do
    let (key, cs) ← key? cs
    match cs with
    | '=' :: cs =>
      let (value, cs) ← value? fuel depth (skipBlanks cs)
      let entries ← insertAt? key.path key.name value entries
      match skipBlanks cs with
      | ',' :: cs => pairs? fuel depth entries cs
      | '\x7d' :: cs => return (entries, cs)
      | _ => none
    | _ => none

end

/-! ### Documents -/

/-- A document so far: its entries, and the header under which the next line stands. -/
structure Document where
  entries : Entries
  header : List String
deriving Inhabited

/-- Put a value under a key in the table of the current header. -/
def Document.insert? (d : Document) (key : Key) (value : Value) : Option Document := do
  let entries ← within? false (fun _ entries => insertAt? key.path key.name value entries)
    d.header .header d.entries
  return { d with entries }

def Document.open? (d : Document) (key : Key) : Option Document := do
  return ⟨← openTable? key.path key.name d.entries, key.path ++ [key.name]⟩

def Document.append? (d : Document) (key : Key) : Option Document := do
  return ⟨← appendTable? key.path key.name d.entries, key.path ++ [key.name]⟩

def lines? : Nat → Document → List Char → Option Document
  | 0, _, _ => none
  | fuel + 1, d, cs =>
    match skipBlanks cs with
    | [] => some d
    | '#' :: cs => do lines? fuel d (← endOfLine? ('#' :: cs))
    | '\n' :: cs => lines? fuel d cs
    | '\r' :: '\n' :: cs => lines? fuel d cs
    | '[' :: '[' :: cs => do
      let (key, cs) ← key? cs
      match cs with
      | ']' :: ']' :: cs => lines? fuel (← d.append? key) (← endOfLine? cs)
      | _ => none
    | '[' :: cs => do
      let (key, cs) ← key? cs
      match cs with
      | ']' :: cs => lines? fuel (← d.open? key) (← endOfLine? cs)
      | _ => none
    | cs => do
      let (key, cs) ← key? cs
      match cs with
      | '=' :: cs =>
        let cs := skipBlanks cs
        let (value, cs) ← value? (cs.length + 1) 0 cs
        lines? fuel (← d.insert? key value) (← endOfLine? cs)
      | _ => none

/-- The characters without a mark of the byte order. -/
def skipMark : List Char → List Char
  | c :: cs => if c.toNat = 0xFEFF then cs else c :: cs
  | [] => []

def parse? (text : String) : Option Entries :=
  let cs := skipMark text.toList
  (lines? (cs.length + 1) ⟨[], []⟩ cs).map (·.entries)

end FlowTyping.Toml
