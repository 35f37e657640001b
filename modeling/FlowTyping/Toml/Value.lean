/-
Values of a TOML document, and the rules by which keys and headers put them together.

A table may come about in four ways: written out between braces, opened by a header, implied by a
longer header, or implied by a dotted key.  A table between braces is closed; a header may open an
implied table once; and a dotted key extends only tables that dotted keys have made.  No key is ever
given twice.  `insertAt?`, `openTable?` and `appendTable?` give nothing where a rule is broken.
-/
import FlowTyping.Table

namespace FlowTyping.Toml

/-- How a table came about. -/
inductive Form where
  | closed
  | header
  | implied
  | dotted
deriving DecidableEq, Repr, Inhabited

/-- A value.  Fractions and dates are kept as they are written. -/
inductive Value where
  | string (text : String)
  | integer (value : Int)
  | float (text : String)
  | boolean (value : Bool)
  | dateTime (text : String)
  | array (items : List Value)
  | table (form : Form) (entries : List (String × Value))
  /-- Tables that headers add one after the other; the entries of the last one stand apart. -/
  | tables (earlier : List Value) (entries : List (String × Value))
deriving Repr, Inhabited

abbrev Entries := List (String × Value)

/-- Change the table to which a path leads.  Tables that are not there yet are implied, by a dotted
key or by a header; of an array of tables the last one is meant. -/
def within? (dotted : Bool) (change : Form → Entries → Option Entries) :
    List String → Form → Entries → Option Entries
  | [], form, entries => change form entries
  | key :: path, _, entries =>
    match Table.find? key entries with
    | none => do
      let form := if dotted then Form.dotted else .implied
      let child ← within? dotted change path form []
      return Table.put key (.table form child) entries
    | some (.table form child) => do
      if form = .closed ∨ (dotted ∧ form = .header) then none
      else
        let child ← within? dotted change path form child
        return Table.put key (.table form child) entries
    | some (.tables earlier last) => do
      let last ← within? dotted change path .header last
      return Table.put key (.tables earlier last) entries
    | some _ => none

/-- Put a value under a key, with a dotted path before it. -/
def insertAt? (path : List String) (key : String) (value : Value) (entries : Entries) :
    Option Entries :=
  within? true (fun form entries =>
    if !path.isEmpty && form ≠ .dotted then none
    else if (Table.find? key entries).isSome then none
    else some (Table.put key value entries)) path .header entries

/-- Open the table of a header; the path leads to the table around it. -/
def openTable? (path : List String) (key : String) (entries : Entries) : Option Entries :=
  within? false (fun _ entries =>
    match Table.find? key entries with
    | none => some (Table.put key (.table .header []) entries)
    | some (.table .implied child) => some (Table.put key (.table .header child) entries)
    | some _ => none) path .header entries

def appendTable? (path : List String) (key : String) (entries : Entries) : Option Entries :=
  within? false (fun _ entries =>
    match Table.find? key entries with
    | none => some (Table.put key (.tables [] []) entries)
    | some (.tables earlier last) =>
      some (Table.put key (.tables (earlier ++ [.table .header last]) []) entries)
    | some _ => none) path .header entries

end FlowTyping.Toml
