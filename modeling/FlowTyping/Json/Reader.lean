/-
Reading a JSON value from text.

`Json.parse?` accepts a text that is one value with blanks around it.  Numbers are whole numbers.
The reader works on the list of characters; nesting is bounded by the length of the text, so the
number of characters is fuel enough (each level of nesting costs at least one character).
-/
import FlowTyping.Json.Basic

namespace FlowTyping.Json

def skipBlanks : List Char → List Char
  | c :: cs => if c = ' ' ∨ c = '\n' ∨ c = '\r' ∨ c = '\t' then skipBlanks cs else c :: cs
  | [] => []

def hexValue? (c : Char) : Option Nat :=
  let n := c.toNat
  if c.isDigit then some (n - 48)
  else if 97 ≤ n ∧ n ≤ 102 then some (n - 87)
  else if 65 ≤ n ∧ n ≤ 70 then some (n - 55)
  else none

def hexValue4? (a b c d : Char) : Option Nat := do
  let a ← hexValue? a
  let b ← hexValue? b
  let c ← hexValue? c
  let d ← hexValue? d
  return ((a * 16 + b) * 16 + c) * 16 + d

/-- The character that a one-letter escape stands for. -/
def escape? : Char → Option Char
  | '"' => some '"'
  | '\\' => some '\\'
  | '/' => some '/'
  | 'b' => some (Char.ofNat 8)
  | 'f' => some (Char.ofNat 12)
  | 'n' => some '\n'
  | 'r' => some '\r'
  | 't' => some '\t'
  | _ => none

/-- Read up to the closing quote.  `acc` holds what was read, last character first, and `high` a
high surrogate that waits for its partner. -/
def readQuoted (acc : List Char) (high : Option Nat) :
    List Char → Option (String × List Char)
  | [] => none
  | '\\' :: 'u' :: a :: b :: c :: d :: cs =>
    match hexValue4? a b c d, high with
    | none, _ => none
    | some n, some h =>
      if 0xDC00 ≤ n ∧ n ≤ 0xDFFF then
        readQuoted (Char.ofNat (0x10000 + (h - 0xD800) * 0x400 + (n - 0xDC00)) :: acc) none cs
      else none
    | some n, none =>
      if 0xD800 ≤ n ∧ n ≤ 0xDBFF then readQuoted acc (some n) cs
      else readQuoted (Char.ofNat n :: acc) none cs
  | '\\' :: c :: cs =>
    match escape? c, high with
    | some e, none => readQuoted (e :: acc) none cs
    | _, _ => none
  | c :: cs =>
    match high with
    | some _ => none
    | none => if c = '"' then some (String.ofList acc.reverse, cs) else readQuoted (c :: acc) none cs

/-- The number of a run of digits, and the rest. -/
def readDigits (acc : Nat) : List Char → Nat × List Char
  | c :: cs => if c.isDigit then readDigits (10 * acc + (c.toNat - 48)) cs else (acc, c :: cs)
  | [] => (acc, [])

mutual

/-- Read one value, leading blanks allowed. -/
def readValue : Nat → List Char → Option (Json × List Char)
  | 0, _ => none
  | fuel + 1, cs =>
    match skipBlanks cs with
    | 'n' :: 'u' :: 'l' :: 'l' :: cs => some (null, cs)
    | 't' :: 'r' :: 'u' :: 'e' :: cs => some (bool true, cs)
    | 'f' :: 'a' :: 'l' :: 's' :: 'e' :: cs => some (bool false, cs)
    | '"' :: cs => (readQuoted [] none cs).map fun (s, cs) => (string s, cs)
    | '[' :: cs =>
      match skipBlanks cs with
      | ']' :: cs => some (array [], cs)
      | cs => (readItems fuel cs).map fun (items, cs) => (array items, cs)
    | '\x7b' :: cs =>
      match skipBlanks cs with
      | '\x7d' :: cs => some (object [], cs)
      | cs => (readEntries fuel cs).map fun (entries, cs) => (object entries, cs)
    | '-' :: c :: cs =>
      if c.isDigit then
        let (n, cs) := readDigits 0 (c :: cs)
        some (number (-n), cs)
      else none
    | c :: cs =>
      if c.isDigit then
        let (n, cs) := readDigits 0 (c :: cs)
        some (number n, cs)
      else none
    | [] => none

/-- Read the items of an array that has at least one, closing bracket included. -/
def readItems : Nat → List Char → Option (List Json × List Char)
  | 0, _ => none
  | fuel + 1, cs => do
    let (item, cs) ← readValue fuel cs
    match skipBlanks cs with
    | ']' :: cs => return ([item], cs)
    | ',' :: cs =>
      let (items, cs) ← readItems fuel cs
      return (item :: items, cs)
    | _ => none

/-- Read the entries of an object that has at least one, closing bracket included. -/
def readEntries : Nat → List Char → Option (List (String × Json) × List Char)
  | 0, _ => none
  | fuel + 1, cs => do
    match skipBlanks cs with
    | '"' :: cs =>
      let (key, cs) ← readQuoted [] none cs
      match skipBlanks cs with
      | ':' :: cs =>
        let (value, cs) ← readValue fuel cs
        match skipBlanks cs with
        | '\x7d' :: cs => return ([(key, value)], cs)
        | ',' :: cs =>
          let (entries, cs) ← readEntries fuel cs
          return ((key, value) :: entries, cs)
        | _ => none
      | _ => none
    | _ => none

end

def parse? (text : String) : Option Json :=
  let cs := text.toList
  match readValue (cs.length + 1) cs with
  | some (value, rest) => if (skipBlanks rest).isEmpty then some value else none
  | none => none

end FlowTyping.Json
