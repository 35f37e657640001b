/-
JSON values and the two ways of writing them.

An object is a list of entries in the order in which they were put, and a key may occur twice:
reports have entries whose keys repeat, and both are written.  Numbers are whole numbers, since
nothing the project reads or writes has a fraction.  `Json.compact` writes a value on one line,
`Json.pretty` over several lines with two blanks for each level.
-/

namespace FlowTyping

/-- A JSON value; the entries of an object keep their order and may repeat a key. -/
inductive Json where
  | null
  | bool (value : Bool)
  | number (value : Int)
  | string (value : String)
  | array (items : List Json)
  | object (entries : List (String × Json))
deriving Repr, Inhabited

namespace Json

/-! ### Building values -/

def nat (n : Nat) : Json := number n

def strings (names : List String) : Json := array (names.map string)

/-- An absent value is `null`. -/
def optional {α : Type} (encode : α → Json) : Option α → Json
  | some a => encode a
  | none => null

/-! ### Text of a string -/

def hexDigit (n : Nat) : Char := if n < 10 then Char.ofNat (48 + n) else Char.ofNat (87 + n)

/-- A character inside a quoted text: quotes, backslashes and control characters are escaped and
everything else stands for itself. -/
def escapeChar (c : Char) : List Char :=
  if c = '"' then ['\\', '"']
  else if c = '\\' then ['\\', '\\']
  else if c = '\n' then ['\\', 'n']
  else if c = '\r' then ['\\', 'r']
  else if c = '\t' then ['\\', 't']
  else if c.toNat = 8 then ['\\', 'b']
  else if c.toNat = 12 then ['\\', 'f']
  else if c.toNat < 32 then ['\\', 'u', '0', '0', hexDigit (c.toNat / 16), hexDigit (c.toNat % 16)]
  else [c]

def quoted (s : String) : String := "\"" ++ String.ofList (s.toList.flatMap escapeChar) ++ "\""

/-! ### Writing -/

mutual

/-- A value on one line, without blanks. -/
def compact : Json → String
  | null => "null"
  | bool b => if b then "true" else "false"
  | number n => toString n
  | string s => quoted s
  | array items => "[" ++ ",".intercalate (compactItems items) ++ "]"
  | object entries => "\x7b" ++ ",".intercalate (compactEntries entries) ++ "\x7d"
termination_by structural j => j

def compactItems : List Json → List String
  | [] => []
  | j :: js => j.compact :: compactItems js
termination_by structural js => js

def compactEntries : List (String × Json) → List String
  | [] => []
  | (key, j) :: es => (quoted key ++ ":" ++ j.compact) :: compactEntries es
termination_by structural es => es

end

/-- A line break followed by two blanks for each level. -/
def lineBreak (level : Nat) : String := "\n" ++ String.ofList (List.replicate (2 * level) ' ')

/-- Parts between brackets, each on a line of its own; nothing at all between the brackets if
there are no parts. -/
def block (opening closing : String) (level : Nat) (parts : List String) : String :=
  if parts.isEmpty then opening ++ closing
  else
    opening ++ lineBreak (level + 1) ++ ("," ++ lineBreak (level + 1)).intercalate parts ++
      lineBreak level ++ closing

mutual

/-- A value whose first line stands at the given level. -/
def prettyAt (level : Nat) : Json → String
  | null => "null"
  | bool b => if b then "true" else "false"
  | number n => toString n
  | string s => quoted s
  | array items => block "[" "]" level (prettyItems (level + 1) items)
  | object entries => block "\x7b" "\x7d" level (prettyEntries (level + 1) entries)
termination_by structural j => j

def prettyItems (level : Nat) : List Json → List String
  | [] => []
  | j :: js => j.prettyAt level :: prettyItems level js
termination_by structural js => js

def prettyEntries (level : Nat) : List (String × Json) → List String
  | [] => []
  | (key, j) :: es => (quoted key ++ ": " ++ j.prettyAt level) :: prettyEntries level es
termination_by structural es => es

end

def pretty (j : Json) : String := j.prettyAt 0

/-! ### Taking values apart -/

/-- The value of a key; the last entry counts if the key repeats. -/
def get? (j : Json) (key : String) : Option Json :=
  match j with
  | object entries => (entries.reverse.find? fun e => e.1 == key).map (·.2)
  | _ => none

def asString? : Json → Option String
  | string s => some s
  | _ => none

def asBool? : Json → Option Bool
  | bool b => some b
  | _ => none

def asNat? : Json → Option Nat
  | number n => if 0 ≤ n then some n.toNat else none
  | _ => none

def asArray? : Json → Option (List Json)
  | array items => some items
  | _ => none

/-- Nothing for `null`, and otherwise what `decode` makes of the value. -/
def asOptional? {α : Type} (decode : Json → Option α) : Json → Option (Option α)
  | null => some none
  | j => (decode j).map some

def asList? {α : Type} (decode : Json → Option α) (j : Json) : Option (List α) :=
  j.asArray?.bind (·.mapM decode)

end Json

end FlowTyping
