/-
Reading blanks, comments, strings, numbers and dates of a TOML document.

Each reader takes the characters that are left and gives what it has read together with the rest, or
nothing if the text is ill formed.  A number or a date is read as far as it goes; that nothing wrong
follows it is checked by whoever reads the next thing.
-/
import FlowTyping.Json.Reader
import FlowTyping.Toml.Value

namespace FlowTyping.Toml

/-! ### Blanks and comments -/

def isBlank (c : Char) : Bool := c = ' ' || c = '\t'

def skipBlanks (cs : List Char) : List Char := cs.dropWhile isBlank

/-- Characters that may stand in a text: no control characters but the tabulator. -/
def isPlain (c : Char) : Bool := c = '\t' || (32 ≤ c.toNat && c.toNat ≠ 127)

def skipPlain (cs : List Char) : List Char := cs.dropWhile isPlain

def skipComment : List Char → List Char
  | '#' :: cs => skipPlain cs
  | cs => cs

def newline? : List Char → Option (List Char)
  | '\n' :: cs => some cs
  | '\r' :: '\n' :: cs => some cs
  | _ => none

/-- The rest after blanks, a comment and the end of the line or of the text. -/
def endOfLine? (cs : List Char) : Option (List Char) :=
  match skipComment (skipBlanks cs) with
  | [] => some []
  | cs => newline? cs

def skipLines : Nat → List Char → List Char
  | 0, cs => cs
  | fuel + 1, cs =>
    let cs := skipComment (skipBlanks cs)
    match newline? cs with
    | some cs => skipLines fuel cs
    | none => cs

/-! ### Strings -/

def charOf? (n : Nat) : Option Char := if n.isValidChar then some (Char.ofNat n) else none

/-- The character that an escape with one letter stands for. -/
def escape? : Char → Option Char
  | 'b' => some (Char.ofNat 8)
  | 't' => some '\t'
  | 'n' => some '\n'
  | 'f' => some (Char.ofNat 12)
  | 'r' => some '\r'
  | '"' => some '"'
  | '\\' => some '\\'
  | _ => none

def hexChar4? (a b c d : Char) : Option Char := do charOf? (← Json.hexValue4? a b c d)

def hexChar8? (a b c d e f g h : Char) : Option Char := do
  let high ← Json.hexValue4? a b c d
  let low ← Json.hexValue4? e f g h
  charOf? (high * 65536 + low)

/-- A string up to its closing quote; `acc` has what was read, the last character first. -/
def basicString (acc : List Char) : List Char → Option (String × List Char)
  | [] => none
  | '"' :: cs => some (String.ofList acc.reverse, cs)
  | '\\' :: 'u' :: a :: b :: c :: d :: cs =>
    match hexChar4? a b c d with
    | some char => basicString (char :: acc) cs
    | none => none
  | '\\' :: 'U' :: a :: b :: c :: d :: e :: f :: g :: h :: cs =>
    match hexChar8? a b c d e f g h with
    | some char => basicString (char :: acc) cs
    | none => none
  | '\\' :: c :: cs =>
    match escape? c with
    | some char => basicString (char :: acc) cs
    | none => none
  | c :: cs => if isPlain c && c ≠ '\\' then basicString (c :: acc) cs else none

/-- A string without escapes up to its closing quote. -/
def literalString (acc : List Char) : List Char → Option (String × List Char)
  | [] => none
  | '\'' :: cs => some (String.ofList acc.reverse, cs)
  | c :: cs => if isPlain c then literalString (c :: acc) cs else none

/-- Whether a line ends after a backslash, with at most blanks between. -/
def isContinued (cs : List Char) : Bool := (newline? (skipBlanks cs)).isSome

def skipSpace (cs : List Char) : List Char :=
  cs.dropWhile fun c => isBlank c || c = '\n' || c = '\r'

/-- Quotes at the end of a string of several lines: three of them close it, and up to two before
them belong to it. -/
def closing? (quote : Char) (acc cs : List Char) : Option (String × List Char) :=
  let count := (cs.takeWhile (· = quote)).length
  if count < 3 then none
  else
    let inside := min (count - 3) 2
    some (String.ofList (List.replicate inside quote ++ acc).reverse, cs.drop (inside + 3))

/-- Whether every carriage return among some characters stands before a line feed. -/
def lineBreaksAreWhole : List Char → Bool
  | [] => true
  | '\r' :: '\n' :: cs => lineBreaksAreWhole cs
  | '\r' :: _ => false
  | _ :: cs => lineBreaksAreWhole cs

/-- A string of several lines with escapes, after its opening quotes. -/
def longBasicString : Nat → List Char → List Char → Option (String × List Char)
  | 0, _, _ => none
  | fuel + 1, acc, cs =>
    match cs with
    | [] => none
    | '"' :: rest =>
      match closing? '"' acc cs with
      | some read => some read
      | none => longBasicString fuel ('"' :: acc) rest
    | '\\' :: rest =>
      if isContinued rest then
        let blank := rest.takeWhile fun c => isBlank c || c = '\n' || c = '\r'
        if lineBreaksAreWhole blank then longBasicString fuel acc (skipSpace rest) else none
      else
        match rest with
        | 'u' :: a :: b :: c :: d :: rest => do
          longBasicString fuel ((← hexChar4? a b c d) :: acc) rest
        | 'U' :: a :: b :: c :: d :: e :: f :: g :: h :: rest => do
          longBasicString fuel ((← hexChar8? a b c d e f g h) :: acc) rest
        | c :: rest => do longBasicString fuel ((← escape? c) :: acc) rest
        | [] => none
    | c :: rest =>
      match newline? cs with
      | some rest => longBasicString fuel ('\n' :: acc) rest
      | none => if isPlain c then longBasicString fuel (c :: acc) rest else none

/-- A string of several lines without escapes, after its opening quotes. -/
def longLiteralString : Nat → List Char → List Char → Option (String × List Char)
  | 0, _, _ => none
  | fuel + 1, acc, cs =>
    match cs with
    | [] => none
    | '\'' :: rest =>
      match closing? '\'' acc cs with
      | some read => some read
      | none => longLiteralString fuel ('\'' :: acc) rest
    | c :: rest =>
      match newline? cs with
      | some rest => longLiteralString fuel ('\n' :: acc) rest
      | none => if isPlain c then longLiteralString fuel (c :: acc) rest else none

def skipNewline (cs : List Char) : List Char := (newline? cs).getD cs

/-- A string in any of its four forms. -/
def string? : List Char → Option (String × List Char)
  | '"' :: '"' :: '"' :: cs => longBasicString (cs.length + 1) [] (skipNewline cs)
  | '\'' :: '\'' :: '\'' :: cs => longLiteralString (cs.length + 1) [] (skipNewline cs)
  | '"' :: cs => basicString [] cs
  | '\'' :: cs => literalString [] cs
  | _ => none

/-! ### Numbers -/

/-- A run of digits with single underscores between them; `acc` has the digits, the last one
first. -/
def digits? (isDigit : Char → Bool) (acc : List Char) : List Char → Option (List Char × List Char)
  | '_' :: c :: cs => if isDigit c && !acc.isEmpty then digits? isDigit (c :: acc) cs else none
  | c :: cs =>
    if isDigit c then digits? isDigit (c :: acc) cs
    else if acc.isEmpty || c = '_' then none
    else some (acc.reverse, c :: cs)
  | [] => if acc.isEmpty then none else some (acc.reverse, [])

def valueOf (base : Nat) (digits : List Char) : Nat :=
  digits.foldl (fun n c => n * base + (Json.hexValue? c).getD 0) 0

def isOctal (c : Char) : Bool := c.isDigit && c.toNat < 56

def isBinary (c : Char) : Bool := c = '0' || c = '1'

def isHexadecimal (c : Char) : Bool := (Json.hexValue? c).isSome

def integer? (n : Int) : Option Value :=
  if -9223372036854775808 ≤ n ∧ n ≤ 9223372036854775807 then some (.integer n) else none

/-- A number in another base, after its mark. -/
def based? (base : Nat) (isDigit : Char → Bool) (cs : List Char) : Option (Value × List Char) := do
  let (digits, cs) ← digits? isDigit [] cs
  return (← integer? (valueOf base digits), cs)

def sign : List Char → Bool × List Char
  | '-' :: cs => (true, cs)
  | '+' :: cs => (false, cs)
  | cs => (false, cs)

/-- Decimal digits; a zero at the start stands alone. -/
def decimal? : List Char → Option (List Char × List Char)
  | '0' :: cs => some (['0'], cs)
  | cs => digits? (·.isDigit) [] cs

def fraction? : List Char → Option (Option (List Char) × List Char)
  | '.' :: cs => (digits? (·.isDigit) [] cs).map fun (ds, cs) => (some ds, cs)
  | cs => some (none, cs)

def exponentDigits? (cs : List Char) : Option (Option Int × List Char) :=
  let (negative, cs) := sign cs
  (digits? (·.isDigit) [] cs).map fun (ds, cs) =>
    let e : Int := valueOf 10 ds
    (some (if negative then -e else e), cs)

def exponent? : List Char → Option (Option Int × List Char)
  | 'e' :: cs => exponentDigits? cs
  | 'E' :: cs => exponentDigits? cs
  | cs => some (none, cs)

/-- Whether a positive number with these digits and exponent is too large for a double. -/
def overflows (digits : List Char) (exponent : Int) : Bool :=
  let significant := digits.dropWhile (· = '0')
  let magnitude := (significant.length : Int) + exponent
  if significant.isEmpty || magnitude ≤ 308 then false
  else if 309 < magnitude then true
  else
    let value := valueOf 10 significant
    let limit := Nat.pow 2 1024 - Nat.pow 2 970
    if 0 ≤ exponent then decide (limit ≤ value * Nat.pow 10 exponent.toNat)
    else decide (limit * Nat.pow 10 (-exponent).toNat ≤ value)

def number? (cs : List Char) : Option (Value × List Char) := do
  let (negative, rest) := sign cs
  match rest with
  | 'i' :: 'n' :: 'f' :: rest => return (.float "inf", rest)
  | 'n' :: 'a' :: 'n' :: rest => return (.float "nan", rest)
  | _ =>
    let (whole, rest) ← decimal? rest
    let (fraction, rest) ← fraction? rest
    let (exponent, rest) ← exponent? rest
    if fraction.isNone && exponent.isNone then
      let n : Int := valueOf 10 whole
      return (← integer? (if negative then -n else n), rest)
    else
      let fraction := fraction.getD []
      let scale := exponent.getD 0 - fraction.length
      if !negative && overflows (whole ++ fraction) scale then none
      else return (.float (String.ofList (cs.take (cs.length - rest.length))), rest)

/-! ### Dates and times -/

def digitsValue? (cs : List Char) : Option Nat :=
  if cs.all Char.isDigit then some (valueOf 10 cs) else none

def isLeap (year : Nat) : Bool := (year % 4 = 0 && year % 100 ≠ 0) || year % 400 = 0

def daysOf (year month : Nat) : Nat :=
  if month = 2 then if isLeap year then 29 else 28
  else if month = 4 || month = 6 || month = 9 || month = 11 then 30
  else 31

/-- The rest after a valid month and day of a year. -/
def monthAndDay? (year : Nat) : List Char → Option (List Char)
  | a :: b :: '-' :: c :: d :: cs => do
    let month ← digitsValue? [a, b]
    let day ← digitsValue? [c, d]
    if 1 ≤ month ∧ month ≤ 12 ∧ 1 ≤ day ∧ day ≤ daysOf year month then some cs else none
  | _ => none

/-- The rest after a fraction of a second, if there is one. -/
def secondFraction? : List Char → Option (List Char)
  | '.' :: c :: cs => if c.isDigit then some (cs.dropWhile Char.isDigit) else none
  | '.' :: [] => none
  | cs => some cs

/-- The rest after a valid time whose hour stands before the given characters. -/
def minutesAndSeconds? (hour : Nat) : List Char → Option (List Char)
  | a :: b :: ':' :: c :: d :: cs => do
    let minute ← digitsValue? [a, b]
    let second ← digitsValue? [c, d]
    if hour ≤ 23 ∧ minute ≤ 59 ∧ second ≤ 60 then secondFraction? cs else none
  | _ => none

/-- The rest after a valid distance from universal time. -/
def offset? : List Char → Option (List Char)
  | a :: b :: ':' :: c :: d :: cs => do
    let hour ← digitsValue? [a, b]
    let minute ← digitsValue? [c, d]
    if hour ≤ 23 ∧ minute ≤ 59 then some cs else none
  | _ => none

def zone? : List Char → Option (List Char)
  | 'Z' :: cs => some cs
  | 'z' :: cs => some cs
  | '+' :: cs => offset? cs
  | '-' :: cs => offset? cs
  | cs => some cs

/-- The rest after the time of a date, if there is one. -/
def timeOfDate? (cs : List Char) : Option (List Char) :=
  match cs with
  | mark :: a :: b :: ':' :: rest =>
    if (mark = 'T' || mark = 't' || mark = ' ') && a.isDigit && b.isDigit then
      (minutesAndSeconds? (valueOf 10 [a, b]) rest).bind zone?
    else some cs
  | _ => some cs

/-- The rest after a date or time, or nothing at the outset if the text is no date or time. -/
def dateTime? : List Char → Option (Option (List Char))
  | a :: b :: c :: d :: '-' :: cs =>
    match digitsValue? [a, b, c, d] with
    | some year => some ((monthAndDay? year cs).bind timeOfDate?)
    | none => none
  | a :: b :: ':' :: cs =>
    match digitsValue? [a, b] with
    | some hour => some (minutesAndSeconds? hour cs)
    | none => none
  | _ => none

def numeric? (cs : List Char) : Option (Value × List Char) :=
  match dateTime? cs with
  | some (some rest) => some (.dateTime (String.ofList (cs.take (cs.length - rest.length))), rest)
  | some none => none
  | none =>
    match cs with
    | '0' :: 'x' :: rest => based? 16 isHexadecimal rest
    | '0' :: 'o' :: rest => based? 8 isOctal rest
    | '0' :: 'b' :: rest => based? 2 isBinary rest
    | _ => number? cs

end FlowTyping.Toml
