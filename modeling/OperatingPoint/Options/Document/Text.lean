import OperatingPoint.Options.Document

/-!
# The text form of documents

A document is written as nested lists between brackets and records between braces.  Texts stand
between quotes, with escapes for what cannot stand there itself.  Blanks between the parts mean
nothing.

A number is whole if it is written without a point and without an exponent; minus zero, which no
whole number is, is a fraction however it is written.  If a record names a field twice the last one
counts.
-/

set_option autoImplicit false

namespace OperatingPoint

namespace Document

variable {α β : Type}

/-! ## Reading -/

def isBlank (c : Char) : Bool := c == ' ' || c == '\t' || c == '\n' || c == '\r'

def skipBlank (cs : List Char) : List Char := cs.dropWhile isBlank

/-- The number that decimal digits stand for. -/
def digitsValue (cs : List Char) : Nat := cs.foldl (fun k c ↦ k * 10 + (c.toNat - 48)) 0

/-- Splits off the digits that a list of characters begins with. -/
def spanDigits (cs : List Char) : List Char × List Char := cs.span Char.isDigit

/-- The exponent of a number, from what is left of it. -/
def exponentOf : List Char → Int
  | _ :: '-' :: digits => -(digitsValue digits : Int)
  | _ :: '+' :: digits => digitsValue digits
  | _ :: digits => digitsValue digits
  | [] => 0

/-- What the characters of a number stand for. -/
def ofNumeral [Scalar α] (cs : List Char) : Document α :=
  let negative := cs.head? == some '-'
  let (units, rest) := spanDigits (if negative then cs.tail else cs)
  if rest.isEmpty && !(negative && digitsValue units == 0) then
    .whole (if negative then -(digitsValue units : Int) else digitsValue units)
  else
    let (places, rest) := if rest.head? == some '.' then spanDigits rest.tail else ([], rest)
    let exponent := exponentOf rest - places.length
    let size : α :=
      OfScientific.ofScientific (digitsValue (units ++ places)) (decide (exponent < 0))
        exponent.natAbs
    .fraction (if negative then -size else size)

def isNumeral (c : Char) : Bool :=
  c.isDigit || c == '-' || c == '+' || c == '.' || c == 'e' || c == 'E'

/-- The value of a hexadecimal digit of either case. -/
def hexValue (c : Char) : Nat :=
  if c.isDigit then c.toNat - 48 else if 'a' ≤ c then c.toNat - 87 else c.toNat - 55

/-- The character that a letter after a backslash stands for. -/
def escaped : Char → Char
  | 'n' => '\n'
  | 't' => '\t'
  | 'r' => '\r'
  | 'b' => '\x08'
  | 'f' => '\x0c'
  | c => c

/-- Reads a text after its opening quote, as code units, an escape being at most one of them. -/
def readUnits : (fuel : Nat) → List Char → Option (List Nat × List Char)
  | _, '"' :: rest => some ([], rest)
  | fuel + 1, '\\' :: 'u' :: a :: b :: c :: d :: rest => do
    let (units, rest) ← readUnits fuel rest
    return ((((hexValue a * 16 + hexValue b) * 16 + hexValue c) * 16 + hexValue d) :: units, rest)
  | fuel + 1, '\\' :: c :: rest => do
    let (units, rest) ← readUnits fuel rest
    return ((escaped c).toNat :: units, rest)
  | fuel + 1, c :: rest => do
    let (units, rest) ← readUnits fuel rest
    return (c.toNat :: units, rest)
  | _, _ => none

/-- The characters of code units.  A high and a low surrogate together are one character. -/
def joinUnits : List Nat → List Char
  | high :: low :: rest =>
    if 0xD800 ≤ high ∧ high < 0xDC00 ∧ 0xDC00 ≤ low ∧ low < 0xE000 then
      Char.ofNat (0x10000 + (high - 0xD800) * 0x400 + (low - 0xDC00)) :: joinUnits rest
    else Char.ofNat high :: joinUnits (low :: rest)
  | [unit] => [Char.ofNat unit]
  | [] => []

/-- Reads a text after its opening quote. -/
def readText (cs : List Char) : Option (String × List Char) := do
  let (units, rest) ← readUnits cs.length cs
  return (String.ofList (joinUnits units), rest)

mutual

/-- Reads a document.  Every call in a chain of calls takes one unit of fuel, and every other one
at least a character. -/
def readValue [Scalar α] : (fuel : Nat) → List Char → Option (Document α × List Char)
  | 0, _ => none
  | fuel + 1, cs =>
    match skipBlank cs with
    | 'n' :: 'u' :: 'l' :: 'l' :: rest => some (.null, rest)
    | 't' :: 'r' :: 'u' :: 'e' :: rest => some (.bool true, rest)
    | 'f' :: 'a' :: 'l' :: 's' :: 'e' :: rest => some (.bool false, rest)
    | '"' :: rest => (readText rest).map fun r ↦ (.text r.1, r.2)
    | '[' :: rest =>
      match skipBlank rest with
      | ']' :: rest => some (.list [], rest)
      | rest => (readItems fuel rest).map fun r ↦ (.list r.1, r.2)
    | '\x7b' :: rest =>
      match skipBlank rest with
      | '\x7d' :: rest => some (.record [], rest)
      | rest => (readFields fuel rest).map fun r ↦ (.record r.1, r.2)
    | cs =>
      let (numeral, rest) := cs.span isNumeral
      if numeral.isEmpty then none else some (ofNumeral numeral, rest)

/-- Reads the items of a list, of which there is at least one, and its end. -/
def readItems [Scalar α] : (fuel : Nat) → List Char → Option (List (Document α) × List Char)
  | 0, _ => none
  | fuel + 1, cs => do
    let (item, rest) ← readValue fuel cs
    match skipBlank rest with
    | ',' :: rest =>
      let (items, rest) ← readItems fuel rest
      return (item :: items, rest)
    | ']' :: rest => return ([item], rest)
    | _ => none

/-- Reads the fields of a record, of which there is at least one, and its end. -/
def readFields [Scalar α] :
    (fuel : Nat) → List Char → Option (List (String × Document α) × List Char)
  | 0, _ => none
  | fuel + 1, cs =>
    match skipBlank cs with
    | '"' :: rest => do
      let (name, rest) ← readText rest
      match skipBlank rest with
      | ':' :: rest =>
        let (item, rest) ← readValue fuel rest
        match skipBlank rest with
        | ',' :: rest =>
          let (fields, rest) ← readFields fuel rest
          if fields.any fun f ↦ f.1 == name then return (fields, rest)
          else return ((name, item) :: fields, rest)
        | '\x7d' :: rest => return ([(name, item)], rest)
        | _ => none
      | _ => none
    | _ => none

end

/-- The document that a text stands for, with nothing but blanks after it. -/
def ofString? [Scalar α] (s : String) : Option (Document α) :=
  match readValue (2 * s.length + 2) s.toList with
  | some (d, rest) => if (skipBlank rest).isEmpty then some d else none
  | none => none

/-! ## Writing -/

/-- The escape for a character that cannot stand in a text itself. -/
def escape (c : Char) : List Char :=
  if c == '"' || c == '\\' then ['\\', c]
  else if c.toNat < 32 then
    ['\\', 'u', '0', '0', Nat.digitChar (c.toNat / 16), Nat.digitChar (c.toNat % 16)]
  else [c]

/-- A text between quotes. -/
def quote (s : String) : String := "\"" ++ String.ofList (s.toList.flatMap escape) ++ "\""

mutual

/-- The text of a document, given that of a fraction. -/
def render (number : α → String) : Document α → String
  | null => "null"
  | bool b => toString b
  | whole z => toString z
  | fraction x => number x
  | text s => quote s
  | list items => "[" ++ ",".intercalate (renderItems number items) ++ "]"
  | record fields => "\x7b" ++ ",".intercalate (renderFields number fields) ++ "\x7d"

/-- The texts of the items of a list. -/
def renderItems (number : α → String) : List (Document α) → List String
  | [] => []
  | d :: rest => d.render number :: renderItems number rest

/-- The texts of the fields of a record. -/
def renderFields (number : α → String) : List (String × Document α) → List String
  | [] => []
  | (name, d) :: rest => (quote name ++ ":" ++ d.render number) :: renderFields number rest

end

mutual

/-- A document with its fractions changed. -/
def map (change : α → β) : Document α → Document β
  | null => null
  | bool b => bool b
  | whole z => whole z
  | fraction x => fraction (change x)
  | text s => text s
  | list items => list (mapItems change items)
  | record fields => record (mapFields change fields)

/-- The items of a list with their fractions changed. -/
def mapItems (change : α → β) : List (Document α) → List (Document β)
  | [] => []
  | d :: rest => d.map change :: mapItems change rest

/-- The fields of a record with their fractions changed. -/
def mapFields (change : α → β) : List (String × Document α) → List (String × Document β)
  | [] => []
  | (name, d) :: rest => (name, d.map change) :: mapFields change rest

end

end Document

end OperatingPoint
