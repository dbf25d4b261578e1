import OperatingPoint.Scalar

/-!
# Documents

A document is what a configuration file holds: nothing, a truth value, a number with or without a
fraction, a text, a list or a record.  The readers here say what a document has to look like to
stand for a simple value.

A number with a fraction never stands for a count, while a whole number does stand for a scalar.
Fields of a record may come in any order, may be missing, and may be more than are known.  A record
may also be given as the list of its first fields in their order.  A choice is given by its name, or
as a record with the name as its only field and the details under it.
-/

set_option autoImplicit false

namespace OperatingPoint

/-- A configuration document with fractions in `α`. -/
inductive Document (α : Type) where
  | null
  | bool (value : Bool)
  /-- A number without a fraction. -/
  | whole (value : Int)
  /-- A number with a fraction. -/
  | fraction (value : α)
  | text (value : String)
  | list (items : List (Document α))
  | record (fields : List (String × Document α))

namespace Document

variable {α β : Type}

def toBool? : Document α → Option Bool
  | bool b => some b
  | _ => none

def toText? : Document α → Option String
  | text s => some s
  | _ => none

/-- A whole number between two bounds, both included. -/
def toWhole? (lo hi : Int) : Document α → Option Int
  | whole z => if lo ≤ z ∧ z ≤ hi then some z else none
  | _ => none

/-- A count: a whole number from zero on, in 64 bits. -/
def toCount? (d : Document α) : Option Nat := (d.toWhole? 0 (UInt64.size - 1)).map Int.toNat

/-- A result code: a whole number in 32 bits. -/
def toCode? (d : Document α) : Option Int :=
  d.toWhole? Int32.minValue.toInt Int32.maxValue.toInt

def toScalar? [Scalar α] : Document α → Option α
  | whole z => some (if 0 ≤ z then (z.toNat : α) else -((-z).toNat : α))
  | fraction x => some x
  | _ => none

/-- Nothing, or a value. -/
def toOption? (read : Document α → Option β) : Document α → Option (Option β)
  | null => some none
  | d => (read d).map some

def toList? (read : Document α → Option β) : Document α → Option (List β)
  | list items => items.mapM read
  | _ => none

/-- A list of exactly two. -/
def toPair? (read : Document α → Option β) : Document α → Option (β × β)
  | list [a, b] => do return (← read a, ← read b)
  | _ => none

/-- The last field with the given name. -/
def lookup (name : String) (fields : List (String × Document α)) : Option (Document α) :=
  fields.reverse.lookup name

/-- A choice: the name, and the details if there are any. -/
def toChoice? : Document α → Option (String × Option (Document α))
  | text name => some (name, none)
  | record [(name, details)] => some (name, some details)
  | _ => none

/-- A choice without details, from a list of names.  Details, if given, are null. -/
def toName? (names : List (String × β)) (d : Document α) : Option β := do
  let (name, details) ← d.toChoice?
  match details with
  | none | some null => names.lookup name
  | _ => none

/-- The fields of a record of at most `arity` known ones, as a function of their place and name.
Nothing comes of a document that is no such record. -/
def fields? (arity : Nat) : Document α → Option (Nat → String → Option (Document α))
  | record fields => some fun _ name ↦ lookup name fields
  | list items => if items.length ≤ arity then some fun place _ ↦ items[place]? else none
  | _ => none

/-- The value of a field that may be missing. -/
def fieldOr (field : Option (Document α)) (read : Document α → Option β) (standard : β) :
    Option β :=
  match field with
  | none => some standard
  | some d => read d

end Document

end OperatingPoint
