import OperatingPoint.Device
import OperatingPoint.Partition

/-!
# Initial conditions

Values for unknowns by name, as a restart file or a netlist gives them.  They are kept in the order
of the names.  Resolving them against a device layer gives a partition of the unknowns and the
values in its order; a name that the device layer does not know, and two names for one unknown, are
refused.
-/

set_option autoImplicit false

namespace OperatingPoint

/-- Values by name, in the order of the names, each name once. -/
structure InitialConditions (α : Type) where
  entries : List (String × α) := []

namespace InitialConditions

variable {α δ : Type}

def length (c : InitialConditions α) : Nat := c.entries.length

def isEmpty (c : InitialConditions α) : Bool := c.entries.isEmpty

/-- Puts a value in the place of its name. -/
def insertInto (name : String) (value : α) : List (String × α) → List (String × α)
  | [] => [(name, value)]
  | entry :: rest =>
    if name < entry.1 then (name, value) :: entry :: rest
    else if name = entry.1 then (name, value) :: rest
    else entry :: insertInto name value rest

/-- Sets the value under a name. -/
def insert (c : InitialConditions α) (name : String) (value : α) : InitialConditions α :=
  ⟨insertInto name value c.entries⟩

/-- The listed values, a later one under the same name taking the place of an earlier one. -/
def ofList (pairs : List (String × α)) : InitialConditions α :=
  pairs.foldl (fun c pair ↦ c.insert pair.1 pair.2) {}

/-- The unknown of each name, in the order of the names. -/
def locate [Device δ α] (device : δ) (entries : List (String × α)) :
    Except Fault (List (Nat × α)) :=
  entries.mapM fun entry ↦
    match Device.unknown? device entry.1 with
    | some i => .ok (i, entry.2)
    | none => .error (.partition (.unknownNode entry.1))

/-- Puts a pair after those with no greater index. -/
def insertByIndex (pair : Nat × α) : List (Nat × α) → List (Nat × α)
  | [] => [pair]
  | head :: rest =>
    if head.1 ≤ pair.1 then head :: insertByIndex pair rest else pair :: head :: rest

/-- Whether two neighbours have the same index. -/
def hasTwin : List (Nat × α) → Bool
  | a :: b :: rest => a.1 == b.1 || hasTwin (b :: rest)
  | _ => false

/-- The unknowns that the conditions are on, and the values in their order. -/
def resolve [Device δ α] (c : InitialConditions α) (device : δ) :
    Except Fault (Partition × List α) := do
  let pairs ← locate device c.entries
  let pairs := pairs.foldl (fun sorted pair ↦ insertByIndex pair sorted) []
  if hasTwin pairs then .error (.partition .sharedUnknown)
  else
    let partition ← Partition.ofList (pairs.map Prod.fst) (Device.unknowns device)
    return (partition, pairs.map Prod.snd)

end InitialConditions

end OperatingPoint
