import OperatingPoint.Analysis

/-!
# Descriptions

One-line texts of a store and of an analysis, for logs and for comparing two of them by eye.  A
record is its name and its fields between braces; a value that may be missing says which it is; a
choice goes by its name with every word of it capitalised.
-/

set_option autoImplicit false

namespace OperatingPoint

namespace Description

/-- A record with named fields. -/
def record (name : String) (fields : List (String × String)) : String :=
  name ++ " \x7b " ++ ", ".intercalate (fields.map fun f ↦ f.1 ++ ": " ++ f.2) ++ " \x7d"

/-- A value that may be missing. -/
def option : Option String → String
  | none => "None"
  | some text => "Some(" ++ text ++ ")"

/-- A list. -/
def list (items : List String) : String := "[" ++ ", ".intercalate items ++ "]"

/-- A name of words between underscores, with every word capitalised. -/
def capitalised (name : String) : String := String.join ((name.splitOn "_").map String.capitalize)

/-- An identity. -/
def identity (id : OwnerId) : String := s!"OwnerId({id})"

end Description

open Description

/-- A store as a line of text: its size and who owns what. -/
def Store.describe {δ α : Type} [DirectSolver α] {n : Nat} (s : Store δ α n) : String :=
  record "SharedNumericSystem" [
    ("n", toString n),
    ("owners", list (Quantity.all.map fun q ↦ option ((s.owners.of q).map identity))),
    ("factor_owner", option (s.factorOwner.map identity)),
    ("comm", s.communicator.name)]

/-- A session as a line of text. -/
def Session.describe (s : Session) : String :=
  record "Session" [
    ("mode", capitalised s.mode.name),
    ("built_mode", option (s.builtMode.map fun m ↦ capitalised m.name)),
    ("continuation_params_read", toString s.contextRead),
    ("first_solve_complete", toString s.firstSolveComplete),
    ("last_solve_type", option (s.lastSolveType.map fun t ↦ capitalised t.name)),
    ("rebuilds", toString s.rebuilds)]

/-- An analysis as a line of text: its session and the code of its last solve. -/
def Analysis.describe {δ α : Type} [LE α] [DirectSolver α] (a : Analysis δ α) : String :=
  record "SolverOrchestrator" [
    ("session", a.session.describe),
    ("last_code", toString a.lastCode)]

end OperatingPoint
